/-!
# Values shown by their structure

The text of a value that names its constructor and its fields. Each function
puts the texts of the parts into the brackets of one kind of value.
-/

namespace ShiftReduce.Text.Inspect

/-- A record, field by field: a name, then the fields in braces. -/
def record (name : String) (fields : List (String × String)) : String :=
  name ++ " \x7b " ++ ", ".intercalate (fields.map fun f => f.1 ++ ": " ++ f.2) ++ " \x7d"

/-- A record some of whose fields are not shown. -/
def openRecord (name : String) (fields : List (String × String)) : String :=
  name ++ " \x7b " ++ String.join (fields.map fun f => f.1 ++ ": " ++ f.2 ++ ", ") ++ ".. \x7d"

/-- A constructor applied to one value. -/
def applied (name value : String) : String := name ++ "(" ++ value ++ ")"

def sequence (values : List String) : String := "[" ++ ", ".intercalate values ++ "]"

def braced (values : List String) : String := "\x7b" ++ ", ".intercalate values ++ "\x7d"

/-- A value that may be absent. -/
def optional : Option String → String
  | none => "None"
  | some value => applied "Some" value

end ShiftReduce.Text.Inspect
