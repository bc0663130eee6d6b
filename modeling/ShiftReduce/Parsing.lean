import ShiftReduce.Machine.Basic
import ShiftReduce.Table.Basic
import ShiftReduce.Text.Blank

/-!
# Parsing text

The words of an input are its tokens. A generated table is looked up by the
machine with the end marker as the end of the input, which no token stands for.
-/

namespace ShiftReduce

/-- A word of the input, with the terminal that it names, if it names one. -/
structure InputToken where
  text : String
  terminal? : Option Terminal
  deriving DecidableEq, Repr

instance : Token InputToken Terminal := ⟨InputToken.terminal?⟩

def Grammar.tokenize (g : Grammar) (input : String) : List InputToken :=
  (Text.words input.toList).map fun word =>
    let text := String.ofList word
    ⟨text, g.terminalNamed? text⟩

namespace ParseTable

/-- The table as the machine looks it up. -/
def lookups (table : ParseTable) : LookupTable StateId Terminal Nonterminal RuleId where
  initial := initialState
  action state lookahead := table.action? state (lookahead.getD endMarker)
  goto state n := table.goto? state n
  production rule := table.production? rule
  expected state := (table.expected state).map fun t => if t = endMarker then none else some t

/-- Parses an input, looking up no more than `lookups` actions. -/
def parse (table : ParseTable) (g : Grammar) (input : String) (lookups : Nat) :
    Ending StateId Terminal Nonterminal RuleId InputToken :=
  table.lookups.run (g.tokenize input) lookups

end ParseTable

end ShiftReduce
