import ShiftReduce.Grammar.Basic
import ShiftReduce.Text.Blank

/-!
# Production lines

The lines of a grammar text. A line that is neither blank nor a comment holds
one arrow, a single symbol on the left of it and alternatives on the right,
which are divided by bars. An alternative without symbols, or with `ε` alone,
is empty.
-/

namespace ShiftReduce

/-- Why a line is no production line. -/
inductive LineFault
  | missingArrow
  | repeatedArrow
  | emptyLeft
  | severalLeft
  | reservedLeft
  | epsilonAmongOthers
  | endMarkerUsed
  deriving DecidableEq, Repr

def LineFault.reason : LineFault → String
  | .missingArrow => "missing production arrow `->'"
  | .repeatedArrow => "multiple production arrows in a line"
  | .emptyLeft => "empty left-hand side"
  | .severalLeft => "left-hand side must be a single symbol"
  | .reservedLeft => "reserved symbol in the left-hand side"
  | .epsilonAmongOthers => "epsilon must be the only symbol of an alternative"
  | .endMarkerUsed => "the end-of-input marker `$' cannot be used"

/-- A line that is no production line: its number, its text without the blanks
around it, and what is wrong with it. -/
structure LineError where
  number : Nat
  text : String
  fault : LineFault
  deriving DecidableEq, Repr

def LineError.message (e : LineError) : String :=
  "Syntax error at line " ++ toString e.number ++ ": " ++ e.fault.reason ++ " (`" ++ e.text ++ "')"

structure ProductionLine where
  number : Nat
  left : String
  alternatives : List (List String)
  deriving DecidableEq, Repr

namespace ProductionLine

/-- The texts before and after the first arrow. -/
def splitArrow : List Char → Option (List Char × List Char)
  | '-' :: '>' :: rest => some ([], rest)
  | c :: rest => (splitArrow rest).map fun parts => (c :: parts.1, parts.2)
  | [] => none

def names (text : List Char) : List String := (Text.words text).map String.ofList

def readLeft (text : List Char) : Except LineFault String :=
  match names text with
  | [] => .error .emptyLeft
  | [name] =>
    if name = endMarkerName ∨ name = epsilonName then .error .reservedLeft else .ok name
  | _ :: _ :: _ => .error .severalLeft

def readAlternative (text : List Char) : Except LineFault (List String) :=
  let symbols := names text
  if symbols = [epsilonName] then .ok []
  else if epsilonName ∈ symbols then .error .epsilonAmongOthers
  else if endMarkerName ∈ symbols then .error .endMarkerUsed
  else .ok symbols

def read (number : Nat) (text : List Char) : Except LineFault ProductionLine :=
  match splitArrow text with
  | none => .error .missingArrow
  | some (left, right) =>
    if (splitArrow right).isSome then .error .repeatedArrow
    else do
      let left ← readLeft left
      let alternatives ← (right.splitOn '|').mapM readAlternative
      .ok ⟨number, left, alternatives⟩

/-- Whether a line without blanks at its ends is left out. -/
def isSkipped (text : List Char) : Bool := text.isEmpty || text.head? == some '#'

/-- The lines that are not left out, with their numbers, which count from `1`,
and without the blanks at their ends. -/
def written (source : String) : List (List Char × Nat) :=
  (((Text.lines source.toList).map Text.trim).zipIdx 1).filter fun line => !isSkipped line.1

/-- Reads the production lines of a text, up to the first that is wrong. -/
def readAll (source : String) : Except LineError (List ProductionLine) :=
  (written source).mapM fun line =>
    (read line.2 line.1).mapError fun fault => ⟨line.2, String.ofList line.1, fault⟩

end ProductionLine

end ShiftReduce
