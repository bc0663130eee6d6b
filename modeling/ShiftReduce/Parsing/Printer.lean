import ShiftReduce.Parsing
import ShiftReduce.Grammar.Printer

/-!
# Traces in text

A trace is a table of three columns: the stack, the input that is not read yet,
and the action. The first two columns are as many characters wide as the
longest of their texts has bytes.
-/

namespace ShiftReduce

/-- The cells of one line of a trace. -/
structure TraceLine where
  stack : String
  input : String
  action : String

/-- A text filled up with spaces to a number of characters. -/
def padded (text : String) (width : Nat) : String :=
  text ++ String.ofList (List.replicate (width - text.length) ' ')

/-- The width of a column, which is that of its longest text in bytes. -/
def columnWidth (texts : List String) : Nat :=
  texts.foldl (fun width text => max width text.utf8ByteSize) 5

/-- A line whose first two cells are filled up. -/
def TraceLine.text (stackWidth inputWidth : Nat) (line : TraceLine) : String :=
  padded line.stack stackWidth ++ " | " ++ padded line.input inputWidth ++ " | " ++ line.action

namespace Grammar

variable (g : Grammar)

def stackItemText? : StackItem StateId InputToken Nonterminal → Option String
  | .state state => some (toString state)
  | .symbol (.token token) => some token.text
  | .symbol (.nonterminal n) => g.nonterminals[n]?

def stepActionText? : Option TableAction → Option String
  | some (.shift target) => some ("shift " ++ toString target)
  | some (.reduce rule) => do
    let rule ← g.rules[rule]?
    let text ← rule.text? g
    return "reduce " ++ text
  | some .accept => some "accept"
  | none => some "reject"

def traceLine? (step : Step StateId RuleId InputToken Nonterminal) : Option TraceLine := do
  let stack ← step.stack.mapM g.stackItemText?
  let action ← g.stepActionText? step.action
  let input := step.remaining.map (fun token => token.text) ++ [endMarkerName]
  return ⟨" ".intercalate stack, " ".intercalate input, action⟩

def verdictText? : Verdict StateId Terminal InputToken → Option String
  | .accepted => some "=> accepted"
  | .rejected rejection => do
    let expected ← g.terminalNames? (rejection.expected.map fun t => t.getD endMarker)
    let place :=
      match rejection.lookahead with
      | some token => "at token " ++ toString (rejection.position + 1) ++ " (`" ++ token.text ++ "')"
      | none => "at the end of input"
    return "=> rejected " ++ place ++ "; expected:" ++ String.join (expected.map fun t => " " ++ t)

def traceText? (verdict : Verdict StateId Terminal InputToken)
    (trace : List (Step StateId RuleId InputToken Nonterminal)) : Option String := do
  let lines ← trace.mapM g.traceLine?
  let last ← g.verdictText? verdict
  let stackWidth := columnWidth (lines.map fun line => line.stack)
  let inputWidth := columnWidth (lines.map fun line => line.input)
  let table := ⟨"stack", "input", "action"⟩ :: lines
  return unlines (table.map (fun line => line.text stackWidth inputWidth) ++ [last])

end Grammar

end ShiftReduce
