import ShiftReduce.Machine.Basic
import ShiftReduce.OrdSet.Basic
import ShiftReduce.Text.Inspect

/-!
# Runs in text

Faults as messages, and the outcome of a run by its structure.
-/

namespace ShiftReduce

open Text

/-! ## Faults -/

structure IdFormat where
  state : Nat → String
  nonterminal : Nat → String
  rule : Nat → String

def IdFormat.plain : IdFormat := ⟨toString, toString, toString⟩

/-- Numbers are written with what they number. -/
def IdFormat.labelled : IdFormat where
  state id := Inspect.record "StateID" [("raw", toString id)]
  nonterminal id := Inspect.record "NonterminalID" [("raw", toString id)]
  rule id := Inspect.record "RuleID" [("raw", toString id)]

/-- A set of terminals, each written with what it numbers. -/
def inspectTerminals (terminals : OrdSet Nat) : String :=
  Inspect.braced (terminals.toList.map fun t => Inspect.record "TerminalID" [("raw", toString t)])

def Fault.message (format : IdFormat) : Fault Nat Nat Nat → String
  | .undefinedRule rule => "reduce action refers to undefined production " ++ format.rule rule
  | .missingGoto state nonterminal =>
    "missing GOTO entry for state " ++ format.state state ++ " and nonterminal " ++
      format.nonterminal nonterminal
  | .shiftAtEnd => "shift action on the end of input"
  | .stackUnderflow => "parser stack underflow"

/-! ## Structure -/

section Structure

variable {κ : Type} (tokenText : κ → String)

def StackSymbol.inspect : StackSymbol κ Nat → String
  | .token t => Inspect.applied "T" (tokenText t)
  | .nonterminal n => Inspect.applied "N" (toString n)

def StackItem.inspect : StackItem Nat κ Nat → String
  | .state s => Inspect.applied "State" (toString s)
  | .symbol s => Inspect.applied "Symbol" (s.inspect tokenText)

def inspectAction : Option (Action Nat Nat) → String
  | some (.shift target) => Inspect.applied "Shift" (toString target)
  | some (.reduce rule) => Inspect.applied "Reduce" (toString rule)
  | some .accept => "Accept"
  | none => "Reject"

def Step.inspect (step : Step Nat Nat κ Nat) : String :=
  Inspect.record "Step" [
    ("stack", Inspect.sequence (step.stack.map fun item => item.inspect tokenText)),
    ("remaining", Inspect.sequence (step.remaining.map tokenText)),
    ("action", inspectAction step.action)]

def Rejection.inspect (rejection : Rejection Nat Nat κ) : String :=
  Inspect.record "Rejection" [
    ("state", toString rejection.state),
    ("position", toString rejection.position),
    ("lookahead", Inspect.optional (rejection.lookahead.map tokenText)),
    ("expected", Inspect.sequence (rejection.expected.map fun t =>
      Inspect.optional (t.map toString)))]

def Verdict.inspect : Verdict Nat Nat κ → String
  | .accepted => "Accepted"
  | .rejected rejection => Inspect.applied "Rejected" (rejection.inspect tokenText)

def inspectOutcome (verdict : Verdict Nat Nat κ) (trace : List (Step Nat Nat κ Nat)) : String :=
  Inspect.record "ParseOutcome" [
    ("result", verdict.inspect tokenText),
    ("trace", Inspect.sequence (trace.map fun step => step.inspect tokenText))]

/-- A machine in a configuration, over a table that is written as
`tableText`. -/
def Configuration.inspectMachine (tableText : String) (c : Configuration Nat κ Nat) : String :=
  Inspect.openRecord "ParseEngine" [
    ("definition", tableText),
    ("states_stack", Inspect.sequence (c.states.reverse.map toString)),
    ("symbols_stack",
      Inspect.sequence (c.symbols.reverse.map fun symbol => symbol.inspect tokenText))]

end Structure

end ShiftReduce
