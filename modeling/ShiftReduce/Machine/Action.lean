/-!
# Actions of a shift-reduce parser
-/

namespace ShiftReduce

/-- What a parser does in a state at a lookahead, given the types of states and
of rules. -/
inductive Action (σ ρ : Type)
  /-- Reads the next token and goes to a state. -/
  | shift (target : σ)
  /-- Replaces the right-hand side of a rule by its left-hand side. -/
  | reduce (rule : ρ)
  | accept
  deriving DecidableEq, Repr

def Action.isShift {σ ρ : Type} : Action σ ρ → Bool
  | .shift _ => true
  | _ => false

end ShiftReduce
