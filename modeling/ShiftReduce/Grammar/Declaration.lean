import ShiftReduce.Grammar.Draft

/-!
# Declarations one by one

A declaration as a value, and courses of declarations that go on after a
failure.
-/

namespace ShiftReduce

/-! ## Declarations -/

inductive Declaration
  | terminal (name : String)
  | nonterminal (name : String)
  | rule (left : Nonterminal) (right : List Symbol)
  | start (n : Nonterminal)
  deriving DecidableEq, Repr

/-- Performs a declaration. The answer is the number of what has been declared;
the start symbol is not given a new one. -/
def Declaration.perform : Declaration → Definition (Option Nat)
  | .terminal name => some <$> Draft.terminal name
  | .nonterminal name => some <$> Draft.nonterminal name
  | .rule left right => some <$> Draft.rule left right
  | .start n => (fun _ => none) <$> Draft.startSymbol n

/-! ## Going on after failures -/

/-- Performs courses of declarations in turn, whether or not the ones before
have failed. -/
def Draft.attempt {α : Type} (d : Draft) :
    List (Definition α) → List (Except DefinitionError α) × Draft
  | [] => ([], d)
  | course :: rest =>
    let performed := course d
    let others := performed.2.attempt rest
    (performed.1 :: others.1, others.2)

/-- Later courses go on with the draft that earlier ones end with. -/
theorem Draft.attempt_append {α : Type} (d : Draft) (earlier later : List (Definition α)) :
    d.attempt (earlier ++ later) =
      ((d.attempt earlier).1 ++ ((d.attempt earlier).2.attempt later).1,
        ((d.attempt earlier).2.attempt later).2) := by
  induction earlier generalizing d with
  | nil => rfl
  | cons course rest ih => simp [attempt, ih]

end ShiftReduce
