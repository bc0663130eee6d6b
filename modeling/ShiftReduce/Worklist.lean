import ShiftReduce.OrdSet.Lemmas

/-!
# Worklists

A set that grows while it is gone through. Elements wait to be expanded in the order in which they
were found. A turn takes the first of them and adds the elements that `next` lists for it; those
that are new wait from then on. There is no turn once nothing waits, and then the set is finished.
-/

namespace ShiftReduce

/-- A set, and those of its elements that are still to be expanded. -/
structure Worklist (α : Type) [Ord α] where
  found : OrdSet α
  waiting : List α

namespace Worklist

variable {α : Type} [Ord α] [Std.TransOrd α] [Std.LawfulEqOrd α] [DecidableEq α]

def ofSet (s : OrdSet α) : Worklist α := ⟨s, s.toList⟩

/-- Adds an element, which has to wait if it is new. -/
def add (list : Worklist α) (a : α) : Worklist α :=
  let inserted := list.found.insertNew a
  ⟨inserted.2, if inserted.1 then list.waiting ++ [a] else list.waiting⟩

def turn? (next : α → List α) (list : Worklist α) : Option (Worklist α) :=
  match list.waiting with
  | [] => none
  | a :: rest => some ((next a).foldl add ⟨list.found, rest⟩)

/-- What so many turns lead to. -/
def turns? (next : α → List α) : Nat → Worklist α → Option (Worklist α)
  | 0, list => some list
  | n + 1, list => (list.turn? next).bind (turns? next n)

end Worklist

end ShiftReduce
