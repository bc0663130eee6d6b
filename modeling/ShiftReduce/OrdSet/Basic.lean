/-!
# Ordered finite sets

A finite set over a linearly ordered type, kept as the strictly increasing list
of its elements. The list is determined by the elements, so two sets with the
same elements are the same term: equality, comparison and iteration cannot tell
apart how a set was put together.
-/

namespace ShiftReduce

/-- A finite set, as its elements in strictly increasing order. -/
structure OrdSet (α : Type) [Ord α] where
  toList : List α
  increasing : toList.Pairwise fun a b => compare a b = .lt

namespace OrdSet

variable {α : Type} [Ord α]

instance [DecidableEq α] : DecidableEq (OrdSet α) := fun s t =>
  decidable_of_iff (s.toList = t.toList)
    ⟨fun h => by cases s; cases t; cases h; rfl, fun h => h ▸ rfl⟩

instance : Membership α (OrdSet α) := ⟨fun s a => a ∈ s.toList⟩

instance [DecidableEq α] (a : α) (s : OrdSet α) : Decidable (a ∈ s) :=
  inferInstanceAs (Decidable (a ∈ s.toList))

instance : HasSubset (OrdSet α) := ⟨fun s t => ∀ a, a ∈ s → a ∈ t⟩

instance [DecidableEq α] (s t : OrdSet α) : Decidable (s ⊆ t) :=
  inferInstanceAs (Decidable (∀ a, a ∈ s.toList → a ∈ t))

/-- Sets are compared as their increasing lists, lexicographically. -/
instance : Ord (OrdSet α) := ⟨fun s t => compare s.toList t.toList⟩

def empty : OrdSet α := ⟨[], .nil⟩

instance : EmptyCollection (OrdSet α) := ⟨empty⟩
instance : Inhabited (OrdSet α) := ⟨empty⟩

def size (s : OrdSet α) : Nat := s.toList.length

def isEmpty (s : OrdSet α) : Bool := s.toList.isEmpty

/-! ## Insertion -/

/-- Puts `a` at its place in an increasing list that may hold it already. -/
def place (a : α) : List α → List α
  | [] => [a]
  | b :: l =>
    match compare a b with
    | .lt => a :: b :: l
    | .eq => b :: l
    | .gt => b :: place a l

section Lawful

variable [Std.LawfulEqOrd α]

theorem mem_place {a b : α} {l : List α} : b ∈ place a l ↔ b = a ∨ b ∈ l := by
  induction l with
  | nil => simp [place]
  | cons c l ih =>
    rw [place]
    split
    · simp
    · next h => simp [Std.LawfulEqOrd.eq_of_compare h]
    · simp only [List.mem_cons, ih]
      exact or_left_comm

variable [Std.TransOrd α]

theorem increasing_place (a : α) {l : List α}
    (hl : l.Pairwise fun b c => compare b c = .lt) :
    (place a l).Pairwise fun b c => compare b c = .lt := by
  induction l with
  | nil => simp [place]
  | cons b l ih =>
    obtain ⟨hb, hl'⟩ := List.pairwise_cons.1 hl
    rw [place]
    split
    · next h =>
      refine List.pairwise_cons.2 ⟨fun c hc => ?_, hl⟩
      rcases List.mem_cons.1 hc with rfl | hc
      · exact h
      · exact Std.TransCmp.lt_trans h (hb c hc)
    · exact hl
    · next h =>
      refine List.pairwise_cons.2 ⟨fun c hc => ?_, ih hl'⟩
      rcases mem_place.1 hc with rfl | hc
      · exact Std.OrientedCmp.gt_iff_lt.1 h
      · exact hb c hc

/-- The set with `a` added. -/
def insert (a : α) (s : OrdSet α) : OrdSet α :=
  ⟨place a s.toList, increasing_place a s.increasing⟩

def ofList (l : List α) : OrdSet α := l.foldl (fun s a => s.insert a) empty

def union (s t : OrdSet α) : OrdSet α := t.toList.foldl (fun s a => s.insert a) s

instance : Union (OrdSet α) := ⟨union⟩

def singleton (a : α) : OrdSet α := empty.insert a

/-- Adds `a`, and says whether it is new. -/
def insertNew [DecidableEq α] (a : α) (s : OrdSet α) : Bool × OrdSet α :=
  (decide (a ∉ s), s.insert a)

/-- Adds the elements of `t`, and says whether the set has grown. -/
def absorb (s t : OrdSet α) : Bool × OrdSet α :=
  (decide (s.size < (s ∪ t).size), s ∪ t)

end Lawful

end OrdSet

end ShiftReduce
