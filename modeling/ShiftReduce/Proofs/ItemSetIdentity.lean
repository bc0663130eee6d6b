import ShiftReduce.Proofs.StoredRuns

/-!
# Item sets are the same if their items are

However an item set came about, no core stands in it without a lookahead (`Made.tidy`), and so it is
known by its items (`Made.known_by_items`): no comparison sees in which order they were added, nor
how much room the sets of bits have.

`Bits` are sets of bits with more room than they need, and how much depends on the order in which
elements were added.
-/

namespace ShiftReduce

namespace StoredItems

variable {β : Type} [BitSet β] [LawfulBitSet β] {s t u : StoredItems β}

/-- What item sets come about by. -/
inductive Made : StoredItems β → Prop
  | empty : Made empty
  | ofItems (l : List KeyedItem) : Made (ofItems l)
  | insert {s : StoredItems β} (hs : Made s) (i : KeyedItem) : Made (s.insert i).2
  | insertAll {s : StoredItems β} (hs : Made s) (core : Core) (ts : TerminalSet β) :
    Made (s.insertAll core ts).2
  | unionLookaheads {s other : StoredItems β} (hs : Made s) (hOther : Made other) :
    Made (s.unionLookaheads other).2
  | closure {s closed : StoredItems β} {g : Grammar} {F : FirstSets} (hs : Made s)
    (h : s.ClosesTo g F closed) : Made closed
  | goto {s target : StoredItems β} {g : Grammar} {F : FirstSets} {symbol : Symbol} (hs : Made s)
    (h : s.GoesTo g F symbol target) : Made target
  | merged {states : List (StoredItems β)} {s : StoredItems β} (hStates : ∀ s ∈ states, Made s)
    (h : s ∈ merged states) : Made s

theorem Made.tidy (h : Made s) : s.Tidy := by
  induction h with
  | empty => exact tidy_empty
  | ofItems l => exact tidy_ofItems l
  | insert _ i ih => exact ih.insert i
  | insertAll _ core ts ih => exact ih.insertAll core ts
  | unionLookaheads _ _ ih _ => exact ih.insertEntries _
  | closure _ h ih => exact ih.closesTo h
  | goto _ h _ => exact h.tidy
  | merged _ h ih => exact tidy_merged ih _ h

/-- Item sets that came about in any way stand for the sets of their items, as sets of terminals
stand for the sets of their elements, and they go through what these item sets go through. -/
theorem Made.known_by_items (hs : s.Made) (ht : t.Made) (u : StoredItems β) :
    s.Faithful t u ∧ s.InStep t ∧ ∀ a b c : TerminalSet β, a.Faithful b c ∧ a.InStep b :=
  ⟨hs.tidy.faithful ht.tidy u, hs.tidy.inStep ht.tidy,
    fun a b c => ⟨a.faithful b c, a.inStep b⟩⟩

end StoredItems

/-! ## Sets of bits with room to spare -/

/-- A set of bits, up to the last one there is room for. -/
structure Bits where
  flags : List Bool

namespace Bits

variable {b c : Bits} {n m size : Nat} {p : Nat → Bool}

def has (b : Bits) (n : Nat) : Bool := b.flags.getD n false

def room (b : Bits) : Nat := b.flags.length

def ofPred (size : Nat) (p : Nat → Bool) : Bits := ⟨(List.range size).map p⟩

def toList (b : Bits) : List Nat := (List.range b.room).filter b.has

/-- Adds a number. Where there is no room for it, the room is at least doubled. -/
def insert (n : Nat) (b : Bits) : Bits :=
  .ofPred (if n < b.room then b.room else max (2 * b.room) (n + 1)) fun m => m == n || b.has m

instance : BitSet Bits where
  empty := ⟨[]⟩
  contains := has
  insert n b := (!b.has n, b.insert n)
  union b c := .ofPred (max b.room c.room) fun n => b.has n || c.has n
  isSubset b c := b.toList.all c.has
  isEmpty b := b.toList.isEmpty
  size b := b.toList.length
  toList := toList
  ofList l := l.foldl (fun b n => b.insert n) ⟨[]⟩

theorem lt_room_of_has (h : b.has n = true) : n < b.room := by
  rw [has, List.getD_eq_getElem?_getD] at h
  by_contra hNot
  rw [List.getElem?_eq_none (Nat.le_of_not_lt hNot)] at h
  cases h

theorem mem_toList : n ∈ b.toList ↔ b.has n = true := by
  rw [toList, List.mem_filter, List.mem_range]
  exact and_iff_right_of_imp lt_room_of_has

theorem has_ofPred : (ofPred size p).has n = true ↔ n < size ∧ p n = true := by
  rw [has, ofPred, List.getD_eq_getElem?_getD, List.getElem?_map]
  by_cases hRoom : n < size
  · rw [List.getElem?_range hRoom]
    simp [hRoom]
  · rw [List.getElem?_eq_none (by rw [List.length_range]; omega)]
    simp [hRoom]

theorem has_insert : (b.insert n).has m = true ↔ m = n ∨ b.has m = true := by
  rw [insert, has_ofPred, Bool.or_eq_true, beq_iff_eq]
  refine and_iff_right_of_imp fun h => ?_
  rcases h with rfl | h
  · split
    · assumption
    · omega
  · have hRoom := lt_room_of_has h
    split <;> omega

instance : LawfulBitSet Bits where
  increasing _ := List.pairwise_lt_range.filter _
  contains_iff _ _ := mem_toList.symm
  toList_empty := rfl
  mem_insert b n m := by
    change m ∈ (b.insert n).toList ↔ m = n ∨ m ∈ b.toList
    rw [mem_toList, mem_toList, has_insert]
  insert_new_iff b n := by
    change (!b.has n) = true ↔ n ∉ b.toList
    rw [mem_toList, Bool.not_eq_true', Bool.not_eq_true]
  mem_union b c n := by
    change n ∈ toList (ofPred _ _) ↔ n ∈ b.toList ∨ n ∈ c.toList
    rw [mem_toList, mem_toList, mem_toList, has_ofPred, Bool.or_eq_true]
    refine and_iff_right_of_imp fun h => ?_
    rcases h with h | h
    · exact Nat.lt_of_lt_of_le (lt_room_of_has h) (Nat.le_max_left _ _)
    · exact Nat.lt_of_lt_of_le (lt_room_of_has h) (Nat.le_max_right _ _)
  isSubset_iff b c := by
    change b.toList.all c.has = true ↔ ∀ n ∈ b.toList, n ∈ c.toList
    simp only [List.all_eq_true, mem_toList]
  isEmpty_iff _ := List.isEmpty_iff
  size_eq _ := rfl
  mem_ofList l n := by
    change n ∈ toList (l.foldl _ _) ↔ n ∈ l
    have hFold := foldl_insert_iff (fun (b : Bits) n => b.has n = true) _
      (fun _ _ _ => has_insert) l ⟨[]⟩ n
    exact mem_toList.trans (hFold.trans (or_iff_right Bool.false_ne_true))

end Bits

namespace StoredItems

/-- The augmented rule from its beginning, with lookaheads in the order in which they are added. -/
def augmented (lookaheads : List Key) : StoredItems Bits :=
  ofItems (lookaheads.map fun t => ⟨⟨augmentedRule, 0⟩, t⟩)

/-- The rooms under the cores. -/
def rooms (s : StoredItems Bits) : List Nat := s.entries.map fun e => e.2.bits.room

/-- Closures of sets with the same items in different rooms. -/
theorem known_by_items_listing :
    (augmented [30, 40]).rooms = [62] ∧ (augmented [40, 30]).rooms = [41] ∧
      ∃ closed closed', (augmented [30, 40]).ClosesTo .listing Grammar.listing.firstSets closed ∧
        (augmented [40, 30]).ClosesTo .listing Grammar.listing.firstSets closed' ∧
        closed.Made ∧ closed'.Made ∧ (closed == closed') = true ∧ closed.size = 8 ∧
        closed.Faithful closed' closed ∧ closed.InStep closed' := by
  have hKeys : Grammar.listing.KeysSuffice Grammar.listing.firstSets :=
    Grammar.keysSuffice_firstSets (by decide +kernel)
  obtain ⟨closed, hClosed⟩ :=
    exists_closesTo .listing Grammar.listing.firstSets (augmented [30, 40])
  obtain ⟨closed', hClosed'⟩ :=
    exists_closesTo .listing Grammar.listing.firstSets (augmented [40, 30])
  have hMade : closed.Made := .closure (.ofItems _) hClosed
  have hMade' : closed'.Made := .closure (.ofItems _) hClosed'
  obtain ⟨hFaithful, hInStep, _⟩ := Made.known_by_items hMade hMade' closed
  have hItems : (augmented [30, 40]).items = (augmented [40, 30]).items := by decide +kernel
  have hSize : (Grammar.listing.closure Grammar.listing.firstSets
      (augmented [30, 40]).items).size = 8 := by decide +kernel
  refine ⟨by decide +kernel, by decide +kernel, closed, closed', hClosed, hClosed', hMade, hMade',
    ?_, ?_, hFaithful, hInStep⟩
  · rw [hInStep.beq_iff, hClosed.items_eq hKeys, hClosed'.items_eq hKeys, hItems]
  · rw [← hInStep.size_eq, hClosed.items_eq hKeys, hSize]

end StoredItems

end ShiftReduce
