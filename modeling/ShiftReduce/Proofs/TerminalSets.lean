import Mathlib.Data.List.Sort
import Mathlib.Order.Basic
import ShiftReduce.Item.TerminalSet

/-!
# Sets of terminals are known by their elements

A set of terminals lists its elements in ascending order, whatever set of bits they are kept in.
There is one such list for each finite set, so sets of terminals are equal, alike in order and in
hash, if and only if they have the same elements, however they came about.

* `Identified`, `Ordered`, `Listed`: what is asked of a kind of sets in order to be known by their
  elements, the same for sets of terminals and sets of items.
* `TerminalSet.faithful`: what holds of sets of terminals.
-/

namespace ShiftReduce

/-! ## Sets known by their elements -/

section Kinds

variable {σ α : Type} [Membership α σ]

/-- Whether the comparisons of two sets all come to whether they have the same elements. -/
structure Identified [BEq σ] [Ord σ] (toList : σ → List α) (hashed : σ → List HashWord)
    (s t : σ) : Prop where
  beq_iff : (s == t) = true ↔ ∀ a : α, a ∈ s ↔ a ∈ t
  compare_iff : compare s t = .eq ↔ ∀ a : α, a ∈ s ↔ a ∈ t
  hash_iff : HashAlike (hashed s) (hashed t) ↔ ∀ a : α, a ∈ s ↔ a ∈ t
  toList_iff : toList s = toList t ↔ ∀ a : α, a ∈ s ↔ a ∈ t

/-- What makes a comparison a total order with `==` as its equality. -/
structure Ordered [BEq σ] [Ord σ] (s t u : σ) : Prop where
  eq_iff : compare s t = .eq ↔ (s == t) = true
  swap : compare t s = (compare s t).swap
  trans : (compare s t).isLE = true → (compare t u).isLE = true → (compare s u).isLE = true

/-- Whether a list shows the elements of a set, each once and in order. -/
structure Listed (before : α → α → Prop) (l : List α) (s : σ) : Prop where
  mem_iff : ∀ a, a ∈ l ↔ a ∈ s
  increasing : l.Pairwise before

/-- Whether a set is another one with some elements added, and this is what was reported. -/
structure Grown (s : σ) (added : α → Prop) (outcome : Bool × σ) : Prop where
  mem_iff : ∀ a, a ∈ outcome.2 ↔ added a ∨ a ∈ s
  reported : outcome.1 = true ↔ ∃ a : α, a ∈ outcome.2 ∧ a ∉ s

theorem Grown.nothing {s : σ} : Grown s (fun _ : α => False) (false, s) where
  mem_iff := by simp
  reported := by simp

theorem Grown.congr {s : σ} {added added' : α → Prop} {outcome : Bool × σ}
    (h : Grown s added outcome) (hSame : ∀ a, added' a ↔ added a) : Grown s added' outcome where
  mem_iff a := by rw [hSame, h.mem_iff]
  reported := h.reported

/-- Growing twice. -/
theorem Grown.trans {s : σ} {added added' : α → Prop} {now later : Bool × σ}
    (h : Grown s added now) (h' : Grown now.2 added' later) :
    Grown s (fun a => added a ∨ added' a) (now.1 || later.1, later.2) where
  mem_iff a := by rw [h'.mem_iff, h.mem_iff, or_left_comm, or_assoc]
  reported := by
    rw [Bool.or_eq_true, h.reported, h'.reported]
    constructor
    · rintro (⟨a, ha, hNew⟩ | ⟨a, ha, hNew⟩)
      · exact ⟨a, (h'.mem_iff a).mpr (.inr ha), hNew⟩
      · exact ⟨a, ha, fun hs => hNew ((h.mem_iff a).mpr (.inr hs))⟩
    · rintro ⟨a, ha, hNew⟩
      by_cases hNow : a ∈ now.2
      · exact .inl ⟨a, hNow, hNew⟩
      · exact .inr ⟨a, ha, hNow⟩

/-- Growing again and again, and saying whether any of this has added something. -/
theorem Grown.foldl {s : σ} {ε : Type} {step : σ → ε → Bool × σ} {added : ε → α → Prop}
    (hStep : ∀ s e, Grown s (added e) (step s e)) (l : List ε) {before : α → Prop}
    {now : Bool × σ} (h : Grown s before now) :
    Grown s (fun a => before a ∨ ∃ e ∈ l, added e a)
      (l.foldl (fun now e => (now.1 || (step now.2 e).1, (step now.2 e).2)) now) := by
  induction l generalizing before now with
  | nil => exact h.congr fun a => by simp
  | cons e l ih =>
    refine (ih (h.trans (hStep now.2 e))).congr fun a => ?_
    rw [List.exists_mem_cons_iff, or_assoc]

/-- What was reported is whether something to be added was new. -/
theorem new_iff {s : σ} {added : α → Prop} {outcome : Bool × σ}
    (hMem : ∀ a, a ∈ outcome.2 ↔ added a ∨ a ∈ s) :
    (∃ a, a ∈ outcome.2 ∧ a ∉ s) ↔ ∃ a, added a ∧ a ∉ s :=
  exists_congr fun a => and_congr_left fun hNot => by rw [hMem, or_iff_left hNot]

theorem Grown.of_new {s : σ} {added : α → Prop} {outcome : Bool × σ}
    (hMem : ∀ a, a ∈ outcome.2 ↔ added a ∨ a ∈ s)
    (hNew : outcome.1 = true ↔ ∃ a, added a ∧ a ∉ s) : Grown s added outcome where
  mem_iff := hMem
  reported := hNew.trans (new_iff hMem).symm

theorem Grown.reported_iff {s : σ} {added : α → Prop} {outcome : Bool × σ}
    (h : Grown s added outcome) : outcome.1 = true ↔ ∃ a, added a ∧ a ∉ s :=
  h.reported.trans (new_iff h.mem_iff)

end Kinds

/-! ## Lists in order -/

theorem compareLex_eq_lt_iff {α : Type} {cmp : α → α → Ordering} [Std.LawfulEqCmp cmp]
    {l m : List α} :
    List.compareLex cmp l m = .lt ↔ List.Lex (fun a b => cmp a b = .lt) l m := by
  induction l generalizing m with
  | nil =>
    cases m with
    | nil => simp [List.compareLex_nil_nil]
    | cons b m => simp [List.compareLex_nil_cons]
  | cons a l ih =>
    cases m with
    | nil => simp [List.compareLex_cons_nil]
    | cons b m =>
      rw [List.compareLex_cons_cons, Ordering.then_eq_lt, ih, Std.LawfulEqCmp.compare_eq_iff_eq]
      constructor
      · rintro (h | ⟨rfl, h⟩)
        · exact .rel h
        · exact .cons h
      · rintro (_ | h | h)
        · exact .inl h
        · exact .inr ⟨rfl, h⟩

theorem compareLex_map {α γ : Type} {cmp : γ → γ → Ordering} {f : α → γ} {l m : List α} :
    List.compareLex (fun a b => cmp (f a) (f b)) l m =
      List.compareLex cmp (l.map f) (m.map f) := by
  induction l generalizing m with
  | nil =>
    cases m with
    | nil => simp [List.compareLex_nil_nil]
    | cons b m => simp [List.compareLex_nil_cons]
  | cons a l ih =>
    cases m with
    | nil => simp [List.compareLex_cons_nil]
    | cons b m =>
      rw [List.compareLex_cons_cons, List.map_cons, List.map_cons, List.compareLex_cons_cons, ih]

theorem compare_list_eq_lt_iff {l m : List Key} :
    compare l m = .lt ↔ List.Lex (· < ·) l m := by
  rw [List.compare_eq_compareLex, compareLex_eq_lt_iff]
  simp only [Std.compare_eq_lt]

namespace TerminalSet

variable {β : Type} [BitSet β] {s t u : TerminalSet β} {a b : Key} {n : Nat}

theorem toNat_ofNat_of_mem (h : n ∈ BitSet.toList s.bits) : (UInt16.ofNat n).toNat = n :=
  UInt16.toNat_ofNat_of_lt' (s.bounded n h)

theorem mem_toList_iff_toNat : a ∈ s.toList ↔ a.toNat ∈ BitSet.toList s.bits := by
  rw [toList, List.mem_map]
  constructor
  · rintro ⟨n, hn, rfl⟩
    rwa [toNat_ofNat_of_mem hn]
  · exact fun h => ⟨a.toNat, h, UInt16.ofNat_toNat⟩

theorem beq_iff_toList : (s == t) = true ↔ s.toList = t.toList :=
  beq_iff_eq (a := s.toList)

theorem compare_eq : compare s t = compare s.toList t.toList :=
  rfl

theorem compare_eq_lt_iff : compare s t = .lt ↔ List.Lex (· < ·) s.toList t.toList :=
  compare_list_eq_lt_iff

theorem ordered (s t u : TerminalSet β) : Ordered s t u where
  eq_iff := by rw [compare_eq, Std.compare_eq_iff_eq, beq_iff_toList]
  swap := Std.OrientedOrd.eq_swap (a := t.toList)
  trans := Std.TransOrd.isLE_trans (a := s.toList)

variable [LawfulBitSet β]

theorem mem_iff_toNat : a ∈ s ↔ a.toNat ∈ BitSet.toList s.bits :=
  LawfulBitSet.contains_iff s.bits a.toNat

theorem mem_toList : a ∈ s.toList ↔ a ∈ s :=
  mem_toList_iff_toNat.trans mem_iff_toNat.symm

/-- An element of the bits is the number of an element. -/
theorem exists_mem_of_mem_bits (h : n ∈ BitSet.toList s.bits) : ∃ a ∈ s, a.toNat = n :=
  ⟨.ofNat n, mem_iff_toNat.mpr ((toNat_ofNat_of_mem h).symm ▸ h), toNat_ofNat_of_mem h⟩

theorem increasing_toList : s.toList.Pairwise (· < ·) := by
  rw [toList, List.pairwise_map]
  refine (LawfulBitSet.increasing s.bits).imp_of_mem fun hn hm hLt => ?_
  rwa [UInt16.lt_iff_toNat_lt, toNat_ofNat_of_mem hn, toNat_ofNat_of_mem hm]

theorem listed (s : TerminalSet β) : Listed (· < ·) s.toList s :=
  ⟨fun _ => mem_toList, increasing_toList⟩

/-- The list of the elements is determined by them. -/
theorem toList_eq_iff : s.toList = t.toList ↔ ∀ a, a ∈ s ↔ a ∈ t := by
  constructor
  · exact fun h a => by rw [← mem_toList, h, mem_toList]
  · exact fun h => increasing_toList.eq_of_mem_iff increasing_toList fun a => by
      rw [mem_toList, mem_toList, h]

theorem size_eq : s.size = s.toList.length := by
  rw [size, LawfulBitSet.size_eq, toList, List.length_map]

theorem isEmpty_iff : s.isEmpty = true ↔ s.toList = [] := by
  rw [isEmpty, LawfulBitSet.isEmpty_iff, toList, List.map_eq_nil_iff]

theorem isEmpty_eq_false (h : a ∈ s) : s.isEmpty = false := by
  rw [Bool.eq_false_iff, ne_eq, isEmpty_iff]
  exact List.ne_nil_of_mem (mem_toList.mpr h)

theorem isSubset_iff : s.isSubset t = true ↔ ∀ a ∈ s, a ∈ t := by
  rw [isSubset, LawfulBitSet.isSubset_iff]
  constructor
  · exact fun h a ha => mem_iff_toNat.mpr (h _ (mem_iff_toNat.mp ha))
  · intro h n hn
    obtain ⟨a, ha, rfl⟩ := exists_mem_of_mem_bits hn
    exact mem_iff_toNat.mp (h a ha)

/-! ## What sets are made of -/

theorem not_mem_empty : a ∉ (empty : TerminalSet β) := by
  rw [mem_iff_toNat, empty, LawfulBitSet.toList_empty]
  exact List.not_mem_nil

theorem mem_insert : b ∈ (s.insert a).2 ↔ b = a ∨ b ∈ s := by
  rw [mem_iff_toNat, insert, LawfulBitSet.mem_insert, UInt16.toNat_inj, mem_iff_toNat]

theorem mem_union : a ∈ (s.union t).2 ↔ a ∈ t ∨ a ∈ s := by
  rw [mem_iff_toNat, union, LawfulBitSet.mem_union, mem_iff_toNat, mem_iff_toNat, or_comm]

theorem mem_ofList {l : List Key} : a ∈ (ofList l : TerminalSet β) ↔ a ∈ l := by
  rw [mem_iff_toNat, ofList, LawfulBitSet.mem_ofList, List.mem_map]
  simp [UInt16.toNat_inj]

theorem grown_insert : Grown s (· = a) (s.insert a) := by
  refine .of_new (fun _ => mem_insert) ?_
  rw [insert, LawfulBitSet.insert_new_iff, ← mem_iff_toNat]
  simp

/-- A union that has as many elements has no others. -/
theorem grown_union : Grown s (· ∈ t) (s.union t) := by
  refine .of_new (fun _ => mem_union) ?_
  have hSizes : (s.union t).1 = true ↔ (s.union t).2.toList.length ≠ s.toList.length := by
    rw [← size_eq, ← size_eq]
    exact bne_iff_ne
  rw [hSizes]
  constructor
  · intro hLength
    by_contra hNone
    have hSubset : ∀ a ∈ t, a ∈ s := fun a hat => by_contra fun has => hNone ⟨a, hat, has⟩
    refine hLength (congrArg List.length (toList_eq_iff.mpr fun a => ?_))
    rw [mem_union, or_iff_right_of_imp (hSubset a)]
  · rintro ⟨a, hat, has⟩
    have hNodup : (a :: s.toList).Nodup :=
      List.nodup_cons.mpr ⟨mt mem_toList.mp has, increasing_toList.imp UInt16.ne_of_lt⟩
    have hMore : a :: s.toList ⊆ (s.union t).2.toList := by
      intro b hb
      rcases List.mem_cons.mp hb with rfl | hb
      · exact mem_toList.mpr (mem_union.mpr (.inl hat))
      · exact mem_toList.mpr (mem_union.mpr (.inr (mem_toList.mp hb)))
    have hLonger := hNodup.length_le_of_subset hMore
    rw [List.length_cons] at hLonger
    omega

/-! ## Comparisons -/

theorem hashed_eq : s.hashed = .size s.toList.length :: s.toList.map fun a => .number a.toNat := by
  rw [hashed, size_eq]

theorem hashed_eq_iff : s.hashed = t.hashed ↔ s.toList = t.toList := by
  rw [hashed_eq, hashed_eq]
  refine ⟨fun h => ?_, fun h => by rw [h]⟩
  refine List.map_injective_iff.mpr (fun a b h => ?_) (List.cons.inj h).2
  exact UInt16.toNat_inj.mp (HashWord.number.inj h)

theorem identified (s t : TerminalSet β) : Identified toList hashed s t where
  beq_iff := beq_iff_toList.trans toList_eq_iff
  compare_iff := by rw [compare_eq, Std.compare_eq_iff_eq, toList_eq_iff]
  hash_iff := by rw [hashAlike_iff, hashed_eq_iff, toList_eq_iff]
  toList_iff := toList_eq_iff

/-- What it means that sets of terminals stand for the sets of their elements. -/
structure Faithful (s t u : TerminalSet β) : Prop where
  identified : Identified toList hashed s t
  ordered : Ordered s t u
  lexicographic : compare s t = .lt ↔ List.Lex (· < ·) s.toList t.toList
  listed : Listed (· < ·) s.toList s
  size_eq : s.size = s.toList.length
  isSubset_iff : s.isSubset t = true ↔ ∀ a ∈ s, a ∈ t
  grown_insert : ∀ a, Grown s (· = a) (s.insert a)
  grown_union : Grown s (· ∈ t) (s.union t)

theorem faithful (s t u : TerminalSet β) : s.Faithful t u where
  identified := identified s t
  ordered := ordered s t u
  lexicographic := compare_eq_lt_iff
  listed := listed s
  size_eq := size_eq
  isSubset_iff := isSubset_iff
  grown_insert _ := grown_insert
  grown_union := grown_union

end TerminalSet

end ShiftReduce
