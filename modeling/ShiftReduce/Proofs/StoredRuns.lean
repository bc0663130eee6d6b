import ShiftReduce.Automaton.Merged
import ShiftReduce.Proofs.ItemClosure
import ShiftReduce.Proofs.StoredItems

/-!
# Stored item sets and the item sets that are meant

Whatever is done with a stored item set happens to the item set that it keeps (`InStep`). An
operation that reports growth adds what `OrdSet.insertNew` and `OrdSet.absorb` add and reports the
same, for sets of terminals as for sets of items (`Keeps.insertNew`, `Keeps.absorb`). The loop of
the closure takes the same turns as `Worklist` does (`worklist_turn?`), so it ends, and with the
closure of the items as long as all terminals have keys. Merging gathers the item sets of the
merged automaton (`map_items_merged`).
-/

namespace ShiftReduce

/-- A loop ends in one way only. -/
theorem Worklist.turns?_unique {α : Type} [Ord α] [Std.TransOrd α] [Std.LawfulEqOrd α]
    [DecidableEq α] {next : α → List α} {list : Worklist α} {n m : Nat} {s t : OrdSet α}
    (hs : list.turns? next n = some ⟨s, []⟩) (ht : list.turns? next m = some ⟨t, []⟩) : s = t := by
  induction n generalizing list m with
  | zero =>
    cases hs
    cases m with
    | zero =>
      cases ht
      rfl
    | succ m => cases ht
  | succ n ih =>
    cases m with
    | zero =>
      cases ht
      cases hs
    | succ m =>
      obtain ⟨later, hTurn, hs⟩ := Option.bind_eq_some_iff.mp hs
      obtain ⟨later', hTurn', ht⟩ := Option.bind_eq_some_iff.mp ht
      cases hTurn.symm.trans hTurn'
      exact ih hs ht

theorem eraseDups_concat {α : Type} [DecidableEq α] (l : List α) (a : α) :
    (l ++ [a]).eraseDups = if a ∈ l then l.eraseDups else l.eraseDups ++ [a] := by
  rw [List.eraseDups_append, List.removeAll]
  split
  · next hMem =>
    rw [List.filter_cons_of_neg (by simpa using hMem), List.filter_nil, List.eraseDups_nil,
      List.append_nil]
  · next hNone =>
    rw [List.filter_cons_of_pos (by simpa using hNone), List.filter_nil]
    rfl

/-! ## Ordered sets that hold the same -/

section Keeps

variable {σ α γ : Type} [Membership α σ] [Ord γ] {f : α → γ} {s t : σ} {kept kept' more : OrdSet γ}
  {a : α}

/-- Whether an ordered set holds what the elements of a set stand for. -/
def Keeps (f : α → γ) (s : σ) (kept : OrdSet γ) : Prop := ∀ c, c ∈ kept ↔ ∃ a ∈ s, f a = c

theorem Keeps.apply_mem (hf : f.Injective) (h : Keeps f s kept) : f a ∈ kept ↔ a ∈ s := by
  rw [h]
  constructor
  · rintro ⟨b, hb, hSame⟩
    exact hf hSame ▸ hb
  · exact fun ha => ⟨a, ha, rfl⟩

theorem Keeps.subset_iff (hf : f.Injective) (h : Keeps f s kept) (h' : Keeps f t kept') :
    kept ⊆ kept' ↔ ∀ a ∈ s, a ∈ t := by
  constructor
  · exact fun hSub a ha => (h'.apply_mem hf).mp (hSub _ ((h.apply_mem hf).mpr ha))
  · intro hSub c hc
    obtain ⟨a, ha, rfl⟩ := (h c).mp hc
    exact (h'.apply_mem hf).mpr (hSub a ha)

variable [Std.TransOrd γ]

theorem Keeps.eq_iff (hf : f.Injective) (h : Keeps f s kept) (h' : Keeps f t kept') :
    kept = kept' ↔ ∀ a, a ∈ s ↔ a ∈ t := by
  rw [OrdSet.ext_iff]
  constructor
  · exact fun hSame a => by rw [← h.apply_mem hf, hSame, h'.apply_mem hf]
  · exact fun hSame c => by simp only [h c, h' c, hSame]

variable [Std.LawfulEqOrd γ] {added : α → Prop} {outcome : Bool × σ}

/-- What a set grows by, the ordered set grows by. -/
theorem Keeps.absorb (hf : f.Injective) (h : Keeps f s kept) (h' : Keeps f outcome.2 kept')
    (hGrown : Grown s added outcome) (hMore : ∀ c, c ∈ more ↔ ∃ a, added a ∧ f a = c) :
    kept.absorb more = (outcome.1, kept') := by
  refine Prod.ext ?_ (OrdSet.ext fun c => ?_)
  · rw [Bool.eq_iff_iff, OrdSet.absorb_fst, hGrown.reported_iff]
    constructor
    · rintro ⟨c, hc, hNew⟩
      obtain ⟨a, ha, rfl⟩ := (hMore c).mp hc
      exact ⟨a, ha, mt (h.apply_mem hf).mpr hNew⟩
    · rintro ⟨a, ha, hNew⟩
      exact ⟨f a, (hMore _).mpr ⟨a, ha, rfl⟩, mt (h.apply_mem hf).mp hNew⟩
  · rw [h' c]
    simp only [hGrown.mem_iff, or_and_right, exists_or]
    rw [← hMore, ← h c, or_comm]
    exact OrdSet.mem_union

theorem Keeps.insertNew [DecidableEq γ] (hf : f.Injective) (h : Keeps f s kept)
    (h' : Keeps f outcome.2 kept') (hGrown : Grown s (· = a) outcome) :
    kept.insertNew (f a) = (outcome.1, kept') := by
  refine Prod.ext ?_ (OrdSet.ext fun c => ?_)
  · rw [Bool.eq_iff_iff, OrdSet.insertNew_fst, hGrown.reported_iff, h.apply_mem hf, exists_eq_left]
  · rw [h' c]
    simp only [hGrown.mem_iff, or_and_right, exists_or, exists_eq_left]
    rw [← h c, eq_comm]
    exact OrdSet.mem_insert

end Keeps

namespace TerminalSet

variable {β : Type} [BitSet β] [LawfulBitSet β] {s t : TerminalSet β}

theorem toNat_injective : Function.Injective UInt16.toNat :=
  fun _ _ => UInt16.toNat_inj.mp

theorem keeps_terminals (s : TerminalSet β) : Keeps UInt16.toNat s s.terminals := by
  intro n
  rw [terminals, OrdSet.mem_ofList, List.mem_map]
  simp only [mem_toList]

/-- A set lists its elements in the order of the terminals that it keeps. -/
theorem toList_terminals (s : TerminalSet β) :
    s.terminals.toList = s.toList.map UInt16.toNat := by
  refine OrdSet.list_ext s.terminals.increasing ?_ fun n => ?_
  · refine List.pairwise_map.mpr (increasing_toList.imp fun hLt => ?_)
    exact Nat.compare_eq_lt.mpr (UInt16.lt_iff_toNat_lt.mp hLt)
  · rw [OrdSet.mem_toList, terminals, OrdSet.mem_ofList]

theorem compare_toNat (a b : Key) : compare a.toNat b.toNat = compare a b := by
  change compareOfLessAndEq a.toNat b.toNat = compareOfLessAndEq a b
  rw [compareOfLessAndEq, compareOfLessAndEq]
  simp only [UInt16.toNat_inj, UInt16.lt_iff_toNat_lt]

theorem compare_map_toNat (l m : List Key) :
    compare (l.map UInt16.toNat) (m.map UInt16.toNat) = compare l m := by
  rw [List.compare_eq_compareLex, List.compare_eq_compareLex, ← compareLex_map]
  simp only [compare_toNat]

theorem compare_terminals (s t : TerminalSet β) :
    compare s.terminals t.terminals = compare s t := by
  change compare s.terminals.toList t.terminals.toList = compare s.toList t.toList
  rw [toList_terminals, toList_terminals, compare_map_toNat]

theorem size_terminals (s : TerminalSet β) : s.terminals.size = s.size := by
  rw [OrdSet.size, toList_terminals, List.length_map, size_eq]

theorem terminals_insert (s : TerminalSet β) (a : Key) :
    s.terminals.insertNew a.toNat = ((s.insert a).1, (s.insert a).2.terminals) :=
  (keeps_terminals s).insertNew toNat_injective (keeps_terminals _) grown_insert

theorem terminals_union (s t : TerminalSet β) :
    s.terminals.absorb t.terminals = ((s.union t).1, (s.union t).2.terminals) :=
  (keeps_terminals s).absorb toNat_injective (keeps_terminals _) grown_union (keeps_terminals t)

theorem terminals_ofList (l : List Key) :
    OrdSet.ofList (l.map UInt16.toNat) = (ofList l : TerminalSet β).terminals := by
  refine OrdSet.ext fun n => ?_
  rw [keeps_terminals, OrdSet.mem_ofList, List.mem_map]
  simp only [mem_ofList]

theorem terminals_extend (s : TerminalSet β) (l : List Key) :
    l.foldl (fun ts a => ts.insert a.toNat) s.terminals = (s.extend l).terminals := by
  induction l generalizing s with
  | nil => rfl
  | cons a l ih =>
    have hInsert := congrArg Prod.snd (terminals_insert s a)
    rw [List.foldl_cons, extend, List.foldl_cons, ← extend, ← ih]
    exact congrArg (List.foldl _ · l) hInsert

/-- What it means that whatever is done with stored sets of terminals happens to the sets that they
keep. -/
structure InStep (s t : TerminalSet β) : Prop where
  mem_iff : ∀ a, a.toNat ∈ s.terminals ↔ a ∈ s
  beq_iff : (s == t) = true ↔ s.terminals = t.terminals
  compare_eq : compare s.terminals t.terminals = compare s t
  toList_eq : s.terminals.toList = s.toList.map UInt16.toNat
  size_eq : s.terminals.size = s.size
  isSubset_iff : s.isSubset t = true ↔ s.terminals ⊆ t.terminals
  insert : ∀ a, s.terminals.insertNew a.toNat = ((s.insert a).1, (s.insert a).2.terminals)
  union : s.terminals.absorb t.terminals = ((s.union t).1, (s.union t).2.terminals)
  ofList : ∀ l : List Key,
    OrdSet.ofList (l.map UInt16.toNat) = (ofList l : TerminalSet β).terminals
  extend : ∀ l : List Key,
    l.foldl (fun ts a => ts.insert a.toNat) s.terminals = (s.extend l).terminals

theorem inStep (s t : TerminalSet β) : s.InStep t where
  mem_iff _ := (keeps_terminals s).apply_mem toNat_injective
  beq_iff := by
    rw [(identified s t).beq_iff, (keeps_terminals s).eq_iff toNat_injective (keeps_terminals t)]
  compare_eq := compare_terminals s t
  toList_eq := toList_terminals s
  size_eq := size_terminals s
  isSubset_iff := by
    rw [TerminalSet.isSubset_iff,
      (keeps_terminals s).subset_iff toNat_injective (keeps_terminals t)]
  insert := terminals_insert s
  union := terminals_union s t
  ofList := terminals_ofList
  extend := terminals_extend s

end TerminalSet

/-! ## Closure by keys -/

namespace Grammar

variable (g : Grammar) (F : FirstSets)

/-- The items that an item predicts, as far as lookaheads can be told apart by their keys. -/
def predictsKeyed (i : Item) : List Item := (g.predicts F i).map fun j => j.keyed.item

/-- The items that can be found from a set by keys. -/
def possibleKeyed (s : ItemSet) : List Item :=
  s.toList ++ (List.range g.rules.size).flatMap fun r =>
    (List.range UInt16.size).map fun t => ⟨⟨r, 0⟩, t⟩

theorem predictsKeyed_possible {s : ItemSet} (i : Item) (_ : i ∈ g.possibleKeyed s) :
    ∀ j ∈ g.predictsKeyed F i, j ∈ g.possibleKeyed s := by
  intro keyed hKeyed
  obtain ⟨j, hj, rfl⟩ := List.mem_map.mp hKeyed
  obtain ⟨n, rest, _, hRule, hMarker, _⟩ := (g.mem_predicts F).mp hj
  obtain ⟨rule, hRule, _⟩ := g.mem_rulesOf.mp hRule
  refine List.mem_append_right _ (List.mem_flatMap.mpr ⟨j.core.rule, ?_, ?_⟩)
  · exact List.mem_range.mpr (Array.getElem?_eq_some_iff.mp hRule).1
  · refine List.mem_map.mpr ⟨(UInt16.ofNat j.lookahead).toNat, ?_, ?_⟩
    · exact List.mem_range.mpr (UInt16.toNat_lt _)
    · rw [← hMarker]
      rfl

/-- The closure if lookaheads are known by their keys only. -/
def closureKeyed (s : ItemSet) : ItemSet :=
  OrdSet.ofList <| reachable (g.predictsKeyed F)
    (AtMost.of_list (u := g.possibleKeyed s) fun _ h => h) (g.predictsKeyed_possible F)
    s.toList fun _ h => List.mem_append_left _ h

theorem turns?_closureKeyed (s : ItemSet) :
    (Worklist.ofSet s).turns? (g.predictsKeyed F) (g.closureKeyed F s).size =
      some ⟨g.closureKeyed F s, []⟩ :=
  Worklist.turns?_reachable

/-- Whether items whose lookaheads have keys predict such items only. -/
def KeysSuffice : Prop :=
  ∀ i : Item, i.lookahead < UInt16.size → ∀ j ∈ g.predicts F i, j.lookahead < UInt16.size

variable {g F}

theorem keysSuffice_firstSets (h : g.terminals.size ≤ UInt16.size) :
    g.KeysSuffice g.firstSets := by
  intro i hi j hj
  rcases g.lookahead_of_mem_predicts hj with hSame | hLt
  · rwa [hSame]
  · exact Nat.lt_of_lt_of_le hLt h

theorem closureKeyed_eq (hKeys : g.KeysSuffice F) {s : ItemSet}
    (hs : ∀ i ∈ s, i.lookahead < UInt16.size) : g.closureKeyed F s = g.closure F s := by
  have hSame : ∀ i : Item, i.lookahead < UInt16.size → g.predictsKeyed F i = g.predicts F i := by
    intro i hi
    calc (g.predicts F i).map (fun j => j.keyed.item)
      _ = (g.predicts F i).map id := List.map_congr_left fun j hj => by
        rw [Item.keyed, KeyedItem.item, UInt16.toNat_ofNat_of_lt' (hKeys i hi j hj), id]
      _ = g.predicts F i := List.map_id _
  exact congrArg OrdSet.ofList
    (reachable_congr (Q := fun i : Item => i.lookahead < UInt16.size) hSame hKeys hs)

theorem closure_empty : g.closure F ∅ = ∅ := by
  refine OrdSet.ext fun j => iff_of_false (fun hj => ?_) OrdSet.not_mem_empty
  obtain ⟨i, hi, _⟩ := (g.mem_closure F).mp hj
  exact OrdSet.not_mem_empty hi

end Grammar

namespace StoredItems

variable {β : Type} [BitSet β] {s t : StoredItems β} {i : KeyedItem} {j : Item} {g : Grammar}
  {F : FirstSets} {core : Core} {ts : TerminalSet β}

theorem toList_cores (s : StoredItems β) : s.cores.toList = s.entries.map fun e => e.1 := by
  refine OrdSet.list_ext s.cores.increasing (List.pairwise_map.mpr s.map.increasing) fun core => ?_
  rw [OrdSet.mem_toList, cores, OrdSet.mem_ofList]

theorem items_of_isEmpty (h : s.isEmpty = true) : s.items = ∅ := by
  rw [items, toList, List.isEmpty_iff.mp h]
  rfl

/-- The items of all sets with the given cores. -/
def gathered (states : List (StoredItems β)) (cores : OrdSet Core) : ItemSet :=
  (states.filter fun s => s.cores = cores).foldl (fun items s => items ∪ s.items) ∅

theorem gathered_concat (states : List (StoredItems β)) (s : StoredItems β)
    (cores : OrdSet Core) : gathered (states ++ [s]) cores =
      if s.cores = cores then gathered states cores ∪ s.items else gathered states cores := by
  rw [gathered, List.filter_append, List.foldl_append]
  split
  · next hSame => simp [hSame, gathered]
  · next hOther => simp [hOther, gathered]

theorem gathered_eq_empty {states : List (StoredItems β)} {cores : OrdSet Core}
    (h : cores ∉ states.map StoredItems.cores) : gathered states cores = ∅ := by
  have hNone : states.filter (fun s => s.cores = cores) = [] := by
    rw [List.filter_eq_nil_iff]
    exact fun s hs hSame => h (List.mem_map.mpr ⟨s, hs, of_decide_eq_true hSame⟩)
  rw [gathered, hNone, List.foldl_nil]

variable [LawfulBitSet β]

theorem item_injective : Function.Injective KeyedItem.item :=
  fun _ _ => KeyedItem.item_inj.mp

theorem keeps_items (s : StoredItems β) : Keeps KeyedItem.item s s.items := by
  intro j
  rw [items, OrdSet.mem_ofList, List.mem_map]
  simp only [mem_toList]

theorem mem_items : j ∈ s.items ↔ ∃ i ∈ s, i.item = j :=
  keeps_items s j

theorem item_mem_items : i.item ∈ s.items ↔ i ∈ s :=
  (keeps_items s).apply_mem item_injective

/-- A set lists its items in the order of the item set that it keeps. -/
theorem toList_items (s : StoredItems β) : s.items.toList = s.toList.map KeyedItem.item := by
  refine OrdSet.list_ext s.items.increasing (List.pairwise_map.mpr increasing_toList) fun j => ?_
  rw [OrdSet.mem_toList, items, OrdSet.mem_ofList]

theorem size_items (s : StoredItems β) : s.items.size = s.size := by
  rw [OrdSet.size, toList_items, List.length_map, size_eq]

/-! ## Comparisons -/

theorem cores_items (hs : s.Tidy) : s.items.cores = s.cores := by
  refine OrdSet.ext fun core => ?_
  rw [ItemSet.mem_cores, cores, OrdSet.mem_ofList, List.mem_map]
  constructor
  · rintro ⟨a, ha⟩
    obtain ⟨i, hi, hItem⟩ := mem_items.mp ha
    obtain ⟨ts, hts, _⟩ := mem_iff_entries.mp hi
    exact ⟨_, hts, congrArg Item.core hItem⟩
  · rintro ⟨⟨core, ts⟩, hts, rfl⟩
    obtain ⟨a, ha⟩ := hs.exists_mem hts
    exact ⟨a.toNat, item_mem_items.mpr ((mem_iff_of_mem_entries hts).mp ha)⟩

theorem lookaheads_items (h : (core, ts) ∈ s.entries) : s.items.lookaheads core = ts.terminals := by
  refine OrdSet.ext fun n => ?_
  rw [ItemSet.mem_lookaheads, mem_items, TerminalSet.keeps_terminals ts n]
  simp only [mem_iff_of_mem_entries h]
  constructor
  · rintro ⟨i, hi, hItem⟩
    obtain ⟨rfl, rfl⟩ := Item.mk.inj hItem
    exact ⟨_, hi, rfl⟩
  · rintro ⟨a, ha, rfl⟩
    exact ⟨_, ha, rfl⟩

theorem Tidy.lookaheads?_items (hs : s.Tidy) (core : Core) :
    s.items.lookaheads? core = (s.lookaheads? core).map TerminalSet.terminals := by
  have hCores : core ∈ s.cores ↔ ∃ ts, (core, ts) ∈ s.entries := by
    rw [cores, OrdSet.mem_ofList, List.mem_map]
    simp [Prod.exists]
  rw [ItemSet.lookaheads?, cores_items hs]
  cases hFound : s.lookaheads? core with
  | none =>
    rw [if_neg, Option.map_none]
    intro hMem
    obtain ⟨ts, hts⟩ := hCores.mp hMem
    cases hFound.symm.trans (lookaheads?_eq_some_iff.mpr hts)
  | some ts =>
    have hts := lookaheads?_eq_some_iff.mp hFound
    rw [if_pos (hCores.mpr ⟨ts, hts⟩), lookaheads_items hts, Option.map_some]

/-- The entries of the item set are those of the set. -/
theorem Tidy.entries_items (hs : s.Tidy) :
    s.items.entries = s.entries.map fun e => (e.1, e.2.terminals) := by
  rw [ItemSet.entries, cores_items hs, toList_cores, List.map_map]
  refine List.map_congr_left fun e he => ?_
  exact congrArg (Prod.mk e.1) (lookaheads_items he)

theorem Tidy.compare_items (hs : s.Tidy) (ht : t.Tidy) :
    s.items.compareEntries t.items = compare s t := by
  rw [ItemSet.compareEntries, hs.entries_items, ht.entries_items, ← compareLex_map]
  refine congrArg (fun cmp => List.compareLex cmp s.entries t.entries) ?_
  funext e e'
  exact congrArg (compare e.1 e'.1).then (TerminalSet.compare_terminals e.2 e'.2)

/-! ## Operations -/

theorem items_insert (s : StoredItems β) (i : KeyedItem) :
    s.items.insertNew i.item = ((s.insert i).1, (s.insert i).2.items) :=
  (keeps_items s).insertNew item_injective (keeps_items _) grown_insert

theorem mem_ofCore {core : Core} {ts : OrdSet Terminal} :
    j ∈ ItemSet.ofCore core ts ↔ j.core = core ∧ j.lookahead ∈ ts := by
  rw [ItemSet.ofCore, OrdSet.mem_ofList, List.mem_map]
  constructor
  · rintro ⟨t, ht, rfl⟩
    exact ⟨rfl, ht⟩
  · rintro ⟨rfl, ht⟩
    exact ⟨_, ht, rfl⟩

theorem items_insertAll (s : StoredItems β) (core : Core) (ts : TerminalSet β) :
    s.items.insertAll core ts.terminals =
      ((s.insertAll core ts).1, (s.insertAll core ts).2.items) := by
  refine (keeps_items s).absorb item_injective (keeps_items _) grown_insertAll fun j => ?_
  rw [mem_ofCore, TerminalSet.keeps_terminals ts]
  constructor
  · rintro ⟨rfl, a, ha, hKey⟩
    exact ⟨⟨_, a⟩, ⟨rfl, ha⟩, by rw [KeyedItem.item, hKey]⟩
  · rintro ⟨i, ⟨rfl, hi⟩, rfl⟩
    exact ⟨rfl, _, hi, rfl⟩

theorem items_unionLookaheads (s t : StoredItems β) :
    s.items.absorb t.items = ((s.unionLookaheads t).1, (s.unionLookaheads t).2.items) :=
  (keeps_items s).absorb item_injective (keeps_items _) grown_unionLookaheads (keeps_items t)

theorem mem_kernel {g : Grammar} {symbol : Symbol} : i ∈ s.kernel g symbol ↔
    ∃ e ∈ s.entries, e.1.next g = some symbol ∧ i.core = e.1.advance ∧ i.lookahead ∈ e.2 := by
  have hFold : ∀ (entries : List (Core × TerminalSet β)) (kernel : StoredItems β),
      i ∈ entries.foldl (fun kernel e =>
        if e.1.next g = some symbol then (kernel.insertAll e.1.advance e.2).2 else kernel) kernel ↔
      i ∈ kernel ∨ ∃ e ∈ entries,
        e.1.next g = some symbol ∧ i.core = e.1.advance ∧ i.lookahead ∈ e.2 := by
    intro entries
    induction entries with
    | nil => simp
    | cons e entries ih =>
      intro kernel
      rw [List.foldl_cons, ih, List.exists_mem_cons_iff]
      split
      · next hNext =>
        rw [grown_insertAll.mem_iff, and_iff_right hNext, or_comm (b := i ∈ kernel), or_assoc]
      · next hNext => rw [or_iff_right (a := e.1.next g = some symbol ∧ _) fun h => hNext h.1]
  rw [kernel, hFold, or_iff_right not_mem_empty]

/-- The items that the kernel is made of are those with the marker moved. -/
theorem items_kernel (g : Grammar) (s : StoredItems β) (symbol : Symbol) :
    (s.kernel g symbol).items = g.shifted s.items symbol := by
  refine OrdSet.ext fun j => ?_
  rw [mem_items, g.mem_shifted]
  constructor
  · rintro ⟨i, hi, rfl⟩
    obtain ⟨⟨core, ts⟩, he, hNext, hCore, hi⟩ := mem_kernel.mp hi
    refine ⟨_, item_mem_items.mpr ((mem_iff_of_mem_entries he).mp hi), hNext, ?_⟩
    rw [KeyedItem.item, hCore]
    rfl
  · rintro ⟨j, hj, hNext, rfl⟩
    obtain ⟨i, hi, rfl⟩ := mem_items.mp hj
    obtain ⟨ts, he, hi⟩ := mem_iff_entries.mp hi
    exact ⟨⟨i.core.advance, i.lookahead⟩, mem_kernel.mpr ⟨_, he, hNext, rfl, hi⟩, rfl⟩

/-! ## The loop of the closure -/

/-- The set and the items that wait, as a worklist. -/
def Search.worklist (search : Search β) : Worklist Item :=
  ⟨search.found.items, search.waiting.map KeyedItem.item⟩

theorem worklist_search (s : StoredItems β) : s.search.worklist = Worklist.ofSet s.items := by
  rw [Search.worklist, Worklist.ofSet, toList_items]
  rfl

theorem worklist_add (search : Search β) (i : KeyedItem) :
    (search.add i).worklist = search.worklist.add i.item := by
  have hInsert := items_insert search.found i
  rw [Worklist.add, Search.worklist, Search.worklist]
  dsimp only
  rw [hInsert, Search.add]
  dsimp only
  split
  · rw [List.map_append, List.map_singleton]
  · rfl

theorem map_item_predicts (g : Grammar) (F : FirstSets) (i : KeyedItem) :
    (predicts g F i).map KeyedItem.item = g.predictsKeyed F i.item := by
  rw [predicts, List.map_map]
  rfl

theorem worklist_foldl_add (l : List KeyedItem) (search : Search β) :
    (l.foldl Search.add search).worklist =
      (l.map KeyedItem.item).foldl Worklist.add search.worklist := by
  induction l generalizing search with
  | nil => rfl
  | cons i l ih => rw [List.foldl_cons, ih, worklist_add, List.map_cons, List.foldl_cons]

theorem worklist_turn? (g : Grammar) (F : FirstSets) (search : Search β) :
    (search.turn? g F).map Search.worklist = search.worklist.turn? (g.predictsKeyed F) := by
  obtain ⟨found, waiting⟩ := search
  cases waiting with
  | nil => rfl
  | cons i rest =>
    calc (Search.turn? g F ⟨found, i :: rest⟩).map Search.worklist
      _ = some ((predicts g F i).foldl Search.add ⟨found, rest⟩).worklist := rfl
      _ = some ((g.predictsKeyed F i.item).foldl Worklist.add
            (Search.worklist ⟨found, rest⟩)) := by
        rw [worklist_foldl_add, map_item_predicts]

theorem worklist_turns? (g : Grammar) (F : FirstSets) (n : Nat) (search : Search β) :
    (search.turns? g F n).map Search.worklist =
      search.worklist.turns? (g.predictsKeyed F) n := by
  induction n generalizing search with
  | zero => rfl
  | succ n ih =>
    rw [Search.turns?, Worklist.turns?, ← worklist_turn?]
    cases search.turn? g F with
    | none => rfl
    | some later => exact ih later

/-- The loop comes to its end whatever the first sets are. -/
theorem exists_closesTo (g : Grammar) (F : FirstSets) (s : StoredItems β) :
    ∃ closed, s.ClosesTo g F closed := by
  have hTurns := worklist_turns? g F (g.closureKeyed F s.items).size s.search
  rw [worklist_search, g.turns?_closureKeyed, Option.map_eq_some_iff] at hTurns
  obtain ⟨⟨found, waiting⟩, hTurns, hList⟩ := hTurns
  obtain rfl : waiting = [] := List.map_eq_nil_iff.mp (Worklist.mk.inj hList).2
  exact ⟨found, _, hTurns⟩

theorem exists_goesTo (g : Grammar) (F : FirstSets) (s : StoredItems β) (symbol : Symbol) :
    ∃ target, s.GoesTo g F symbol target := by
  unfold GoesTo
  split
  · exact ⟨_, rfl⟩
  · exact exists_closesTo g F _

/-- The loop ends with what is computed as the closure. -/
theorem ClosesTo.items_eq (hKeys : g.KeysSuffice F) (h : s.ClosesTo g F t) :
    t.items = g.closure F s.items := by
  obtain ⟨n, hTurns⟩ := h
  have hWorklist := worklist_turns? g F n s.search
  rw [hTurns, worklist_search, Option.map_some] at hWorklist
  have hFound : ∀ j ∈ s.items, j.lookahead < UInt16.size := by
    intro j hj
    obtain ⟨i, _, rfl⟩ := mem_items.mp hj
    exact UInt16.toNat_lt _
  rw [Worklist.turns?_unique hWorklist.symm (g.turns?_closureKeyed F s.items),
    Grammar.closureKeyed_eq hKeys hFound]

theorem GoesTo.items_eq {symbol : Symbol} (hKeys : g.KeysSuffice F)
    (h : s.GoesTo g F symbol t) : t.items = g.goto F s.items symbol := by
  unfold GoesTo at h
  rw [Grammar.goto, ← items_kernel]
  split at h
  · next hEmpty => rw [h, items_of_isEmpty hEmpty, Grammar.closure_empty]
  · exact h.items_eq hKeys

/-- What it means that whatever is done with stored item sets happens to the item sets that they
keep. -/
structure InStep (s t : StoredItems β) : Prop where
  mem_iff : ∀ i, i.item ∈ s.items ↔ i ∈ s
  lookaheads?_eq : ∀ core,
    s.items.lookaheads? core = (s.lookaheads? core).map TerminalSet.terminals
  beq_iff : (s == t) = true ↔ s.items = t.items
  compare_eq : s.items.compareEntries t.items = compare s t
  toList_eq : s.items.toList = s.toList.map KeyedItem.item
  size_eq : s.items.size = s.size
  cores_eq : s.items.cores = s.cores
  isSubset_iff : s.isSubset t = true ↔ s.items ⊆ t.items
  insert : ∀ i, s.items.insertNew i.item = ((s.insert i).1, (s.insert i).2.items)
  insertAll : ∀ core ts, s.items.insertAll core ts.terminals =
    ((s.insertAll core ts).1, (s.insertAll core ts).2.items)
  unionLookaheads :
    s.items.absorb t.items = ((s.unionLookaheads t).1, (s.unionLookaheads t).2.items)
  closure : ∀ g F, g.KeysSuffice F →
    ∃ closed, s.ClosesTo g F closed ∧ closed.items = g.closure F s.items
  goto : ∀ g F symbol, g.KeysSuffice F →
    ∃ target, s.GoesTo g F symbol target ∧ target.items = g.goto F s.items symbol

theorem Tidy.inStep (hs : s.Tidy) (ht : t.Tidy) : s.InStep t where
  mem_iff _ := item_mem_items
  lookaheads?_eq := hs.lookaheads?_items
  beq_iff := by
    rw [(hs.identified ht).beq_iff, (keeps_items s).eq_iff item_injective (keeps_items t)]
  compare_eq := hs.compare_items ht
  toList_eq := toList_items s
  size_eq := size_items s
  cores_eq := cores_items hs
  isSubset_iff := by
    rw [hs.isSubset_iff, (keeps_items s).subset_iff item_injective (keeps_items t)]
  insert := items_insert s
  insertAll := items_insertAll s
  unionLookaheads := items_unionLookaheads s t
  closure g F hKeys := by
    obtain ⟨closed, hClosed⟩ := exists_closesTo g F s
    exact ⟨closed, hClosed, hClosed.items_eq hKeys⟩
  goto g F symbol hKeys := by
    obtain ⟨target, hTarget⟩ := exists_goesTo g F s symbol
    exact ⟨target, hTarget, hTarget.items_eq hKeys⟩

/-! ## Merging -/

/-- Groups by what their sets keep. -/
def Groups.kept (groups : Groups β) : List (OrdSet Core × ItemSet) :=
  groups.map fun group => (group.1, group.2.items)

/-- A set goes to the group with its cores, or makes one at the end. -/
theorem kept_add {groups : Groups β} {cores : List (OrdSet Core)} {keep : OrdSet Core → ItemSet}
    (hNodup : cores.Nodup) (h : groups.kept = cores.map fun c => (c, keep c))
    (hNew : s.cores ∉ cores → keep s.cores = ∅) :
    (groups.add s).kept = (if s.cores ∈ cores then cores else cores ++ [s.cores]).map fun c =>
      (c, if s.cores = c then keep c ∪ s.items else keep c) := by
  induction groups generalizing cores with
  | nil =>
    obtain rfl : cores = [] := List.map_eq_nil_iff.mp h.symm
    have hItems : ∅ ∪ s.items = s.items := OrdSet.ext fun j => by simp
    rw [if_neg List.not_mem_nil, Groups.add, List.nil_append, List.map_singleton, if_pos rfl,
      hNew List.not_mem_nil, hItems]
    rfl
  | cons group groups ih =>
    cases cores with
    | nil => cases h
    | cons c cores =>
      obtain ⟨hGroup, hRest⟩ := List.cons.inj h
      obtain ⟨hCores, hItems⟩ := Prod.mk.inj hGroup
      obtain ⟨hNot, hNodup⟩ := List.nodup_cons.mp hNodup
      rw [Groups.add, hCores]
      split
      · next hSame =>
        -- no later group has these cores
        have hOthers : ∀ c' ∈ cores, (c', keep c') =
            (c', if s.cores = c' then keep c' ∪ s.items else keep c') := by
          intro c' hc'
          rw [if_neg fun hEq => hNot (hSame.trans hEq ▸ hc')]
        have hUnion := congrArg Prod.snd (items_unionLookaheads group.2 s)
        rw [if_pos (List.mem_cons.mpr (.inl hSame.symm)), List.map_cons, if_pos hSame.symm,
          ← List.map_congr_left hOthers, ← hRest, ← hItems]
        exact congrArg (fun items => (c, items) :: Groups.kept groups) hUnion.symm
      · next hOther =>
        have hMem : s.cores ∈ c :: cores ↔ s.cores ∈ cores :=
          List.mem_cons.trans (or_iff_right (Ne.symm hOther))
        have hList : (if s.cores ∈ c :: cores then c :: cores else c :: cores ++ [s.cores]) =
            c :: if s.cores ∈ cores then cores else cores ++ [s.cores] := by
          rw [apply_ite (List.cons c)]
          simp only [hMem, List.cons_append]
        rw [hList, List.map_cons, if_neg (Ne.symm hOther), ← hItems,
          ← ih hNodup hRest fun hNone => hNew (mt hMem.mp hNone)]
        exact congrArg (fun c => (c, group.2.items) :: (Groups.add groups s).kept) hCores

theorem kept_groups (states : List (StoredItems β)) : (states.foldl Groups.add []).kept =
    (states.map StoredItems.cores).eraseDups.map fun c => (c, gathered states c) := by
  induction states using List.reverseRecOn with
  | nil => rfl
  | append_singleton states s ih =>
    rw [List.foldl_append, List.foldl_cons, List.foldl_nil,
      kept_add (nodup_eraseDups _) ih fun h => gathered_eq_empty (mt List.mem_eraseDups.mpr h),
      List.map_append, List.map_singleton, eraseDups_concat]
    simp only [gathered_concat, List.mem_eraseDups]

/-- Merging gathers what the states of an automaton keep, as merging the automaton does. -/
theorem map_items_merged {states : List (StoredItems β)} {automaton : Automaton}
    (hTidy : ∀ s ∈ states, s.Tidy)
    (h : automaton.states.toList.map State.items = states.map items) :
    (merged states).map items = automaton.distinctCores.map automaton.mergedItems := by
  have hCores : automaton.stateCores = states.map StoredItems.cores := by
    calc automaton.states.toList.map (fun state => state.items.cores)
      _ = (automaton.states.toList.map State.items).map ItemSet.cores := by rw [List.map_map]; rfl
      _ = states.map StoredItems.cores := by
        rw [h, List.map_map]
        exact List.map_congr_left fun s hs => cores_items (hTidy s hs)
  have hGathered : ∀ c, automaton.mergedItems c = gathered states c := by
    intro c
    have hSets : ((automaton.states.toList.map State.items).filter fun t => t.cores = c).foldl
        (· ∪ ·) ∅ = automaton.mergedItems c := by
      rw [List.filter_map, List.foldl_map]
      rfl
    have hSame : ∀ s ∈ states, decide (s.items.cores = c) = decide (s.cores = c) := fun s hs => by
      rw [cores_items (hTidy s hs)]
    rw [← hSets, h, List.filter_map, List.foldl_map, gathered, ← List.filter_congr hSame]
    rfl
  have hKept := congrArg (List.map Prod.snd) (kept_groups states)
  rw [Groups.kept, List.map_map, List.map_map] at hKept
  rw [merged, List.map_map, Automaton.distinctCores, hCores]
  exact hKept.trans (List.map_congr_left fun c _ => (hGathered c).symm)

end StoredItems

end ShiftReduce
