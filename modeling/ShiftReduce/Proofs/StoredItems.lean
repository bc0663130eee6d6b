import ShiftReduce.Item.Stored
import ShiftReduce.Proofs.TerminalSets

/-!
# Item sets are known by their items

Under each core of a stored item set stands the list of its lookaheads in ascending order, and the
cores are in order themselves. These lists say all that a set is compared by (`keyEntries`). They
are determined by the items as long as no core stands there without a lookahead (`Tidy`,
`keyEntries_eq_iff`), which every operation sees to.
-/

namespace ShiftReduce

theorem KeyedItem.item_inj {i j : KeyedItem} : i.item = j.item ↔ i = j := by
  cases i
  cases j
  simp [KeyedItem.item, UInt16.toNat_inj]

namespace StoredItems

variable {β : Type} [BitSet β] {s t u : StoredItems β} {i j : KeyedItem} {core : Core}
  {ts : TerminalSet β}

theorem lookaheads?_eq_some_iff : s.lookaheads? core = some ts ↔ (core, ts) ∈ s.entries :=
  OrdMap.find?_eq_some_iff

/-- What a set is compared by: its cores, each with its lookaheads in order. -/
def keyEntries (s : StoredItems β) : List (Core × List Key) :=
  s.entries.map fun e => (e.1, e.2.toList)

theorem increasing_keyEntries :
    s.keyEntries.Pairwise fun e e' => compare e.1 e'.1 = .lt :=
  List.pairwise_map.mpr s.map.increasing

theorem toList_eq : s.toList = s.keyEntries.flatMap fun e => e.2.map fun t => ⟨e.1, t⟩ := by
  rw [keyEntries, List.flatMap_map, toList]

/-! ## Comparisons look at nothing else -/

/-- Entries are compared by their cores and the lists of their lookaheads. -/
def compareKeyEntry : Core × List Key → Core × List Key → Ordering :=
  compareLex (compareOn Prod.fst) (compareOn Prod.snd)

instance : Std.TransCmp compareKeyEntry :=
  inferInstanceAs (Std.TransCmp (compareLex (compareOn Prod.fst) (compareOn Prod.snd)))

instance : Std.LawfulEqCmp compareKeyEntry where
  compare_self := Std.ReflCmp.compare_self
  eq_of_compare {e e'} h := by
    obtain ⟨hCores, hLists⟩ := compareLex_eq_eq.mp h
    exact Prod.ext (Std.LawfulEqOrd.eq_of_compare hCores) (Std.LawfulEqOrd.eq_of_compare hLists)

theorem beq_iff_map {α γ : Type} [BEq α] {f : α → γ} (hf : ∀ a b, (a == b) = true ↔ f a = f b)
    {l m : List α} : (l == m) = true ↔ l.map f = m.map f := by
  induction l generalizing m with
  | nil => cases m <;> simp
  | cons a l ih =>
    cases m with
    | nil => simp
    | cons b m =>
      rw [List.cons_beq_cons, Bool.and_eq_true, hf, ih, List.map_cons, List.map_cons,
        List.cons.injEq]

theorem beq_iff_keyEntries : (s == t) = true ↔ s.keyEntries = t.keyEntries := by
  refine beq_iff_map (l := s.entries) fun e e' => ?_
  change (e.1 == e'.1 && e.2 == e'.2) = true ↔ _
  rw [Bool.and_eq_true, beq_iff_eq, TerminalSet.beq_iff_toList, Prod.mk.injEq]

theorem compare_eq : compare s t = List.compareLex compareKeyEntry s.keyEntries t.keyEntries := by
  rw [keyEntries, keyEntries, ← compareLex_map]
  rfl

/-- Whether an entry comes before another one: by its core, and with the same core by the list of
its lookaheads. -/
def EntryBefore (e e' : Core × List Key) : Prop :=
  compare e.1 e'.1 = .lt ∨ e.1 = e'.1 ∧ List.Lex (· < ·) e.2 e'.2

theorem compareKeyEntry_eq_lt_iff {e e' : Core × List Key} :
    compareKeyEntry e e' = .lt ↔ EntryBefore e e' := by
  change (compare e.1 e'.1).then (compare e.2 e'.2) = .lt ↔ _
  rw [Ordering.then_eq_lt, Std.LawfulEqOrd.compare_eq_iff_eq, compare_list_eq_lt_iff]
  rfl

theorem compare_eq_lt_iff :
    compare s t = .lt ↔ List.Lex EntryBefore s.keyEntries t.keyEntries := by
  rw [compare_eq, compareLex_eq_lt_iff]
  simp only [compareKeyEntry_eq_lt_iff]

theorem ordered (s t u : StoredItems β) : Ordered s t u where
  eq_iff := by rw [compare_eq, Std.LawfulEqCmp.compare_eq_iff_eq, beq_iff_keyEntries]
  swap := by
    rw [compare_eq, compare_eq]
    exact Std.OrientedCmp.eq_swap
  trans := by
    rw [compare_eq, compare_eq, compare_eq]
    exact Std.TransCmp.isLE_trans

/-- What is hashed of the entries. -/
def keyWords (entries : List (Core × List Key)) : List HashWord :=
  entries.flatMap fun e => .number e.1.rule :: .size e.1.marker :: .size e.2.length ::
    e.2.map fun a => .number a.toNat

/-- The sizes say where a list ends, so entries can be told from what is hashed of them. -/
theorem keyWords_inj {l m : List (Core × List Key)} (hLength : l.length = m.length)
    (h : keyWords l = keyWords m) : l = m := by
  induction l generalizing m with
  | nil => exact (List.length_eq_zero_iff.mp hLength.symm).symm
  | cons e l ih =>
    cases m with
    | nil => cases hLength
    | cons e' m =>
      obtain ⟨⟨rule, marker⟩, list⟩ := e
      obtain ⟨⟨rule', marker'⟩, list'⟩ := e'
      simp only [keyWords, List.flatMap_cons, List.cons_append, List.cons.injEq,
        HashWord.number.injEq, HashWord.size.injEq] at h
      obtain ⟨rfl, rfl, hLists, hWords⟩ := h
      obtain ⟨hList, hRest⟩ := List.append_inj hWords (by simpa using hLists)
      have hSame : list = list' := List.map_injective_iff.mpr
        (fun a b hab => UInt16.toNat_inj.mp (HashWord.number.inj hab)) hList
      rw [hSame, ih (Nat.succ.inj hLength) hRest]

/-- Whether no core stands there without a lookahead. -/
def Tidy (s : StoredItems β) : Prop := ∀ e ∈ s.entries, e.2.isEmpty = false

theorem tidy_empty : (empty : StoredItems β).Tidy :=
  List.forall_mem_nil _

variable [LawfulBitSet β]

theorem hashed_eq : s.hashed = .size s.keyEntries.length :: keyWords s.keyEntries := by
  rw [hashed, keyWords, keyEntries, List.length_map, List.flatMap_map]
  simp only [TerminalSet.hashed_eq]

theorem hashed_eq_iff : s.hashed = t.hashed ↔ s.keyEntries = t.keyEntries := by
  rw [hashed_eq, hashed_eq]
  refine ⟨fun h => ?_, fun h => by rw [h]⟩
  obtain ⟨hLength, hWords⟩ := List.cons.inj h
  exact keyWords_inj (HashWord.size.inj hLength) hWords

/-! ## The items in order -/

/-- An item is in a set if its lookahead is one of those under its core. -/
theorem mem_iff_lookaheads : i ∈ s ↔ i.lookahead ∈ s.lookaheads i.core := by
  have hAny : i ∈ s ↔ ∃ ts, s.lookaheads? i.core = some ts ∧ i.lookahead ∈ ts :=
    Option.any_eq_true _ _
  rw [hAny, lookaheads]
  cases s.lookaheads? i.core with
  | none => simp [TerminalSet.not_mem_empty]
  | some ts => simp

/-- One set of lookaheads stands under each core. -/
theorem mem_iff_of_mem_entries (h : (core, ts) ∈ s.entries) {a : Key} :
    a ∈ ts ↔ (⟨core, a⟩ : KeyedItem) ∈ s := by
  rw [mem_iff_lookaheads, lookaheads, lookaheads?_eq_some_iff.mpr h, Option.getD_some]

theorem mem_iff_entries : i ∈ s ↔ ∃ ts, (i.core, ts) ∈ s.entries ∧ i.lookahead ∈ ts := by
  constructor
  · intro hi
    rw [mem_iff_lookaheads, lookaheads] at hi
    cases hFound : s.lookaheads? i.core with
    | none =>
      rw [hFound] at hi
      exact absurd hi TerminalSet.not_mem_empty
    | some ts =>
      rw [hFound] at hi
      exact ⟨ts, lookaheads?_eq_some_iff.mp hFound, hi⟩
  · rintro ⟨ts, hEntry, hi⟩
    exact (mem_iff_of_mem_entries hEntry).mp hi

theorem mem_iff_keyEntries : i ∈ s ↔ ∃ l, (i.core, l) ∈ s.keyEntries ∧ i.lookahead ∈ l := by
  rw [mem_iff_entries]
  constructor
  · rintro ⟨ts, hEntry, hMem⟩
    exact ⟨ts.toList, List.mem_map.mpr ⟨_, hEntry, rfl⟩, TerminalSet.mem_toList.mpr hMem⟩
  · rintro ⟨l, hEntry, hMem⟩
    obtain ⟨⟨core, ts⟩, hKept, hEq⟩ := List.mem_map.mp hEntry
    obtain ⟨rfl, rfl⟩ := Prod.mk.inj hEq
    exact ⟨ts, hKept, TerminalSet.mem_toList.mp hMem⟩

theorem mem_toList : i ∈ s.toList ↔ i ∈ s := by
  rw [toList_eq, mem_iff_keyEntries, List.mem_flatMap]
  constructor
  · rintro ⟨⟨core, l⟩, hEntry, hMem⟩
    obtain ⟨a, ha, rfl⟩ := List.mem_map.mp hMem
    exact ⟨l, hEntry, ha⟩
  · rintro ⟨l, hEntry, hMem⟩
    exact ⟨_, hEntry, List.mem_map.mpr ⟨_, hMem, rfl⟩⟩

theorem increasing_toList : s.toList.Pairwise fun i j => compare i.item j.item = .lt := by
  rw [toList, List.pairwise_flatMap]
  constructor
  · intro e _
    rw [List.pairwise_map]
    refine (TerminalSet.increasing_toList (s := e.2)).imp fun {a b} hLt => ?_
    exact Item.compare_eq_lt.mpr (.inr ⟨rfl, UInt16.lt_iff_toNat_lt.mp hLt⟩)
  · refine s.map.increasing.imp fun {e e'} hLt i hi j hj => Item.compare_eq_lt.mpr (.inl ?_)
    obtain ⟨a, _, rfl⟩ := List.mem_map.mp hi
    obtain ⟨b, _, rfl⟩ := List.mem_map.mp hj
    exact hLt

theorem listed (s : StoredItems β) : Listed (fun i j => compare i.item j.item = .lt) s.toList s :=
  ⟨fun _ => mem_toList, increasing_toList⟩

theorem size_eq : s.size = s.toList.length := by
  have hFold : ∀ (entries : List (Core × TerminalSet β)) (n : Nat),
      entries.foldl (fun n e => n + e.2.size) n = n + (entries.flatMap fun e =>
        e.2.toList.map fun t => (⟨e.1, t⟩ : KeyedItem)).length := by
    intro entries
    induction entries with
    | nil => exact fun n => rfl
    | cons e entries ih =>
      intro n
      rw [List.foldl_cons, ih, List.flatMap_cons, List.length_append, List.length_map,
        TerminalSet.size_eq, Nat.add_assoc]
  rw [size, hFold, Nat.zero_add, toList]

/-! ## Sets without empty entries -/

theorem Tidy.exists_mem (hs : s.Tidy) (h : (core, ts) ∈ s.entries) : ∃ a, a ∈ ts := by
  have hNe : ts.toList ≠ [] := fun hNil =>
    Bool.false_ne_true ((hs _ h).symm.trans (TerminalSet.isEmpty_iff.mpr hNil))
  obtain ⟨a, ha⟩ := List.exists_mem_of_ne_nil _ hNe
  exact ⟨a, TerminalSet.mem_toList.mp ha⟩

/-- An entry with a lookahead can be told from the items. -/
theorem Tidy.mem_keyEntries (hs : s.Tidy) (h : ∀ i, i ∈ s ↔ i ∈ t) {e : Core × List Key}
    (he : e ∈ s.keyEntries) : e ∈ t.keyEntries := by
  obtain ⟨⟨core, ts⟩, hts, rfl⟩ := List.mem_map.mp he
  obtain ⟨a, ha⟩ := hs.exists_mem hts
  obtain ⟨ts', hts', _⟩ := mem_iff_entries.mp ((h _).mp ((mem_iff_of_mem_entries hts).mp ha))
  have hSame : ts.toList = ts'.toList := TerminalSet.toList_eq_iff.mpr fun b => by
    rw [mem_iff_of_mem_entries hts, mem_iff_of_mem_entries hts', h]
  exact List.mem_map.mpr ⟨_, hts', by rw [hSame]⟩

theorem Tidy.keyEntries_eq_iff (hs : s.Tidy) (ht : t.Tidy) :
    s.keyEntries = t.keyEntries ↔ ∀ i, i ∈ s ↔ i ∈ t := by
  constructor
  · exact fun h i => by rw [mem_iff_keyEntries, h, mem_iff_keyEntries]
  · intro h
    have hAntisymm : Std.Antisymm fun e e' : Core × List Key => compare e.1 e'.1 = .lt :=
      ⟨fun e e' hLt hGt => absurd rfl (OrdMap.ne_of_lt (Std.TransCmp.lt_trans hLt hGt))⟩
    have hIrrefl : Std.Irrefl fun e e' : Core × List Key => compare e.1 e'.1 = .lt :=
      ⟨fun e hLt => OrdMap.ne_of_lt hLt rfl⟩
    exact increasing_keyEntries.eq_of_mem_iff increasing_keyEntries fun e =>
      ⟨hs.mem_keyEntries h, ht.mem_keyEntries fun i => (h i).symm⟩

theorem Tidy.identified (hs : s.Tidy) (ht : t.Tidy) : Identified toList hashed s t where
  beq_iff := beq_iff_keyEntries.trans (hs.keyEntries_eq_iff ht)
  compare_iff := by
    rw [compare_eq, Std.LawfulEqCmp.compare_eq_iff_eq, hs.keyEntries_eq_iff ht]
  hash_iff := by rw [hashAlike_iff, hashed_eq_iff, hs.keyEntries_eq_iff ht]
  toList_iff := by
    constructor
    · exact fun h i => by rw [← mem_toList, h, mem_toList]
    · intro h
      rw [toList_eq, toList_eq, (hs.keyEntries_eq_iff ht).mpr h]

theorem Tidy.isSubset_iff (hs : s.Tidy) : s.isSubset t = true ↔ ∀ i ∈ s, i ∈ t := by
  have hAll : s.isSubset t = true ↔ ∀ e ∈ s.entries, ∃ ts, (e.1, ts) ∈ t.entries ∧
      ∀ a ∈ e.2, a ∈ ts := by
    rw [isSubset, List.all_eq_true]
    refine forall₂_congr fun e _ => ?_
    rw [Option.any_eq_true]
    simp only [lookaheads?_eq_some_iff, TerminalSet.isSubset_iff]
  rw [hAll]
  constructor
  · intro h i hi
    obtain ⟨ts, hts, hMem⟩ := mem_iff_entries.mp hi
    obtain ⟨ts', hts', hSubset⟩ := h _ hts
    exact mem_iff_entries.mpr ⟨ts', hts', hSubset _ hMem⟩
  · rintro h ⟨core, ts⟩ hts
    obtain ⟨a, ha⟩ := hs.exists_mem hts
    obtain ⟨ts', hts', _⟩ := mem_iff_entries.mp (h _ ((mem_iff_of_mem_entries hts).mp ha))
    refine ⟨ts', hts', fun b hb => (mem_iff_of_mem_entries hts').mpr ?_⟩
    exact h _ ((mem_iff_of_mem_entries hts).mp hb)

/-! ## What operations add -/

/-- Putting lookaheads under a core changes those under this core only. -/
theorem mem_put : i ∈ (⟨s.map.put core ts⟩ : StoredItems β) ↔
    if i.core = core then i.lookahead ∈ ts else i ∈ s := by
  rw [mem_iff_lookaheads, mem_iff_lookaheads, lookaheads, lookaheads?, OrdMap.find?_put]
  split
  · rfl
  · rfl

/-- Lookaheads that are more by some than those that stood there. -/
theorem grown_put {added : Key → Prop} {outcome : Bool × TerminalSet β}
    (h : Grown (s.lookaheads core) added outcome) :
    Grown s (fun i => i.core = core ∧ added i.lookahead)
      (outcome.1, (⟨s.map.put core outcome.2⟩ : StoredItems β)) where
  mem_iff i := by
    rw [mem_put]
    split
    · next hCore => rw [h.mem_iff, mem_iff_lookaheads, hCore, and_iff_right rfl]
    · next hCore => rw [or_iff_right fun hAdded => hCore hAdded.1]
  reported := by
    rw [h.reported]
    constructor
    · rintro ⟨a, ha, hNew⟩
      refine ⟨⟨core, a⟩, mem_put.mpr ?_, mt mem_iff_lookaheads.mp hNew⟩
      rwa [if_pos rfl]
    · rintro ⟨i, hi, hNew⟩
      rw [mem_put] at hi
      split at hi
      · next hCore => exact ⟨i.lookahead, hi, fun h => hNew (mem_iff_lookaheads.mpr (hCore ▸ h))⟩
      · exact absurd hi hNew

theorem grown_insert : Grown s (· = i) (s.insert i) :=
  (grown_put TerminalSet.grown_insert).congr fun _ => KeyedItem.ext_iff

theorem grown_insertAll :
    Grown s (fun i => i.core = core ∧ i.lookahead ∈ ts) (s.insertAll core ts) := by
  unfold insertAll
  split
  · next hEmpty =>
    refine Grown.nothing.congr fun i => iff_false_intro fun h => ?_
    rw [← TerminalSet.mem_toList, TerminalSet.isEmpty_iff.mp hEmpty] at h
    exact List.not_mem_nil h.2
  · exact grown_put TerminalSet.grown_union

theorem grown_insertEntries {entries : List (Core × TerminalSet β)} :
    Grown s (fun i => ∃ e ∈ entries, i.core = e.1 ∧ i.lookahead ∈ e.2)
      (s.insertEntries entries) :=
  (Grown.foldl (fun _ _ => grown_insertAll) entries .nothing).congr fun _ =>
    (or_iff_right not_false).symm

theorem grown_unionLookaheads : Grown s (· ∈ t) (s.unionLookaheads t) := by
  refine grown_insertEntries.congr fun i => mem_iff_entries.trans ?_
  constructor
  · rintro ⟨ts, hEntry, hi⟩
    exact ⟨_, hEntry, rfl, hi⟩
  · rintro ⟨⟨core, ts⟩, hEntry, rfl, hi⟩
    exact ⟨ts, hEntry, hi⟩

theorem not_mem_empty : i ∉ (empty : StoredItems β) := by
  rw [mem_iff_entries]
  rintro ⟨_, hEntry, _⟩
  cases hEntry

theorem mem_ofItems {l : List KeyedItem} : i ∈ (ofItems l : StoredItems β) ↔ i ∈ l := by
  have hFold := foldl_insert_iff (fun (s : StoredItems β) i => i ∈ s) (fun s j => (s.insert j).2)
    (fun s j k => grown_insert.mem_iff k) l empty i
  exact hFold.trans (or_iff_right not_mem_empty)

/-! ## What operations leave behind -/

theorem Tidy.put (hs : s.Tidy) {a : Key} (ha : a ∈ ts) :
    (⟨s.map.put core ts⟩ : StoredItems β).Tidy := by
  intro e he
  rcases OrdMap.mem_put.mp he with rfl | ⟨he, _⟩
  · exact TerminalSet.isEmpty_eq_false ha
  · exact hs e he

theorem Tidy.insert (hs : s.Tidy) (i : KeyedItem) : (s.insert i).2.Tidy :=
  hs.put (TerminalSet.mem_insert.mpr (.inl rfl))

theorem Tidy.insertAll (hs : s.Tidy) (core : Core) (ts : TerminalSet β) :
    (s.insertAll core ts).2.Tidy := by
  unfold StoredItems.insertAll
  split
  · exact hs
  · next hNonempty =>
    have hNe : ts.toList ≠ [] := mt TerminalSet.isEmpty_iff.mpr hNonempty
    obtain ⟨a, ha⟩ := List.exists_mem_of_ne_nil _ hNe
    exact hs.put (TerminalSet.mem_union.mpr (.inl (TerminalSet.mem_toList.mp ha)))

theorem Tidy.insertEntries (hs : s.Tidy) (entries : List (Core × TerminalSet β)) :
    (s.insertEntries entries).2.Tidy :=
  List.foldlRecOn (motive := fun now : Bool × StoredItems β => now.2.Tidy) entries _ hs
    fun _ hNow e _ => hNow.insertAll e.1 e.2

theorem tidy_ofItems (l : List KeyedItem) : (ofItems l : StoredItems β).Tidy :=
  List.foldlRecOn (motive := fun s : StoredItems β => s.Tidy) l _ tidy_empty
    fun _ hs i _ => hs.insert i

theorem tidy_kernel (g : Grammar) (s : StoredItems β) (symbol : Symbol) :
    (s.kernel g symbol).Tidy := by
  refine List.foldlRecOn (motive := fun s : StoredItems β => s.Tidy) s.entries _ tidy_empty ?_
  intro kernel hKernel e _
  split
  · exact hKernel.insertAll _ _
  · exact hKernel

theorem Tidy.turn {g : Grammar} {F : FirstSets} {search search' : Search β}
    (h : search.found.Tidy) (hTurn : search.turn? g F = some search') : search'.found.Tidy := by
  unfold Search.turn? at hTurn
  split at hTurn
  · cases hTurn
  · next rest _ =>
    cases hTurn
    exact List.foldlRecOn (motive := fun search : Search β => search.found.Tidy) _ _ h
      fun _ hFound i _ => hFound.insert i

theorem Tidy.turns {g : Grammar} {F : FirstSets} {n : Nat} {search search' : Search β}
    (h : search.found.Tidy) (hTurns : search.turns? g F n = some search') :
    search'.found.Tidy := by
  induction n generalizing search with
  | zero =>
    cases hTurns
    exact h
  | succ n ih =>
    obtain ⟨next, hTurn, hTurns⟩ := Option.bind_eq_some_iff.mp hTurns
    exact ih (h.turn hTurn) hTurns

theorem Tidy.closesTo {g : Grammar} {F : FirstSets} (hs : s.Tidy) (h : s.ClosesTo g F t) :
    t.Tidy := by
  obtain ⟨n, hTurns⟩ := h
  have hFound : s.search.found.Tidy := hs
  exact hFound.turns hTurns

theorem GoesTo.tidy {g : Grammar} {F : FirstSets} {symbol : Symbol}
    (h : s.GoesTo g F symbol t) : t.Tidy := by
  unfold GoesTo at h
  split at h
  · exact h ▸ tidy_kernel g s symbol
  · exact (tidy_kernel g s symbol).closesTo h

theorem tidy_groups_add {groups : Groups β} (h : ∀ group ∈ groups, group.2.Tidy) (hs : s.Tidy) :
    ∀ group ∈ groups.add s, group.2.Tidy := by
  induction groups with
  | nil => exact List.forall_mem_singleton.mpr hs
  | cons first groups ih =>
    rw [List.forall_mem_cons] at h
    unfold Groups.add
    split
    · exact List.forall_mem_cons.mpr ⟨h.1.insertEntries s.entries, h.2⟩
    · exact List.forall_mem_cons.mpr ⟨h.1, ih h.2⟩

theorem tidy_merged {states : List (StoredItems β)} (h : ∀ s ∈ states, s.Tidy) :
    ∀ s ∈ merged states, s.Tidy := by
  have hGroups : ∀ group ∈ states.foldl Groups.add [], group.2.Tidy :=
    List.foldlRecOn (motive := fun groups : Groups β => ∀ group ∈ groups, group.2.Tidy)
      states _ (List.forall_mem_nil _) fun _ hGroups s hs => tidy_groups_add hGroups (h s hs)
  exact List.forall_mem_map.mpr hGroups

theorem tidy_iff_keyEntries : s.Tidy ↔ ∀ e ∈ s.keyEntries, e.2 ≠ [] := by
  rw [keyEntries, List.forall_mem_map]
  refine forall₂_congr fun e _ => ?_
  rw [Bool.eq_false_iff, ne_eq, TerminalSet.isEmpty_iff]

/-- Only these sets are known by their items: any other one differs from the set that its items are
collected into. -/
theorem tidy_iff_beq_ofItems : s.Tidy ↔ (s == ofItems s.toList) = true := by
  constructor
  · intro hs
    rw [(hs.identified (tidy_ofItems _)).beq_iff]
    exact fun i => by rw [mem_ofItems, mem_toList]
  · intro h
    rw [tidy_iff_keyEntries, beq_iff_keyEntries.mp h, ← tidy_iff_keyEntries]
    exact tidy_ofItems _

/-- What it means that stored item sets stand for the sets of their items. -/
structure Faithful (s t u : StoredItems β) : Prop where
  tidy : s.Tidy
  identified : Identified toList hashed s t
  ordered : Ordered s t u
  lexicographic : compare s t = .lt ↔ List.Lex EntryBefore s.keyEntries t.keyEntries
  listed : Listed (fun i j => compare i.item j.item = .lt) s.toList s
  size_eq : s.size = s.toList.length
  isSubset_iff : s.isSubset t = true ↔ ∀ i ∈ s, i ∈ t
  grown_insert : ∀ i, Grown s (· = i) (s.insert i)
  grown_insertAll : ∀ core ts,
    Grown s (fun i => i.core = core ∧ i.lookahead ∈ ts) (s.insertAll core ts)
  grown_unionLookaheads : Grown s (· ∈ t) (s.unionLookaheads t)

theorem Tidy.faithful (hs : s.Tidy) (ht : t.Tidy) (u : StoredItems β) : s.Faithful t u where
  tidy := hs
  identified := hs.identified ht
  ordered := ordered s t u
  lexicographic := compare_eq_lt_iff
  listed := listed s
  size_eq := size_eq
  isSubset_iff := hs.isSubset_iff
  grown_insert _ := grown_insert
  grown_insertAll _ _ := grown_insertAll
  grown_unionLookaheads := grown_unionLookaheads

end StoredItems

end ShiftReduce
