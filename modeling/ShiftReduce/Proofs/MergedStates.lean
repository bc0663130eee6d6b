import ShiftReduce.Table.Basic
import ShiftReduce.Proofs.CanonicalStates

/-!
# Merging the canonical automaton

Merging looks up where an edge leads by the cores of `goto`, and fails if no
state has these cores. It never fails for the canonical automaton of a grammar
(`merge_canonical`). The reason is that the cores of `goto` depend on the cores
of the item set alone (`cores_goto_congr`): an item predicts something or not
whatever its lookahead is. So the cores that a merged state leads to are those
that each of the states merged into it leads to.

The merged automaton is coherent (`coherent_merged`), and with that there is an
automaton for every grammar and either method (`Construction.exists_automaton`).
-/

namespace ShiftReduce

theorem mapM_eq_ok {ε α β : Type} {f : α → Except ε β} {h : α → β} {l : List α}
    (hf : ∀ a ∈ l, f a = .ok (h a)) : l.mapM f = .ok (l.map h) := by
  induction l with
  | nil => rfl
  | cons a l ih =>
    rw [List.forall_mem_cons] at hf
    rw [List.mapM_cons, hf.1, ih hf.2]
    rfl

theorem idxOf?_of_mem {α : Type} [BEq α] [LawfulBEq α] {l : List α} {a : α} (h : a ∈ l) :
    l.idxOf? a = some (l.idxOf a) := by
  rw [List.idxOf?_eq_some_iff]
  refine ⟨List.idxOf_lt_length_of_mem h, List.getElem_idxOf _, ?_⟩
  intro j hj hEq
  have hNot := List.not_of_lt_findIdx hj
  rw [hEq, beq_self_eq_true] at hNot
  cases hNot

namespace Grammar

variable {g : Grammar} {s t : ItemSet} {X : Symbol}

theorem mem_nextSymbols_congr (h : s.cores = t.cores) :
    X ∈ g.nextSymbols s ↔ X ∈ g.nextSymbols t := by
  rw [nextSymbols, nextSymbols, h]

end Grammar

namespace Automaton

variable {automaton : Automaton} {g : Grammar} {F : FirstSets} {cores : OrdSet Core} {i : Item}

/-! ## Merging where it succeeds -/

/-- The state with the given items and edges that are found by cores. -/
def mergedStateOf (automaton : Automaton) (g : Grammar) (F : FirstSets) (items : ItemSet) :
    State where
  items := items
  edges := (g.nextSymbols items).map fun X =>
    (X, automaton.distinctCores.idxOf (g.goto F items X).cores)

/-- The automaton with its states merged, if every edge is found. -/
def merged (automaton : Automaton) (g : Grammar) (F : FirstSets) : Automaton where
  states := (automaton.distinctCores.map fun cores =>
    automaton.mergedStateOf g F (automaton.mergedItems cores)).toArray
  mergeMap? := some (automaton.stateCores.map fun cores => automaton.distinctCores.idxOf cores)

theorem mergedTarget_eq_ok {id : StateId} {items : ItemSet} {X : Symbol}
    (h : (g.goto F items X).cores ∈ automaton.distinctCores) :
    automaton.mergedTarget g F id items X =
      .ok (X, automaton.distinctCores.idxOf (g.goto F items X).cores) := by
  rw [mergedTarget, idxOf?_of_mem h]

theorem mergedState_eq_ok {id : StateId} {items : ItemSet} (hKnown : items.Known g)
    (hTargets : ∀ X ∈ g.nextSymbols items, (g.goto F items X).cores ∈ automaton.distinctCores) :
    automaton.mergedState g F id items = .ok (automaton.mergedStateOf g F items) := by
  have hEdges : (g.nextSymbols items).mapM (automaton.mergedTarget g F id items) = .ok _ :=
    mapM_eq_ok fun X hX => mergedTarget_eq_ok (hTargets X hX)
  unfold mergedState
  rw [if_pos hKnown, hEdges]
  rfl

/-- Merging succeeds if the rules of all items are known and every edge leads to
cores that some state has. -/
theorem merge_eq_ok (h : ∀ cores ∈ automaton.distinctCores,
    (automaton.mergedItems cores).Known g ∧ ∀ X ∈ g.nextSymbols (automaton.mergedItems cores),
      (g.goto F (automaton.mergedItems cores) X).cores ∈ automaton.distinctCores) :
    automaton.merge g F = .ok (automaton.merged g F) := by
  have hStates : (automaton.distinctCores.map automaton.mergedItems).zipIdx.mapM
      (fun p => automaton.mergedState g F p.2 p.1) =
        .ok ((automaton.distinctCores.map automaton.mergedItems).zipIdx.map
          fun p => automaton.mergedStateOf g F p.1) := by
    refine mapM_eq_ok fun p hMem => ?_
    have hItems := List.mem_of_getElem? (List.mem_zipIdx_iff_getElem?.mp hMem)
    obtain ⟨cores, hCores, hEq⟩ := List.mem_map.mp hItems
    obtain ⟨hKnown, hTargets⟩ := h cores hCores
    rw [hEq] at hKnown hTargets
    exact mergedState_eq_ok hKnown hTargets
  have hMap : (automaton.distinctCores.map automaton.mergedItems).zipIdx.map
      (fun p => automaton.mergedStateOf g F p.1) =
        automaton.distinctCores.map fun cores =>
          automaton.mergedStateOf g F (automaton.mergedItems cores) := by
    have hFst := List.zipIdx_map_fst 0 (automaton.distinctCores.map automaton.mergedItems)
    have hEq := congrArg (List.map (automaton.mergedStateOf g F)) hFst
    rw [List.map_map, List.map_map] at hEq
    exact hEq
  rw [hMap] at hStates
  unfold merge
  rw [hStates]
  rfl

/-! ## The items of merged states -/

theorem mem_distinctCores : cores ∈ automaton.distinctCores ↔
    ∃ state ∈ automaton.states.toList, state.items.cores = cores := by
  rw [distinctCores, List.mem_eraseDups, stateCores, List.mem_map]

theorem nodup_distinctCores (automaton : Automaton) : automaton.distinctCores.Nodup :=
  nodup_eraseDups _

theorem size_merged : (automaton.merged g F).size = automaton.distinctCores.length := by
  simp [size, merged]

theorem mem_foldl_union {states : List State} {items : ItemSet} :
    i ∈ states.foldl (fun items state => items ∪ state.items) items ↔
      i ∈ items ∨ ∃ state ∈ states, i ∈ state.items := by
  induction states generalizing items with
  | nil => simp
  | cons state states ih =>
    rw [List.foldl_cons, ih, OrdSet.mem_union, or_assoc]
    simp only [List.mem_cons, exists_eq_or_imp]

theorem mem_mergedItems : i ∈ automaton.mergedItems cores ↔
    ∃ state ∈ automaton.states.toList, state.items.cores = cores ∧ i ∈ state.items := by
  rw [mergedItems, mem_foldl_union]
  simp only [OrdSet.not_mem_empty, false_or, List.mem_filter, decide_eq_true_iff, and_assoc]

theorem cores_mergedItems (h : cores ∈ automaton.distinctCores) :
    (automaton.mergedItems cores).cores = cores := by
  refine OrdSet.ext fun core => ?_
  rw [ItemSet.mem_cores]
  constructor
  · rintro ⟨t, ht⟩
    obtain ⟨state, _, rfl, hMem⟩ := mem_mergedItems.mp ht
    exact ItemSet.mem_cores.mpr ⟨t, hMem⟩
  · intro hCore
    obtain ⟨state, hState, rfl⟩ := mem_distinctCores.mp h
    obtain ⟨t, ht⟩ := ItemSet.mem_cores.mp hCore
    exact ⟨t, mem_mergedItems.mpr ⟨state, hState, rfl, ht⟩⟩

/-! ## Merging the canonical automaton -/

theorem mem_canonical_states {state : State} : state ∈ (canonical g).states.toList ↔
    ∃ s ∈ g.collection, canonicalState g s = state := by
  rw [canonical_states, List.toList_toArray, List.mem_map]

theorem mem_distinctCores_canonical : cores ∈ (canonical g).distinctCores ↔
    ∃ s ∈ g.collection, s.cores = cores := by
  rw [mem_distinctCores]
  constructor
  · rintro ⟨state, hState, rfl⟩
    obtain ⟨s, hs, rfl⟩ := mem_canonical_states.mp hState
    exact ⟨s, hs, rfl⟩
  · rintro ⟨s, hs, rfl⟩
    exact ⟨_, mem_canonical_states.mpr ⟨s, hs, rfl⟩, rfl⟩

theorem mem_mergedItems_canonical : i ∈ (canonical g).mergedItems cores ↔
    ∃ s ∈ g.collection, s.cores = cores ∧ i ∈ s := by
  rw [mem_mergedItems]
  constructor
  · rintro ⟨state, hState, hCores, hi⟩
    obtain ⟨s, hs, rfl⟩ := mem_canonical_states.mp hState
    exact ⟨s, hs, hCores, hi⟩
  · rintro ⟨s, hs, hCores, hi⟩
    exact ⟨_, mem_canonical_states.mpr ⟨s, hs, rfl⟩, hCores, hi⟩

/-- What a merged state leads to has the cores of what each of its states leads
to. -/
theorem cores_goto_mergedItems {s : ItemSet} (hs : s ∈ g.collection) (X : Symbol) :
    (g.goto g.firstSets ((canonical g).mergedItems s.cores) X).cores =
      (g.goto g.firstSets s X).cores :=
  Grammar.cores_goto_congr (cores_mergedItems (mem_distinctCores_canonical.mpr ⟨s, hs, rfl⟩))

theorem mem_nextSymbols_mergedItems {s : ItemSet} (hs : s ∈ g.collection) {X : Symbol} :
    X ∈ g.nextSymbols ((canonical g).mergedItems s.cores) ↔ X ∈ g.nextSymbols s :=
  Grammar.mem_nextSymbols_congr
    (cores_mergedItems (mem_distinctCores_canonical.mpr ⟨s, hs, rfl⟩))

/-- The canonical automaton has what merging looks up. -/
theorem mergeable_canonical (h : cores ∈ (canonical g).distinctCores) :
    ((canonical g).mergedItems cores).Known g ∧
      ∀ X ∈ g.nextSymbols ((canonical g).mergedItems cores),
        (g.goto g.firstSets ((canonical g).mergedItems cores) X).cores ∈
          (canonical g).distinctCores := by
  obtain ⟨s, hs, rfl⟩ := mem_distinctCores_canonical.mp h
  constructor
  · intro i hi
    obtain ⟨s', hs', _, hi⟩ := mem_mergedItems_canonical.mp hi
    obtain ⟨⟨rule, hr, _⟩, _⟩ := Grammar.belongs_of_mem_collection hs' i hi
    exact (Array.getElem?_eq_some_iff.mp hr).1
  · intro X hX
    rw [cores_goto_mergedItems hs]
    rw [mem_nextSymbols_mergedItems hs] at hX
    exact mem_distinctCores_canonical.mpr ⟨_, Grammar.goto_mem_collection hs hX, rfl⟩

theorem merge_canonical (g : Grammar) :
    (canonical g).merge g g.firstSets = .ok ((canonical g).merged g g.firstSets) :=
  merge_eq_ok fun _ hCores => mergeable_canonical hCores

theorem merged_state_iff {q : StateId} {state : State} :
    ((canonical g).merged g g.firstSets).states[q]? = some state ↔
      ∃ cores, (canonical g).distinctCores[q]? = some cores ∧
        (canonical g).mergedStateOf g g.firstSets ((canonical g).mergedItems cores) = state := by
  rw [merged, List.getElem?_toArray, List.getElem?_map, Option.map_eq_some_iff]

theorem exists_of_merged_state {q : StateId} {state : State}
    (h : ((canonical g).merged g g.firstSets).states[q]? = some state) :
    ∃ s ∈ g.collection, (canonical g).mergedStateOf g g.firstSets
      ((canonical g).mergedItems s.cores) = state := by
  obtain ⟨cores, hCores, hState⟩ := merged_state_iff.mp h
  obtain ⟨s, hs, rfl⟩ := mem_distinctCores_canonical.mp (List.mem_of_getElem? hCores)
  exact ⟨s, hs, hState⟩

theorem getElem?_merged {s : ItemSet} (hs : s ∈ g.collection) :
    ((canonical g).merged g g.firstSets).states[(canonical g).distinctCores.idxOf s.cores]? =
      some ((canonical g).mergedStateOf g g.firstSets ((canonical g).mergedItems s.cores)) := by
  have hMem := mem_distinctCores_canonical.mpr ⟨s, hs, rfl⟩
  exact merged_state_iff.mpr ⟨s.cores, List.getElem?_idxOf hMem, rfl⟩

theorem idxOf_initial_cores :
    (canonical g).distinctCores.idxOf (g.initialItems g.firstSets).cores = initialState := by
  have hHead := g.getElem?_collection_zero
  cases hCollection : g.collection with
  | nil =>
    rw [hCollection] at hHead
    cases hHead
  | cons s rest =>
    rw [hCollection, List.getElem?_cons_zero, Option.some_inj] at hHead
    rw [distinctCores, stateCores, canonical_states, List.toList_toArray, hCollection, hHead,
      List.map_cons, List.map_cons, List.eraseDups_cons]
    exact List.idxOf_cons_self

theorem coherent_merged (g : Grammar) : ((canonical g).merged g g.firstSets).Coherent g where
  initial := by
    have hMem := g.initialItems_mem_collection
    have hState := getElem?_merged hMem
    rw [idxOf_initial_cores] at hState
    refine ⟨_, hState, ?_, cores_mergedItems (mem_distinctCores_canonical.mpr ⟨_, hMem, rfl⟩)⟩
    refine mem_mergedItems_canonical.mpr ⟨_, hMem, rfl, ?_⟩
    exact (g.mem_closure _).mpr ⟨_, OrdSet.mem_singleton.mpr rfl, .refl⟩
  belongs hState i hi := by
    obtain ⟨s, _, rfl⟩ := exists_of_merged_state hState
    obtain ⟨s', hs', _, hi⟩ := mem_mergedItems_canonical.mp hi
    exact Grammar.belongs_of_mem_collection hs' i hi
  lookahead hState i hi := by
    obtain ⟨s, _, rfl⟩ := exists_of_merged_state hState
    obtain ⟨s', hs', _, hi⟩ := mem_mergedItems_canonical.mp hi
    exact Grammar.lookahead_of_mem_collection hs' i hi
  closed hState i hi j hj := by
    obtain ⟨s, _, rfl⟩ := exists_of_merged_state hState
    obtain ⟨s', hs', hCores, hi⟩ := mem_mergedItems_canonical.mp hi
    exact mem_mergedItems_canonical.mpr ⟨s', hs', hCores, Grammar.collection_closed hs' i hi j hj⟩
  symbols hState := by
    obtain ⟨s, _, rfl⟩ := exists_of_merged_state hState
    rw [mergedStateOf, List.map_map]
    exact List.map_id _
  target hState hEdge := by
    obtain ⟨s, hs, rfl⟩ := exists_of_merged_state hState
    obtain ⟨_, hX, hEq⟩ := List.mem_map.mp hEdge
    cases hEq
    have hX' := (mem_nextSymbols_mergedItems hs).mp hX
    have hGoto := Grammar.goto_mem_collection hs hX'
    have hNext := getElem?_merged hGoto
    rw [← cores_goto_mergedItems hs] at hNext
    refine ⟨_, hNext, ?_, cores_mergedItems ?_⟩
    · intro j hj
      obtain ⟨i, hi, hiX, hReaches⟩ := g.mem_goto.mp hj
      obtain ⟨s', hs', hCores, hi⟩ := mem_mergedItems_canonical.mp hi
      have hMem : j ∈ g.goto g.firstSets s' _ := g.mem_goto.mpr ⟨i, hi, hiX, hReaches⟩
      have hX'' := (g.mem_nextSymbols (s := s')).mpr ⟨i, hi, hiX⟩
      refine mem_mergedItems_canonical.mpr ⟨_, Grammar.goto_mem_collection hs' hX'', ?_, hMem⟩
      rw [← cores_goto_mergedItems hs', hCores]
    · rw [cores_goto_mergedItems hs]
      exact mem_distinctCores_canonical.mpr ⟨_, hGoto, rfl⟩

end Automaton

/-! ## An automaton for every grammar -/

/-- Either method finds a coherent automaton for every grammar. -/
theorem Construction.exists_automaton (construction : Construction) (g : Grammar) :
    ∃ automaton, construction.automaton g = .ok automaton ∧ automaton.Coherent g := by
  unfold automaton
  cases construction.algorithm with
  | canonical => exact ⟨_, rfl, Automaton.coherent_canonical g⟩
  | merged => exact ⟨_, Automaton.merge_canonical g, Automaton.coherent_merged g⟩

end ShiftReduce
