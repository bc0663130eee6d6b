import ShiftReduce.Proofs.Quotient

/-!
# Merged item sets are what propagation finds

The items of merged automata are defined by looking at all canonical states. They can also be
found without these, from the edges of the merged automaton alone: start with the initial items,
and carry items along the edges by `goto` until nothing new arrives. A family of item sets
`Automaton.Propagates` if carrying items on brings nothing that it does not hold, and the item sets
of the merged automaton are the least such family.

* `propagates_itemsAt`: they are such a family, since merged states are closed and hold what `goto`
  leads to.
* `subset_of_propagates`: every such family holds the canonical item sets, by induction along the
  way on which `goto` leads to them, and with them what has been merged.

Merged states have different cores, so merging them once more changes nothing (`merge_merged`).
-/

namespace ShiftReduce

theorem map_idxOf_of_nodup {α : Type} [BEq α] [LawfulBEq α] {l : List α} (h : l.Nodup) :
    l.map (fun a => l.idxOf a) = List.range l.length := by
  refine List.ext_getElem (by simp) fun i hi _ => ?_
  rw [List.length_map] at hi
  rw [List.getElem_map, List.getElem_range, h.idxOf_getElem]

namespace Grammar

variable {g : Grammar} {F : FirstSets} {s t : ItemSet} {X : Symbol}

theorem goto_mono (h : s ⊆ t) : g.goto F s X ⊆ g.goto F t X := by
  intro j hj
  obtain ⟨i, hi, hX, hReaches⟩ := g.mem_goto.mp hj
  exact g.mem_goto.mpr ⟨i, h i hi, hX, hReaches⟩

theorem closure_subset (hClosed : ∀ i ∈ s, ∀ j ∈ g.predicts F i, j ∈ s) : g.closure F s ⊆ s :=
  closure_least (OrdSet.subset_refl s) hClosed

end Grammar

namespace Automaton

/-! ## Merging twice -/

section Twice

variable {automaton : Automaton} {g : Grammar} {F : FirstSets} {cores : OrdSet Core}

theorem stateCores_merged : (automaton.merged g F).stateCores = automaton.distinctCores := by
  rw [stateCores, merged, List.toList_toArray, List.map_map]
  refine (List.map_congr_left fun cores hCores => ?_).trans (List.map_id _)
  exact cores_mergedItems hCores

/-- The cores of merged states are different already. -/
theorem distinctCores_merged : (automaton.merged g F).distinctCores = automaton.distinctCores := by
  rw [distinctCores, stateCores_merged]
  exact eraseDups_of_nodup automaton.nodup_distinctCores

/-- One merged state has given cores, and nothing is merged with it. -/
theorem mergedItems_merged (hCores : cores ∈ automaton.distinctCores) :
    (automaton.merged g F).mergedItems cores = automaton.mergedItems cores := by
  refine OrdSet.ext fun i => ?_
  rw [mem_mergedItems, merged, List.toList_toArray]
  constructor
  · rintro ⟨_, hState, rfl, hi⟩
    obtain ⟨cores', hCores', rfl⟩ := List.mem_map.mp hState
    rw [mergedStateOf, cores_mergedItems hCores']
    exact hi
  · exact fun hi => ⟨_, List.mem_map_of_mem hCores, cores_mergedItems hCores, hi⟩

theorem states_merged_merged :
    ((automaton.merged g F).merged g F).states = (automaton.merged g F).states := by
  refine congrArg List.toArray ?_
  rw [distinctCores_merged]
  refine List.map_congr_left fun cores hCores => ?_
  rw [mergedItems_merged hCores, mergedStateOf, mergedStateOf, distinctCores_merged]

/-- An automaton that has been merged is not changed by merging it again, and each of its states
goes into itself. -/
theorem merge_merged (h : ∀ cores ∈ automaton.distinctCores,
    (automaton.mergedItems cores).Known g ∧ ∀ X ∈ g.nextSymbols (automaton.mergedItems cores),
      (g.goto F (automaton.mergedItems cores) X).cores ∈ automaton.distinctCores) :
    (automaton.merged g F).merge g F = .ok
      { states := (automaton.merged g F).states
        mergeMap? := some (List.range (automaton.merged g F).size) } := by
  have hOnce : (automaton.merged g F).merge g F = .ok ((automaton.merged g F).merged g F) := by
    refine merge_eq_ok fun cores hCores => ?_
    rw [distinctCores_merged] at hCores ⊢
    rw [mergedItems_merged hCores]
    exact h cores hCores
  have hPlaces : ((automaton.merged g F).merged g F).mergeMap? =
      some (List.range (automaton.merged g F).size) := by
    rw [size_merged, ← map_idxOf_of_nodup automaton.nodup_distinctCores, merged,
      stateCores_merged, distinctCores_merged]
  rw [hOnce, ← states_merged_merged, ← hPlaces]

end Twice

/-! ## Propagation -/

/-- The items of a state, if there is one of this number. -/
def itemsAt (automaton : Automaton) (m : StateId) : ItemSet :=
  (automaton.states[m]?).elim ∅ State.items

/-- Whether a family of item sets, one for each state of the automaton, holds the initial items
and everything that `closure` and `goto` along the edges lead to from what it holds. -/
structure Propagates (automaton : Automaton) (g : Grammar) (family : StateId → ItemSet) : Prop where
  initial : g.initialItems g.firstSets ⊆ family initialState
  closure : ∀ m < automaton.size, g.closure g.firstSets (family m) ⊆ family m
  goto : ∀ (m u : StateId) (X : Symbol), automaton.edge? m X = some u →
    g.goto g.firstSets (family m) X ⊆ family u

/-- The items of the automaton are what propagation along its own edges finds: the least family
that holds all of it. -/
structure LeastPropagated (automaton : Automaton) (g : Grammar) : Prop where
  propagates : automaton.Propagates g automaton.itemsAt
  least : ∀ family, automaton.Propagates g family →
    ∀ m < automaton.size, automaton.itemsAt m ⊆ family m
  /-- An edge may lead to more lookaheads than `goto`, but to the same cores. -/
  target : ∀ (m u : StateId) (X : Symbol), automaton.edge? m X = some u →
    ∃ s t, automaton.states[m]? = some s ∧ automaton.states[u]? = some t ∧
      g.goto g.firstSets s.items X ⊆ t.items ∧
      t.items.cores = (g.goto g.firstSets s.items X).cores

section Propagation

variable {automaton : Automaton} {g : Grammar} {s : ItemSet} {state : State} {m : StateId}
  {family : StateId → ItemSet}

theorem itemsAt_of_getElem? (h : automaton.states[m]? = some state) :
    automaton.itemsAt m = state.items := by
  rw [itemsAt, h, Option.elim_some]

/-- The states of a coherent automaton hold what propagates along its edges. -/
theorem Coherent.propagates_itemsAt (hCoherent : automaton.Coherent g) :
    automaton.Propagates g automaton.itemsAt where
  initial := by
    obtain ⟨state, hState, hMem, _⟩ := hCoherent.initial
    rw [itemsAt_of_getElem? hState]
    have hClosure := Grammar.closure_subset (hCoherent.closed hState)
    intro i hi
    obtain ⟨j, hj, hReaches⟩ := (g.mem_closure _).mp hi
    rw [OrdSet.mem_singleton.mp hj] at hReaches
    exact hClosure i ((g.mem_closure _).mpr ⟨_, hMem, hReaches⟩)
  closure m hm := by
    obtain ⟨state, hState⟩ : ∃ state, automaton.states[m]? = some state :=
      ⟨_, Array.getElem?_eq_getElem hm⟩
    rw [itemsAt_of_getElem? hState]
    exact Grammar.closure_subset (hCoherent.closed hState)
  goto m u X hEdge := by
    obtain ⟨s, t, hs, ht, hGoto, _⟩ := hCoherent.exists_target hEdge
    rw [itemsAt_of_getElem? hs, itemsAt_of_getElem? ht]
    exact hGoto

/-- A family that holds what propagates along the merged edges holds each canonical item set, at
the state that it is merged into. -/
theorem subset_of_propagates
    (hFamily : ((canonical g).merged g g.firstSets).Propagates g family) (hs : s ∈ g.collection) :
    s ⊆ family ((canonical g).distinctCores.idxOf s.cores) := by
  induction hs using Grammar.collection_induction with
  | initial =>
    rw [idxOf_initial_cores]
    exact hFamily.initial
  | goto s X hs hX ih =>
    have hEdge := (edge?_merged_iff hs).mpr ⟨hX, rfl⟩
    exact OrdSet.subset_trans (Grammar.goto_mono ih) (hFamily.goto _ _ X hEdge)

theorem leastPropagated_merged (g : Grammar) :
    ((canonical g).merged g g.firstSets).LeastPropagated g where
  propagates := (coherent_merged g).propagates_itemsAt
  least family hFamily m hm i hi := by
    have hState := Array.getElem?_eq_getElem hm
    rw [itemsAt_of_getElem? hState] at hi
    obtain ⟨cores, hCores, hEq⟩ := merged_state_iff.mp hState
    rw [← hEq] at hi
    obtain ⟨s, hs, rfl, hMem⟩ := mem_mergedItems_canonical.mp hi
    rw [← idxOf_of_getElem? (nodup_distinctCores _) hCores]
    exact subset_of_propagates hFamily hs i hMem
  target _ _ _ hEdge := (coherent_merged g).exists_target hEdge

end Propagation

/-- Merging the canonical automaton of a grammar gives an automaton with the item sets that
propagation along its own edges finds, and merging that one again changes nothing. -/
theorem merged_is_least_propagated (g : Grammar) :
    ∃ merged, (canonical g).merge g g.firstSets = .ok merged ∧ merged.LeastPropagated g ∧
      merged.merge g g.firstSets =
        .ok { states := merged.states, mergeMap? := some (List.range merged.size) } :=
  ⟨_, merge_canonical g, leastPropagated_merged g,
    merge_merged fun _ hCores => mergeable_canonical hCores⟩

end Automaton

end ShiftReduce
