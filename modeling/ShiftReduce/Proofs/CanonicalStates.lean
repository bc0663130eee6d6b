import Mathlib.Data.List.Basic
import ShiftReduce.Proofs.Coherence

/-!
# Canonical automata are coherent

The states of the canonical automaton are the item sets of `Grammar.collection`
in order, so a fact about a state is a fact about an item set that `goto` leads
to from the initial items. Its edges lead to exactly what `goto` gives.
-/

namespace ShiftReduce

namespace Grammar

variable {g : Grammar} {s : ItemSet} {X : Symbol}

theorem initialItems_mem_collection : g.initialItems g.firstSets ∈ g.collection :=
  mem_reachable_of_mem List.mem_cons_self

theorem goto_mem_collection (hs : s ∈ g.collection) (hX : X ∈ g.nextSymbols s) :
    g.goto g.firstSets s X ∈ g.collection :=
  mem_reachable_of_mem_next hs (List.mem_map_of_mem hX)

/-- Every set of the collection is made from the initial one by `goto`. -/
theorem collection_induction {motive : (s : ItemSet) → s ∈ g.collection → Prop}
    (initial : motive _ initialItems_mem_collection)
    (goto : ∀ (s : ItemSet) (X : Symbol) (hs : s ∈ g.collection) (hX : X ∈ g.nextSymbols s),
      motive s hs → motive _ (goto_mem_collection hs hX)) (hs : s ∈ g.collection) :
    motive s hs := by
  refine (forall_mem_reachable (Q := fun s => ∃ hs : s ∈ g.collection, motive s hs) ?_ ?_ s hs).2
  · intro s' hs'
    cases List.mem_singleton.mp hs'
    exact ⟨initialItems_mem_collection, initial⟩
  · rintro s' ⟨hMem, hMotive⟩ _ hNext
    obtain ⟨X, hX, rfl⟩ := List.mem_map.mp hNext
    exact ⟨goto_mem_collection hMem hX, goto s' X hMem hX hMotive⟩

theorem getElem?_collection_zero (g : Grammar) :
    g.collection[0]? = some (g.initialItems g.firstSets) :=
  getElem?_reachable_zero

/-- Every set of the collection is the initial one or a `goto`. -/
theorem eq_initial_or_goto (hs : s ∈ g.collection) : s = g.initialItems g.firstSets ∨
    ∃ s' ∈ g.collection, ∃ X ∈ g.nextSymbols s', s = g.goto g.firstSets s' X := by
  induction hs using collection_induction with
  | initial => exact .inl rfl
  | goto s X hs hX _ => exact .inr ⟨s, hs, X, hX, rfl⟩

theorem belongs_of_mem_collection (hs : s ∈ g.collection) : ∀ i ∈ s, i.Belongs g := by
  induction hs using collection_induction with
  | initial => exact g.belongs_of_mem_initialItems
  | goto s X _ _ ih => exact g.belongs_of_mem_goto ih X

/-- The end marker alone is ever a lookahead of the augmented rule, since no item
predicts that rule. -/
theorem lookahead_of_reaches {i j : Item} (h : Reaches (g.predicts g.firstSets) i j)
    (hi : i.core.rule = augmentedRule → i.lookahead = endMarker) :
    j.core.rule = augmentedRule → j.lookahead = endMarker := by
  cases h with
  | refl => exact hi
  | tail _ hj =>
    intro h0
    obtain ⟨n, tail, hRest, hn, _, _⟩ := (g.mem_predicts _).mp hj
    obtain ⟨rule, hr, rfl⟩ := g.mem_rulesOf.mp hn
    have hMem : .nonterminal rule.left ∈ Core.rest g _ := hRest ▸ List.mem_cons_self
    exact absurd h0 (rule_ne_augmentedRule hr hMem)

theorem lookahead_of_mem_collection (hs : s ∈ g.collection) :
    ∀ i ∈ s, i.core.rule = augmentedRule → i.lookahead = endMarker := by
  induction hs using collection_induction with
  | initial =>
    intro i hi
    obtain ⟨j, hj, hReaches⟩ := (g.mem_closure _).mp hi
    rw [OrdSet.mem_singleton.mp hj] at hReaches
    exact lookahead_of_reaches hReaches fun _ => rfl
  | goto s X _ _ ih =>
    intro i hi
    obtain ⟨j, hj, _, hReaches⟩ := g.mem_goto.mp hi
    exact lookahead_of_reaches hReaches (ih j hj)

theorem collection_closed (hs : s ∈ g.collection) :
    ∀ i ∈ s, ∀ j ∈ g.predicts g.firstSets i, j ∈ s := by
  rcases eq_initial_or_goto hs with rfl | ⟨s', _, X, _, rfl⟩
  · exact fun i hi j hj => closure_closed hi hj
  · exact fun i hi j hj => closure_closed hi hj

end Grammar

namespace Automaton

variable {g : Grammar} {s : ItemSet} {X : Symbol} {q p : StateId} {state : State}

def canonicalState (g : Grammar) (s : ItemSet) : State where
  items := s
  edges := (g.nextSymbols s).map fun X => (X, g.collection.idxOf (g.goto g.firstSets s X))

theorem canonical_states (g : Grammar) :
    (canonical g).states = (g.collection.map (canonicalState g)).toArray := rfl

theorem canonical_state_iff : (canonical g).states[q]? = some state ↔
    ∃ s, g.collection[q]? = some s ∧ canonicalState g s = state := by
  rw [canonical_states, List.getElem?_toArray, List.getElem?_map, Option.map_eq_some_iff]

theorem getElem?_canonical (hs : s ∈ g.collection) :
    (canonical g).states[g.collection.idxOf s]? = some (canonicalState g s) :=
  canonical_state_iff.mpr ⟨s, List.getElem?_idxOf hs, rfl⟩

theorem exists_of_canonical_state (hState : (canonical g).states[q]? = some state) :
    ∃ s ∈ g.collection, canonicalState g s = state := by
  obtain ⟨s, hs, rfl⟩ := canonical_state_iff.mp hState
  exact ⟨s, List.mem_of_getElem? hs, rfl⟩

theorem coherent_canonical (g : Grammar) : (canonical g).Coherent g where
  initial := by
    refine ⟨_, canonical_state_iff.mpr ⟨_, g.getElem?_collection_zero, rfl⟩, ?_, rfl⟩
    exact (g.mem_closure _).mpr ⟨_, OrdSet.mem_singleton.mpr rfl, .refl⟩
  belongs hState := by
    obtain ⟨s, hs, rfl⟩ := exists_of_canonical_state hState
    exact Grammar.belongs_of_mem_collection hs
  lookahead hState := by
    obtain ⟨s, hs, rfl⟩ := exists_of_canonical_state hState
    exact Grammar.lookahead_of_mem_collection hs
  closed hState := by
    obtain ⟨s, hs, rfl⟩ := exists_of_canonical_state hState
    exact Grammar.collection_closed hs
  symbols hState := by
    obtain ⟨s, _, rfl⟩ := exists_of_canonical_state hState
    rw [canonicalState, List.map_map]
    exact List.map_id _
  target hState hEdge := by
    obtain ⟨s, hs, rfl⟩ := exists_of_canonical_state hState
    obtain ⟨X, hX, hEq⟩ := List.mem_map.mp hEdge
    cases hEq
    have hGoto := Grammar.goto_mem_collection hs hX
    exact ⟨_, getElem?_canonical hGoto, OrdSet.subset_refl _, rfl⟩

theorem edge?_canonical_iff (hs : g.collection[q]? = some s) :
    (canonical g).edge? q X = some p ↔
      X ∈ g.nextSymbols s ∧ g.collection.idxOf (g.goto g.firstSets s X) = p := by
  have hState : (canonical g).states[q]? = some (canonicalState g s) :=
    canonical_state_iff.mpr ⟨s, hs, rfl⟩
  rw [(coherent_canonical g).edge?_eq_some_iff hState]
  simp only [canonicalState, List.mem_map, Prod.mk.injEq]
  constructor
  · rintro ⟨Y, hY, rfl, hp⟩
    exact ⟨hY, hp⟩
  · rintro ⟨hX, hp⟩
    exact ⟨X, hX, rfl, hp⟩

/-- An edge leads to the number of what `goto` leads to. -/
theorem exists_goto_of_edge? (h : (canonical g).edge? q X = some p) :
    ∃ s, g.collection[q]? = some s ∧ X ∈ g.nextSymbols s ∧
      g.collection[p]? = some (g.goto g.firstSets s X) := by
  obtain ⟨_, hState, _⟩ := exists_state_of_edge? h
  obtain ⟨s, hs, rfl⟩ := canonical_state_iff.mp hState
  obtain ⟨hX, rfl⟩ := (edge?_canonical_iff hs).mp h
  have hGoto := Grammar.goto_mem_collection (List.mem_of_getElem? hs) hX
  exact ⟨s, hs, hX, List.getElem?_idxOf hGoto⟩

end Automaton

end ShiftReduce
