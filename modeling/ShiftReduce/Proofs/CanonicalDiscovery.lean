import Mathlib.Algebra.Group.Nat.Defs
import Mathlib.Data.Prod.Lex
import Mathlib.Order.Bounds.Basic
import Mathlib.Order.WellFounded
import ShiftReduce.Proofs.CanonicalStates
import ShiftReduce.Proofs.DiscoveryOrder

/-!
# The canonical automaton is the collection of item sets, in order of discovery

The canonical automaton is described here without the search that builds it
(`Automaton.Discovered`). Its item sets are different from each other, and are the least family
that holds the initial items and is closed under `goto`. Its edges are given by `goto`. And its
states are numbered by their first edges: each state but the initial one has an edge from a state
of a smaller number, and the first edges to the states are in the order of their targets.

The symbol of an edge can be read off its target. All items of `goto` have that symbol before the
marker, unless they are predicted, and some item of it has, while no initial item has any symbol
there (`Core.previous`). So edges on different symbols lead to different states, and none leads
to the initial one.
-/

namespace ShiftReduce

/-! ## The symbol before the marker -/

/-- The symbol that has been recognised last. -/
def Core.previous (g : Grammar) (core : Core) : Option Symbol :=
  ((g.rules[core.rule]?).elim [] fun rule => rule.right.take core.marker).getLast?

namespace Grammar

variable {g : Grammar} {F : FirstSets} {s s' : ItemSet} {X Y : Symbol} {i j : Item}

theorem previous_of_marker {core : Core} (h : core.marker = 0) : core.previous g = none := by
  rw [Core.previous, h]
  cases g.rules[core.rule]? <;> rfl

theorem previous_advance {core : Core} (h : core.next g = some X) :
    core.advance.previous g = some X := by
  obtain ⟨tail, hRest⟩ := Core.next_eq_some_iff.mp h
  obtain ⟨rule, hr, _⟩ := Core.exists_rule_of_rest hRest
  change ((g.rules[core.rule]?).elim [] fun rule => rule.right.take (core.marker + 1)).getLast? = _
  rw [hr, Option.elim_some, Core.take_advance hr h, List.getLast?_concat]

/-- Items that are predicted have recognised nothing. -/
theorem previous_of_reaches (h : Reaches (g.predicts F) i j) :
    j = i ∨ j.core.previous g = none := by
  cases h with
  | refl => exact .inl rfl
  | tail _ hj =>
    obtain ⟨_, _, _, _, hMarker, _⟩ := (g.mem_predicts F).mp hj
    exact .inr (previous_of_marker hMarker)

theorem previous_of_mem_initialItems (h : j ∈ g.initialItems F) : j.core.previous g = none := by
  obtain ⟨i, hi, hReaches⟩ := (g.mem_closure F).mp h
  rw [OrdSet.mem_singleton.mp hi] at hReaches
  rcases previous_of_reaches hReaches with rfl | hNone
  · exact previous_of_marker rfl
  · exact hNone

theorem previous_of_mem_goto (h : j ∈ g.goto F s X) :
    j.core.previous g = some X ∨ j.core.previous g = none := by
  obtain ⟨i, _, hX, hReaches⟩ := g.mem_goto.mp h
  refine (previous_of_reaches hReaches).imp_left ?_
  rintro rfl
  exact previous_advance hX

theorem exists_previous_of_mem_nextSymbols (hX : X ∈ g.nextSymbols s) :
    ∃ j ∈ g.goto F s X, j.core.previous g = some X := by
  obtain ⟨i, hi, hNext⟩ := g.mem_nextSymbols.mp hX
  exact ⟨_, g.mem_goto.mpr ⟨i, hi, hNext, .refl⟩, previous_advance hNext⟩

theorem goto_ne_initialItems (hX : X ∈ g.nextSymbols s) : g.goto F s X ≠ g.initialItems F := by
  intro hEq
  obtain ⟨j, hj, hPrevious⟩ := exists_previous_of_mem_nextSymbols (F := F) hX
  rw [hEq] at hj
  rw [previous_of_mem_initialItems hj] at hPrevious
  cases hPrevious

/-- What `goto` gives tells over which symbol it went. -/
theorem symbol_eq_of_goto_eq (hX : X ∈ g.nextSymbols s) (hEq : g.goto F s X = g.goto F s' Y) :
    X = Y := by
  obtain ⟨j, hj, hPrevious⟩ := exists_previous_of_mem_nextSymbols (F := F) hX
  rw [hEq] at hj
  rcases previous_of_mem_goto hj with hSame | hNone
  · exact Option.some_inj.mp (hPrevious.symm.trans hSame)
  · rw [hNone] at hPrevious
    cases hPrevious

/-! ## The collection is the least one -/

/-- Whether a family holds the initial items and, with each item set, those that `goto` leads to
from it over the symbols that its items expect. -/
def GotoClosed (g : Grammar) (family : Set ItemSet) : Prop :=
  g.initialItems g.firstSets ∈ family ∧
    ∀ s ∈ family, ∀ i ∈ s, ∀ X, i.core.next g = some X → g.goto g.firstSets s X ∈ family

theorem isLeast_collection (g : Grammar) :
    IsLeast {family | g.GotoClosed family} {s | s ∈ g.collection} := by
  constructor
  · refine ⟨initialItems_mem_collection, fun s hs i hi X hX => ?_⟩
    exact goto_mem_collection hs (g.mem_nextSymbols.mpr ⟨i, hi, hX⟩)
  · rintro family ⟨hInitial, hGoto⟩ s hs
    induction hs using collection_induction with
    | initial => exact hInitial
    | goto s X _ hX ih =>
      obtain ⟨i, hi, hExpects⟩ := g.mem_nextSymbols.mp hX
      exact hGoto _ ih i hi X hExpects

theorem collection_eq (g : Grammar) : g.collection =
    ([g.initialItems g.firstSets] ++ g.collection.flatMap (g.successors g.firstSets)).eraseDups :=
  reachable_eq

theorem length_collection_le (g : Grammar) : g.collection.length ≤ 2 ^ g.items.length := by
  refine AtMost.ordSet g.items g.collection g.nodup_collection fun s hs i hi => ?_
  exact g.mem_items_of_belongs (belongs_of_mem_collection hs i hi)

end Grammar

namespace Automaton

/-- Whether the edge at a place leads to a state. The places of edges are ordered by the states
that they come from, and within a state by the order of its edges. -/
def EdgeAt (automaton : Automaton) (place : Nat ×ₗ Nat) (target : StateId) : Prop :=
  ∃ (state : State) (X : Symbol), automaton.states[(ofLex place).1]? = some state ∧
    state.edges[(ofLex place).2]? = some (X, target)

/-- The states of an automaton are what `goto` leads to from the initial items of a grammar, each
once and in order of discovery. -/
structure Discovered (automaton : Automaton) (g : Grammar) : Prop where
  size_le : automaton.size ≤ 2 ^ g.items.length
  initial : ∃ state, automaton.states[initialState]? = some state ∧
    state.items = g.initialItems g.firstSets
  distinct : ∀ (p q : StateId) (s t : State), automaton.states[p]? = some s →
    automaton.states[q]? = some t → s.items = t.items → p = q
  least : IsLeast {family | g.GotoClosed family}
    {items | ∃ state ∈ automaton.states, state.items = items}
  /-- A state has one edge at most for a symbol. -/
  nodup_symbols : ∀ state ∈ automaton.states, (state.edges.map Prod.fst).Nodup
  exists_edge_iff : ∀ (q : StateId) (state : State) (X : Symbol),
    automaton.states[q]? = some state →
      ((∃ p, automaton.edge? q X = some p) ↔ ∃ i ∈ state.items, i.core.next g = some X)
  target : ∀ (q p : StateId) (X : Symbol), automaton.edge? q X = some p →
    ∃ s t, automaton.states[q]? = some s ∧ automaton.states[p]? = some t ∧
      t.items = g.goto g.firstSets s.items X
  edge_ne_initial : ∀ (q : StateId) (X : Symbol), automaton.edge? q X ≠ some initialState
  symbol_eq : ∀ (q q' p : StateId) (X Y : Symbol), automaton.edge? q X = some p →
    automaton.edge? q' Y = some p → X = Y
  /-- The first edge to a state comes from one that has been numbered before. -/
  first_edge : ∀ k, 0 < k → k < automaton.size →
    ∃ place, IsLeast {place | automaton.EdgeAt place k} place ∧ (ofLex place).1 < k
  ordered : ∀ (k l : StateId) (place place' : Nat ×ₗ Nat), 0 < k → k < l →
    IsLeast {place | automaton.EdgeAt place k} place →
    IsLeast {place | automaton.EdgeAt place l} place' → place < place'

variable {g : Grammar} {t : ItemSet} {k l : StateId} {place : Nat ×ₗ Nat}

/-! ## Edges and places -/

theorem edgeAt_canonical_iff : (canonical g).EdgeAt place k ↔
    ∃ t, g.collection[k]? = some t ∧
      Lists (g.successors g.firstSets) g.collection (ofLex place).1 (ofLex place).2 t := by
  rw [EdgeAt]
  generalize (ofLex place).1 = p
  generalize (ofLex place).2 = e
  constructor
  · rintro ⟨_, X, hState, hEdge⟩
    obtain ⟨s, hs, rfl⟩ := canonical_state_iff.mp hState
    rw [canonicalState, List.getElem?_map, Option.map_eq_some_iff] at hEdge
    obtain ⟨Y, hY, hEq⟩ := hEdge
    obtain ⟨rfl, rfl⟩ := Prod.mk.inj hEq
    have hGoto := Grammar.goto_mem_collection (List.mem_of_getElem? hs) (List.mem_of_getElem? hY)
    refine ⟨_, List.getElem?_idxOf hGoto, s, hs, ?_⟩
    rw [Grammar.successors, List.getElem?_map, hY, Option.map_some]
  · rintro ⟨t, ht, s, hs, hNext⟩
    rw [Grammar.successors, List.getElem?_map, Option.map_eq_some_iff] at hNext
    obtain ⟨X, hX, rfl⟩ := hNext
    have hTarget : g.collection.idxOf (g.goto g.firstSets s X) = k :=
      idxOf_of_getElem? g.nodup_collection ht
    refine ⟨canonicalState g s, X, canonical_state_iff.mpr ⟨s, hs, rfl⟩, ?_⟩
    rw [canonicalState, List.getElem?_map, hX, Option.map_some, hTarget]

theorem not_mem_start (hk : 0 < k) (ht : g.collection[k]? = some t) :
    t ∉ [g.initialItems g.firstSets] := by
  rw [List.mem_singleton]
  rintro rfl
  have hLt := (List.getElem?_eq_some_iff.mp ht).1
  have hSame : k = 0 := (List.getElem?_inj hLt g.nodup_collection).mp
    (ht.trans g.getElem?_collection_zero.symm)
  exact Nat.ne_of_gt hk hSame

/-- Every state but the initial one has an edge from a state of a smaller number. -/
theorem exists_edgeAt_before (hk : 0 < k) (ht : g.collection[k]? = some t) :
    ∃ place, (canonical g).EdgeAt place k ∧ (ofLex place).1 < k := by
  obtain ⟨p, hp, e, hLists⟩ := exists_lists_before ht (not_mem_start hk ht)
  exact ⟨toLex (p, e), edgeAt_canonical_iff.mpr ⟨t, ht, hLists⟩, hp⟩

/-- Every edge to a state comes after some edge to any state of a smaller number. -/
theorem exists_edgeAt_lt (hk : 0 < k) (hLt : k < l) (h : (canonical g).EdgeAt place l) :
    ∃ place', (canonical g).EdgeAt place' k ∧ place' < place := by
  obtain ⟨t', ht', hPlace⟩ := edgeAt_canonical_iff.mp h
  have hk' : k < g.collection.length := Nat.lt_trans hLt (List.getElem?_eq_some_iff.mp ht').1
  have ht := List.getElem?_eq_getElem hk'
  obtain ⟨p, e, hLists, hBefore⟩ :=
    exists_lists_lt g.collection_eq ht ht' hLt (not_mem_start hk ht) hPlace
  exact ⟨toLex (p, e), edgeAt_canonical_iff.mpr ⟨_, ht, hLists⟩, Prod.Lex.lt_iff.mpr hBefore⟩

/-- A state with an edge to it has a first one. -/
theorem EdgeAt.exists_first {automaton : Automaton} (h : automaton.EdgeAt place k) :
    ∃ first, IsLeast {place | automaton.EdgeAt place k} first ∧ first ≤ place := by
  obtain ⟨first, hFirst, hLeast⟩ := wellFounded_lt.has_min {place | automaton.EdgeAt place k}
    ⟨place, h⟩
  have hAll : ∀ other, automaton.EdgeAt other k → first ≤ other :=
    fun other hOther => not_lt.mp (hLeast other hOther)
  exact ⟨first, ⟨hFirst, hAll⟩, hAll place h⟩

/-! ## The canonical automaton -/

theorem canonical_discovered (g : Grammar) : (canonical g).Discovered g where
  size_le := by
    rw [size, canonical_states, List.size_toArray, List.length_map]
    exact g.length_collection_le
  initial := ⟨_, canonical_state_iff.mpr ⟨_, g.getElem?_collection_zero, rfl⟩, rfl⟩
  distinct p q _ _ hp hq hItems := by
    obtain ⟨s, hs, rfl⟩ := canonical_state_iff.mp hp
    obtain ⟨t, ht, rfl⟩ := canonical_state_iff.mp hq
    have hLt := (List.getElem?_eq_some_iff.mp hs).1
    refine (List.getElem?_inj hLt g.nodup_collection).mp ?_
    rw [hs, ht, show s = t from hItems]
  least := by
    have hItems : {items | ∃ state ∈ (canonical g).states, state.items = items} =
        {s | s ∈ g.collection} := by
      ext s
      simp [canonical_states, canonicalState]
    rw [hItems]
    exact g.isLeast_collection
  nodup_symbols state hState := by
    obtain ⟨q, hq⟩ := Array.mem_iff_getElem?.mp hState
    exact (coherent_canonical g).nodup_symbols hq
  exists_edge_iff _ _ _ hState := (coherent_canonical g).exists_edge?_iff hState
  target q p X hEdge := by
    obtain ⟨s, hs, _, ht⟩ := exists_goto_of_edge? hEdge
    exact ⟨_, _, canonical_state_iff.mpr ⟨s, hs, rfl⟩, canonical_state_iff.mpr ⟨_, ht, rfl⟩, rfl⟩
  edge_ne_initial q X hEdge := by
    obtain ⟨s, _, hX, ht⟩ := exists_goto_of_edge? hEdge
    rw [initialState, g.getElem?_collection_zero, Option.some_inj] at ht
    exact Grammar.goto_ne_initialItems hX ht.symm
  symbol_eq q q' p X Y hEdge hEdge' := by
    obtain ⟨s, _, hX, ht⟩ := exists_goto_of_edge? hEdge
    obtain ⟨s', _, _, ht'⟩ := exists_goto_of_edge? hEdge'
    rw [ht, Option.some_inj] at ht'
    exact Grammar.symbol_eq_of_goto_eq hX ht'
  first_edge k hk hLt := by
    rw [size, canonical_states, List.size_toArray, List.length_map] at hLt
    obtain ⟨place, hEdge, hBefore⟩ := exists_edgeAt_before hk (List.getElem?_eq_getElem hLt)
    obtain ⟨first, hFirst, hLe⟩ := hEdge.exists_first
    have hSource : (ofLex first).1 ≤ (ofLex place).1 := by
      rcases Prod.Lex.le_iff.mp hLe with h | h
      · exact Nat.le_of_lt h
      · exact Nat.le_of_eq h.1
    exact ⟨first, hFirst, Nat.lt_of_le_of_lt hSource hBefore⟩
  ordered k l place place' hk hLt hPlace hPlace' := by
    obtain ⟨earlier, hEarlier, hBefore⟩ := exists_edgeAt_lt hk hLt hPlace'.1
    exact lt_of_le_of_lt (hPlace.2 hEarlier) hBefore

end Automaton

end ShiftReduce
