import Mathlib.Data.List.Basic
import Mathlib.Data.List.Induction
import ShiftReduce.Proofs.MergedStates

/-!
# The merged automaton is a quotient

Merging identifies the canonical states that have the same cores, and does nothing else. This
module says so in terms of the two automata and the list that sends each canonical state to
the state it went into (`Automaton.Quotient`), without `goto` and without looking up cores:
the items of a merged state are those of the states that went into it, and an edge between
canonical states is an edge between the states that these went into.

The numbers of merged states are those of `List.eraseDups`, which keeps the first of equal
elements. Its elements are in the order of their first places (`pairwise_idxOf_eraseDups`).
-/

namespace ShiftReduce

/-- The different elements of a list are in the order of their first places. -/
theorem pairwise_idxOf_eraseDups {α : Type} [BEq α] [LawfulBEq α] (l : List α) :
    l.eraseDups.Pairwise fun a b => l.idxOf a < l.idxOf b := by
  induction l using List.reverseRecOn with
  | nil => simp
  | append_singleton l x ih =>
    have hOld : ∀ a ∈ l.eraseDups, (l ++ [x]).idxOf a = l.idxOf a := by
      intro a ha
      exact List.idxOf_append_of_mem (List.mem_eraseDups.mp ha)
    rw [List.eraseDups_append, List.pairwise_append]
    refine ⟨?_, ?_, ?_⟩
    · refine ih.imp_of_mem ?_
      intro a b ha hb hLt
      rwa [hOld a ha, hOld b hb]
    · by_cases hx : x ∈ l <;> simp [List.removeAll, hx, List.eraseDups_cons]
    · intro a ha b hb
      have hNew : b = x ∧ b ∉ l := by simpa [List.removeAll] using hb
      obtain ⟨rfl, hNot⟩ := hNew
      have hBefore : l.idxOf a < l.length := List.idxOf_lt_length_of_mem (List.mem_eraseDups.mp ha)
      rw [hOld a ha]
      simp [List.idxOf_append, hNot]
      omega

/-- Elements that are replaced by their places in another list keep their first places. -/
theorem idxOf_map_idxOf {α : Type} [BEq α] [LawfulBEq α] {l places : List α}
    (hAll : ∀ a ∈ l, a ∈ places) (b : α) :
    (l.map fun a => places.idxOf a).idxOf (places.idxOf b) = l.idxOf b := by
  induction l with
  | nil => rfl
  | cons a l ih =>
    rw [List.forall_mem_cons] at hAll
    have hSame : places.idxOf a = places.idxOf b ↔ a = b := List.idxOf_inj hAll.1
    rw [List.map_cons]
    by_cases hEq : a = b
    · rw [List.idxOf_cons_eq _ (hSame.mpr hEq), List.idxOf_cons_eq _ hEq]
    · have hNe : places.idxOf a ≠ places.idxOf b := fun h => hEq (hSame.mp h)
      rw [List.idxOf_cons_ne _ hNe, List.idxOf_cons_ne _ hEq, ih hAll.2]

namespace Automaton

/-- One automaton is the quotient of another by the equality of cores, where `into` lists the
states that the states of the other one go into. -/
structure Quotient (automaton merged : Automaton) (into : List StateId) : Prop where
  length_eq : into.length = automaton.size
  /-- What states go into are the states of the quotient. -/
  mem_iff : ∀ m, m ∈ into ↔ m < merged.size
  initial : into[initialState]? = some initialState
  /-- The states of the quotient are numbered by the first states that go into them. -/
  ordered : ∀ m n : StateId, m < n → n < merged.size → into.idxOf m < into.idxOf n
  same_iff : ∀ (p q : StateId) (s t : State), automaton.states[p]? = some s →
    automaton.states[q]? = some t → (into[p]? = into[q]? ↔ s.items.cores = t.items.cores)
  cores_eq : ∀ (q m : StateId) (s t : State), into[q]? = some m → automaton.states[q]? = some s →
    merged.states[m]? = some t → t.items.cores = s.items.cores
  /-- The items of a state are those of the states that go into it. -/
  mem_items_iff : ∀ (m : StateId) (t : State), merged.states[m]? = some t → ∀ i, i ∈ t.items ↔
    ∃ (q : StateId) (s : State), into[q]? = some m ∧ automaton.states[q]? = some s ∧ i ∈ s.items
  exists_edge_iff : ∀ (q m : StateId) (X : Symbol), into[q]? = some m →
    ((∃ n, merged.edge? m X = some n) ↔ ∃ p, automaton.edge? q X = some p)
  edge : ∀ (q m : StateId) (X : Symbol) (p : StateId), into[q]? = some m →
    automaton.edge? q X = some p → ∃ n, into[p]? = some n ∧ merged.edge? m X = some n

section Canonical

variable {g : Grammar} {s : ItemSet} {q m p : StateId} {X : Symbol} {state : State}

/-- The states that the canonical states go into. -/
def canonicalInto (g : Grammar) : List StateId :=
  (canonical g).stateCores.map fun cores => (canonical g).distinctCores.idxOf cores

theorem stateCores_canonical (g : Grammar) :
    (canonical g).stateCores = g.collection.map ItemSet.cores := by
  rw [stateCores, canonical_states, List.toList_toArray, List.map_map]
  rfl

theorem getElem?_canonicalInto : (canonicalInto g)[q]? = some m ↔
    ∃ s, g.collection[q]? = some s ∧ (canonical g).distinctCores.idxOf s.cores = m := by
  rw [canonicalInto, stateCores_canonical, List.map_map, List.getElem?_map, Option.map_eq_some_iff]
  rfl

theorem mem_distinctCores_of_getElem? (hs : g.collection[q]? = some s) :
    s.cores ∈ (canonical g).distinctCores :=
  mem_distinctCores_canonical.mpr ⟨s, List.mem_of_getElem? hs, rfl⟩

/-! ## Edges -/

/-- The edges of a merged state lead to the states with the cores that a state which went into
it leads to. -/
theorem edge?_merged_iff (hs : s ∈ g.collection) :
    ((canonical g).merged g g.firstSets).edge? ((canonical g).distinctCores.idxOf s.cores) X = some p ↔
      X ∈ g.nextSymbols s ∧
        (canonical g).distinctCores.idxOf (g.goto g.firstSets s X).cores = p := by
  rw [(coherent_merged g).edge?_eq_some_iff (getElem?_merged hs)]
  have hSymbols := mem_nextSymbols_mergedItems (X := X) hs
  have hCores := cores_goto_mergedItems hs X
  simp only [mergedStateOf, List.mem_map, Prod.mk.injEq]
  constructor
  · rintro ⟨Y, hY, rfl, hp⟩
    exact ⟨hSymbols.mp hY, by rw [← hp, hCores]⟩
  · rintro ⟨hX, hp⟩
    exact ⟨X, hSymbols.mpr hX, rfl, by rw [hCores, hp]⟩

/-! ## The quotient -/

theorem mem_canonicalInto_iff : m ∈ canonicalInto g ↔ m < (canonical g).distinctCores.length := by
  rw [canonicalInto, List.mem_map]
  constructor
  · rintro ⟨cores, hCores, rfl⟩
    exact List.idxOf_lt_length_of_mem (List.mem_eraseDups.mpr hCores)
  · intro hLt
    refine ⟨(canonical g).distinctCores[m], List.mem_eraseDups.mp (List.getElem_mem hLt), ?_⟩
    exact (nodup_distinctCores _).idxOf_getElem m hLt

/-- The first canonical state that goes into a merged state is the first that has its
cores. -/
theorem idxOf_canonicalInto (hLt : m < (canonical g).distinctCores.length) :
    (canonicalInto g).idxOf m = (canonical g).stateCores.idxOf (canonical g).distinctCores[m] := by
  have hPlace : (canonical g).distinctCores.idxOf (canonical g).distinctCores[m] = m :=
    (nodup_distinctCores _).idxOf_getElem m hLt
  have hAll : ∀ cores ∈ (canonical g).stateCores, cores ∈ (canonical g).distinctCores :=
    fun cores hCores => List.mem_eraseDups.mpr hCores
  have hMap := idxOf_map_idxOf hAll (canonical g).distinctCores[m]
  rwa [hPlace] at hMap

theorem quotient_merged (g : Grammar) :
    (canonical g).Quotient ((canonical g).merged g g.firstSets) (canonicalInto g) where
  length_eq := by simp [canonicalInto, stateCores, size]
  mem_iff m := by rw [mem_canonicalInto_iff, size_merged]
  initial := getElem?_canonicalInto.mpr ⟨_, g.getElem?_collection_zero, idxOf_initial_cores⟩
  ordered m n hLt hn := by
    rw [size_merged] at hn
    have hm : m < (canonical g).distinctCores.length := Nat.lt_trans hLt hn
    rw [idxOf_canonicalInto hm, idxOf_canonicalInto hn]
    exact List.pairwise_iff_getElem.mp (pairwise_idxOf_eraseDups _) m n hm hn hLt
  same_iff p q _ _ hp hq := by
    obtain ⟨s, hs, rfl⟩ := canonical_state_iff.mp hp
    obtain ⟨t, ht, rfl⟩ := canonical_state_iff.mp hq
    rw [getElem?_canonicalInto.mpr ⟨s, hs, rfl⟩, getElem?_canonicalInto.mpr ⟨t, ht, rfl⟩,
      Option.some_inj]
    exact List.idxOf_inj (mem_distinctCores_of_getElem? hs)
  cores_eq q m _ t hInto hq ht := by
    obtain ⟨s, hs, rfl⟩ := canonical_state_iff.mp hq
    obtain ⟨s', hs', rfl⟩ := getElem?_canonicalInto.mp hInto
    cases hs.symm.trans hs'
    rw [getElem?_merged (List.mem_of_getElem? hs), Option.some_inj] at ht
    rw [← ht]
    exact cores_mergedItems (mem_distinctCores_of_getElem? hs)
  mem_items_iff m t ht i := by
    obtain ⟨cores, hCores, rfl⟩ := merged_state_iff.mp ht
    have hPlace : (canonical g).distinctCores.idxOf cores = m :=
      idxOf_of_getElem? (nodup_distinctCores _) hCores
    constructor
    · intro hMem
      obtain ⟨s, hs, rfl, hi⟩ := mem_mergedItems_canonical.mp hMem
      obtain ⟨q, hq⟩ := List.mem_iff_getElem?.mp hs
      exact ⟨q, canonicalState g s, getElem?_canonicalInto.mpr ⟨s, hq, hPlace⟩,
        canonical_state_iff.mpr ⟨s, hq, rfl⟩, hi⟩
    · rintro ⟨q, _, hInto, hq, hi⟩
      obtain ⟨s, hs, rfl⟩ := canonical_state_iff.mp hq
      obtain ⟨s', hs', hPlace'⟩ := getElem?_canonicalInto.mp hInto
      cases hs.symm.trans hs'
      refine mem_mergedItems_canonical.mpr ⟨s, List.mem_of_getElem? hs, ?_, hi⟩
      rw [← hPlace'] at hPlace
      exact ((List.idxOf_inj (List.mem_of_getElem? hCores)).mp hPlace).symm
  exists_edge_iff q m X hInto := by
    obtain ⟨s, hs, rfl⟩ := getElem?_canonicalInto.mp hInto
    simp [edge?_canonical_iff hs, edge?_merged_iff (List.mem_of_getElem? hs)]
  edge q m X p hInto hEdge := by
    obtain ⟨s, hs, rfl⟩ := getElem?_canonicalInto.mp hInto
    obtain ⟨hX, rfl⟩ := (edge?_canonical_iff hs).mp hEdge
    have hMem := List.mem_of_getElem? hs
    refine ⟨_, getElem?_canonicalInto.mpr ⟨_, ?_, rfl⟩, (edge?_merged_iff hMem).mpr ⟨hX, rfl⟩⟩
    exact List.getElem?_idxOf (Grammar.goto_mem_collection hMem hX)

end Canonical

/-- Merging the canonical automaton of a grammar always succeeds, and gives its quotient by
the equality of cores. -/
theorem merge_is_quotient (g : Grammar) :
    ∃ merged into, (canonical g).merge g g.firstSets = .ok merged ∧
      merged.mergeMap? = some into ∧ (canonical g).Quotient merged into :=
  ⟨_, _, merge_canonical g, rfl, quotient_merged g⟩

end Automaton

end ShiftReduce
