import ShiftReduce.Proofs.Quotient
import ShiftReduce.Proofs.ValidStates

/-!
# Every state is reached

Canonical states are numbered as they are found, and merged states are what canonical states go
into. So each state of either automaton is at the end of a path from the initial state, and each
of its items is live on the way to that state, or to one that went into it (`Automaton.Reached`).
There is nothing in an automaton that a parser does not come to on some stack of symbols.

A merged state is reached because a quotient has the paths of what it is a quotient of
(`Quotient.exists_path`); how the merging is done plays no part.
-/

namespace ShiftReduce

namespace Automaton

variable {g : Grammar} {automaton merged : Automaton} {into : List StateId} {s : ItemSet}
  {q m : StateId} {state : State} {qs : List StateId} {γ : List Symbol} {i : Item}

/-- A coherent automaton in which every state is at the end of a path, and every item is live
somewhere. -/
structure Reached (automaton : Automaton) (g : Grammar) : Prop where
  coherent : automaton.Coherent g
  exists_path : ∀ {q : StateId} {state : State}, automaton.states[q]? = some state →
    ∃ ps γ, automaton.Path (q :: ps) γ
  exists_live : ∀ {q : StateId} {state : State} {i : Item}, automaton.states[q]? = some state →
    i ∈ state.items → ∃ γ, g.Live γ i

/-- What is live somewhere is an item of some state. -/
theorem Coherent.exists_mem_of_live (hCoherent : automaton.Coherent g) (h : g.Live γ i) :
    ∃ (q : StateId) (state : State), automaton.states[q]? = some state ∧ i ∈ state.items := by
  obtain ⟨q, ps, hPath⟩ := Path.exists_of_live hCoherent h
  obtain ⟨state, hState⟩ := hPath.exists_state hCoherent
  exact ⟨q, state, hState, hPath.mem_of_live hCoherent hState h⟩

/-! ## Canonical automata -/

/-- Every canonical state is at the end of some path. -/
theorem exists_path_canonical (hs : g.collection[q]? = some s) :
    ∃ ps γ, (canonical g).Path (q :: ps) γ := by
  have hMem := List.mem_of_getElem? hs
  induction hMem using Grammar.collection_induction generalizing q with
  | initial =>
    have hFirst := g.getElem?_collection_zero
    have hLt := (List.getElem?_eq_some_iff.mp hs).1
    rw [(List.getElem?_inj hLt g.nodup_collection).mp (hs.trans hFirst.symm)]
    exact ⟨[], [], .bottom⟩
  | goto s' X hMem hX ih =>
    obtain ⟨p, hp⟩ := List.mem_iff_getElem?.mp hMem
    obtain ⟨ps, γ, hPath⟩ := ih hp
    have hEdge : (canonical g).edge? p X = some q :=
      (edge?_canonical_iff hp).mpr ⟨hX, idxOf_of_getElem? g.nodup_collection hs⟩
    exact ⟨p :: ps, X :: γ, hPath.push hEdge⟩

theorem reached_canonical (g : Grammar) : (canonical g).Reached g where
  coherent := coherent_canonical g
  exists_path hState := by
    obtain ⟨s, hs, _⟩ := canonical_state_iff.mp hState
    exact exists_path_canonical hs
  exists_live hState hi := by
    obtain ⟨s, hs, _⟩ := canonical_state_iff.mp hState
    obtain ⟨ps, γ, hPath⟩ := exists_path_canonical hs
    exact ⟨γ, hPath.live_of_mem_canonical hState hi⟩

/-! ## Quotients -/

/-- The states that those of a path go into are a path with the same symbols. -/
theorem Quotient.exists_path (hQuotient : automaton.Quotient merged into)
    (h : automaton.Path qs γ) :
    ∃ ms, merged.Path ms γ ∧ qs.map (fun q => into[q]?) = ms.map some := by
  induction h with
  | bottom =>
    refine ⟨_, .bottom, ?_⟩
    rw [List.map_singleton, List.map_singleton, hQuotient.initial]
  | @push p q ps γ X _ hEdge ih =>
    obtain ⟨ms, hPath, hInto⟩ := ih
    cases ms with
    | nil => cases hInto
    | cons m ms =>
      have hm : into[p]? = some m := (List.cons.inj hInto).1
      obtain ⟨n, hn, hEdge'⟩ := hQuotient.edge p m X q hm hEdge
      refine ⟨n :: m :: ms, hPath.push hEdge', ?_⟩
      rw [List.map_cons, hInto, hn]
      rfl

/-- A quotient has no states and no items beyond those that go into it. -/
theorem Quotient.reached (hQuotient : automaton.Quotient merged into)
    (hReached : automaton.Reached g) (hCoherent : merged.Coherent g) : merged.Reached g where
  coherent := hCoherent
  exists_path {m state} hState := by
    obtain ⟨hLt, _⟩ := Array.getElem?_eq_some_iff.mp hState
    obtain ⟨q, hq⟩ := List.mem_iff_getElem?.mp ((hQuotient.mem_iff m).mpr hLt)
    have hSize : q < automaton.size := by
      rw [← hQuotient.length_eq]
      exact (List.getElem?_eq_some_iff.mp hq).1
    obtain ⟨ps, γ, hPath⟩ := hReached.exists_path (Array.getElem?_eq_getElem hSize)
    obtain ⟨ms, hMerged, hInto⟩ := hQuotient.exists_path hPath
    cases ms with
    | nil => cases hInto
    | cons n ms =>
      have hn : into[q]? = some n := (List.cons.inj hInto).1
      cases hq.symm.trans hn
      exact ⟨ms, γ, hMerged⟩
  exists_live {m state i} hState hi := by
    obtain ⟨q, s, _, hs, hi⟩ := (hQuotient.mem_items_iff m state hState i).mp hi
    exact hReached.exists_live hs hi

end Automaton

/-- Either method finds an automaton without unreached states. -/
theorem Construction.exists_reached (algorithm : Algorithm) (g : Grammar) : ∃ automaton,
    (Construction.mk algorithm false).automaton g = .ok automaton ∧ automaton.Reached g := by
  cases algorithm with
  | canonical => exact ⟨_, rfl, Automaton.reached_canonical g⟩
  | merged =>
    refine ⟨_, Automaton.merge_canonical g, ?_⟩
    exact (Automaton.quotient_merged g).reached (Automaton.reached_canonical g)
      (Automaton.coherent_merged g)

end ShiftReduce
