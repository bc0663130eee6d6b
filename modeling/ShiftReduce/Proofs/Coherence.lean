import ShiftReduce.Proofs.LiveItems

/-!
# Coherent automata

What canonical and merged automata have in common. An automaton is coherent for
a grammar if its states are closed under prediction, the augmented rule is followed
by the end marker only, each state has one edge for each symbol that its items
expect, and an edge leads to a state that holds all of `goto`, and no other cores
than `goto` has. A canonical state holds `goto` and
nothing else; a merged one may have more lookaheads, but not more cores.

A path of the automaton is a stack of states with the stack of symbols that leads
to them from the initial state, the topmost first on both. The two main lemmas
compare the topmost state with the live items: it holds every item that is live
on the stack of symbols (`Path.mem_of_live`), and each core that it holds is live
with some lookahead (`Path.live_of_mem`).
-/

namespace ShiftReduce

/-- With every key once, the value of a key is the one that stands beside it. -/
theorem lookup_eq_some_iff_mem {α β : Type} [BEq α] [LawfulBEq α] {l : List (α × β)}
    (h : (l.map Prod.fst).Nodup) {a : α} {b : β} : l.lookup a = some b ↔ (a, b) ∈ l := by
  induction l with
  | nil => simp
  | cons p l ih =>
    obtain ⟨a', b'⟩ := p
    rw [List.map_cons, List.nodup_cons] at h
    rw [List.lookup_cons, List.mem_cons, Prod.mk.injEq]
    by_cases hEq : a = a'
    · subst hEq
      have hNot : (a, b) ∉ l := fun hMem => h.1 (List.mem_map.mpr ⟨_, hMem, rfl⟩)
      simp [hNot, eq_comm]
    · rw [beq_eq_false_iff_ne.mpr hEq]
      simp [hEq, ih h.2]

/-- In a list without duplicates an element has one place. -/
theorem idxOf_of_getElem? {α : Type} [BEq α] [LawfulBEq α] {l : List α} {a : α} {n : Nat}
    (hNodup : l.Nodup) (h : l[n]? = some a) : l.idxOf a = n := by
  obtain ⟨hLt, rfl⟩ := List.getElem?_eq_some_iff.mp h
  exact hNodup.idxOf_getElem n hLt

theorem getElem?_eq_some_iff_idxOf {α : Type} [BEq α] [LawfulBEq α] {l : List α} {a : α} {n : Nat}
    (hNodup : l.Nodup) (ha : a ∈ l) : l[n]? = some a ↔ l.idxOf a = n :=
  ⟨idxOf_of_getElem? hNodup, fun h => h ▸ List.getElem?_idxOf ha⟩

theorem Grammar.nodup_nextSymbols (g : Grammar) (s : ItemSet) : (g.nextSymbols s).Nodup :=
  nodup_eraseDups _

theorem Grammar.mem_goto {g : Grammar} {F : FirstSets} {s : ItemSet} {X : Symbol} {j : Item} :
    j ∈ g.goto F s X ↔ ∃ i ∈ s, i.core.next g = some X ∧
      Reaches (g.predicts F) ⟨i.core.advance, i.lookahead⟩ j := by
  simp only [goto, mem_closure, mem_shifted]
  constructor
  · rintro ⟨_, ⟨i, hi, hX, rfl⟩, hj⟩
    exact ⟨i, hi, hX, hj⟩
  · rintro ⟨i, hi, hX, hj⟩
    exact ⟨_, ⟨i, hi, hX, rfl⟩, hj⟩

namespace Automaton

/-- What an automaton for the grammar must be like for its states to hold the
live items. -/
structure Coherent (automaton : Automaton) (g : Grammar) : Prop where
  initial : ∃ state : State, automaton.states[initialState]? = some state ∧
    Grammar.initialItem ∈ state.items ∧ state.items.cores = (g.initialItems g.firstSets).cores
  belongs : ∀ {q : StateId} {state : State}, automaton.states[q]? = some state →
    ∀ i ∈ state.items, i.Belongs g
  lookahead : ∀ {q : StateId} {state : State}, automaton.states[q]? = some state →
    ∀ i ∈ state.items, i.core.rule = augmentedRule → i.lookahead = endMarker
  closed : ∀ {q : StateId} {state : State}, automaton.states[q]? = some state →
    ∀ i ∈ state.items, ∀ j ∈ g.predicts g.firstSets i, j ∈ state.items
  symbols : ∀ {q : StateId} {state : State}, automaton.states[q]? = some state →
    state.edges.map Prod.fst = g.nextSymbols state.items
  target : ∀ {q p : StateId} {state : State} {X : Symbol}, automaton.states[q]? = some state →
    (X, p) ∈ state.edges → ∃ next : State, automaton.states[p]? = some next ∧
      g.goto g.firstSets state.items X ⊆ next.items ∧
      next.items.cores = (g.goto g.firstSets state.items X).cores

/-- A stack of states with the stack of symbols that leads to them. -/
inductive Path (automaton : Automaton) : List StateId → List Symbol → Prop
  | bottom : Path automaton [initialState] []
  | push {p q : StateId} {ps : List StateId} {γ : List Symbol} {X : Symbol} :
      Path automaton (p :: ps) γ → automaton.edge? p X = some q →
      Path automaton (q :: p :: ps) (X :: γ)

variable {automaton : Automaton} {g : Grammar} {p q : StateId} {ps : List StateId}
  {γ δ : List Symbol} {X : Symbol} {i : Item} {state : State}

/-! ## Edges -/

theorem edge?_of_state (hState : automaton.states[q]? = some state) :
    automaton.edge? q X = state.edge? X := by
  rw [edge?, hState, Option.bind_some]

theorem exists_state_of_edge? (h : automaton.edge? q X = some p) :
    ∃ state, automaton.states[q]? = some state ∧ state.edge? X = some p :=
  Option.bind_eq_some_iff.mp h

namespace Coherent

theorem nodup_symbols (hCoherent : automaton.Coherent g)
    (hState : automaton.states[q]? = some state) : (state.edges.map Prod.fst).Nodup := by
  rw [hCoherent.symbols hState]
  exact g.nodup_nextSymbols _

theorem edge?_eq_some_iff (hCoherent : automaton.Coherent g)
    (hState : automaton.states[q]? = some state) :
    automaton.edge? q X = some p ↔ (X, p) ∈ state.edges := by
  rw [edge?_of_state hState]
  exact lookup_eq_some_iff_mem (hCoherent.nodup_symbols hState)

/-- A symbol leads somewhere exactly if some item expects it. -/
theorem exists_edge?_iff (hCoherent : automaton.Coherent g)
    (hState : automaton.states[q]? = some state) :
    (∃ p, automaton.edge? q X = some p) ↔ ∃ i ∈ state.items, i.core.next g = some X := by
  rw [← g.mem_nextSymbols, ← hCoherent.symbols hState, List.mem_map]
  constructor
  · rintro ⟨p, hp⟩
    exact ⟨(X, p), (hCoherent.edge?_eq_some_iff hState).mp hp, rfl⟩
  · rintro ⟨⟨Y, p⟩, hp, rfl⟩
    exact ⟨p, (hCoherent.edge?_eq_some_iff hState).mpr hp⟩

/-- An edge leads to what `goto` leads to, with its cores and no less than its items. -/
theorem exists_target (hCoherent : automaton.Coherent g) (hEdge : automaton.edge? q X = some p) :
    ∃ state next : State, automaton.states[q]? = some state ∧ automaton.states[p]? = some next ∧
      g.goto g.firstSets state.items X ⊆ next.items ∧
      next.items.cores = (g.goto g.firstSets state.items X).cores := by
  obtain ⟨state, hState, _⟩ := exists_state_of_edge? hEdge
  have hMem := (hCoherent.edge?_eq_some_iff hState).mp hEdge
  obtain ⟨next, hNext, hGoto⟩ := hCoherent.target hState hMem
  exact ⟨state, next, hState, hNext, hGoto⟩

end Coherent

/-! ## Paths -/

namespace Path

theorem length_eq {qs : List StateId} (h : automaton.Path qs γ) : qs.length = γ.length + 1 := by
  induction h with
  | bottom => rfl
  | push _ _ ih => rw [List.length_cons, ih, List.length_cons]

/-- Taking symbols off a path with their states leaves a path. -/
theorem drop {qs : List StateId} (h : automaton.Path qs (δ ++ γ)) :
    automaton.Path (qs.drop δ.length) γ := by
  induction δ generalizing qs with
  | nil => exact h
  | cons X δ ih =>
    cases h with
    | push h _ => exact ih h

theorem exists_cons {qs : List StateId} (h : automaton.Path qs γ) : ∃ q ps, qs = q :: ps := by
  cases h with
  | bottom => exact ⟨_, _, rfl⟩
  | push => exact ⟨_, _, rfl⟩

theorem exists_state (hCoherent : automaton.Coherent g) (h : automaton.Path (q :: ps) γ) :
    ∃ state, automaton.states[q]? = some state := by
  cases h with
  | bottom =>
    obtain ⟨state, hState, _⟩ := hCoherent.initial
    exact ⟨state, hState⟩
  | push _ hEdge =>
    obtain ⟨_, next, _, hNext, _⟩ := hCoherent.exists_target hEdge
    exact ⟨next, hNext⟩

/-- The topmost state of a path holds every item that is live on it. -/
theorem mem_of_live (hCoherent : automaton.Coherent g) (h : automaton.Path (q :: ps) γ)
    (hState : automaton.states[q]? = some state) (hLive : g.Live γ i) : i ∈ state.items := by
  induction hLive generalizing q ps state with
  | initial =>
    cases h
    obtain ⟨initial, hInitial, hMem, _⟩ := hCoherent.initial
    cases hInitial.symm.trans hState
    exact hMem
  | predict _ hj ih => exact hCoherent.closed hState _ (ih h hState) _ hj
  | @advance γ i X _ hX ih =>
    cases h with
    | push h hEdge =>
      obtain ⟨before, next, hBefore, hNext, hGoto, _⟩ := hCoherent.exists_target hEdge
      cases hNext.symm.trans hState
      exact hGoto _ (g.mem_goto.mpr ⟨i, ih h hBefore, hX, .refl⟩)

/-- Each core in the topmost state of a path is live on it. -/
theorem live_of_mem (hCoherent : automaton.Coherent g) (h : automaton.Path (q :: ps) γ)
    (hState : automaton.states[q]? = some state) (hMem : i ∈ state.items) :
    ∃ t, g.Live γ ⟨i.core, t⟩ := by
  have hCore : i.core ∈ state.items.cores := ItemSet.mem_cores.mpr ⟨i.lookahead, hMem⟩
  generalize hStates : q :: ps = qs at h
  induction h generalizing q ps state i with
  | bottom =>
    obtain ⟨rfl, _⟩ := List.cons.inj hStates
    obtain ⟨initial, hInitial, _, hCores⟩ := hCoherent.initial
    cases hInitial.symm.trans hState
    rw [hCores, ItemSet.mem_cores] at hCore
    obtain ⟨t, ht⟩ := hCore
    obtain ⟨j, hj, hReaches⟩ := (g.mem_closure _).mp ht
    rw [OrdSet.mem_singleton.mp hj] at hReaches
    exact ⟨t, .of_reaches .initial hReaches⟩
  | @push p q' ps' γ X h hEdge ih =>
    obtain ⟨rfl, _⟩ := List.cons.inj hStates
    obtain ⟨before, next, hBefore, hNext, _, hCores⟩ := hCoherent.exists_target hEdge
    cases hNext.symm.trans hState
    rw [hCores, ItemSet.mem_cores] at hCore
    obtain ⟨t, ht⟩ := hCore
    obtain ⟨k, hk, hX, hReaches⟩ := g.mem_goto.mp ht
    obtain ⟨u, hu⟩ := ih hBefore hk (ItemSet.mem_cores.mpr ⟨_, hk⟩) rfl
    have hAdvanced : g.Live (X :: γ) ⟨k.core.advance, u⟩ := hu.advance hX
    obtain ⟨j, hj, hjCore⟩ := Grammar.exists_reaches_of_core hReaches ⟨k.core.advance, u⟩ rfl
    refine ⟨j.lookahead, ?_⟩
    rw [← show j.core = i.core from hjCore]
    exact hAdvanced.of_reaches hj

/-- A symbol leads on from a path exactly if a live item expects it. -/
theorem exists_edge?_iff (hCoherent : automaton.Coherent g) (h : automaton.Path (q :: ps) γ) :
    (∃ p, automaton.edge? q X = some p) ↔ ∃ i, g.Live γ i ∧ i.core.next g = some X := by
  obtain ⟨state, hState⟩ := h.exists_state hCoherent
  rw [hCoherent.exists_edge?_iff hState]
  constructor
  · rintro ⟨i, hMem, hX⟩
    obtain ⟨t, ht⟩ := h.live_of_mem hCoherent hState hMem
    exact ⟨_, ht, hX⟩
  · rintro ⟨i, hLive, hX⟩
    exact ⟨i, h.mem_of_live hCoherent hState hLive, hX⟩

/-- A path leads over a symbol only if a live item expects it below. -/
theorem exists_next {qs : List StateId} (hCoherent : automaton.Coherent g)
    (h : automaton.Path qs (X :: γ)) : ∃ i, g.Live γ i ∧ i.core.next g = some X := by
  cases h with
  | push h hEdge => exact (h.exists_edge?_iff hCoherent).mp ⟨_, hEdge⟩

/-- On a path some item is live. -/
theorem exists_live {qs : List StateId} (hCoherent : automaton.Coherent g)
    (h : automaton.Path qs γ) : ∃ i, g.Live γ i := by
  cases γ with
  | nil => exact ⟨_, .initial⟩
  | cons X γ =>
    obtain ⟨i, hLive, hNext⟩ := h.exists_next hCoherent
    exact ⟨_, hLive.advance hNext⟩

/-- Where an item is live, there is a path. -/
theorem exists_of_live (hCoherent : automaton.Coherent g) (h : g.Live γ i) :
    ∃ q ps, automaton.Path (q :: ps) γ := by
  induction h with
  | initial => exact ⟨_, _, .bottom⟩
  | predict _ _ ih => exact ih
  | advance hLive hX ih =>
    obtain ⟨q, ps, hPath⟩ := ih
    obtain ⟨p, hEdge⟩ := (hPath.exists_edge?_iff hCoherent).mpr ⟨_, hLive, hX⟩
    exact ⟨p, q :: ps, hPath.push hEdge⟩

end Path

end Automaton

end ShiftReduce
