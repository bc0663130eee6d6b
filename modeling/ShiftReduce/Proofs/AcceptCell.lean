import ShiftReduce.Proofs.ReachedStates
import ShiftReduce.Proofs.TableCells

/-!
# Where a table accepts

A table accepts in one cell only. The augmented rule is complete in one state, the one to which
the start symbol leads from the initial state, because every state is at the end of a path and the
augmented rule is live as a whole on the path of the start symbol alone
(`Reached.mem_augmentedRule_iff`). There it has the end marker as its lookahead, as everywhere.

What the other rules do does not matter. No edge has the end marker, so nothing is shifted in the
cell of acceptance, and a reduction comes after the completion of rule `0`. The augmented rule is
never reduced, since reducing is what its completion would do at other lookaheads.

A run that accepts shows the path of the start symbol when it does (`accepted_record`).
-/

namespace ShiftReduce

variable {automaton : Automaton} {g : Grammar} {p q : StateId} {state : State} {t : Terminal}
  {action : TableAction}

/-! ## The completion of the augmented rule -/

namespace Automaton.Reached

variable (hReached : automaton.Reached g)
  (hStart : automaton.edge? initialState (.nonterminal g.start) = some q)

include hReached in
/-- The start symbol leads on from the initial state. -/
theorem exists_start : ∃ q, automaton.edge? initialState (.nonterminal g.start) = some q := by
  refine (Path.bottom.exists_edge?_iff hReached.coherent).mpr ⟨Grammar.initialItem, .initial, ?_⟩
  exact Core.next_of_rest (Core.rest_mk g.augmentedRule_first 0)

include hReached hStart

/-- Where the start symbol leads to is the one state in which the augmented rule is complete. -/
theorem mem_augmentedRule_iff (hState : automaton.states[p]? = some state) :
    (⟨⟨augmentedRule, 1⟩, t⟩ : Item) ∈ state.items ↔ p = q ∧ t = endMarker := by
  constructor
  · intro hMem
    refine ⟨?_, hReached.coherent.lookahead hState _ hMem rfl⟩
    obtain ⟨ps, γ, hPath⟩ := hReached.exists_path hState
    obtain ⟨t', hLive⟩ := hPath.live_of_mem hReached.coherent hState hMem
    obtain ⟨_, ⟨_, hMarker⟩ | ⟨rfl, _⟩⟩ := hLive.of_augmentedRule rfl
    · cases hMarker
    · cases hPath with
      | push hPath hEdge =>
        cases hPath
        exact Option.some.inj (hEdge.symm.trans hStart)
  · rintro ⟨rfl, rfl⟩
    refine (Path.bottom.push hStart).mem_of_live hReached.coherent hState ?_
    exact .advance .initial (Core.next_of_rest (Core.rest_mk g.augmentedRule_first 0))

theorem offers_accept_iff : automaton.Offers g p t .accept ↔ p = q ∧ t = endMarker := by
  constructor
  · intro h
    generalize hAction : Action.accept = action at h
    cases h with
    | shift => cases hAction
    | @complete state r rule hState hr hMem =>
      obtain ⟨rfl, _⟩ := completion_eq_accept_iff.mp hAction.symm
      rw [g.augmentedRule_first, Option.some_inj] at hr
      rw [← hr] at hMem
      exact (hReached.mem_augmentedRule_iff hStart hState).mp hMem
  · rintro ⟨rfl, rfl⟩
    obtain ⟨state, hState⟩ := (Path.bottom.push hStart).exists_state hReached.coherent
    have hMem := (hReached.mem_augmentedRule_iff hStart hState).mpr ⟨rfl, rfl⟩
    have hOffers := Offers.complete hState g.augmentedRule_first hMem
    rwa [completion_eq_accept_iff.mpr ⟨rfl, rfl⟩] at hOffers

end Automaton.Reached

namespace Automaton.Coherent

variable (hCoherent : automaton.Coherent g)
include hCoherent

/-- The augmented rule is complete with the end marker only, where it accepts. -/
theorem not_offers_augmentedRule : ¬ automaton.Offers g p t (.reduce augmentedRule) := by
  intro h
  generalize hAction : Action.reduce augmentedRule = action at h
  cases h with
  | shift => cases hAction
  | @complete state r rule hState hr hMem =>
    obtain ⟨rfl, hNot⟩ := completion_eq_reduce_iff.mp hAction.symm
    exact hNot ⟨rfl, hCoherent.lookahead hState _ hMem rfl⟩

theorem not_offers_shift_endMarker : ¬ automaton.Offers g p endMarker (.shift q) := by
  intro h
  rw [offers_shift_iff] at h
  obtain ⟨state, hState, _⟩ := exists_state_of_edge? h
  exact hCoherent.edge_ne_endMarker hState ((hCoherent.edge?_eq_some_iff hState).mp h) rfl

end Automaton.Coherent

/-! ## The cell of acceptance -/

/-- What a table says about acceptance, given the state that the start symbol leads to. -/
structure ParseTable.AcceptsIn (table : ParseTable) (g : Grammar) (automaton : Automaton)
    (q : StateId) : Prop where
  edge : automaton.edge? initialState (.nonterminal g.start) = some q
  accept : ∀ p t, table.action? p t = some .accept ↔ p = q ∧ t = endMarker
  reduce : ∀ p t, table.action? p t ≠ some (.reduce augmentedRule)
  shift : ∀ p p', table.action? p endMarker ≠ some (.shift p')
  /-- Acceptance loses no cell, and wins its own only. -/
  conflict_accept : ∀ c ∈ table.conflicts,
    c.other ≠ .accept ∧ (c.kept = .accept → c.state = q ∧ c.terminal = endMarker)
  conflict_reduce : ∀ c ∈ table.conflicts,
    c.kept ≠ .reduce augmentedRule ∧ c.other ≠ .reduce augmentedRule
  conflict_shift : ∀ c ∈ table.conflicts, c.terminal = endMarker →
    ∀ p, c.kept ≠ .shift p ∧ c.other ≠ .shift p
  /-- A run accepts with the input read and the start symbol alone on the stack. -/
  run : ∀ input lookups trace, table.parse g input lookups = .finished .accepted trace →
    ∃ before, trace = before ++
      [⟨[.state initialState, .symbol (.nonterminal g.start), .state q], [], some .accept⟩]

/-- A configuration that shows the start symbol and accepts is recorded like this. -/
theorem accepted_record {c : Configuration StateId InputToken Nonterminal}
    (hShows : c.Shows automaton [.nonterminal g.start])
    (hStart : automaton.edge? initialState (.nonterminal g.start) = some q)
    (hRemaining : c.remaining = []) (action : Option TableAction) :
    c.record action =
      ⟨[.state initialState, .symbol (.nonterminal g.start), .state q], [], action⟩ := by
  obtain ⟨states, symbols, position, remaining⟩ := c
  obtain ⟨hPath, hSymbols⟩ := hShows
  dsimp only at hPath hSymbols hRemaining
  subst hRemaining
  cases hPath with
  | @push p q' ps _ _ hPath hEdge =>
    cases hPath
    cases hStart.symm.trans hEdge
    obtain ⟨x, rfl, hx⟩ := List.map_eq_singleton_iff.mp hSymbols
    cases x with
    | token word => cases hWord : word.terminal? <;> simp [StackSymbol.symbol?, hWord] at hx
    | nonterminal n =>
      obtain rfl : n = g.start := by simpa [StackSymbol.symbol?] using hx
      rfl

namespace Automaton.Reached

variable (hReached : automaton.Reached g)
  (hStart : automaton.edge? initialState (.nonterminal g.start) = some q)
include hReached hStart

theorem action?_accept_iff : (ParseTable.ofAutomaton g automaton).action? p t = some .accept ↔
    p = q ∧ t = endMarker := by
  rw [ParseTable.action?_eq_some_iff hReached.coherent, ← hReached.offers_accept_iff hStart]
  refine ⟨Prefers.offers, fun h => ⟨h, fun p' => ?_⟩⟩
  obtain ⟨_, rfl⟩ := (hReached.offers_accept_iff hStart).mp h
  exact hReached.coherent.not_offers_shift_endMarker

theorem acceptsIn : (ParseTable.ofAutomaton g automaton).AcceptsIn g automaton q where
  edge := hStart
  accept _ _ := hReached.action?_accept_iff hStart
  reduce _ _ h := hReached.coherent.not_offers_augmentedRule
    (ParseTable.offers_of_action? hReached.coherent h)
  shift _ _ h := hReached.coherent.not_offers_shift_endMarker
    (ParseTable.offers_of_action? hReached.coherent h)
  conflict_accept c hc := by
    obtain ⟨hKept, _⟩ := (ParseTable.mem_conflicts_iff_offers hReached.coherent).mp hc
    obtain ⟨r, hReduce⟩ := ParseTable.exists_reduce_of_mem_conflicts hReached.coherent hc
    refine ⟨by simp [hReduce], fun hEq => (hReached.action?_accept_iff hStart).mp ?_⟩
    rwa [hEq] at hKept
  conflict_reduce c hc := by
    obtain ⟨hKept, hOther⟩ := ParseTable.offers_of_mem_conflicts hReached.coherent hc
    constructor
    · exact fun hEq => hReached.coherent.not_offers_augmentedRule (hEq ▸ hKept)
    · exact fun hEq => hReached.coherent.not_offers_augmentedRule (hEq ▸ hOther)
  conflict_shift c hc hEnd p := by
    obtain ⟨hKept, hOther⟩ := ParseTable.offers_of_mem_conflicts hReached.coherent hc
    rw [hEnd] at hKept hOther
    constructor
    · exact fun hEq => hReached.coherent.not_offers_shift_endMarker (hEq ▸ hKept)
    · exact fun hEq => hReached.coherent.not_offers_shift_endMarker (hEq ▸ hOther)
  run input lookups trace hParse := by
    obtain ⟨before, last, hMoves, hHalt, rfl⟩ := LookupTable.exists_moves_of_finished .refl hParse
    obtain ⟨⟨γ, hShows⟩, hTokens⟩ := shows_of_moves hReached.coherent input hMoves
    obtain ⟨hRemaining, rfl⟩ :=
      (outcome hReached.coherent hShows hTokens).of_accepted hHalt
    rw [LookupTable.move_eq_accepted_iff.mp hHalt]
    exact ⟨before, by rw [accepted_record hShows hStart hRemaining]⟩

end Automaton.Reached

/-- Whatever the grammar, with or without conflicts: its table accepts in the one cell at the end
marker of the state that the start symbol leads to. -/
theorem Construction.accepts_in_one_cell (algorithm : Algorithm) (g : Grammar) :
    ∃ automaton table q, (Construction.mk algorithm false).automaton g = .ok automaton ∧
      (Construction.mk algorithm false).generate g = .ok table ∧
      table.AcceptsIn g automaton q := by
  obtain ⟨automaton, hAutomaton, hReached⟩ := exists_reached algorithm g
  obtain ⟨q, hStart⟩ := hReached.exists_start
  refine ⟨automaton, _, q, hAutomaton, ?_, hReached.acceptsIn hStart⟩
  rw [generate_of_coherent hAutomaton hReached.coherent]
  rfl

end ShiftReduce
