import ShiftReduce.Proofs.LiveParses
import ShiftReduce.Proofs.Soundness

/-!
# Tables without conflicts

In the table of a coherent automaton, each live item of a stack has an action in
the row of the topmost state: a shift if it expects a terminal, a completion if it
is complete. Without conflicts these are the actions that the machine takes. So

* the grammar is deterministic (`Automaton.Coherent.deterministic`): at most one
  rule is live as a whole with a given lookahead, and none with a lookahead that
  another live item expects;
* the machine makes the moves of every parse along live items (`Parses.moves`).

A merged automaton may have no conflicts although its rows hold actions for
lookaheads with which no item is live. Nothing is said about those.
-/

namespace ShiftReduce

/-- On no stack are there two ways to go on with live items. -/
structure Grammar.Deterministic (g : Grammar) : Prop where
  no_shift : ∀ {γ : List Symbol} {i j : Item}, g.Live γ i → i.core.rest g = [] → g.Live γ j →
    j.core.next g ≠ some (.terminal i.lookahead)
  same_rule : ∀ {γ : List Symbol} {i j : Item}, g.Live γ i → i.core.rest g = [] → g.Live γ j →
    j.core.rest g = [] → i.lookahead = j.lookahead → i.core.rule = j.core.rule

variable {g : Grammar} {automaton : Automaton} {γ γ' : List Symbol} {q : StateId}
  {ps : List StateId} {i : Item} {t b : Terminal} {r : RuleId} {rule : Rule}
  {c : Configuration StateId InputToken Nonterminal}

/-! ## The actions of live items -/

/-- The completion of a complete live item is a candidate of the topmost state. -/
theorem Automaton.Path.mem_candidates_of_complete {state : State}
    (hPath : automaton.Path (q :: ps) γ) (hCoherent : automaton.Coherent g)
    (hState : automaton.states[q]? = some state) (hLive : g.Live γ i) (hRest : i.core.rest g = []) :
    (i.lookahead, completion i.core.rule i.lookahead) ∈ state.candidates g := by
  obtain ⟨⟨_, hr, _⟩, _⟩ := hLive.belongs
  have hKnown : i.core.Known g := (Array.getElem?_eq_some_iff.mp hr).1
  have hMem := hPath.mem_of_live hCoherent hState hLive
  exact State.mem_candidates.mpr
    (.inr ⟨i.core, hMem, Core.isComplete_iff.mpr ⟨hKnown, hRest⟩, rfl⟩)

/-- If a live item expects a terminal, some shift of it is a candidate of the topmost state. -/
theorem Automaton.Path.exists_mem_candidates_of_next {state : State}
    (hPath : automaton.Path (q :: ps) γ) (hCoherent : automaton.Coherent g)
    (hState : automaton.states[q]? = some state) (hLive : g.Live γ i)
    (hNext : i.core.next g = some (.terminal t)) : ∃ p, (t, .shift p) ∈ state.candidates g := by
  obtain ⟨p, hEdge⟩ := (hPath.exists_edge?_iff hCoherent).mpr ⟨i, hLive, hNext⟩
  have hMem := (hCoherent.edge?_eq_some_iff hState).mp hEdge
  exact ⟨p, State.mem_candidates.mpr (.inl ⟨p, hMem, rfl⟩)⟩

theorem Automaton.Path.action?_of_complete (hPath : automaton.Path (q :: ps) γ)
    (hCoherent : automaton.Coherent g)
    (hConflicts : (ParseTable.ofAutomaton g automaton).conflicts = []) (hLive : g.Live γ i)
    (hRest : i.core.rest g = []) :
    (ParseTable.ofAutomaton g automaton).action? q i.lookahead =
      some (completion i.core.rule i.lookahead) := by
  obtain ⟨state, hState⟩ := hPath.exists_state hCoherent
  have hMem := hPath.mem_candidates_of_complete hCoherent hState hLive hRest
  exact ParseTable.action?_of_mem_candidates hConflicts hState hMem

theorem Automaton.Path.action?_of_next (hPath : automaton.Path (q :: ps) γ)
    (hCoherent : automaton.Coherent g)
    (hConflicts : (ParseTable.ofAutomaton g automaton).conflicts = []) (hLive : g.Live γ i)
    (hNext : i.core.next g = some (.terminal t)) :
    ∃ p, (ParseTable.ofAutomaton g automaton).action? q t = some (.shift p) := by
  obtain ⟨state, hState⟩ := hPath.exists_state hCoherent
  obtain ⟨p, hMem⟩ := hPath.exists_mem_candidates_of_next hCoherent hState hLive hNext
  exact ⟨p, ParseTable.action?_of_mem_candidates hConflicts hState hMem⟩

/-- A grammar with a table without conflicts is deterministic. -/
theorem Automaton.Coherent.deterministic (hCoherent : automaton.Coherent g)
    (hConflicts : (ParseTable.ofAutomaton g automaton).conflicts = []) : g.Deterministic where
  no_shift hi hRest hj hNext := by
    obtain ⟨q, ps, hPath⟩ := Automaton.Path.exists_of_live hCoherent hi
    have hComplete := hPath.action?_of_complete hCoherent hConflicts hi hRest
    obtain ⟨p, hShift⟩ := hPath.action?_of_next hCoherent hConflicts hj hNext
    rw [hShift, Option.some_inj] at hComplete
    exact completion_ne_shift hComplete.symm
  same_rule hi hiRest hj hjRest hSame := by
    obtain ⟨q, ps, hPath⟩ := Automaton.Path.exists_of_live hCoherent hi
    have hiAction := hPath.action?_of_complete hCoherent hConflicts hi hiRest
    have hjAction := hPath.action?_of_complete hCoherent hConflicts hj hjRest
    rw [hSame, hjAction, Option.some_inj] at hiAction
    exact (completion_inj hiAction).symm

/-! ## The moves of live items -/

section Moves

variable (hCoherent : automaton.Coherent g)
  (hConflicts : (ParseTable.ofAutomaton g automaton).conflicts = [])
include hCoherent hConflicts

theorem shift_of_live {token : InputToken} {rest : List InputToken}
    (hShows : c.Shows automaton γ) (hTokens : NoEndMarker c.remaining)
    (hRemaining : c.remaining = token :: rest) (ht : token.terminal? = some t)
    (hLive : g.Live γ i) (hNext : i.core.next g = some (.terminal t)) :
    ∃ p, (automaton.machine g).chosen c = some (.shift p) ∧
      (automaton.machine g).move c = .next (c.shift token rest p) ∧
      (c.shift token rest p).Shows automaton (.terminal t :: γ) := by
  obtain ⟨q, ps, hStates, hPath⟩ := hShows.exists_path
  obtain ⟨p, hAction⟩ := hPath.action?_of_next hCoherent hConflicts hLive hNext
  have hLookup := chosen_lookups (ParseTable.ofAutomaton g automaton) hStates
  rw [hRemaining, lookahead?, ht, Option.bind_some, hAction] at hLookup
  obtain ⟨token', rest', t', hMove, hRemaining', ht', hNextShows⟩ :=
    (outcome hCoherent hShows hTokens).exists_shift hLookup
  rw [hRemaining] at hRemaining'
  cases hRemaining'
  rw [ht] at ht'
  cases ht'
  exact ⟨p, hLookup, hMove, hNextShows⟩

theorem reduce_of_live (hShows : c.Shows automaton (rule.right.reverse ++ γ))
    (hTokens : NoEndMarker c.remaining) (hr : g.rules[r]? = some rule) (h0 : r ≠ augmentedRule)
    (hLive : g.Live (rule.right.reverse ++ γ) ⟨⟨r, rule.right.length⟩, b⟩)
    (hLookahead : lookahead? c.remaining = some b) :
    ∃ c', (automaton.machine g).chosen c = some (.reduce r) ∧
      (automaton.machine g).move c = .next c' ∧
      c'.Shows automaton (.nonterminal rule.left :: γ) ∧ c'.remaining = c.remaining := by
  obtain ⟨q, ps, hStates, hPath⟩ := hShows.exists_path
  have hAction := hPath.action?_of_complete hCoherent hConflicts hLive (Grammar.rest_full hr)
  have hReduce : completion r b = .reduce r := completion_eq_reduce_iff.mpr ⟨rfl, fun h => h0 h.1⟩
  have hLookup := chosen_lookups (ParseTable.ofAutomaton g automaton) hStates
  rw [hLookahead, Option.bind_some, hAction, hReduce] at hLookup
  obtain ⟨rule', _, δ, p, hMove, hr', _, hγ, _, hNextShows⟩ :=
    (outcome hCoherent hShows hTokens).exists_reduce hLookup
  rw [hr] at hr'
  cases hr'
  rw [List.append_cancel_left hγ]
  exact ⟨_, hLookup, hMove, hNextShows, rfl⟩

theorem accept_of_live (hShows : c.Shows automaton [.nonterminal g.start])
    (hRemaining : c.remaining = []) :
    (automaton.machine g).chosen c = some .accept ∧
      (automaton.machine g).move c = .halt .accepted := by
  obtain ⟨q, ps, hStates, hPath⟩ := hShows.exists_path
  have hLive : g.Live [.nonterminal g.start] ⟨⟨augmentedRule, 1⟩, endMarker⟩ :=
    Grammar.Live.initial.read_rule g.augmentedRule_first
  have hRest : (⟨augmentedRule, 1⟩ : Core).rest g = [] :=
    Grammar.rest_full g.augmentedRule_first
  have hAction := hPath.action?_of_complete hCoherent hConflicts hLive hRest
  have hLookup := chosen_lookups (ParseTable.ofAutomaton g automaton) hStates
  rw [hRemaining, lookahead?, Option.bind_some, hAction] at hLookup
  exact ⟨hLookup, LookupTable.move_eq_accepted_iff.mpr hLookup⟩

end Moves

/-! ## Whole parses -/

def Step.isShift {σ ρ κ ν : Type} (step : Step σ ρ κ ν) : Bool := step.action.any Action.isShift

def shiftCount {σ ρ κ ν : Type} (trace : List (Step σ ρ κ ν)) : Nat := trace.countP Step.isShift

/-- The machine makes the moves of a parse along live items, and records as many
shifts and reductions as the parse has. -/
theorem Grammar.Parses.moves {v v' : List Terminal} {n : Nat} (h : g.Parses γ v n γ' v')
    (hCoherent : automaton.Coherent g)
    (hConflicts : (ParseTable.ofAutomaton g automaton).conflicts = [])
    (hShows : c.Shows automaton γ) (hTokens : NoEndMarker c.remaining)
    (hStand : StandFor c.remaining v) :
    ∃ steps c', (automaton.machine g).Moves c steps c' ∧ c'.Shows automaton γ' ∧
      StandFor c'.remaining v' ∧ shiftCount steps + v'.length = v.length ∧
      (reductions steps).length = n ∧ steps.length = shiftCount steps + n := by
  induction h generalizing c with
  | refl γ v => exact ⟨[], c, .refl, hShows, hStand, Nat.zero_add _, rfl, rfl⟩
  | @shift γ γ' t v v' n i hLive hNext _ ih =>
    obtain ⟨token, rest, hRemaining, ht, hRest⟩ := List.map_eq_cons_iff.mp hStand
    obtain ⟨p, hChosen, hMove, hNextShows⟩ :=
      shift_of_live hCoherent hConflicts hShows hTokens hRemaining ht hLive hNext
    have hNextTokens : NoEndMarker rest := by
      rw [hRemaining] at hTokens
      exact hTokens.tail
    obtain ⟨steps, c', hMoves, hShows', hStand', hShifts, hReductions, hLength⟩ :=
      ih hNextShows hNextTokens hRest
    refine ⟨_, c', .head hMove hMoves, hShows', hStand', ?_, ?_, ?_⟩
    · rw [hChosen, shiftCount, List.countP_cons_of_pos rfl, ← shiftCount, List.length_cons]
      omega
    · rw [hChosen]
      exact hReductions
    · rw [hChosen, shiftCount, List.countP_cons_of_pos rfl, ← shiftCount, List.length_cons]
      omega
  | @reduce γ γ' v v' n r rule hr h0 hLive _ ih =>
    obtain ⟨c₁, hChosen, hMove, hNextShows, hRemaining⟩ :=
      reduce_of_live hCoherent hConflicts hShows hTokens hr h0 hLive hStand.lookahead?
    obtain ⟨steps, c', hMoves, hShows', hStand', hShifts, hReductions, hLength⟩ :=
      ih hNextShows (hRemaining ▸ hTokens) (hRemaining ▸ hStand)
    refine ⟨_, c', .head hMove hMoves, hShows', hStand', ?_, ?_, ?_⟩
    · rw [hChosen, shiftCount, List.countP_cons_of_neg Bool.false_ne_true, ← shiftCount]
      exact hShifts
    · rw [hChosen]
      exact congrArg (· + 1) hReductions
    · rw [hChosen, shiftCount, List.countP_cons_of_neg Bool.false_ne_true, ← shiftCount,
        List.length_cons]
      omega

end ShiftReduce
