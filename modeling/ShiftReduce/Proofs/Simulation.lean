import ShiftReduce.Proofs.ErrorPosition
import ShiftReduce.Proofs.Quotient

/-!
# The merged machine follows the canonical one

The canonical automaton of a grammar and the merged one have different states, and if the
merged table has no conflicts, that is nearly all the difference there is between the two
machines.

* While the canonical machine finds actions, the merged machine takes the same ones
  (`Alongside.next`). Both stacks hold the same symbols, so both show the path of these symbols
  in their own automaton, and the path of the quotient is the path of the canonical automaton
  with its states renamed (`Path.quotient`).
* When the canonical machine rejects, no live item can do anything with the lookahead
  (`Grammar.Blocked`). The merged machine may go on to reduce, because its states hold the
  lookaheads of other canonical states as well. But a reduction cannot make the lookahead
  welcome again: what expects it after the reduction was a lookahead of the rule before
  (`Blocked.reduce`). So the merged machine never shifts it and never accepts.
-/

namespace ShiftReduce

/-! ## Records with renamed states -/

section Renaming

variable {σ σ' ρ κ ν : Type}

def Action.mapStates (f : σ → σ') : Action σ ρ → Action σ' ρ
  | .shift target => .shift (f target)
  | .reduce rule => .reduce rule
  | .accept => .accept

def StackItem.mapStates (f : σ → σ') : StackItem σ κ ν → StackItem σ' κ ν
  | .state q => .state (f q)
  | .symbol x => .symbol x

/-- A recorded step with its states renamed, on the stack and in the action. -/
def Step.mapStates (f : σ → σ') (step : Step σ ρ κ ν) : Step σ' ρ κ ν where
  stack := step.stack.map (StackItem.mapStates f)
  remaining := step.remaining
  action := step.action.map (Action.mapStates f)

def Configuration.mapStates (f : σ → σ') (c : Configuration σ κ ν) : Configuration σ' κ ν :=
  { c with states := c.states.map f }

theorem Configuration.snapshot_mapStates (f : σ → σ') (c : Configuration σ κ ν) :
    (c.mapStates f).snapshot = c.snapshot.map (StackItem.mapStates f) := by
  unfold snapshot mapStates
  rw [← List.map_reverse]
  cases c.states.reverse with
  | nil => rfl
  | cons bottom states =>
    rw [List.map_cons]
    dsimp only
    rw [List.zip_map_right, List.flatMap_map, List.map_cons, List.map_flatMap]
    rfl

theorem Configuration.record_mapStates (f : σ → σ') (c : Configuration σ κ ν)
    (action : Option (Action σ ρ)) :
    (c.record action).mapStates f = (c.mapStates f).record (action.map (Action.mapStates f)) := by
  rw [record, record, snapshot_mapStates]
  rfl

/-- A completion names no state. -/
theorem mapStates_completion (f f' : StateId → σ') (r : RuleId) (t : Terminal) :
    (completion r t).mapStates f = (completion r t).mapStates f' := by
  unfold completion
  split <;> rfl

end Renaming

/-! ## Paths and candidates of the quotient -/

section Quotient

variable {g : Grammar} {automaton merged : Automaton} {into : List StateId} {γ : List Symbol}
  {qs qs' : List StateId} {q m : StateId} {s t : State} {b : Terminal} {action : TableAction}

theorem Automaton.Path.quotient (hQuotient : automaton.Quotient merged into)
    (h : automaton.Path qs γ) (h' : merged.Path qs' γ) :
    qs.map (fun q => into[q]?) = qs'.map some := by
  induction h generalizing qs' with
  | bottom =>
    cases h'
    rw [List.map_singleton, List.map_singleton, hQuotient.initial]
  | @push p q ps γ X _ hEdge ih =>
    cases h' with
    | @push p' q' ps' _ _ h' hEdge' =>
      have hBelow := ih h'
      have hInto : into[p]? = some p' := (List.cons.inj hBelow).1
      obtain ⟨n, hTarget, hn⟩ := hQuotient.edge p p' X q hInto hEdge
      rw [hEdge', Option.some_inj] at hn
      change into[q]? :: (p :: ps).map (fun q => into[q]?) = some q' :: (p' :: ps').map some
      rw [hBelow, hTarget, hn]

/-- What a state offers is offered by the state that it goes into. -/
theorem Automaton.Quotient.mem_candidates (hQuotient : automaton.Quotient merged into)
    (hCoherent : automaton.Coherent g) (hMerged : merged.Coherent g) (hInto : into[q]? = some m)
    (hs : automaton.states[q]? = some s) (ht : merged.states[m]? = some t)
    (hMem : (b, action) ∈ s.candidates g) :
    ∃ action', (b, action') ∈ t.candidates g ∧
      action.mapStates (fun q => into[q]?) = action'.mapStates some := by
  rcases State.mem_candidates.mp hMem with ⟨p, hEdge, rfl⟩ | ⟨core, hItem, hComplete, rfl⟩
  · have hEdge? := (hCoherent.edge?_eq_some_iff hs).mpr hEdge
    obtain ⟨n, hTarget, hn⟩ := hQuotient.edge q m _ p hInto hEdge?
    refine ⟨.shift n, ?_, congrArg Action.shift hTarget⟩
    exact State.mem_candidates.mpr (.inl ⟨n, (hMerged.edge?_eq_some_iff ht).mp hn, rfl⟩)
  · refine ⟨completion core.rule b, ?_, mapStates_completion _ _ _ _⟩
    have hItem' := (hQuotient.mem_items_iff m t ht ⟨core, b⟩).mpr ⟨q, s, hInto, hs, hItem⟩
    exact State.mem_candidates.mpr (.inr ⟨core, hItem', hComplete, rfl⟩)

end Quotient

/-! ## Both machines on the same symbols -/

/-- The machines of two automata have read the same tokens and hold the same symbols. -/
structure Alongside (automaton merged : Automaton)
    (c c' : Configuration StateId InputToken Nonterminal) (γ : List Symbol) : Prop where
  shows : c.Shows automaton γ
  shows' : c'.Shows merged γ
  symbols : c'.symbols = c.symbols
  position : c'.position = c.position
  remaining : c'.remaining = c.remaining

section Alongside

variable {g : Grammar} {automaton merged : Automaton} {into : List StateId} {γ : List Symbol}
  {c c' d : Configuration StateId InputToken Nonterminal} {action : TableAction}
  {tokens : List InputToken} {steps : List (Step StateId RuleId InputToken Nonterminal)}

namespace Alongside

theorem start (automaton merged : Automaton) (g : Grammar) (tokens : List InputToken) :
    Alongside automaton merged ((automaton.machine g).start tokens)
      ((merged.machine g).start tokens) [] :=
  ⟨shows_start _ _ _, shows_start _ _ _, rfl, rfl, rfl⟩

theorem mapStates (h : Alongside automaton merged c c' γ)
    (hQuotient : automaton.Quotient merged into) :
    c.mapStates (fun q => into[q]?) = c'.mapStates some := by
  have hStates := h.shows.path.quotient hQuotient h.shows'.path
  unfold Configuration.mapStates
  rw [hStates, h.symbols, h.position, h.remaining]

section Step

variable (hQuotient : automaton.Quotient merged into) (hCoherent : automaton.Coherent g)
  (hMerged : merged.Coherent g) (hConflicts : (ParseTable.ofAutomaton g merged).conflicts = [])
include hQuotient hCoherent hMerged hConflicts

/-- An action that the first machine finds is found by the second one. -/
theorem chosen (h : Alongside automaton merged c c' γ)
    (hChosen : (automaton.machine g).chosen c = some action) :
    ∃ action', (merged.machine g).chosen c' = some action' ∧
      action.mapStates (fun q => into[q]?) = action'.mapStates some := by
  obtain ⟨q, ps, hStates⟩ := h.shows.path.exists_cons
  obtain ⟨m, ps', hStates', hPath'⟩ := h.shows'.exists_path
  have hInto : into[q]? = some m := by
    have hAll := h.shows.path.quotient hQuotient h.shows'.path
    rw [hStates, hStates'] at hAll
    exact (List.cons.inj hAll).1
  rw [chosen_lookups _ hStates] at hChosen
  obtain ⟨b, hLookahead, hAction⟩ := Option.bind_eq_some_iff.mp hChosen
  obtain ⟨s, hs, hMem⟩ := ParseTable.mem_candidates_of_action? hAction
  obtain ⟨t, ht⟩ := hPath'.exists_state hMerged
  obtain ⟨action', hMem', hSame⟩ := hQuotient.mem_candidates hCoherent hMerged hInto hs ht hMem
  refine ⟨action', ?_, hSame⟩
  rw [chosen_lookups _ hStates', h.remaining, hLookahead, Option.bind_some]
  exact ParseTable.action?_of_mem_candidates hConflicts ht hMem'

/-- A move of the first machine is made by the second one. -/
theorem next (h : Alongside automaton merged c c' γ) (hTokens : NoEndMarker c.remaining)
    (hMove : (automaton.machine g).move c = .next d) :
    ∃ d' γ', (merged.machine g).move c' = .next d' ∧ Alongside automaton merged d d' γ' := by
  have hOutcome' := outcome hMerged h.shows' (h.remaining ▸ hTokens)
  rcases (outcome hCoherent h.shows hTokens).of_next hMove with
    ⟨p, _, _, t, hChosen, rfl, hRemaining, ht, hShows⟩ |
      ⟨r, rule, δ, p, hChosen, rfl, hr, _, hγ, hShows⟩
  · obtain ⟨action', hChosen', hSame⟩ := h.chosen hQuotient hCoherent hMerged hConflicts hChosen
    cases action' with
    | accept => cases hSame
    | reduce _ => cases hSame
    | shift p' =>
      obtain ⟨_, _, _, hNext', hRemaining', ht', hShows'⟩ := hOutcome'.exists_shift hChosen'
      rw [h.remaining, hRemaining] at hRemaining'
      cases hRemaining'
      rw [ht] at ht'
      cases ht'
      refine ⟨_, _, hNext', hShows, hShows', ?_, ?_, rfl⟩
      · rw [Configuration.shift, Configuration.shift, h.symbols]
      · rw [Configuration.shift, Configuration.shift, h.position]
  · obtain ⟨action', hChosen', hSame⟩ := h.chosen hQuotient hCoherent hMerged hConflicts hChosen
    cases action' with
    | accept => cases hSame
    | shift _ => cases hSame
    | reduce r' =>
      cases hSame
      obtain ⟨_, _, _, _, hNext', hr', _, hγ', _, hShows'⟩ := hOutcome'.exists_reduce hChosen'
      cases hr.symm.trans hr'
      rw [hγ] at hγ'
      rw [← List.append_cancel_left hγ'] at hShows'
      refine ⟨_, _, hNext', hShows, hShows', ?_, h.position, h.remaining⟩
      simp only [Configuration.push, Configuration.pop, h.symbols]

theorem accepts (h : Alongside automaton merged c c' γ)
    (hHalt : (automaton.machine g).move c = .halt .accepted) :
    (merged.machine g).move c' = .halt .accepted := by
  have hChosen := LookupTable.move_eq_accepted_iff.mp hHalt
  obtain ⟨action', hChosen', hSame⟩ := h.chosen hQuotient hCoherent hMerged hConflicts hChosen
  cases action' with
  | accept => exact LookupTable.move_eq_accepted_iff.mpr hChosen'
  | shift _ => cases hSame
  | reduce _ => cases hSame

end Step

end Alongside

/-- As long as the first machine moves, the second one moves along. -/
theorem exists_alongside (hQuotient : automaton.Quotient merged into)
    (hCoherent : automaton.Coherent g) (hMerged : merged.Coherent g)
    (hConflicts : (ParseTable.ofAutomaton g merged).conflicts = []) (input : String)
    (h : (automaton.machine g).Moves ((automaton.machine g).start (g.tokenize input)) steps c) :
    ∃ steps' c' γ,
      (merged.machine g).Moves ((merged.machine g).start (g.tokenize input)) steps' c' ∧
      steps'.length = steps.length ∧ Alongside automaton merged c c' γ := by
  induction h with
  | refl => exact ⟨[], _, [], .refl, rfl, .start automaton merged g _⟩
  | step hMoves hMove ih =>
    obtain ⟨steps', c', γ, hMoves', hLength, hAlong⟩ := ih
    obtain ⟨_, hTokens⟩ := shows_of_moves hCoherent input hMoves
    obtain ⟨d', γ', hMove', hNext⟩ :=
      hAlong.next hQuotient hCoherent hMerged hConflicts hTokens hMove
    exact ⟨_, d', γ', .step hMoves' hMove', by simp [hLength], hNext⟩

end Alongside

/-! ## Lookaheads that nothing expects -/

/-- No live item reads the terminal next, or is complete before it. -/
def Grammar.Blocked (g : Grammar) (b : Terminal) (γ : List Symbol) : Prop :=
  ∀ i, g.Live γ i → i.core.next g ≠ some (.terminal b) ∧ (i.core.rest g = [] → i.lookahead ≠ b)

/-- A terminal that no live item expects is blocked. -/
theorem Grammar.blocked_of_not_expected {g : Grammar} {b : Terminal} {γ : List Symbol}
    (h : ∀ i, g.Live γ i → b ∉ g.expects i) : g.Blocked b γ := by
  intro i hLive
  constructor
  · intro hNext
    obtain ⟨tail, hRest⟩ := Core.next_eq_some_iff.mp hNext
    exact h i hLive ((mem_expects_of_rest hRest).mpr (.inl (OrdSet.mem_singleton.mpr rfl)))
  · intro hRest hLookahead
    exact h i hLive ((mem_expects_of_complete hRest).mpr hLookahead.symm)

/-- After a reduction the terminal is still blocked. -/
theorem Grammar.Blocked.reduce {g : Grammar} {b : Terminal} {δ : List Symbol} {r : RuleId}
    {rule : Rule} (h : g.Blocked b (rule.right.reverse ++ δ)) (hr : g.rules[r]? = some rule) :
    g.Blocked b (.nonterminal rule.left :: δ) := by
  apply blocked_of_not_expected
  intro i hLive hb
  exact (h _ (hLive.completes hb hr)).2 (rest_full hr) rfl

/-- With the start symbol on the stack, the end of the input is welcome. -/
theorem Grammar.not_blocked_start (g : Grammar) :
    ¬ g.Blocked endMarker [.nonterminal g.start] := by
  intro hBlocked
  have hLive : g.Live [.nonterminal g.start] ⟨⟨augmentedRule, 1⟩, endMarker⟩ :=
    Live.initial.read_rule g.augmentedRule_first
  exact (hBlocked _ hLive).2 (rest_full g.augmentedRule_first) rfl

/-- The machine shows a path on which nothing can be done with the lookahead. -/
structure Refused (g : Grammar) (automaton : Automaton)
    (c : Configuration StateId InputToken Nonterminal) (γ : List Symbol) : Prop where
  shows : c.Shows automaton γ
  blocked : ∀ b, lookahead? c.remaining = some b → g.Blocked b γ

section Refused

variable {g : Grammar} {automaton merged : Automaton} {γ : List Symbol} {q : StateId}
  {ps : List StateId} {state : State} {b : Terminal}
  {c c' : Configuration StateId InputToken Nonterminal}
  {steps : List (Step StateId RuleId InputToken Nonterminal)}

theorem Automaton.Path.blocked_of_no_candidate (hPath : automaton.Path (q :: ps) γ)
    (hCoherent : automaton.Coherent g) (hState : automaton.states[q]? = some state)
    (hNone : ∀ action, (b, action) ∉ state.candidates g) : g.Blocked b γ := by
  intro i hLive
  constructor
  · intro hNext
    obtain ⟨p, hMem⟩ := hPath.exists_mem_candidates_of_next hCoherent hState hLive hNext
    exact hNone _ hMem
  · rintro hRest rfl
    exact hNone _ (hPath.mem_candidates_of_complete hCoherent hState hLive hRest)

/-- A machine that finds no action has nothing to do with the lookahead. -/
theorem refused_of_chosen (hCoherent : automaton.Coherent g) (hShows : c.Shows automaton γ)
    (hChosen : (automaton.machine g).chosen c = none) : Refused g automaton c γ := by
  refine ⟨hShows, ?_⟩
  intro b hLookahead
  obtain ⟨q, ps, hStates, hPath⟩ := hShows.exists_path
  obtain ⟨state, hState⟩ := hPath.exists_state hCoherent
  rw [chosen_lookups _ hStates, hLookahead, Option.bind_some,
    ParseTable.action?_ofAutomaton hState, List.lookup_eq_none_iff] at hChosen
  apply hPath.blocked_of_no_candidate hCoherent hState
  intro action hMem
  have := hChosen _ hMem
  simp at this

theorem Alongside.refused (h : Alongside automaton merged c c' γ)
    (hRefused : Refused g automaton c γ) : Refused g merged c' γ :=
  ⟨h.shows', h.remaining ▸ hRefused.blocked⟩

namespace Refused

variable (hCoherent : automaton.Coherent g)
include hCoherent

/-- A machine that has nothing to do with the lookahead rejects or reduces. -/
theorem chosen (h : Refused g automaton c γ) (hTokens : NoEndMarker c.remaining) :
    (automaton.machine g).chosen c = none ∨
      ∃ r, (automaton.machine g).chosen c = some (.reduce r) := by
  cases outcome hCoherent h.shows hTokens with
  | reject hChosen => exact .inl hChosen
  | reduce hChosen => exact .inr ⟨_, hChosen⟩
  | accept _ _ hRemaining hγ =>
    have hBlocked : g.Blocked endMarker γ := h.blocked _ (by rw [hRemaining]; rfl)
    rw [hγ] at hBlocked
    exact absurd hBlocked g.not_blocked_start
  | @shift token rest t p _ _ hRemaining ht hShows =>
    have hBlocked : g.Blocked t γ := h.blocked _ (by rw [hRemaining]; exact ht)
    obtain ⟨i, hLive, hNext⟩ := hShows.path.exists_next hCoherent
    exact absurd hNext (hBlocked i hLive).1

theorem not_accepted (h : Refused g automaton c γ) (hTokens : NoEndMarker c.remaining) :
    (automaton.machine g).move c ≠ .halt .accepted := by
  intro hHalt
  have hAccept := LookupTable.move_eq_accepted_iff.mp hHalt
  rcases h.chosen hCoherent hTokens with hNone | ⟨_, hReduce⟩
  · rw [hNone] at hAccept
    cases hAccept
  · rw [hReduce] at hAccept
    cases hAccept

/-- It has nothing to do with the lookahead after a move either, and has not read. -/
theorem next (h : Refused g automaton c γ) (hTokens : NoEndMarker c.remaining)
    (hMove : (automaton.machine g).move c = .next c') :
    ∃ γ', Refused g automaton c' γ' ∧ c'.position = c.position ∧ c'.remaining = c.remaining := by
  rcases (outcome hCoherent h.shows hTokens).of_next hMove with
    ⟨_, _, _, _, hShift, _⟩ | ⟨_, _, _, _, _, rfl, hr, _, hγ, hShows⟩
  · rcases h.chosen hCoherent hTokens with hNone | ⟨_, hReduce⟩
    · rw [hNone] at hShift
      cases hShift
    · rw [hReduce] at hShift
      cases hShift
  · refine ⟨_, ⟨hShows, ?_⟩, rfl, rfl⟩
    intro b hLookahead
    have hBlocked := h.blocked b hLookahead
    rw [hγ] at hBlocked
    exact hBlocked.reduce hr

theorem of_moves (h : Refused g automaton c γ) (hTokens : NoEndMarker c.remaining)
    (hMoves : (automaton.machine g).Moves c steps c') :
    ∃ γ', Refused g automaton c' γ' ∧ c'.position = c.position ∧ c'.remaining = c.remaining := by
  induction hMoves with
  | refl => exact ⟨γ, h, rfl, rfl⟩
  | step _ hMove ih =>
    obtain ⟨γ', hRefused, hPosition, hRemaining⟩ := ih
    obtain ⟨γ'', hNext, hPosition', hRemaining'⟩ :=
      hRefused.next hCoherent (hRemaining ▸ hTokens) hMove
    exact ⟨γ'', hNext, hPosition'.trans hPosition, hRemaining'.trans hRemaining⟩

end Refused

end Refused

/-! ## The simulation -/

/-- How the runs over one table follow those over another on the same tokens, if `into` lists
the states that stand for the states of the other table. Steps are given by number, since the
runs need not end; the trace of a run that ends has these steps (`getElem?_trace`). -/
structure ParseTable.Simulates (table canonical : ParseTable) (into : List StateId)
    (tokens : List InputToken) : Prop where
  /-- As long as the other run does not reject, each step is the same step. -/
  same_step : ∀ k step, canonical.lookups.step? tokens k = some step → step.action ≠ none →
    ∃ step', table.lookups.step? tokens k = some step' ∧
      step.mapStates (fun q => into[q]?) = step'.mapStates some
  /-- When the other run rejects, this one stands there with the same stack. -/
  at_rejection : ∀ k step, canonical.lookups.step? tokens k = some step → step.action = none →
    ∃ step', table.lookups.step? tokens k = some step' ∧ step'.remaining = step.remaining ∧
      step.stack.map (StackItem.mapStates fun q => into[q]?) =
        step'.stack.map (StackItem.mapStates some)
  /-- From then on it reads nothing, and only reduces until it rejects, if it does. -/
  after_rejection : ∀ k step, canonical.lookups.step? tokens k = some step → step.action = none →
    ∀ j step', k ≤ j → table.lookups.step? tokens j = some step' →
      step'.remaining = step.remaining ∧
        (step'.action = none ∨ ∃ r, step'.action = some (.reduce r))
  same_verdict : ∀ m n verdict verdict' trace trace',
    canonical.lookups.run tokens m = .finished verdict trace →
    table.lookups.run tokens n = .finished verdict' trace' →
    (verdict = .accepted ↔ verdict' = .accepted) ∧
      ∀ rejection rejection', verdict = .rejected rejection → verdict' = .rejected rejection' →
        rejection'.position = rejection.position ∧ rejection'.lookahead = rejection.lookahead

section Simulates

variable {g : Grammar} {automaton merged : Automaton} {into : List StateId}
  (hQuotient : automaton.Quotient merged into) (hCoherent : automaton.Coherent g)
  (hMerged : merged.Coherent g) (hConflicts : (ParseTable.ofAutomaton g merged).conflicts = [])
include hQuotient hCoherent hMerged hConflicts

/-- After each number of moves of the first machine, the second one stands alongside. -/
theorem exists_after? {input : String} {k : Nat}
    {c : Configuration StateId InputToken Nonterminal}
    (hAfter : (automaton.machine g).after? ((automaton.machine g).start (g.tokenize input)) k =
      some c) :
    ∃ c' γ, (merged.machine g).after? ((merged.machine g).start (g.tokenize input)) k = some c' ∧
      Alongside automaton merged c c' γ ∧ NoEndMarker c.remaining := by
  obtain ⟨steps, rfl, hMoves⟩ := LookupTable.moves_of_after? hAfter
  obtain ⟨steps', c', γ, hMoves', hLength, hAlong⟩ :=
    exists_alongside hQuotient hCoherent hMerged hConflicts input hMoves
  obtain ⟨_, hTokens⟩ := shows_of_moves hCoherent input hMoves
  refine ⟨c', γ, ?_, hAlong, hTokens⟩
  rw [← hLength]
  exact LookupTable.after?_of_moves hMoves'

/-- Runs that end have the same verdict, and reject at the same place. -/
theorem same_verdict {input : String} {m n : Nat}
    {verdict verdict' : Verdict StateId Terminal InputToken}
    {trace trace' : List (Step StateId RuleId InputToken Nonterminal)}
    (hRun : (automaton.machine g).run (g.tokenize input) m = .finished verdict trace)
    (hRun' : (merged.machine g).run (g.tokenize input) n = .finished verdict' trace') :
    (verdict = .accepted ↔ verdict' = .accepted) ∧
      ∀ rejection rejection', verdict = .rejected rejection → verdict' = .rejected rejection' →
        rejection'.position = rejection.position ∧ rejection'.lookahead = rejection.lookahead := by
  obtain ⟨_, last, hMoves, hHalt, _⟩ := LookupTable.exists_moves_of_finished .refl hRun
  obtain ⟨_, last', hMoves', hHalt', _⟩ := LookupTable.exists_moves_of_finished .refl hRun'
  obtain ⟨_, c', γ, hReach, _, hAlong⟩ :=
    exists_alongside hQuotient hCoherent hMerged hConflicts input hMoves
  obtain ⟨_, hTokens⟩ := shows_of_moves hCoherent input hMoves
  have hTokens' : NoEndMarker c'.remaining := hAlong.remaining ▸ hTokens
  -- What the second machine does after the moves of the first one ends where its run ends.
  obtain ⟨rest, hRest⟩ := hReach.exists_of_halt hMoves' hHalt'
  cases verdict with
  | accepted =>
    have hEnd := hAlong.accepts hQuotient hCoherent hMerged hConflicts hHalt
    rcases hRest.cases_head with rfl | ⟨_, _, hNext, _⟩
    · rw [hEnd] at hHalt'
      cases hHalt'
      simp
    · rw [hEnd] at hNext
      cases hNext
  | rejected rejection =>
    obtain ⟨hNone, hPosition, hLookahead⟩ := LookupTable.move_eq_rejected hHalt
    have hRefused := hAlong.refused (refused_of_chosen hCoherent hAlong.shows hNone)
    obtain ⟨γ', hLast, hSame, hUnread⟩ := hRefused.of_moves hMerged hTokens' hRest
    cases verdict' with
    | accepted => exact absurd hHalt' (hLast.not_accepted hMerged (hUnread ▸ hTokens'))
    | rejected rejection' =>
      obtain ⟨_, hPosition', hLookahead'⟩ := LookupTable.move_eq_rejected hHalt'
      refine ⟨by simp, ?_⟩
      rintro _ _ ⟨⟩ ⟨⟩
      rw [hPosition, hPosition', hLookahead, hLookahead', hSame, hUnread, hAlong.position,
        hAlong.remaining]
      exact ⟨rfl, rfl⟩

/-- The table of a quotient follows the table of the automaton over every input. -/
theorem simulates_of_quotient (input : String) :
    (ParseTable.ofAutomaton g merged).Simulates (ParseTable.ofAutomaton g automaton) into
      (g.tokenize input) where
  same_step k step hStep hAction := by
    obtain ⟨c, hAfter, rfl⟩ := Option.map_eq_some_iff.mp hStep
    obtain ⟨c', γ, hAfter', hAlong, _⟩ :=
      exists_after? hQuotient hCoherent hMerged hConflicts hAfter
    cases hChosen : (automaton.machine g).chosen c with
    | none => exact absurd hChosen hAction
    | some action =>
      obtain ⟨action', hChosen', hSame⟩ :=
        hAlong.chosen hQuotient hCoherent hMerged hConflicts hChosen
      refine ⟨c'.record (some action'), ?_, ?_⟩
      · rw [LookupTable.step?, hAfter', Option.map_some, hChosen']
      · rw [Configuration.record_mapStates, Configuration.record_mapStates,
          hAlong.mapStates hQuotient, Option.map_some, Option.map_some, hSame]
  at_rejection k step hStep hAction := by
    obtain ⟨c, hAfter, rfl⟩ := Option.map_eq_some_iff.mp hStep
    obtain ⟨c', γ, hAfter', hAlong, _⟩ :=
      exists_after? hQuotient hCoherent hMerged hConflicts hAfter
    refine ⟨_, Option.map_eq_some_iff.mpr ⟨c', hAfter', rfl⟩, hAlong.remaining, ?_⟩
    rw [Configuration.record, Configuration.record, ← Configuration.snapshot_mapStates,
      ← Configuration.snapshot_mapStates, hAlong.mapStates hQuotient]
  after_rejection k step hStep hAction j step' hLe hStep' := by
    obtain ⟨c, hAfter, rfl⟩ := Option.map_eq_some_iff.mp hStep
    obtain ⟨d, hReach, rfl⟩ := Option.map_eq_some_iff.mp hStep'
    obtain ⟨c', γ, hAfter', hAlong, hTokens⟩ :=
      exists_after? hQuotient hCoherent hMerged hConflicts hAfter
    have hTokens' : NoEndMarker c'.remaining := hAlong.remaining ▸ hTokens
    obtain ⟨more, rfl⟩ := Nat.exists_eq_add_of_le hLe
    rw [LookupTable.after?_add, hAfter', Option.bind_some] at hReach
    obtain ⟨_, _, hMoves⟩ := LookupTable.moves_of_after? hReach
    have hRefused := hAlong.refused (refused_of_chosen hCoherent hAlong.shows hAction)
    obtain ⟨γ', hLast, _, hUnread⟩ := hRefused.of_moves hMerged hTokens' hMoves
    exact ⟨hUnread.trans hAlong.remaining, hLast.chosen hMerged (hUnread ▸ hTokens')⟩
  same_verdict _ _ _ _ _ _ hRun hRun' :=
    same_verdict hQuotient hCoherent hMerged hConflicts hRun hRun'

end Simulates

/-- If the merged table has no conflicts, then over every input it follows the canonical
table, whose states go into its own as the merged automaton says. -/
theorem Construction.merged_simulates_canonical {strict : Bool} {g : Grammar} {table : ParseTable}
    (hTable : (Construction.mk .merged strict).generate g = .ok table)
    (hConflicts : table.conflicts = []) :
    ∃ merged into canonical, (Construction.mk .merged strict).automaton g = .ok merged ∧
      merged.mergeMap? = some into ∧
      (Construction.mk .canonical false).generate g = .ok canonical ∧
      ∀ input : String, table.Simulates canonical into (g.tokenize input) := by
  have hAutomaton : (Construction.mk .merged strict).automaton g =
      .ok ((Automaton.canonical g).merged g g.firstSets) := Automaton.merge_canonical g
  have hCoherent := Automaton.coherent_canonical g
  have hMerged := Automaton.coherent_merged g
  have hTable' : table = ParseTable.ofAutomaton g ((Automaton.canonical g).merged g g.firstSets) := by
    rw [generate_of_coherent hAutomaton hMerged] at hTable
    split at hTable
    · cases hTable
    · exact (Except.ok.inj hTable).symm
  refine ⟨_, Automaton.canonicalInto g, ParseTable.ofAutomaton g (Automaton.canonical g),
    hAutomaton, rfl, generate_of_coherent rfl hCoherent, ?_⟩
  rw [hTable'] at hConflicts ⊢
  exact simulates_of_quotient (Automaton.quotient_merged g) hCoherent hMerged hConflicts

theorem merged_simulates_canonical_twice :
    (Construction.mk .merged false).generate twice = .ok (twiceTable .merged) ∧
      (twiceTable .merged).conflicts = [] ∧
      ∃ merged into canonical, (Construction.mk .merged false).automaton twice = .ok merged ∧
        merged.mergeMap? = some into ∧
        (Construction.mk .canonical false).generate twice = .ok canonical ∧
        ∀ input : String,
          (twiceTable .merged).Simulates canonical into (twice.tokenize input) := by
  have hTable : (Construction.mk .merged false).generate twice = .ok (twiceTable .merged) :=
    eq_ok_of_toOption (Option.some_get _).symm
  have hConflicts : (twiceTable .merged).conflicts = [] := by decide +kernel
  exact ⟨hTable, hConflicts, Construction.merged_simulates_canonical hTable hConflicts⟩

/-- On `a b` the canonical machine rejects after two moves, where the merged one reduces. -/
example : ((twiceTable .canonical).lookups.step? (twice.tokenize "a b") 2).map Step.action =
      some none ∧
    ((twiceTable .merged).lookups.step? (twice.tokenize "a b") 2).map Step.action =
      some (some (.reduce 3)) := by
  decide +kernel

end ShiftReduce
