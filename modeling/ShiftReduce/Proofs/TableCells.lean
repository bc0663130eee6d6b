import Mathlib.Data.List.Range
import ShiftReduce.Proofs.StackPath
import ShiftReduce.Proofs.TableWriting

/-!
# The cells of a table

Which action a cell keeps, and what the list of conflicts says, in terms of the automaton alone.
For a state and a terminal the automaton offers a shift if it has an edge, and an action for each
complete item with that lookahead (`Automaton.Offers`). Of several actions offered, the cell
keeps the one that `Automaton.Prefers`, and each of the others is in one conflict.

All this is a matter of order. Shifts are written before completions, and the items of a state
come by their rules, where a rule has one complete item for a lookahead. So completions are in
strictly increasing order (`Coherent.pairwise_completions`), and

* the first completion at a terminal is that of the smallest rule (`Coherent.le_of_lookup`);
* what loses its cell is always a reduction: a symbol has one edge, and acceptance is only ever
  offered for rule `0` at the end marker, which no edge has (`Coherent.exists_reduce`);
* no conflict is found twice, and the list is in the order of `Conflict.Before`.
-/

namespace ShiftReduce

/-! ## Actions offered -/

/-- What an automaton offers to do in a state at a terminal. -/
inductive Automaton.Offers (automaton : Automaton) (g : Grammar) (q : StateId) (t : Terminal) :
    TableAction → Prop
  | shift {p : StateId} : automaton.edge? q (.terminal t) = some p →
      Offers automaton g q t (.shift p)
  | complete {state : State} {r : RuleId} {rule : Rule} : automaton.states[q]? = some state →
      g.rules[r]? = some rule → (⟨⟨r, rule.right.length⟩, t⟩ : Item) ∈ state.items →
      Offers automaton g q t (completion r t)

/-- The action that comes before all others offered: the shift, or without one acceptance, or else
the reduction of the smallest rule. -/
def Automaton.Prefers (automaton : Automaton) (g : Grammar) (q : StateId) (t : Terminal) :
    TableAction → Prop
  | .shift p => automaton.Offers g q t (.shift p)
  | .accept => automaton.Offers g q t .accept ∧ ∀ p, ¬ automaton.Offers g q t (.shift p)
  | .reduce r => automaton.Offers g q t (.reduce r) ∧ (∀ p, ¬ automaton.Offers g q t (.shift p)) ∧
      ¬ automaton.Offers g q t .accept ∧ ∀ r', automaton.Offers g q t (.reduce r') → r ≤ r'

/-- The order of conflicts: by state, then by the rule that is not reduced, then by terminal. -/
def Conflict.Before (c d : Conflict) : Prop :=
  c.state < d.state ∨ c.state = d.state ∧ ∃ r r', c.other = .reduce r ∧ d.other = .reduce r' ∧
    (r < r' ∨ r = r' ∧ c.terminal < d.terminal)

theorem Conflict.Before.ne {c d : Conflict} (h : c.Before d) : c ≠ d := by
  rintro rfl
  rcases h with hState | ⟨_, r, r', hr, hr', h⟩
  · exact Nat.lt_irrefl _ hState
  · cases hr.symm.trans hr'
    rcases h with hRule | ⟨_, hTerminal⟩
    · exact Nat.lt_irrefl _ hRule
    · exact Nat.lt_irrefl _ hTerminal

/-- What a table says about an automaton. -/
structure ParseTable.Exact (table : ParseTable) (g : Grammar) (automaton : Automaton) : Prop where
  empty : ∀ q t, table.action? q t = none ↔ ∀ action, ¬ automaton.Offers g q t action
  action? : ∀ q t action, table.action? q t = some action ↔ automaton.Prefers g q t action
  goto? : ∀ q n, table.goto? q n = automaton.edge? q (.nonterminal n)
  conflict : ∀ conflict, conflict ∈ table.conflicts ↔
    table.action? conflict.state conflict.terminal = some conflict.kept ∧
      automaton.Offers g conflict.state conflict.terminal conflict.other ∧
      conflict.other ≠ conflict.kept
  other : ∀ conflict ∈ table.conflicts, ∃ r, conflict.other = .reduce r
  kind : ∀ conflict ∈ table.conflicts,
    conflict.kind = .shiftReduce ↔ conflict.kept.isShift = true
  once : table.conflicts.Nodup
  ordered : table.conflicts.Pairwise Conflict.Before

/-- The order of completions: by rule, then by terminal. -/
def CompletedBefore (entry entry' : Terminal × TableAction) : Prop :=
  ∃ r r', entry.2 = completion r entry.1 ∧ entry'.2 = completion r' entry'.1 ∧
    (r < r' ∨ r = r' ∧ entry.1 < entry'.1)

namespace Automaton

variable {automaton : Automaton} {g : Grammar} {q p : StateId} {state : State} {t : Terminal}
  {r r' : RuleId} {action action' : TableAction} {core : Core}

theorem offers_shift_iff :
    automaton.Offers g q t (.shift p) ↔ automaton.edge? q (.terminal t) = some p := by
  constructor
  · intro h
    generalize hAction : Action.shift p = action at h
    cases h with
    | shift hEdge =>
      cases hAction
      exact hEdge
    | complete => exact absurd hAction.symm completion_ne_shift
  · exact .shift

theorem Offers.exists_state (h : automaton.Offers g q t action) :
    ∃ state, automaton.states[q]? = some state := by
  cases h with
  | shift hEdge =>
    obtain ⟨state, hState, _⟩ := exists_state_of_edge? hEdge
    exact ⟨state, hState⟩
  | complete hState => exact ⟨_, hState⟩

theorem Offers.exists_completion (h : automaton.Offers g q t action)
    (hShift : action.isShift = false) : ∃ r, action = completion r t := by
  cases h with
  | shift => cases hShift
  | complete => exact ⟨_, rfl⟩

/-- Without a shift, the completion of the smallest rule is preferred. Acceptance is the completion
of the smallest rule there is. -/
theorem prefers_completion (hShift : ∀ p, ¬ automaton.Offers g q t (.shift p))
    (hOffers : automaton.Offers g q t (completion r t))
    (hLeast : ∀ r', automaton.Offers g q t (completion r' t) → r ≤ r') :
    automaton.Prefers g q t (completion r t) := by
  by_cases hAccept : r = augmentedRule ∧ t = endMarker
  · rw [completion_eq_accept_iff.mpr hAccept] at hOffers ⊢
    exact ⟨hOffers, hShift⟩
  · rw [completion_eq_reduce_iff.mpr ⟨rfl, hAccept⟩] at hOffers ⊢
    refine ⟨hOffers, hShift, fun hOther => ?_, fun r' hOther => ?_⟩
    · obtain ⟨r', hr'⟩ := hOther.exists_completion rfl
      obtain ⟨h0, hEnd⟩ := completion_eq_accept_iff.mp hr'.symm
      have hLe := hLeast r' (hr' ▸ hOther)
      rw [h0] at hLe
      exact hAccept ⟨Nat.le_zero.mp hLe, hEnd⟩
    · obtain ⟨s, hs⟩ := hOther.exists_completion rfl
      obtain ⟨rfl, _⟩ := completion_eq_reduce_iff.mp hs.symm
      exact hLeast _ (hs ▸ hOther)

/-- At most one action is preferred. -/
theorem Prefers.unique (h : automaton.Prefers g q t action)
    (h' : automaton.Prefers g q t action') : action = action' := by
  cases action with
  | shift p =>
    cases action' with
    | shift p' =>
      have hSame := (offers_shift_iff.mp h).symm.trans (offers_shift_iff.mp h')
      rw [Option.some.inj hSame]
    | accept => exact absurd h (h'.2 p)
    | reduce r' => exact absurd h (h'.2.1 p)
  | accept =>
    cases action' with
    | shift p' => exact absurd h' (h.2 p')
    | accept => rfl
    | reduce r' => exact absurd h.1 h'.2.2.1
  | reduce r =>
    cases action' with
    | shift p' => exact absurd h' (h.2.1 p')
    | accept => exact absurd h'.1 h.2.2.1
    | reduce r' => rw [Nat.le_antisymm (h.2.2.2 r' h'.1) (h'.2.2.2 r h.1)]

theorem Prefers.offers (h : automaton.Prefers g q t action) :
    automaton.Offers g q t action := by
  cases action with
  | shift p => exact h
  | accept => exact h.1
  | reduce r => exact h.1

namespace Coherent

variable (hCoherent : automaton.Coherent g) (hState : automaton.states[q]? = some state)
include hCoherent hState

/-- A complete item of a state has its marker at the end of its rule. -/
theorem marker_of_isComplete {a : Terminal} (hMem : (⟨core, a⟩ : Item) ∈ state.items)
    (hComplete : core.isComplete g = true) :
    ∃ rule, g.rules[core.rule]? = some rule ∧ core.marker = rule.right.length := by
  obtain ⟨⟨rule, hr, hLe⟩, _⟩ := hCoherent.belongs hState _ hMem
  have hRest := (Core.isComplete_iff.mp hComplete).2
  rw [Core.rest_eq_drop hr, List.drop_eq_nil_iff] at hRest
  exact ⟨rule, hr, Nat.le_antisymm hLe hRest⟩

theorem offers_iff : automaton.Offers g q t action ↔ (t, action) ∈ state.candidates g := by
  rw [State.mem_candidates]
  constructor
  · intro h
    cases h with
    | @shift p hEdge => exact .inl ⟨p, (hCoherent.edge?_eq_some_iff hState).mp hEdge, rfl⟩
    | @complete _ r rule hState' hr hMem =>
      cases hState.symm.trans hState'
      have hKnown : (⟨r, rule.right.length⟩ : Core).Known g := (Array.getElem?_eq_some_iff.mp hr).1
      exact .inr ⟨_, hMem, Core.isComplete_iff.mpr ⟨hKnown, Grammar.rest_full hr⟩, rfl⟩
  · rintro (⟨p, hEdge, rfl⟩ | ⟨⟨r, m⟩, hMem, hComplete, rfl⟩)
    · exact .shift ((hCoherent.edge?_eq_some_iff hState).mpr hEdge)
    · obtain ⟨rule, hr, hm⟩ := hCoherent.marker_of_isComplete hState hMem hComplete
      dsimp only at hm
      rw [hm] at hMem
      exact .complete hState hr hMem

/-! ## The order of completions -/

/-- The items of a state are in order, and of two complete items with one rule it is the lookaheads
that differ. -/
theorem pairwise_completions : (state.completions g).Pairwise CompletedBefore := by
  rw [State.completions, List.pairwise_map]
  refine (state.items.increasing.filter _).imp_of_mem fun {i j} hi hj hLt => ?_
  obtain ⟨hi, hiComplete⟩ := List.mem_filter.mp hi
  obtain ⟨hj, hjComplete⟩ := List.mem_filter.mp hj
  obtain ⟨rule, hr, hm⟩ := hCoherent.marker_of_isComplete hState hi hiComplete
  obtain ⟨rule', hr', hm'⟩ := hCoherent.marker_of_isComplete hState hj hjComplete
  refine ⟨i.core.rule, j.core.rule, rfl, rfl, ?_⟩
  rcases Item.compare_eq_lt.mp hLt with hCore | ⟨hCore, hLookahead⟩
  · rcases Core.compare_eq_lt.mp hCore with hRule | ⟨hRule, hMarker⟩
    · exact .inl hRule
    · rw [hRule, hr', Option.some_inj] at hr
      rw [hm, hm', hr] at hMarker
      exact absurd hMarker (Nat.lt_irrefl _)
  · exact .inr ⟨congrArg Core.rule hCore, hLookahead⟩

/-- The first completion at a terminal is that of the smallest rule. -/
theorem le_of_lookup (hFirst : (state.completions g).lookup t = some (completion r t))
    (hMem : (t, completion r' t) ∈ state.completions g) : r ≤ r' := by
  obtain ⟨front, back, hSplit, hNone⟩ := List.lookup_eq_some_iff.mp hFirst
  have hOrder := hCoherent.pairwise_completions hState
  rw [hSplit] at hMem hOrder
  rcases List.mem_append.mp hMem with hFront | hBack
  · exact absurd (hNone _ hFront) (by simp)
  · rcases List.mem_cons.mp hBack with hSame | hBack
    · exact Nat.le_of_eq (completion_inj (congrArg Prod.snd hSame)).symm
    · have hCons := (List.pairwise_append.mp hOrder).2.1
      obtain ⟨s, s', hs, hs', hLt⟩ := (List.pairwise_cons.mp hCons).1 _ hBack
      rw [completion_inj hs, completion_inj hs']
      rcases hLt with hLt | ⟨hEq, _⟩
      · exact Nat.le_of_lt hLt
      · exact Nat.le_of_eq hEq

/-! ## The action of a cell -/

theorem mem_completions_of_offers (h : automaton.Offers g q t (completion r t)) :
    (t, completion r t) ∈ state.completions g := by
  rcases List.mem_append.mp ((hCoherent.offers_iff hState).mp h) with hShift | hMem
  · obtain ⟨p, _, hShift⟩ := State.mem_shifts.mp hShift
    exact absurd hShift completion_ne_shift
  · exact hMem

/-- The first candidate is the action preferred. -/
theorem prefers_of_lookup (h : (state.candidates g).lookup t = some action) :
    automaton.Prefers g q t action := by
  have hOffers := (hCoherent.offers_iff hState).mpr (mem_of_lookup h)
  rw [State.candidates, List.lookup_append, State.lookup_shifts, ← edge?_of_state hState] at h
  cases hEdge : automaton.edge? q (.terminal t) with
  | some p =>
    rw [hEdge, Option.map_some, Option.some_or, Option.some_inj] at h
    subst h
    exact hOffers
  | none =>
    rw [hEdge, Option.map_none, Option.none_or] at h
    obtain ⟨core, _, _, rfl⟩ := State.mem_completions.mp (mem_of_lookup h)
    refine prefers_completion (fun p hShift => ?_) hOffers fun r' hr' => ?_
    · rw [offers_shift_iff, hEdge] at hShift
      cases hShift
    · exact hCoherent.le_of_lookup hState h (hCoherent.mem_completions_of_offers hState hr')

theorem lookup_candidates_iff :
    (state.candidates g).lookup t = some action ↔ automaton.Prefers g q t action := by
  constructor
  · exact hCoherent.prefers_of_lookup hState
  · intro h
    obtain ⟨kept, hKept⟩ := exists_lookup_of_mem ((hCoherent.offers_iff hState).mp h.offers)
    rw [hKept, (hCoherent.prefers_of_lookup hState hKept).unique h]

end Coherent

end Automaton

/-! ## The list of conflicts -/

section Conflicts

variable {automaton : Automaton} {g : Grammar} {q : StateId} {state : State} {t : Terminal}
  {action : TableAction} {c : Conflict}

namespace Automaton.Coherent

variable (hCoherent : automaton.Coherent g) (hState : automaton.states[q]? = some state)
include hCoherent hState

/-- What loses its cell is a reduction. -/
theorem exists_reduce (h : c ∈ state.conflicts g q) : ∃ r, c.other = .reduce r := by
  obtain ⟨_, hKept, hOther, hNe⟩ := (State.mem_conflicts q).mp h
  have hOffers := (hCoherent.offers_iff hState).mpr hOther
  have hPrefers := (hCoherent.lookup_candidates_iff hState).mp hKept
  cases hAction : c.other with
  | reduce r => exact ⟨r, rfl⟩
  | shift p =>
    rw [hAction, offers_shift_iff, edge?_of_state hState] at hOffers
    rw [State.lookup_candidates_of_edge? hOffers, ← hAction, Option.some_inj] at hKept
    exact absurd hKept.symm hNe
  | accept =>
    rw [hAction] at hOffers hOther hNe
    cases hKeptAction : c.kept with
    | accept => exact absurd hKeptAction hNe
    | reduce r =>
      rw [hKeptAction] at hPrefers
      exact absurd hOffers hPrefers.2.2.1
    | shift p =>
      rw [hKeptAction] at hPrefers
      have hEdge := (hCoherent.edge?_eq_some_iff hState).mp (offers_shift_iff.mp hPrefers)
      rcases State.mem_candidates.mp hOther with ⟨_, _, hShift⟩ | ⟨core, _, _, hCompletion⟩
      · cases hShift
      · have hEnd := (completion_eq_accept_iff.mp hCompletion.symm).2
        exact absurd hEnd (hCoherent.edge_ne_endMarker hState hEdge)

/-- The conflicts of one state come from its completions, and are in their order. -/
theorem pairwise_conflicts_of_state : (state.conflicts g q).Pairwise Conflict.Before := by
  have hReduce : ∀ entry ∈ state.candidates g, ∀ c,
      collision? q (state.candidates g) entry = some c → ∃ r, entry.2 = .reduce r := by
    intro entry hMem c hc
    have hConflict : c ∈ state.conflicts g q := by
      rw [State.conflicts_eq]
      exact List.mem_filterMap.mpr ⟨entry, hMem, hc⟩
    rw [← ((collision?_eq_some_iff _ _ _).mp hc).2.2.1]
    exact hCoherent.exists_reduce hState hConflict
  have hShifts : state.shifts.filterMap (collision? q (state.candidates g)) = [] := by
    refine List.filterMap_eq_nil_iff.mpr fun entry hMem => ?_
    obtain ⟨p, _, hShift⟩ := State.mem_shifts.mp hMem
    refine Option.eq_none_iff_forall_ne_some.mpr fun c hc => ?_
    obtain ⟨r, hr⟩ := hReduce entry (List.mem_append_left _ hMem) c hc
    cases hr.symm.trans hShift
  have hSplit : state.conflicts g q =
      (state.completions g).filterMap (collision? q (state.candidates g)) := by
    rw [State.conflicts_eq, collisions, State.candidates, List.filterMap_append]
    exact (congrArg (· ++ _) hShifts).trans (List.nil_append _)
  rw [hSplit, List.pairwise_filterMap]
  refine (hCoherent.pairwise_completions hState).imp_of_mem ?_
  rintro entry entry' hMem hMem' ⟨r, r', hr, hr', hLt⟩ c hc c' hc'
  obtain ⟨s, hs⟩ := hReduce entry (List.mem_append_right _ hMem) c hc
  obtain ⟨s', hs'⟩ := hReduce entry' (List.mem_append_right _ hMem') c' hc'
  obtain ⟨rfl, _⟩ := completion_eq_reduce_iff.mp (hr.symm.trans hs)
  obtain ⟨rfl, _⟩ := completion_eq_reduce_iff.mp (hr'.symm.trans hs')
  obtain ⟨hId, hTerminal, hOther, _⟩ := (collision?_eq_some_iff _ _ _).mp hc
  obtain ⟨hId', hTerminal', hOther', _⟩ := (collision?_eq_some_iff _ _ _).mp hc'
  refine .inr ⟨hId.trans hId'.symm, r, r', hOther.trans hs, hOther'.trans hs', ?_⟩
  rw [hTerminal, hTerminal']
  exact hLt

end Automaton.Coherent

namespace ParseTable

variable (hCoherent : automaton.Coherent g)
include hCoherent

theorem pairwise_conflicts : (ofAutomaton g automaton).conflicts.Pairwise Conflict.Before := by
  have hStates : automaton.states.toList.zipIdx.Pairwise
      fun entry entry' => entry.2 < entry'.2 := by
    rw [← List.pairwise_map (f := Prod.snd) (R := (· < ·)), List.zipIdx_map_snd]
    exact List.pairwise_lt_range'
  rw [ofAutomaton, List.pairwise_flatMap]
  constructor
  · intro entry hMem
    rw [List.mem_zipIdx_iff_getElem?, Array.getElem?_toList] at hMem
    exact hCoherent.pairwise_conflicts_of_state hMem
  · refine hStates.imp fun hLt c hc c' hc' => .inl ?_
    rwa [((State.mem_conflicts _).mp hc).1, ((State.mem_conflicts _).mp hc').1]

theorem action?_eq_some_iff :
    (ofAutomaton g automaton).action? q t = some action ↔ automaton.Prefers g q t action := by
  cases hState : automaton.states[q]? with
  | some state => rw [action?_ofAutomaton hState, hCoherent.lookup_candidates_iff hState]
  | none =>
    rw [action?, rows_ofAutomaton, hState, Option.map_none, Option.bind_none]
    refine iff_of_false (by simp) fun h => ?_
    obtain ⟨state, hSome⟩ := h.offers.exists_state
    cases hState.symm.trans hSome

theorem offers_of_action? (h : (ofAutomaton g automaton).action? q t = some action) :
    automaton.Offers g q t action :=
  ((action?_eq_some_iff hCoherent).mp h).offers

theorem action?_eq_none_iff : (ofAutomaton g automaton).action? q t = none ↔
    ∀ action, ¬ automaton.Offers g q t action := by
  constructor
  · intro hNone action h
    obtain ⟨state, hState⟩ := h.exists_state
    obtain ⟨kept, hKept⟩ := exists_lookup_of_mem ((hCoherent.offers_iff hState).mp h)
    rw [action?_ofAutomaton hState, hKept] at hNone
    cases hNone
  · intro h
    refine Option.eq_none_iff_forall_ne_some.mpr fun action hAction => ?_
    exact h action (offers_of_action? hCoherent hAction)

theorem mem_conflicts_iff_offers : c ∈ (ofAutomaton g automaton).conflicts ↔
    (ofAutomaton g automaton).action? c.state c.terminal = some c.kept ∧
      automaton.Offers g c.state c.terminal c.other ∧ c.other ≠ c.kept := by
  rw [mem_conflicts_iff]
  constructor
  · rintro ⟨state, hState, hKept, hOther, hNe⟩
    rw [action?_ofAutomaton hState]
    exact ⟨hKept, (hCoherent.offers_iff hState).mpr hOther, hNe.symm⟩
  · rintro ⟨hKept, hOther, hNe⟩
    obtain ⟨state, hState⟩ := hOther.exists_state
    rw [action?_ofAutomaton hState] at hKept
    exact ⟨state, hState, hKept, (hCoherent.offers_iff hState).mp hOther, hNe.symm⟩

/-- Both actions of a conflict are offered. -/
theorem offers_of_mem_conflicts (h : c ∈ (ofAutomaton g automaton).conflicts) :
    automaton.Offers g c.state c.terminal c.kept ∧
      automaton.Offers g c.state c.terminal c.other := by
  obtain ⟨hKept, hOther, _⟩ := (mem_conflicts_iff_offers hCoherent).mp h
  exact ⟨offers_of_action? hCoherent hKept, hOther⟩

theorem exists_reduce_of_mem_conflicts (h : c ∈ (ofAutomaton g automaton).conflicts) :
    ∃ r, c.other = .reduce r := by
  obtain ⟨state, hState, hConflict⟩ := mem_conflicts_iff.mp h
  exact hCoherent.exists_reduce hState ((State.mem_conflicts _).mpr ⟨rfl, hConflict⟩)

/-- The table of a coherent automaton is exact. -/
theorem exact_ofAutomaton : (ofAutomaton g automaton).Exact g automaton where
  empty _ _ := action?_eq_none_iff hCoherent
  action? _ _ _ := action?_eq_some_iff hCoherent
  goto? := goto?_ofAutomaton
  conflict _ := mem_conflicts_iff_offers hCoherent
  other _ := exists_reduce_of_mem_conflicts hCoherent
  kind c hc := by
    obtain ⟨r, hOther⟩ := exists_reduce_of_mem_conflicts hCoherent hc
    simp [Conflict.kind, hOther, Action.isShift]
  once := (pairwise_conflicts hCoherent).imp Conflict.Before.ne
  ordered := pairwise_conflicts hCoherent

end ParseTable

end Conflicts

/-- Either method gives an automaton whose table, as it is written in place, is exact. Strict
construction refuses it with its conflicts if there are any, and otherwise gives the same table. -/
theorem Construction.exact_table (algorithm : Algorithm) (g : Grammar) :
    ∃ automaton table, (Construction.mk algorithm false).automaton g = .ok automaton ∧
      ParseTable.written g automaton = table ∧ table.Exact g automaton ∧
      (Construction.mk algorithm false).table g automaton = .ok table ∧
      (Construction.mk algorithm true).table g automaton =
        (if table.conflicts = [] then .ok table else .error (.conflicts table.conflicts)) ∧
      ∀ strict, (Construction.mk algorithm strict).generate g =
        (Construction.mk algorithm strict).table g automaton := by
  obtain ⟨automaton, hAutomaton, hCoherent, hTable⟩ := exists_table algorithm g
  refine ⟨automaton, _, hAutomaton, ?_, ParseTable.exact_ofAutomaton hCoherent, hTable, ?_, ?_⟩
  · refine ParseTable.written_eq fun state hState => ?_
    obtain ⟨q, hState⟩ := List.mem_iff_getElem?.mp hState
    rw [Array.getElem?_toList] at hState
    exact hCoherent.nodup_symbols hState
  · rw [table_of_coherent hCoherent]
    cases (ParseTable.ofAutomaton g automaton).conflicts with
    | nil => rfl
    | cons c rest => rfl
  · intro strict
    have hSame : (Construction.mk algorithm strict).automaton g = .ok automaton := hAutomaton
    rw [generate_of_coherent hSame hCoherent, table_of_coherent hCoherent]

end ShiftReduce
