import ShiftReduce.Parsing
import ShiftReduce.Proofs.MergedStates

/-!
# The rows of a table

What the table of an automaton answers, in terms of the automaton. A target of a
nonterminal is an edge. An action is a candidate of the state: an edge on a
terminal, or a complete item. Which candidate it is where there are several is a
matter of their order, so the other direction needs that there are no conflicts:
then every candidate is the action of its cell (`lookup_of_conflicts`).
-/

namespace ShiftReduce

/-! ## The first of the candidates -/

theorem lookup_filter_of_ne {α β : Type} [BEq α] [LawfulBEq α] {l : List (α × β)} {a b : α}
    (h : a ≠ b) : (l.filter fun p => (p.1 == b) = false).lookup a = l.lookup a := by
  induction l with
  | nil => rfl
  | cons p l ih =>
    obtain ⟨c, d⟩ := p
    by_cases hc : c = b
    · subst hc
      rw [List.filter_cons_of_neg (by simp), List.lookup_cons, beq_eq_false_iff_ne.mpr h, ih]
    · rw [List.filter_cons_of_pos (by simp [hc]), List.lookup_cons, List.lookup_cons, ih]

theorem keepFirst_cons (u : Terminal) (action : TableAction)
    (rest : List (Terminal × TableAction)) :
    keepFirst ((u, action) :: rest) =
      (u, action) :: keepFirst (rest.filter fun p => (p.1 == u) = false) := by
  rw [keepFirst, List.eraseDupsBy_cons]
  rfl

/-- The candidates after the first one are taken without those for its terminal. -/
theorem keepFirst_induction {motive : List (Terminal × TableAction) → Prop} (nil : motive [])
    (cons : ∀ u action rest, motive (rest.filter fun p => (p.1 == u) = false) →
      motive ((u, action) :: rest))
    (candidates : List (Terminal × TableAction)) : motive candidates := by
  match candidates with
  | [] => exact nil
  | (u, action) :: rest => exact cons u action rest (keepFirst_induction nil cons _)
termination_by candidates.length
decreasing_by
  have := List.length_filter_le (fun p : Terminal × TableAction => (p.1 == u) = false) rest
  simp only [List.length_cons]
  omega

/-- A row finds the first candidate for each terminal. -/
theorem lookup_keepFirst (candidates : List (Terminal × TableAction)) (t : Terminal) :
    (keepFirst candidates).lookup t = candidates.lookup t := by
  induction candidates using keepFirst_induction with
  | nil => rfl
  | cons u action rest ih =>
    rw [keepFirst_cons, List.lookup_cons, List.lookup_cons, ih]
    by_cases hEq : t = u
    · rw [beq_iff_eq.mpr hEq]
    · rw [lookup_filter_of_ne hEq]

/-- The terminals of a row are those of the candidates, each in its first place. -/
theorem map_fst_keepFirst (candidates : List (Terminal × TableAction)) :
    (keepFirst candidates).map Prod.fst = (candidates.map Prod.fst).eraseDups := by
  induction candidates using keepFirst_induction with
  | nil => rfl
  | cons u action rest ih =>
    rw [keepFirst_cons, List.map_cons, ih, List.map_cons, List.eraseDups_cons, List.filter_map]
    congr 3
    apply List.filter_congr
    intro p _
    cases hEq : p.1 == u <;> simp [hEq]

theorem mem_of_lookup {α β : Type} [BEq α] [LawfulBEq α] {l : List (α × β)} {a : α} {b : β}
    (h : l.lookup a = some b) : (a, b) ∈ l := by
  obtain ⟨front, back, rfl, _⟩ := List.lookup_eq_some_iff.mp h
  exact List.mem_append_right _ List.mem_cons_self

theorem exists_lookup_of_mem {α β : Type} [BEq α] [LawfulBEq α] {l : List (α × β)} {a : α} {b : β}
    (h : (a, b) ∈ l) : ∃ c, l.lookup a = some c := by
  cases hLookup : l.lookup a with
  | none =>
    rw [List.lookup_eq_none_iff] at hLookup
    exact absurd (hLookup _ h) (by simp)
  | some c => exact ⟨c, rfl⟩

/-! ## Candidates -/

theorem completion_eq_accept_iff {r : RuleId} {t : Terminal} :
    completion r t = .accept ↔ r = augmentedRule ∧ t = endMarker := by
  unfold completion
  split <;> simp_all

theorem completion_eq_reduce_iff {r r' : RuleId} {t : Terminal} :
    completion r t = .reduce r' ↔ r = r' ∧ ¬ (r = augmentedRule ∧ t = endMarker) := by
  unfold completion
  split <;> simp_all

theorem completion_ne_shift {r : RuleId} {t : Terminal} {p : StateId} :
    completion r t ≠ .shift p := by
  unfold completion
  split <;> simp

theorem completion_inj {r r' : RuleId} {t : Terminal} (h : completion r t = completion r' t) :
    r = r' := by
  by_cases hAccept : r = augmentedRule ∧ t = endMarker
  · have hAction : completion r' t = .accept := h ▸ completion_eq_accept_iff.mpr hAccept
    rw [hAccept.1, (completion_eq_accept_iff.mp hAction).1]
  · have hAction : completion r' t = .reduce r := h ▸ completion_eq_reduce_iff.mpr ⟨rfl, hAccept⟩
    exact (completion_eq_reduce_iff.mp hAction).1.symm

namespace State

variable {g : Grammar} {state : State} {t : Terminal} {action : TableAction}

theorem mem_shifts : (t, action) ∈ state.shifts ↔
    ∃ p, (.terminal t, p) ∈ state.edges ∧ action = .shift p := by
  unfold shifts
  rw [List.mem_filterMap]
  constructor
  · rintro ⟨⟨X, p⟩, hMem, h⟩
    cases X with
    | terminal u =>
      obtain ⟨rfl, rfl⟩ := Prod.mk.inj (Option.some.inj h)
      exact ⟨p, hMem, rfl⟩
    | nonterminal n => cases h
  · rintro ⟨p, hMem, rfl⟩
    exact ⟨_, hMem, rfl⟩

theorem mem_completions : (t, action) ∈ state.completions g ↔
    ∃ core : Core, ⟨core, t⟩ ∈ state.items ∧ core.isComplete g = true ∧
      action = completion core.rule t := by
  unfold completions
  rw [List.mem_map]
  constructor
  · rintro ⟨⟨core, u⟩, hMem, h⟩
    obtain ⟨rfl, rfl⟩ := Prod.mk.inj h
    obtain ⟨hMem, hComplete⟩ := List.mem_filter.mp hMem
    exact ⟨core, hMem, hComplete, rfl⟩
  · rintro ⟨core, hMem, hComplete, rfl⟩
    exact ⟨⟨core, t⟩, List.mem_filter.mpr ⟨hMem, hComplete⟩, rfl⟩

theorem mem_candidates : (t, action) ∈ state.candidates g ↔
    (∃ p, (.terminal t, p) ∈ state.edges ∧ action = .shift p) ∨
      ∃ core : Core, ⟨core, t⟩ ∈ state.items ∧ core.isComplete g = true ∧
        action = completion core.rule t := by
  rw [candidates, List.mem_append, mem_shifts, mem_completions]

theorem lookup_shifts (t : Terminal) :
    state.shifts.lookup t = (state.edge? (.terminal t)).map .shift := by
  unfold shifts edge?
  induction state.edges with
  | nil => rfl
  | cons edge edges ih =>
    obtain ⟨X, p⟩ := edge
    rw [List.lookup_cons]
    cases X with
    | nonterminal n =>
      have hNe : Symbol.terminal t ≠ .nonterminal n := by simp
      rw [List.filterMap_cons_none rfl, beq_eq_false_iff_ne.mpr hNe]
      exact ih
    | terminal u =>
      change List.lookup t ((u, Action.shift p) :: List.filterMap _ edges) = _
      rw [List.lookup_cons, ih]
      by_cases hEq : t = u
      · rw [hEq, beq_self_eq_true, beq_self_eq_true, Option.map_some]
      · have hNe : Symbol.terminal t ≠ .terminal u := fun h => hEq (Symbol.terminal.inj h)
        rw [beq_eq_false_iff_ne.mpr hEq, beq_eq_false_iff_ne.mpr hNe]

/-- Shifts come before completions, so a shift is always the first candidate. -/
theorem lookup_candidates_of_edge? {p : StateId} (h : state.edge? (.terminal t) = some p) :
    (state.candidates g).lookup t = some (.shift p) := by
  rw [candidates, List.lookup_append, lookup_shifts, h, Option.map_some, Option.some_or]

theorem mem_conflicts {c : Conflict} (id : StateId) : c ∈ state.conflicts g id ↔
    c.state = id ∧ (state.candidates g).lookup c.terminal = some c.kept ∧
      (c.terminal, c.other) ∈ state.candidates g ∧ c.kept ≠ c.other := by
  simp only [conflicts, row, lookup_keepFirst, List.mem_filterMap, Option.bind_eq_some_iff,
    Option.ite_none_left_eq_some]
  constructor
  · rintro ⟨⟨t, action⟩, hMem, kept, hKept, hNe, hConflict⟩
    cases hConflict
    exact ⟨rfl, hKept, hMem, hNe⟩
  · rintro ⟨rfl, hKept, hMem, hNe⟩
    exact ⟨_, hMem, c.kept, hKept, hNe, rfl⟩

theorem lookup_targets (n : Nonterminal) :
    state.targets.lookup n = state.edge? (.nonterminal n) := by
  unfold targets edge?
  induction state.edges with
  | nil => rfl
  | cons edge edges ih =>
    obtain ⟨X, p⟩ := edge
    rw [List.lookup_cons, List.filterMap_cons]
    cases X with
    | terminal u =>
      have hNe : Symbol.nonterminal n ≠ .terminal u := by simp
      rw [beq_eq_false_iff_ne.mpr hNe]
      exact ih
    | nonterminal m =>
      dsimp only
      rw [List.lookup_cons, ih]
      by_cases hEq : n = m
      · rw [hEq, beq_self_eq_true, beq_self_eq_true]
      · have hNe : Symbol.nonterminal n ≠ .nonterminal m := fun h => hEq (Symbol.nonterminal.inj h)
        rw [beq_eq_false_iff_ne.mpr hEq, beq_eq_false_iff_ne.mpr hNe]

end State

/-! ## The answers of a table -/

namespace ParseTable

variable {g : Grammar} {automaton : Automaton} {q : StateId} {state : State} {t : Terminal}
  {action : TableAction}

theorem rows_ofAutomaton (g : Grammar) (automaton : Automaton) (q : StateId) :
    (ofAutomaton g automaton).rows[q]? = automaton.states[q]?.map fun state => state.row g :=
  Array.getElem?_map

theorem action?_ofAutomaton (hState : automaton.states[q]? = some state) (t : Terminal) :
    (ofAutomaton g automaton).action? q t = (state.candidates g).lookup t := by
  rw [action?, rows_ofAutomaton, hState, Option.map_some, Option.bind_some, State.row,
    lookup_keepFirst]

theorem goto?_ofAutomaton (q : StateId) (n : Nonterminal) :
    (ofAutomaton g automaton).goto? q n = automaton.edge? q (.nonterminal n) := by
  rw [goto?, rows_ofAutomaton, Automaton.edge?]
  cases automaton.states[q]? with
  | none => rfl
  | some state => exact state.lookup_targets n

theorem production?_ofAutomaton (r : RuleId) : (ofAutomaton g automaton).production? r =
    g.rules[r]?.map fun rule => (rule.left, rule.right.length) :=
  Array.getElem?_map

theorem expected_ofAutomaton (hState : automaton.states[q]? = some state) :
    (ofAutomaton g automaton).expected q = ((state.candidates g).map Prod.fst).eraseDups := by
  rw [expected, rows_ofAutomaton, hState, Option.map_some, Option.elim_some]
  exact map_fst_keepFirst (state.candidates g)

/-- The expected terminals are those for which the state offers some action. -/
theorem mem_expected_iff (hState : automaton.states[q]? = some state) :
    t ∈ (ofAutomaton g automaton).expected q ↔ ∃ action, (t, action) ∈ state.candidates g := by
  rw [expected_ofAutomaton hState, List.mem_eraseDups, List.mem_map]
  constructor
  · rintro ⟨⟨_, action⟩, hMem, rfl⟩
    exact ⟨action, hMem⟩
  · rintro ⟨action, hMem⟩
    exact ⟨_, hMem, rfl⟩

theorem mem_candidates_of_action? (h : (ofAutomaton g automaton).action? q t = some action) :
    ∃ state, automaton.states[q]? = some state ∧ (t, action) ∈ state.candidates g := by
  cases hState : automaton.states[q]? with
  | none =>
    rw [action?, rows_ofAutomaton, hState] at h
    cases h
  | some state =>
    rw [action?_ofAutomaton hState] at h
    exact ⟨state, rfl, mem_of_lookup h⟩

/-- The conflicts are the candidates that differ from the one that is kept in their cell. -/
theorem mem_conflicts_iff {conflict : Conflict} :
    conflict ∈ (ofAutomaton g automaton).conflicts ↔
      ∃ state, automaton.states[conflict.state]? = some state ∧
        (state.candidates g).lookup conflict.terminal = some conflict.kept ∧
        (conflict.terminal, conflict.other) ∈ state.candidates g ∧
        conflict.kept ≠ conflict.other := by
  rw [ofAutomaton, List.mem_flatMap]
  constructor
  · rintro ⟨⟨state, q⟩, hPlace, hConflict⟩
    rw [List.mem_zipIdx_iff_getElem?, Array.getElem?_toList] at hPlace
    obtain ⟨rfl, hOther⟩ := (State.mem_conflicts q).mp hConflict
    exact ⟨state, hPlace, hOther⟩
  · rintro ⟨state, hState, hConflict⟩
    refine ⟨(state, conflict.state), ?_, (State.mem_conflicts _).mpr ⟨rfl, hConflict⟩⟩
    rw [List.mem_zipIdx_iff_getElem?, Array.getElem?_toList]
    exact hState

theorem action?_of_mem_candidates (hConflicts : (ofAutomaton g automaton).conflicts = [])
    (hState : automaton.states[q]? = some state) (hMem : (t, action) ∈ state.candidates g) :
    (ofAutomaton g automaton).action? q t = some action := by
  obtain ⟨kept, hKept⟩ := exists_lookup_of_mem hMem
  rw [action?_ofAutomaton hState, hKept]
  by_cases hEq : kept = action
  · rw [hEq]
  · have hConflict : (⟨q, t, kept, action⟩ : Conflict) ∈ (ofAutomaton g automaton).conflicts :=
      mem_conflicts_iff.mpr ⟨state, hState, hKept, hMem, hEq⟩
    rw [hConflicts] at hConflict
    cases hConflict

end ParseTable

/-! ## Tables for every grammar -/

theorem eq_ok_of_toOption {ε α : Type} {e : Except ε α} {a : α} (h : e.toOption = some a) :
    e = .ok a := by
  cases e with
  | ok b => rw [Option.some.inj h]
  | error _ => cases h

namespace Construction

variable {g : Grammar} {automaton : Automaton} {table : ParseTable} {construction : Construction}

/-- The table of a coherent automaton; strict construction gives it only if it has
no conflicts. -/
theorem table_of_coherent (hCoherent : automaton.Coherent g) :
    construction.table g automaton =
      if construction.strict && !(ParseTable.ofAutomaton g automaton).conflicts.isEmpty then
        .error (.conflicts (ParseTable.ofAutomaton g automaton).conflicts)
      else .ok (ParseTable.ofAutomaton g automaton) := by
  have hKnown : (automaton.states.toList.all fun state => decide (state.items.Known g)) = true := by
    rw [List.all_eq_true]
    intro state hState
    obtain ⟨q, hq⟩ := List.mem_iff_getElem?.mp hState
    rw [Array.getElem?_toList] at hq
    refine decide_eq_true fun i hi => ?_
    obtain ⟨⟨_, hr, _⟩, _⟩ := hCoherent.belongs hq i hi
    exact (Array.getElem?_eq_some_iff.mp hr).1
  unfold table
  rw [if_pos hKnown]

theorem generate_of_coherent (hAutomaton : construction.automaton g = .ok automaton)
    (hCoherent : automaton.Coherent g) :
    construction.generate g =
      if construction.strict && !(ParseTable.ofAutomaton g automaton).conflicts.isEmpty then
        .error (.conflicts (ParseTable.ofAutomaton g automaton).conflicts)
      else .ok (ParseTable.ofAutomaton g automaton) := by
  rw [generate, hAutomaton]
  exact table_of_coherent hCoherent

theorem eq_ofAutomaton (h : construction.generate g = .ok table)
    (hAutomaton : construction.automaton g = .ok automaton) (hCoherent : automaton.Coherent g) :
    table = ParseTable.ofAutomaton g automaton := by
  rw [generate_of_coherent hAutomaton hCoherent] at h
  split at h
  · cases h
  · exact (Except.ok.inj h).symm

/-- Every grammar has an automaton and, unless conflicts are forbidden, a table. -/
theorem exists_table (algorithm : Algorithm) (g : Grammar) : ∃ automaton,
    (Construction.mk algorithm false).automaton g = .ok automaton ∧ automaton.Coherent g ∧
      (Construction.mk algorithm false).table g automaton =
        .ok (ParseTable.ofAutomaton g automaton) := by
  obtain ⟨automaton, hAutomaton, hCoherent⟩ :=
    (Construction.mk algorithm false).exists_automaton g
  refine ⟨automaton, hAutomaton, hCoherent, ?_⟩
  rw [table_of_coherent hCoherent]
  rfl

/-- A generated table is the table of a coherent automaton. -/
theorem exists_coherent (h : construction.generate g = .ok table) : ∃ automaton,
    automaton.Coherent g ∧ table = ParseTable.ofAutomaton g automaton := by
  obtain ⟨automaton, hAutomaton, hCoherent⟩ := construction.exists_automaton g
  exact ⟨automaton, hCoherent, eq_ofAutomaton h hAutomaton hCoherent⟩

end Construction

end ShiftReduce
