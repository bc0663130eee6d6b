import ShiftReduce.Machine.Basic

/-!
# Runs as relations

`Moves c steps c'` says that the machine goes from `c` to `c'` and records
`steps` on the way. The run of the machine, which counts look-ups and keeps the
trace backwards, is compared with this relation once. A run that ends has made
such moves (`exists_moves_of_runFrom`), and if such moves lead to an end, then every
run with enough look-ups finds it (`run_of_ending`). How many are enough is
`EnoughLookups`; with it, what a run ends in says exactly which moves there are
(`run_eq_iff`).

The machine has no choice, so moves that lead to an end are the only ones: what
else can be reached lies on the way there (`Moves.exists_of_halt`). What a run
records does not depend on how it ends, and is given by number (`step?`).

The chosen action tells what a move does (`move_eq`), and where a move leads tells
which action was chosen (`exists_of_next`, `chosen_of_halt`).
-/

namespace ShiftReduce

/-! ## Recorded stacks -/

/-- The snapshot grows with the stacks. -/
theorem Configuration.snapshot_push {σ κ ν : Type} {p q : σ} {ps : List σ}
    {x : StackSymbol κ ν} {xs : List (StackSymbol κ ν)} (hLength : xs.length = ps.length)
    (m n : Nat) (l l' : List κ) :
    Configuration.snapshot ⟨q :: p :: ps, x :: xs, m, l⟩ =
      Configuration.snapshot ⟨p :: ps, xs, n, l'⟩ ++ [.symbol x, .state q] := by
  have hLengths : (p :: ps).reverse.length = (p :: ps).length := List.length_reverse
  cases hStates : (p :: ps).reverse with
  | nil => simp at hStates
  | cons bottom states =>
    rw [hStates, List.length_cons, List.length_cons] at hLengths
    have hZip : xs.reverse.length = states.length := by
      rw [List.length_reverse]
      omega
    unfold snapshot
    rw [List.reverse_cons, hStates, List.cons_append, List.reverse_cons]
    dsimp only
    rw [List.zip_append hZip, List.flatMap_append]
    rfl

namespace LookupTable

variable {σ τ ν ρ κ : Type} [Token κ τ]

/-- The machine goes from one configuration to another and records the steps. -/
inductive Moves (table : LookupTable σ τ ν ρ) (c : Configuration σ κ ν) :
    List (Step σ ρ κ ν) → Configuration σ κ ν → Prop
  | refl : Moves table c [] c
  | step {c' c'' : Configuration σ κ ν} {steps : List (Step σ ρ κ ν)} :
      Moves table c steps c' → table.move c' = .next c'' →
      Moves table c (steps ++ [c'.record (table.chosen c')]) c''

variable {table : LookupTable σ τ ν ρ} {c c' c'' : Configuration σ κ ν}
  {steps steps' trace : List (Step σ ρ κ ν)} {verdict : Verdict σ τ κ} {fault : Fault σ ν ρ}
  {ending : Ending σ τ ν ρ κ} {n : Nat}

namespace Moves

theorem trans (h : table.Moves c steps c') (h' : table.Moves c' steps' c'') :
    table.Moves c (steps ++ steps') c'' := by
  induction h' with
  | refl => simpa using h
  | step _ hMove ih =>
    rw [← List.append_assoc]
    exact .step ih hMove

theorem head (hMove : table.move c = .next c') (h : table.Moves c' steps c'') :
    table.Moves c (c.record (table.chosen c) :: steps) c'' :=
  .trans (.step .refl hMove) h

theorem cases_head (h : table.Moves c steps c'') :
    c = c'' ∨ ∃ c' steps', table.move c = .next c' ∧ table.Moves c' steps' c'' := by
  induction h with
  | refl => exact .inl rfl
  | step _ hMove ih =>
    rcases ih with rfl | ⟨c', steps', hFirst, hRest⟩
    · exact .inr ⟨_, [], hMove, .refl⟩
    · exact .inr ⟨c', _, hFirst, .step hRest hMove⟩

/-- Whatever can be reached lies on the way to the end. -/
theorem exists_of_halt (h : table.Moves c steps c') (h' : table.Moves c steps' c'')
    (hHalt : table.move c'' = .halt verdict) : ∃ rest, table.Moves c' rest c'' := by
  induction h with
  | refl => exact ⟨steps', h'⟩
  | step _ hMove ih =>
    obtain ⟨rest, hRest⟩ := ih
    rcases hRest.cases_head with rfl | ⟨next, rest', hNext, hRest'⟩
    · rw [hMove] at hHalt
      cases hHalt
    · rw [hMove] at hNext
      cases hNext
      exact ⟨rest', hRest'⟩

end Moves

/-! ## Moves by number -/

theorem after?_add (m : Nat) :
    table.after? c (m + n) = (table.after? c m).bind fun c' => table.after? c' n := by
  induction m generalizing c with
  | zero => rw [Nat.zero_add, after?, Option.bind_some]
  | succ m ih =>
    rw [Nat.succ_add, after?, after?]
    cases table.move c with
    | next c' => exact ih
    | halt _ => rfl
    | fail _ => rfl

theorem after?_of_moves (h : table.Moves c steps c') :
    table.after? c steps.length = some c' := by
  induction h with
  | refl => rfl
  | step _ hMove ih =>
    rw [List.length_append, List.length_singleton, after?_add, ih, Option.bind_some, after?, hMove]
    rfl

theorem after?_succ (h : table.after? c n = some c') :
    table.after? c (n + 1) =
      match table.move c' with
      | .next c'' => some c''
      | _ => none := by
  rw [after?_add, h, Option.bind_some]
  rfl

theorem moves_of_after? (h : table.after? c n = some c') :
    ∃ steps, steps.length = n ∧ table.Moves c steps c' := by
  induction n generalizing c with
  | zero =>
    obtain rfl := Option.some.inj h
    exact ⟨[], rfl, .refl⟩
  | succ n ih =>
    rw [after?] at h
    split at h
    · next hMove =>
      obtain ⟨steps, hLength, hMoves⟩ := ih h
      exact ⟨_ :: steps, by rw [List.length_cons, hLength], .head hMove hMoves⟩
    · cases h

/-! ## Runs that end -/

/-- What a run that has recorded `before` ends in at a configuration, unless it goes on there. -/
def ending? (table : LookupTable σ τ ν ρ) (before : List (Step σ ρ κ ν))
    (c : Configuration σ κ ν) : Option (Ending σ τ ν ρ κ) :=
  match table.move c with
  | .next _ => none
  | .halt verdict => some (.finished verdict (before ++ [c.record (table.chosen c)]))
  | .fail fault => some (.failed fault)

theorem ending?_eq_none_iff : table.ending? steps c = none ↔ ∃ c', table.move c = .next c' := by
  unfold ending?
  cases table.move c <;> simp

theorem ending?_eq_finished_iff : table.ending? steps c = some (.finished verdict trace) ↔
    table.move c = .halt verdict ∧ trace = steps ++ [c.record (table.chosen c)] := by
  unfold ending?
  cases table.move c <;> simp [eq_comm]

theorem ending?_eq_failed_iff :
    table.ending? steps c = some (.failed fault) ↔ table.move c = .fail fault := by
  unfold ending?
  cases table.move c <;> simp

theorem runFrom_zero : table.runFrom c trace 0 =
    if looksUp c then .outOfLookups else (table.ending? trace.reverse c).getD .outOfLookups := by
  rw [runFrom, ending?, List.reverse_cons]
  cases table.move c <;> rfl

theorem runFrom_succ_of_next (hMove : table.move c = .next c') :
    table.runFrom c trace (n + 1) = table.runFrom c' (c.record (table.chosen c) :: trace) n := by
  rw [runFrom, hMove]

theorem runFrom_succ_of_ending (hEnding : table.ending? trace.reverse c = some ending) :
    table.runFrom c trace (n + 1) = ending := by
  rw [ending?, ← List.reverse_cons] at hEnding
  rw [runFrom]
  cases hMove : table.move c <;> rw [hMove] at hEnding <;> cases hEnding <;> rfl

/-- A run that ends has recorded the moves to the configuration where it ends. -/
theorem exists_moves_of_runFrom (h : table.Moves c trace.reverse c')
    (hRun : table.runFrom c' trace n = ending) (hEnds : ending ≠ .outOfLookups) :
    ∃ before last, table.Moves c before last ∧ table.ending? before last = some ending := by
  induction n generalizing c' trace with
  | zero =>
    rw [runFrom_zero] at hRun
    split at hRun
    · exact absurd hRun.symm hEnds
    · cases hEnding : table.ending? trace.reverse c' with
      | none => rw [hEnding] at hRun; exact absurd hRun.symm hEnds
      | some _ => rw [hEnding] at hRun; exact ⟨_, c', h, hRun ▸ hEnding⟩
  | succ n ih =>
    cases hEnding : table.ending? trace.reverse c' with
    | none =>
      obtain ⟨c'', hMove⟩ := ending?_eq_none_iff.mp hEnding
      rw [runFrom_succ_of_next hMove] at hRun
      refine ih ?_ hRun
      rw [List.reverse_cons]
      exact .step h hMove
    | some _ =>
      rw [runFrom_succ_of_ending hEnding] at hRun
      exact ⟨_, c', h, hRun ▸ hEnding⟩

theorem exists_moves_of_finished (h : table.Moves c trace.reverse c')
    (hRun : table.runFrom c' trace n = .finished verdict steps) :
    ∃ before last, table.Moves c before last ∧ table.move last = .halt verdict ∧
      steps = before ++ [last.record (table.chosen last)] := by
  obtain ⟨before, last, hMoves, hEnding⟩ := exists_moves_of_runFrom h hRun nofun
  exact ⟨before, last, hMoves, ending?_eq_finished_iff.mp hEnding⟩

theorem exists_moves_of_failed (h : table.Moves c trace.reverse c')
    (hRun : table.runFrom c' trace n = .failed fault) :
    ∃ before last, table.Moves c before last ∧ table.move last = .fail fault := by
  obtain ⟨before, last, hMoves, hEnding⟩ := exists_moves_of_runFrom h hRun nofun
  exact ⟨before, last, hMoves, ending?_eq_failed_iff.mp hEnding⟩

/-- The step that a run over `tokens` records after a number of moves. -/
def step? (table : LookupTable σ τ ν ρ) (tokens : List κ) (moves : Nat) :
    Option (Step σ ρ κ ν) :=
  (table.after? (table.start tokens) moves).map fun c => c.record (table.chosen c)

theorem getElem?_of_moves (h : table.Moves c steps c') (hLt : n < steps.length) :
    steps[n]? = (table.after? c n).map fun c => c.record (table.chosen c) := by
  induction h with
  | refl => cases hLt
  | @step c' c'' steps hMoves _ ih =>
    rw [List.length_append, List.length_singleton] at hLt
    by_cases hBefore : n < steps.length
    · rw [List.getElem?_append_left hBefore, ih hBefore]
    · have hLast : n = steps.length := by omega
      rw [hLast, List.getElem?_concat_length, after?_of_moves hMoves, Option.map_some]

/-- The trace of a run that ends has the recorded steps, and no others. -/
theorem getElem?_trace {tokens : List κ} {lookups : Nat}
    (hRun : table.run tokens lookups = .finished verdict steps) (n : Nat) :
    steps[n]? = table.step? tokens n := by
  obtain ⟨before, last, hMoves, hHalt, rfl⟩ := exists_moves_of_finished .refl hRun
  unfold step?
  rcases Nat.lt_trichotomy n before.length with hLt | rfl | hGt
  · rw [List.getElem?_append_left hLt, getElem?_of_moves hMoves hLt]
  · rw [List.getElem?_concat_length, after?_of_moves hMoves, Option.map_some]
  · obtain ⟨m, rfl⟩ := Nat.exists_eq_add_of_lt hGt
    rw [Nat.add_assoc, after?_add, after?_of_moves hMoves, Option.bind_some, after?, hHalt]
    rw [List.getElem?_eq_none (by simp)]
    rfl

/-! ## Runs with enough look-ups -/

/-- A run with look-ups to spare passes through the moves that can be made. -/
theorem runFrom_of_moves (h : table.Moves c steps c') (n : Nat) :
    table.runFrom c trace (steps.length + n) = table.runFrom c' (steps.reverse ++ trace) n := by
  induction h generalizing n with
  | refl => rw [List.length_nil, Nat.zero_add, List.reverse_nil, List.nil_append]
  | @step c' c'' steps _ hMove ih =>
    rw [List.length_append, List.length_singleton, Nat.add_assoc, Nat.add_comm 1, ih, runFrom,
      hMove, List.reverse_append, List.reverse_singleton, List.singleton_append,
      List.cons_append]

/-- Whether `n` look-ups are enough for the move after so many others: a token that stands for no
terminal needs none. -/
def EnoughLookups (n moves : Nat) (c : Configuration σ κ ν) : Prop :=
  moves < n ∨ moves = n ∧ looksUp c = false

/-- If moves lead to an end, then every run with enough look-ups ends in it. -/
theorem run_of_ending {tokens : List κ} (h : table.Moves (table.start tokens) steps c)
    (hEnding : table.ending? steps c = some ending) (hEnough : EnoughLookups n steps.length c) :
    table.run tokens n = ending := by
  rw [← List.reverse_reverse steps] at hEnding
  rcases hEnough with hLt | ⟨rfl, hKnown⟩
  · obtain ⟨m, rfl⟩ := Nat.exists_eq_add_of_lt hLt
    rw [run, Nat.add_assoc, runFrom_of_moves h, List.append_nil]
    exact runFrom_succ_of_ending hEnding
  · rw [run, ← Nat.add_zero steps.length, runFrom_of_moves h, List.append_nil, runFrom_zero,
      if_neg (Bool.eq_false_iff.mp hKnown), hEnding, Option.getD_some]

/-- One more look-up than there are moves is enough. -/
theorem run_of_moves {tokens : List κ} (h : table.Moves (table.start tokens) steps c)
    (hHalt : table.move c = .halt verdict) (hEnough : steps.length < n) :
    table.run tokens n = .finished verdict (steps ++ [c.record (table.chosen c)]) :=
  run_of_ending h (ending?_eq_finished_iff.mpr ⟨hHalt, rfl⟩) (.inl hEnough)

/-- A run with too few look-ups for the moves that can be made uses them up. -/
theorem runFrom_outOfLookups {m : Nat} (h : table.after? c m = some c') (hLt : n < m) :
    table.runFrom c trace n = .outOfLookups := by
  induction n generalizing c m trace with
  | zero =>
    obtain ⟨m, rfl⟩ := Nat.exists_eq_add_of_lt hLt
    rw [after?] at h
    rw [runFrom]
    split at h
    · next hMove => simp [hMove]
    · cases h
  | succ n ih =>
    cases m with
    | zero => cases hLt
    | succ m =>
      rw [after?] at h
      rw [runFrom]
      split at h
      · next hMove =>
        rw [hMove]
        exact ih h (Nat.lt_of_succ_lt_succ hLt)
      · cases h

theorem enoughLookups_of_run {tokens : List κ} (h : table.Moves (table.start tokens) steps c)
    (hRun : table.run tokens n ≠ .outOfLookups) : EnoughLookups n steps.length c := by
  rcases Nat.lt_trichotomy steps.length n with hLt | hEq | hGt
  · exact .inl hLt
  · refine .inr ⟨hEq, Bool.eq_false_iff.mpr fun hLooksUp => hRun ?_⟩
    rw [run, ← hEq, ← Nat.add_zero steps.length, runFrom_of_moves h, runFrom, if_pos hLooksUp]
  · exact absurd (runFrom_outOfLookups (after?_of_moves h) hGt) hRun

/-- A run ends as the configuration does that its moves lead to, if there are look-ups enough. -/
theorem run_eq_iff {tokens : List κ} (ending : Ending σ τ ν ρ κ) (hEnds : ending ≠ .outOfLookups) :
    table.run tokens n = ending ↔
      ∃ before last, table.Moves (table.start tokens) before last ∧
        EnoughLookups n before.length last ∧ table.ending? before last = some ending := by
  constructor
  · intro hRun
    obtain ⟨before, last, hMoves, hEnding⟩ := exists_moves_of_runFrom .refl hRun hEnds
    exact ⟨before, last, hMoves, enoughLookups_of_run hMoves (hRun ▸ hEnds), hEnding⟩
  · rintro ⟨before, last, hMoves, hEnough, hEnding⟩
    exact run_of_ending hMoves hEnding hEnough

theorem run_eq_finished_iff {tokens : List κ} : table.run tokens n = .finished verdict trace ↔
    ∃ before last, table.Moves (table.start tokens) before last ∧
      EnoughLookups n before.length last ∧ table.move last = .halt verdict ∧
      trace = before ++ [last.record (table.chosen last)] := by
  refine (run_eq_iff (.finished verdict trace) nofun).trans ?_
  simp only [ending?_eq_finished_iff]

theorem run_eq_failed_iff {tokens : List κ} : table.run tokens n = .failed fault ↔
    ∃ before last, table.Moves (table.start tokens) before last ∧
      EnoughLookups n before.length last ∧ table.move last = .fail fault := by
  refine (run_eq_iff (.failed fault) nofun).trans ?_
  simp only [ending?_eq_failed_iff]

/-! ## What a move does -/

/-- A move does what the chosen action says. -/
theorem move_eq {state : σ} {states : List σ} (hStates : c.states = state :: states) :
    table.move c =
      match table.chosen c with
      | some (.shift target) =>
        match c.remaining with
        | [] => .fail .shiftAtEnd
        | token :: rest => .next (c.shift token rest target)
      | some (.reduce rule) => table.reduce c rule
      | some .accept => .halt .accepted
      | none =>
        .halt (.rejected ⟨state, c.position, c.remaining.head?, table.expected state⟩) := by
  rw [move, chosen, hStates]
  rfl

omit [Token κ τ] in
theorem reduce_ne_halt {rule : ρ} : table.reduce c rule ≠ .halt verdict := by
  intro h
  unfold reduce at h
  split at h
  · cases h
  · split at h
    · cases h
    · split at h
      · cases h
      · split at h <;> cases h

omit [Token κ τ] in
/-- A reduction takes the right-hand side off the stack, and then goes to the target of the
left-hand side. -/
theorem exists_of_reduce_next {rule : ρ} (h : table.reduce c rule = .next c') :
    ∃ left length state states target, table.production rule = some (left, length) ∧
      length ≤ c.symbols.length ∧ (c.pop length).states = state :: states ∧
      table.goto state left = some target ∧ c' = (c.pop length).push left target := by
  unfold reduce at h
  split at h
  · cases h
  · next left length hProduction =>
    split at h
    · cases h
    · next hLength =>
      split at h
      · cases h
      · next state states hStates =>
        split at h
        · cases h
        · next target hGoto =>
          cases h
          exact ⟨left, length, state, states, target, hProduction, Nat.le_of_not_lt hLength,
            hStates, hGoto, rfl⟩

/-- A move that goes on is a shift or a reduction. -/
theorem exists_of_next (h : table.move c = .next c') :
    (∃ target token rest, table.chosen c = some (.shift target) ∧ c.remaining = token :: rest ∧
        c' = c.shift token rest target) ∨
      ∃ rule left length state states target, table.chosen c = some (.reduce rule) ∧
        table.production rule = some (left, length) ∧ length ≤ c.symbols.length ∧
        (c.pop length).states = state :: states ∧ table.goto state left = some target ∧
        c' = (c.pop length).push left target := by
  cases hStates : c.states with
  | nil =>
    rw [move, hStates] at h
    cases h
  | cons state states =>
    rw [move_eq hStates] at h
    split at h
    · next target hChosen =>
      split at h
      · cases h
      · next token rest hRemaining =>
        cases h
        exact .inl ⟨target, token, rest, hChosen, hRemaining, rfl⟩
    · next rule hChosen =>
      obtain ⟨left, length, state', states', target, hReduce⟩ := exists_of_reduce_next h
      exact .inr ⟨rule, left, length, state', states', target, hChosen, hReduce⟩
    · cases h
    · cases h

/-- A move that goes on reads the next token, or reads nothing. -/
theorem move_eq_next (h : table.move c = .next c') :
    (∃ token, c.remaining = token :: c'.remaining ∧ c'.position = c.position + 1) ∨
      c'.position = c.position ∧ c'.remaining = c.remaining := by
  rcases exists_of_next h with ⟨_, token, _, _, hRemaining, rfl⟩ | ⟨_, _, _, _, _, _, _, _, _, _, _, rfl⟩
  · exact .inl ⟨token, hRemaining, rfl⟩
  · exact .inr ⟨rfl, rfl⟩

theorem move_eq_accepted_iff :
    table.move c = .halt .accepted ↔ table.chosen c = some .accept := by
  cases hStates : c.states with
  | nil => simp [move, chosen, hStates]
  | cons state states =>
    rw [move_eq hStates]
    cases table.chosen c with
    | none => simp
    | some action =>
      cases action with
      | accept => simp
      | reduce rule => simp [reduce_ne_halt]
      | shift target => cases c.remaining <;> simp

/-- A rejection tells where the machine stood, and what it was looking at. -/
theorem exists_of_rejected {rejection : Rejection σ τ κ}
    (h : table.move c = .halt (.rejected rejection)) :
    table.chosen c = none ∧ ∃ state states, c.states = state :: states ∧
      rejection = ⟨state, c.position, c.remaining.head?, table.expected state⟩ := by
  cases hStates : c.states with
  | nil =>
    rw [move, hStates] at h
    cases h
  | cons state states =>
    rw [move_eq hStates] at h
    split at h
    · split at h <;> cases h
    · exact absurd h reduce_ne_halt
    · cases h
    · next hChosen =>
      cases h
      exact ⟨hChosen, state, states, rfl, rfl⟩

/-- Which action was chosen at the end tells the verdict. -/
theorem chosen_of_halt (h : table.move c = .halt verdict) :
    verdict = .accepted ∧ table.chosen c = some .accept ∨
      ∃ rejection, verdict = .rejected rejection ∧ table.chosen c = none := by
  cases verdict with
  | accepted => exact .inl ⟨rfl, move_eq_accepted_iff.mp h⟩
  | rejected rejection => exact .inr ⟨rejection, rfl, (exists_of_rejected h).1⟩

theorem move_eq_rejected {rejection : Rejection σ τ κ}
    (h : table.move c = .halt (.rejected rejection)) :
    table.chosen c = none ∧ rejection.position = c.position ∧
      rejection.lookahead = c.remaining.head? := by
  obtain ⟨hNone, _, _, _, rfl⟩ := exists_of_rejected h
  exact ⟨hNone, rfl, rfl⟩

/-- All recorded steps that are followed by others are shifts and reductions. -/
theorem Moves.forall_action (h : table.Moves c steps c') : ∀ step ∈ steps,
    (∃ target, step.action = some (.shift target)) ∨ ∃ rule, step.action = some (.reduce rule) := by
  induction h with
  | refl => simp
  | step _ hMove ih =>
    intro step hStep
    rcases List.mem_append.mp hStep with hStep | hStep
    · exact ih step hStep
    · obtain rfl := List.mem_singleton.mp hStep
      rcases exists_of_next hMove with
        ⟨target, _, _, hChosen, _⟩ | ⟨rule, _, _, _, _, _, hChosen, _⟩
      · exact .inl ⟨target, hChosen⟩
      · exact .inr ⟨rule, hChosen⟩

theorem Moves.position_le (h : table.Moves c steps c') : c.position ≤ c'.position := by
  induction h with
  | refl => exact Nat.le_refl _
  | step _ hMove ih =>
    rcases move_eq_next hMove with ⟨_, _, hPosition⟩ | ⟨hPosition, _⟩ <;> omega

/-- The unread tokens are those after the position. -/
theorem Moves.remaining_eq {tokens : List κ} (h : table.Moves (table.start tokens) steps c) :
    c.position ≤ tokens.length ∧ c.remaining = tokens.drop c.position := by
  induction h with
  | refl => exact ⟨Nat.zero_le _, rfl⟩
  | @step c' c'' _ _ hMove ih =>
    obtain ⟨hLe, hRemaining⟩ := ih
    rcases move_eq_next hMove with ⟨token, hCons, hPosition⟩ | ⟨hPosition, hSame⟩
    · rw [hRemaining] at hCons
      have hLt : c'.position < tokens.length := by
        apply Nat.lt_of_not_le
        intro hNot
        rw [List.drop_eq_nil_of_le hNot] at hCons
        cases hCons
      rw [hPosition, ← List.drop_drop, hCons]
      exact ⟨hLt, rfl⟩
    · rw [hPosition, hSame]
      exact ⟨hLe, hRemaining⟩

/-- A machine that can always make another move uses up its look-ups. -/
theorem run_outOfLookups {tokens : List κ}
    (h : ∀ steps c, table.Moves (table.start tokens) steps c → ∃ c', table.move c = .next c')
    (n : Nat) : table.run tokens n = .outOfLookups := by
  refine Classical.byContradiction fun hEnds => ?_
  obtain ⟨steps, last, hMoves, hEnding⟩ := exists_moves_of_runFrom .refl rfl hEnds
  rw [ending?_eq_none_iff.mpr (h steps last hMoves)] at hEnding
  cases hEnding

end LookupTable

end ShiftReduce
