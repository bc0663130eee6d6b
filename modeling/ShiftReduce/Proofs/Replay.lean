import ShiftReduce.Proofs.Runs

/-!
# The trace replays the run

Nothing is assumed of the table here. It may be written by hand, its answers may contradict each
other, and its rules may be longer than any stack. What a run records is the whole story even so.

* There is a symbol between any two states of the stack (`Interleaved`). Hence there is always a
  state on top, and a reduction for which there are symbols enough takes exactly its length off
  both stacks and uncovers a state (`Interleaved.reduce_eq`).
* A recorded step and the table tell on which stack and before which tokens the next step is
  recorded (`Step.replay?`), and on which fault the run ends, if it does (`Step.Faulty`).
-/

namespace ShiftReduce

variable {σ τ ν ρ κ : Type}

/-! ## Reading a recorded step -/

def StackItem.state? : StackItem σ κ ν → Option σ
  | .state q => some q
  | .symbol _ => none

def StackItem.symbol? : StackItem σ κ ν → Option (StackSymbol κ ν)
  | .state _ => none
  | .symbol x => some x

/-- The state on top of a recorded stack. -/
def topState? (stack : List (StackItem σ κ ν)) : Option σ :=
  stack.getLast?.bind StackItem.state?

namespace Step

variable (table : LookupTable σ τ ν ρ) (step : Step σ ρ κ ν)

/-- The symbols on the recorded stack, from the bottom. -/
def symbols : List (StackSymbol κ ν) := step.stack.filterMap StackItem.symbol?

/-- The recorded stack without the topmost `length` symbols and the states above them. -/
def uncover (length : Nat) : List (StackItem σ κ ν) :=
  step.stack.take (step.stack.length - 2 * length)

/-- The stack and the unread tokens after a recorded step, if there is a next one. -/
def replay? : Option (List (StackItem σ κ ν) × List κ) :=
  match step.action with
  | some (.shift target) =>
    match step.remaining with
    | token :: rest => some (step.stack ++ [.symbol (.token token), .state target], rest)
    | [] => none
  | some (.reduce rule) =>
    (table.production rule).bind fun (left, length) =>
      if step.symbols.length < length then none
      else
        (topState? (step.uncover length)).bind fun state =>
          (table.goto state left).map fun target =>
            (step.uncover length ++ [.symbol (.nonterminal left), .state target], step.remaining)
  | _ => none

/-- The faults of a table that a recorded step shows. -/
inductive Faulty : Fault σ ν ρ → Prop
  | shiftAtEnd {target : σ} : step.action = some (.shift target) → step.remaining = [] →
      Faulty .shiftAtEnd
  | undefinedRule {rule : ρ} : step.action = some (.reduce rule) → table.production rule = none →
      Faulty (.undefinedRule rule)
  | stackUnderflow {rule : ρ} {left : ν} {length : Nat} : step.action = some (.reduce rule) →
      table.production rule = some (left, length) → step.symbols.length < length →
      Faulty .stackUnderflow
  | missingGoto {rule : ρ} {left : ν} {length : Nat} {state : σ} :
      step.action = some (.reduce rule) → table.production rule = some (left, length) →
      length ≤ step.symbols.length → topState? (step.uncover length) = some state →
      table.goto state left = none → Faulty (.missingGoto state left)

variable {table} {step} {fault fault' : Fault σ ν ρ}

/-- A step with a fault is the last one. -/
theorem Faulty.replay?_eq_none (h : step.Faulty table fault) : step.replay? table = none := by
  cases h with
  | shiftAtEnd hAction hRemaining => simp [replay?, hAction, hRemaining]
  | undefinedRule hAction hProduction => simp [replay?, hAction, hProduction]
  | stackUnderflow hAction hProduction hLength => simp [replay?, hAction, hProduction, hLength]
  | missingGoto hAction hProduction _ hTop hGoto =>
    simp [replay?, hAction, hProduction, hTop, hGoto]

/-- A step has one fault at most. -/
theorem Faulty.unique (h : step.Faulty table fault) (h' : step.Faulty table fault') :
    fault = fault' := by
  cases h <;> cases h' <;> simp_all <;> omega

theorem Faulty.action_eq (h : step.Faulty table fault) :
    (∃ target, step.action = some (.shift target)) ∨ ∃ rule, step.action = some (.reduce rule) := by
  cases h with
  | shiftAtEnd hAction => exact .inl ⟨_, hAction⟩
  | undefinedRule hAction => exact .inr ⟨_, hAction⟩
  | stackUnderflow hAction => exact .inr ⟨_, hAction⟩
  | missingGoto hAction => exact .inr ⟨_, hAction⟩

end Step

/-! ## Both stacks -/

/-- There is one symbol between any two states, the topmost first. -/
inductive Interleaved : List σ → List (StackSymbol κ ν) → Prop
  | bottom (q : σ) : Interleaved [q] []
  | push {states : List σ} {symbols : List (StackSymbol κ ν)} (q : σ) (x : StackSymbol κ ν) :
      Interleaved states symbols → Interleaved (q :: states) (x :: symbols)

namespace Interleaved

variable {states : List σ} {symbols : List (StackSymbol κ ν)} {q : σ} {x : StackSymbol κ ν}
  {n : Nat} {c c' : Configuration σ κ ν} {action : Option (Action σ ρ)}

theorem length_eq (h : Interleaved states symbols) : states.length = symbols.length + 1 := by
  induction h with
  | bottom => rfl
  | push _ _ _ ih => simp [ih]

theorem exists_cons (h : Interleaved states symbols) : ∃ q ps, states = q :: ps := by
  cases h with
  | bottom q => exact ⟨q, [], rfl⟩
  | push q _ _ => exact ⟨q, _, rfl⟩

theorem drop (h : Interleaved states symbols) (hn : n ≤ symbols.length) :
    Interleaved (states.drop n) (symbols.drop n) := by
  induction h generalizing n with
  | bottom q =>
    obtain rfl : n = 0 := by simpa using hn
    exact .bottom q
  | push q x h ih =>
    cases n with
    | zero => exact .push q x h
    | succ n =>
      apply ih
      simpa using hn

/-! ### Recorded stacks -/

theorem snapshot_cons (h : Interleaved states symbols) (position position' : Nat)
    (remaining remaining' : List κ) :
    Configuration.snapshot ⟨q :: states, x :: symbols, position, remaining⟩ =
      Configuration.snapshot ⟨states, symbols, position', remaining'⟩ ++
        [.symbol x, .state q] := by
  obtain ⟨p, ps, rfl⟩ := h.exists_cons
  apply Configuration.snapshot_push
  have hLength := h.length_eq
  simp only [List.length_cons] at hLength
  omega

theorem snapshot_shift (h : Interleaved c.states c.symbols) (token : κ) (rest : List κ)
    (target : σ) :
    (c.shift token rest target).snapshot =
      c.snapshot ++ [.symbol (.token token), .state target] :=
  h.snapshot_cons (c.position + 1) c.position rest c.remaining

theorem snapshot_push (h : Interleaved c.states c.symbols) (left : ν) (target : σ) :
    (c.push left target).snapshot = c.snapshot ++ [.symbol (.nonterminal left), .state target] :=
  h.snapshot_cons c.position c.position c.remaining c.remaining

theorem topState?_snapshot (h : Interleaved c.states c.symbols) :
    topState? c.snapshot = c.states.head? := by
  obtain ⟨states, symbols, position, remaining⟩ := c
  dsimp only at h ⊢
  cases h with
  | bottom => rfl
  | push q x h =>
    rw [h.snapshot_cons position position remaining remaining, topState?]
    simp [StackItem.state?]

theorem symbols_record (h : Interleaved c.states c.symbols) :
    (c.record action).symbols = c.symbols.reverse := by
  obtain ⟨states, symbols, position, remaining⟩ := c
  dsimp only [Configuration.record, Step.symbols] at h ⊢
  induction h with
  | bottom => rfl
  | push q x h ih =>
    rw [h.snapshot_cons position position remaining remaining, List.filterMap_append, ih]
    simp [StackItem.symbol?]

/-- The recorded stack is what is left after taking symbols and states off, and these on top. -/
theorem exists_snapshot_pop (h : Interleaved c.states c.symbols) (hn : n ≤ c.symbols.length) :
    ∃ top, c.snapshot = (c.pop n).snapshot ++ top ∧ top.length = 2 * n := by
  obtain ⟨states, symbols, position, remaining⟩ := c
  dsimp only [Configuration.pop] at h hn ⊢
  induction h generalizing n with
  | bottom q =>
    obtain rfl : n = 0 := by simpa using hn
    exact ⟨[], rfl, rfl⟩
  | @push states symbols q x h ih =>
    cases n with
    | zero => exact ⟨[], (List.append_nil _).symm, rfl⟩
    | succ n =>
      obtain ⟨top, hSnapshot, hLength⟩ := ih (Nat.le_of_succ_le_succ hn)
      refine ⟨top ++ [.symbol x, .state q], ?_, ?_⟩
      · rw [h.snapshot_cons position position remaining remaining, hSnapshot, List.append_assoc]
        rfl
      · rw [List.length_append, hLength]
        simp only [List.length_cons, List.length_nil]
        omega

theorem uncover_record (h : Interleaved c.states c.symbols) (hn : n ≤ c.symbols.length) :
    (c.record action).uncover n = (c.pop n).snapshot := by
  obtain ⟨top, hSnapshot, hLength⟩ := h.exists_snapshot_pop hn
  change c.snapshot.take (c.snapshot.length - 2 * n) = _
  rw [hSnapshot, List.length_append, hLength, Nat.add_sub_cancel, List.take_left]

/-! ### Moves -/

theorem pop (h : Interleaved c.states c.symbols) (hn : n ≤ c.symbols.length) :
    Interleaved (c.pop n).states (c.pop n).symbols :=
  h.drop hn

section Moves

variable {table : LookupTable σ τ ν ρ} {rule : ρ} {fault : Fault σ ν ρ}

theorem topState?_uncover (h : Interleaved c.states c.symbols) (hn : n ≤ c.symbols.length) :
    topState? ((c.record action).uncover n) = (c.pop n).states.head? := by
  rw [h.uncover_record hn, (h.pop hn).topState?_snapshot]

variable [Token κ τ]

theorem next (h : Interleaved c.states c.symbols) (hMove : table.move c = .next c') :
    Interleaved c'.states c'.symbols := by
  rcases LookupTable.exists_of_next hMove with
    ⟨target, token, _, _, _, rfl⟩ | ⟨_, left, length, _, _, target, _, _, hLength, _, _, rfl⟩
  · exact h.push target (.token token)
  · exact (h.pop hLength).push target (.nonterminal left)

/-- A recorded step tells the next stack and the next tokens. -/
theorem replay?_of_next (h : Interleaved c.states c.symbols) (hMove : table.move c = .next c') :
    (c.record (table.chosen c)).replay? table = some (c'.snapshot, c'.remaining) := by
  rcases LookupTable.exists_of_next hMove with
    ⟨target, token, rest, hChosen, hRemaining, rfl⟩ |
      ⟨rule, left, length, state, states, target, hChosen, hProduction, hLength, hStates, hGoto, rfl⟩
  · rw [h.snapshot_shift, hChosen, Configuration.record, hRemaining]
    rfl
  · have hTop : topState? ((c.record (table.chosen c)).uncover length) = some state := by
      rw [h.topState?_uncover hLength, hStates, List.head?_cons]
    have hAction : (c.record (table.chosen c)).action = some (.reduce rule) := hChosen
    have hEnough : ¬ (c.record (table.chosen c)).symbols.length < length := by
      rw [h.symbols_record, List.length_reverse]
      omega
    rw [(h.pop hLength).snapshot_push, ← h.uncover_record hLength]
    simp only [Step.replay?, hAction, hProduction, Option.bind_some, if_neg hEnough, hTop, hGoto,
      Option.map_some]
    rfl

theorem faulty_of_reduce (h : Interleaved c.states c.symbols)
    (hChosen : table.chosen c = some (.reduce rule)) (hFail : table.reduce c rule = .fail fault) :
    (c.record (table.chosen c)).Faulty table fault := by
  have hLengths : (c.record (table.chosen c)).symbols.length = c.symbols.length := by
    rw [h.symbols_record, List.length_reverse]
  unfold LookupTable.reduce at hFail
  split at hFail
  · next hProduction =>
    cases hFail
    exact .undefinedRule hChosen hProduction
  · next left length hProduction =>
    split at hFail
    · next hLength =>
      cases hFail
      exact .stackUnderflow hChosen hProduction (hLengths ▸ hLength)
    · next hLength =>
      have hEnough : length ≤ c.symbols.length := Nat.le_of_not_lt hLength
      -- There is a state below the symbols, so the stack of states does not run out.
      obtain ⟨uncovered, rest, hPopped⟩ := (h.pop hEnough).exists_cons
      rw [hPopped] at hFail
      dsimp only at hFail
      split at hFail
      · next hGoto =>
        cases hFail
        refine .missingGoto hChosen hProduction (hLengths ▸ hEnough) ?_ hGoto
        rw [h.topState?_uncover hEnough, hPopped, List.head?_cons]
      · cases hFail

theorem faulty_of_fail (h : Interleaved c.states c.symbols) (hFail : table.move c = .fail fault) :
    (c.record (table.chosen c)).Faulty table fault := by
  obtain ⟨state, states, hStates⟩ := h.exists_cons
  rw [LookupTable.move_eq hStates] at hFail
  split at hFail
  · next target hChosen =>
    split at hFail
    · next hRemaining =>
      cases hFail
      exact .shiftAtEnd hChosen hRemaining
    · cases hFail
  · next rule hChosen => exact h.faulty_of_reduce hChosen hFail
  · cases hFail
  · cases hFail

theorem replay?_of_halt {verdict : Verdict σ τ κ} (hHalt : table.move c = .halt verdict) :
    (c.record (table.chosen c)).replay? table = none := by
  rcases LookupTable.chosen_of_halt hHalt with ⟨_, hChosen⟩ | ⟨_, _, hChosen⟩ <;>
    · rw [hChosen]
      rfl

/-- A run fails where the recorded step shows the fault. -/
theorem faulty_iff (h : Interleaved c.states c.symbols) :
    (c.record (table.chosen c)).Faulty table fault ↔ table.move c = .fail fault := by
  refine ⟨?_, h.faulty_of_fail⟩
  intro hFaulty
  cases hMove : table.move c with
  | next c' =>
    have hNone := hFaulty.replay?_eq_none
    rw [h.replay?_of_next hMove] at hNone
    cases hNone
  | halt verdict =>
    have hAction : (c.record (table.chosen c)).action = table.chosen c := rfl
    rcases hFaulty.action_eq with ⟨_, hShift⟩ | ⟨_, hReduce⟩ <;>
      rcases LookupTable.chosen_of_halt hMove with ⟨_, hChosen⟩ | ⟨_, _, hChosen⟩ <;>
      simp_all
  | fail fault' => rw [hFaulty.unique (h.faulty_of_fail hMove)]

end Moves

end Interleaved

/-! ## Runs -/

namespace LookupTable

variable [Token κ τ]

/-- What holds of the run over `tokens`. Configurations and steps are given by the number of
moves before them, however many there are, and whether or not the run ends. -/
structure Replays (table : LookupTable σ τ ν ρ) (tokens : List κ) : Prop where
  stack_lengths : ∀ n c, table.after? (table.start tokens) n = some c →
    c.states.length = c.symbols.length + 1
  cursor : ∀ n c, table.after? (table.start tokens) n = some c →
    c.position ≤ tokens.length ∧ c.remaining = tokens.drop c.position
  /-- A reduction for which there are symbols enough takes exactly its length off both stacks,
  and uncovers a state. -/
  pops : ∀ n c length, table.after? (table.start tokens) n = some c → length ≤ c.symbols.length →
    (c.pop length).states.length + length = c.states.length ∧
      (c.pop length).symbols.length + length = c.symbols.length ∧ (c.pop length).states ≠ []
  first : (table.step? tokens 0).map (fun step => (step.stack, step.remaining)) =
    some ([.state table.initial], tokens)
  /-- Each recorded step determines on which stack and before which tokens the next one is
  recorded, and whether there is a next one. -/
  next : ∀ n, (table.step? tokens (n + 1)).map (fun step => (step.stack, step.remaining)) =
    (table.step? tokens n).bind fun step => step.replay? table
  /-- The recorded action is that of the topmost state before the next token. -/
  action : ∀ n step, table.step? tokens n = some step →
    ∃ state, topState? step.stack = some state ∧
      step.action = table.actionAt state step.remaining
  /-- The trace of a run that ends has the recorded steps, and its last one tells the verdict. -/
  finished : ∀ lookups verdict steps, table.run tokens lookups = .finished verdict steps →
    (∀ n, steps[n]? = table.step? tokens n) ∧
    ∃ before last, steps = before ++ [last] ∧
      (∀ step ∈ before, (∃ target, step.action = some (.shift target)) ∨
        ∃ rule, step.action = some (.reduce rule)) ∧
      (last.action = some .accept ↔ verdict = .accepted) ∧
      (last.action = none ↔ ∃ rejection, verdict = .rejected rejection) ∧
      ∀ rejection, verdict = .rejected rejection →
        topState? last.stack = some rejection.state ∧
        rejection.position ≤ tokens.length ∧ last.remaining = tokens.drop rejection.position ∧
        rejection.lookahead = last.remaining.head? ∧
        rejection.expected = table.expected rejection.state
  /-- A run fails exactly if a recorded step shows the fault. -/
  failed : ∀ fault, (∃ lookups, table.run tokens lookups = .failed fault) ↔
    ∃ n step, table.step? tokens n = some step ∧ step.Faulty table fault

section Replays

variable {table : LookupTable σ τ ν ρ} {tokens : List κ} {c : Configuration σ κ ν}
  {steps : List (Step σ ρ κ ν)} {n : Nat}

theorem Moves.interleaved (h : table.Moves (table.start tokens) steps c) :
    Interleaved c.states c.symbols := by
  induction h with
  | refl => exact .bottom table.initial
  | step _ hMove ih => exact ih.next hMove

theorem interleaved_of_after? (h : table.after? (table.start tokens) n = some c) :
    Interleaved c.states c.symbols := by
  obtain ⟨_, _, hMoves⟩ := moves_of_after? h
  exact hMoves.interleaved

end Replays

/-- Over every table, whatever it answers, the recorded steps tell the whole run. -/
theorem replays (table : LookupTable σ τ ν ρ) (tokens : List κ) : table.Replays tokens where
  stack_lengths n c h := (interleaved_of_after? h).length_eq
  cursor n c h := by
    obtain ⟨_, _, hMoves⟩ := moves_of_after? h
    exact hMoves.remaining_eq
  pops n c length h hLength := by
    have hBoth := interleaved_of_after? h
    obtain ⟨state, states, hStates⟩ := (hBoth.pop hLength).exists_cons
    have hTotal := hBoth.length_eq
    refine ⟨?_, ?_, by simp [hStates]⟩
    · rw [Configuration.pop, List.length_drop]
      omega
    · rw [Configuration.pop, List.length_drop]
      omega
  first := rfl
  next n := by
    unfold step?
    cases hAfter : table.after? (table.start tokens) n with
    | none => rw [after?_add, hAfter]; rfl
    | some c =>
      have hBoth := interleaved_of_after? hAfter
      rw [after?_succ hAfter, Option.map_some, Option.bind_some]
      cases hMove : table.move c with
      | next c' => rw [hBoth.replay?_of_next hMove]; rfl
      | halt verdict => rw [Interleaved.replay?_of_halt hMove]; rfl
      | fail fault => rw [(hBoth.faulty_of_fail hMove).replay?_eq_none]; rfl
  action n step h := by
    obtain ⟨c, hAfter, rfl⟩ := Option.map_eq_some_iff.mp h
    have hBoth := interleaved_of_after? hAfter
    obtain ⟨state, states, hStates⟩ := hBoth.exists_cons
    refine ⟨state, ?_, ?_⟩
    · exact hBoth.topState?_snapshot.trans (by rw [hStates, List.head?_cons])
    · change table.chosen c = _
      rw [chosen, hStates]
      rfl
  finished lookups verdict steps hRun := by
    refine ⟨getElem?_trace hRun, ?_⟩
    obtain ⟨before, last, hMoves, hHalt, rfl⟩ := exists_moves_of_finished .refl hRun
    refine ⟨before, _, rfl, hMoves.forall_action, ?_, ?_, ?_⟩
    · change table.chosen last = _ ↔ _
      rcases chosen_of_halt hHalt with ⟨hVerdict, hChosen⟩ | ⟨_, hVerdict, hChosen⟩ <;>
        simp [hVerdict, hChosen]
    · change table.chosen last = _ ↔ _
      rcases chosen_of_halt hHalt with ⟨hVerdict, hChosen⟩ | ⟨_, hVerdict, hChosen⟩ <;>
        simp [hVerdict, hChosen]
    · rintro rejection rfl
      obtain ⟨_, state, states, hStates, rfl⟩ := exists_of_rejected hHalt
      obtain ⟨hLe, hRemaining⟩ := hMoves.remaining_eq
      refine ⟨?_, hLe, hRemaining, rfl, rfl⟩
      exact hMoves.interleaved.topState?_snapshot.trans (by rw [hStates, List.head?_cons])
  failed fault := by
    constructor
    · rintro ⟨lookups, hRun⟩
      obtain ⟨before, last, hMoves, hFail⟩ := exists_moves_of_failed .refl hRun
      refine ⟨before.length, last.record (table.chosen last), ?_, ?_⟩
      · rw [step?, after?_of_moves hMoves, Option.map_some]
      · exact hMoves.interleaved.faulty_iff.mpr hFail
    · rintro ⟨n, step, hStep, hFaulty⟩
      obtain ⟨c, hAfter, rfl⟩ := Option.map_eq_some_iff.mp hStep
      obtain ⟨steps, rfl, hMoves⟩ := moves_of_after? hAfter
      have hFail := hMoves.interleaved.faulty_iff.mp hFaulty
      exact ⟨steps.length + 1, run_of_ending hMoves (ending?_eq_failed_iff.mpr hFail)
        (.inl (Nat.lt_succ_self _))⟩

end LookupTable

end ShiftReduce
