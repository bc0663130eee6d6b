import ShiftReduce.Proofs.Simulation

/-!
# Runs with renamed states and rules

Two tables may be the same but for the names of their states and rules (`LookupTable.Renames`).
The machine never looks into such a name. It copies states onto its stack and asks the table about
them, and it asks the table about the rules that it gets from there. So a move over one table is
the move over the other one with other names (`Renames.move`), and runs with the same number of
look-ups are alike from their first step to their end (`Renames.run`).

Only the lookaheads that a rejection says were expected may come in another order.
-/

namespace ShiftReduce

variable {σ σ' τ ν ρ ρ' κ : Type} {f : σ → σ'} {h : ρ → ρ'}

/-! ## Other names -/

def Action.mapRules (h : ρ → ρ') : Action σ ρ → Action σ ρ'
  | .shift target => .shift target
  | .reduce rule => .reduce (h rule)
  | .accept => .accept

def Action.rename (f : σ → σ') (h : ρ → ρ') (action : Action σ ρ) : Action σ' ρ' :=
  (action.mapStates f).mapRules h

theorem Action.rename_injective (hf : Function.Injective f) (hh : Function.Injective h) :
    Function.Injective (Action.rename f h) := by
  intro action action' hEq
  cases action with
  | shift q =>
    cases action' with
    | shift q' => rw [hf (Action.shift.inj hEq)]
    | reduce | accept => cases hEq
  | reduce r =>
    cases action' with
    | reduce r' => rw [hh (Action.reduce.inj hEq)]
    | shift | accept => cases hEq
  | accept =>
    cases action' with
    | accept => rfl
    | shift | reduce => cases hEq

/-- A recorded step with its states and its rule renamed. -/
def Step.rename (f : σ → σ') (h : ρ → ρ') (step : Step σ ρ κ ν) : Step σ' ρ' κ ν where
  stack := step.stack.map (StackItem.mapStates f)
  remaining := step.remaining
  action := step.action.map (Action.rename f h)

def Fault.rename (f : σ → σ') (h : ρ → ρ') : Fault σ ν ρ → Fault σ' ν ρ'
  | .undefinedRule rule => .undefinedRule (h rule)
  | .missingGoto state n => .missingGoto (f state) n
  | .shiftAtEnd => .shiftAtEnd
  | .stackUnderflow => .stackUnderflow

/-- Verdicts that are alike but for the names of states. -/
inductive Verdict.Renamed (f : σ → σ') : Verdict σ τ κ → Verdict σ' τ κ → Prop
  | accepted : Renamed f .accepted .accepted
  | rejected {state : σ} {position : Nat} {lookahead : Option κ}
      {expected expected' : List (Option τ)} : (∀ t, t ∈ expected' ↔ t ∈ expected) →
      Renamed f (.rejected ⟨state, position, lookahead, expected⟩)
        (.rejected ⟨f state, position, lookahead, expected'⟩)

inductive Move.Renamed (f : σ → σ') (h : ρ → ρ') : Move σ τ ν ρ κ → Move σ' τ ν ρ' κ → Prop
  | next (c : Configuration σ κ ν) : Renamed f h (.next c) (.next (c.mapStates f))
  | halt {verdict : Verdict σ τ κ} {verdict' : Verdict σ' τ κ} : verdict.Renamed f verdict' →
      Renamed f h (.halt verdict) (.halt verdict')
  | fail (fault : Fault σ ν ρ) : Renamed f h (.fail fault) (.fail (fault.rename f h))

/-- Runs that end alike but for the names of states and rules, after the same steps. -/
inductive Ending.Renamed (f : σ → σ') (h : ρ → ρ') : Ending σ τ ν ρ κ → Ending σ' τ ν ρ' κ → Prop
  | finished {verdict : Verdict σ τ κ} {verdict' : Verdict σ' τ κ}
      (trace : List (Step σ ρ κ ν)) : verdict.Renamed f verdict' →
      Renamed f h (.finished verdict trace) (.finished verdict' (trace.map (Step.rename f h)))
  | failed (fault : Fault σ ν ρ) : Renamed f h (.failed fault) (.failed (fault.rename f h))
  | outOfLookups : Renamed f h .outOfLookups .outOfLookups

theorem Configuration.record_rename (c : Configuration σ κ ν) (action : Option (Action σ ρ)) :
    (c.record action).rename f h = (c.mapStates f).record (action.map (Action.rename f h)) := by
  rw [record, record, snapshot_mapStates]
  rfl

theorem Configuration.pop_mapStates (c : Configuration σ κ ν) (length : Nat) :
    (c.mapStates f).pop length = (c.pop length).mapStates f := by
  rw [pop, mapStates, ← List.map_drop]
  rfl

/-! ## Tables with other names -/

/-- The second table has what the first one has, under other names. It may have more states and
rules than those that have names in the first one. -/
structure LookupTable.Renames (table : LookupTable σ τ ν ρ) (table' : LookupTable σ' τ ν ρ')
    (f : σ → σ') (h : ρ → ρ') : Prop where
  initial : table'.initial = f table.initial
  action : ∀ q t, table'.action (f q) t = (table.action q t).map (Action.rename f h)
  goto : ∀ q n, table'.goto (f q) n = (table.goto q n).map f
  production : ∀ r, table'.production (h r) = table.production r
  mem_expected : ∀ q t, t ∈ table'.expected (f q) ↔ t ∈ table.expected q

namespace LookupTable.Renames

variable [Token κ τ] {table : LookupTable σ τ ν ρ} {table' : LookupTable σ' τ ν ρ'}
  {c : Configuration σ κ ν} (hR : table.Renames table' f h)
include hR

omit [Token κ τ] in
theorem start (tokens : List κ) : table'.start tokens = (table.start tokens).mapStates f := by
  rw [LookupTable.start, hR.initial]
  rfl

theorem actionAt (q : σ) (remaining : List κ) :
    table'.actionAt (f q) remaining = (table.actionAt q remaining).map (Action.rename f h) := by
  cases remaining with
  | nil => exact hR.action q none
  | cons token rest =>
    rw [LookupTable.actionAt, LookupTable.actionAt, Option.map_bind]
    exact congrArg (Option.bind _) (funext fun t => hR.action q (some t))

theorem chosen (c : Configuration σ κ ν) :
    table'.chosen (c.mapStates f) = (table.chosen c).map (Action.rename f h) := by
  rw [LookupTable.chosen, LookupTable.chosen, Configuration.mapStates, List.head?_map,
    Option.bind_map, Option.map_bind]
  exact congrArg (Option.bind _) (funext fun q => hR.actionAt q c.remaining)

omit [Token κ τ] in
theorem reduce (c : Configuration σ κ ν) (r : ρ) :
    Move.Renamed f h (table.reduce c r : Move σ τ ν ρ κ)
      (table'.reduce (c.mapStates f) (h r)) := by
  unfold LookupTable.reduce
  rw [hR.production]
  cases table.production r with
  | none => exact .fail (.undefinedRule r)
  | some production =>
    obtain ⟨left, length⟩ := production
    have hSymbols : (c.mapStates f).symbols = c.symbols := rfl
    have hStates : ((c.pop length).mapStates f).states = (c.pop length).states.map f := rfl
    dsimp only
    rw [Configuration.pop_mapStates, hSymbols, hStates]
    split
    · exact .fail .stackUnderflow
    · cases (c.pop length).states with
      | nil => exact .fail .stackUnderflow
      | cons q below =>
        rw [List.map_cons]
        dsimp only
        rw [hR.goto]
        cases table.goto q left with
        | none => exact .fail (.missingGoto q left)
        | some target => exact .next ((c.pop length).push left target)

theorem move (c : Configuration σ κ ν) :
    (table.move c).Renamed f h (table'.move (c.mapStates f)) := by
  cases hStates : c.states with
  | nil =>
    have hStates' : (c.mapStates f).states = [] := congrArg (List.map f) hStates
    rw [LookupTable.move, LookupTable.move, hStates, hStates']
    exact .fail .stackUnderflow
  | cons q below =>
    have hStates' : (c.mapStates f).states = f q :: below.map f := congrArg (List.map f) hStates
    have hRemaining : (c.mapStates f).remaining = c.remaining := rfl
    rw [LookupTable.move_eq hStates, LookupTable.move_eq hStates', hR.chosen, hRemaining]
    cases table.chosen c with
    | none => exact .halt (.rejected (hR.mem_expected q))
    | some action =>
      cases action with
      | accept => exact .halt .accepted
      | reduce r => exact hR.reduce c r
      | shift target =>
        cases c.remaining with
        | nil => exact .fail .shiftAtEnd
        | cons token rest => exact .next (c.shift token rest target)

/-- The induction is on the number of look-ups that are left. -/
theorem runFrom (trace : List (Step σ ρ κ ν)) (lookups : Nat) :
    (table.runFrom c trace lookups).Renamed f h
      (table'.runFrom (c.mapStates f) (trace.map (Step.rename f h)) lookups) := by
  -- What is recorded of a move is recorded of the other one under the other names.
  have hTrace (c : Configuration σ κ ν) (trace : List (Step σ ρ κ ν)) :
      (c.mapStates f).record (table'.chosen (c.mapStates f)) :: trace.map (Step.rename f h) =
        (c.record (table.chosen c) :: trace).map (Step.rename f h) := by
    rw [hR.chosen, List.map_cons, Configuration.record_rename]
  induction lookups generalizing c trace with
  | zero =>
    have hLooksUp : LookupTable.looksUp (c.mapStates f) = LookupTable.looksUp c := rfl
    have hMove := hR.move c
    rw [LookupTable.runFrom, LookupTable.runFrom, hLooksUp, hTrace, ← List.map_reverse]
    split
    · exact .outOfLookups
    · generalize table.move c = move at hMove ⊢
      generalize table'.move (c.mapStates f) = move' at hMove ⊢
      cases hMove with
      | next => exact .outOfLookups
      | halt hVerdict => exact .finished _ hVerdict
      | fail fault => exact .failed fault
  | succ lookups ih =>
    have hMove := hR.move c
    rw [LookupTable.runFrom, LookupTable.runFrom, hTrace, ← List.map_reverse]
    generalize table.move c = move at hMove ⊢
    generalize table'.move (c.mapStates f) = move' at hMove ⊢
    cases hMove with
    | next => exact ih _
    | halt hVerdict => exact .finished _ hVerdict
    | fail fault => exact .failed fault

/-- Runs over tables with other names are alike. -/
theorem run (tokens : List κ) (lookups : Nat) :
    (table.run tokens lookups).Renamed f h (table'.run tokens lookups) := by
  rw [LookupTable.run, LookupTable.run, hR.start]
  exact hR.runFrom [] lookups

end LookupTable.Renames

end ShiftReduce
