import ShiftReduce.Machine.Listed
import ShiftReduce.Proofs.Runs

/-!
# One token of lookahead decides

Nothing is assumed of the table here either. A move reads the topmost state and the next token, and
a shift takes that token away. So the machine cannot tell two inputs apart before it has read past
the tokens that they have in common (`DecidesAlike`): over inputs that agree up to the token at `p`,
it makes the same moves while its position is at most `p`, with the same stacks, and ends there in
the same way or not at all. What a step records of the unread tokens does differ.

The invariant is `Configuration.AgreeTo`. It speaks of a part of the unread tokens that shrinks with
each shift, and says nothing of them any more when the position has passed `p`.
-/

namespace ShiftReduce

variable {σ τ ν ρ κ : Type}

/-! ## Configurations that agree -/

/-- Whether two configurations have the same stacks and position, and the same unread tokens up to
the one at position `p`. -/
structure Configuration.AgreeTo (p : Nat) (c c' : Configuration σ κ ν) : Prop where
  states : c'.states = c.states
  symbols : c'.symbols = c.symbols
  position : c'.position = c.position
  unread : c'.remaining.take (p + 1 - c.position) = c.remaining.take (p + 1 - c.position)

namespace Configuration.AgreeTo

variable {p : Nat} {c c' d : Configuration σ κ ν}

theorem snapshot_eq (h : AgreeTo p c c') : c'.snapshot = c.snapshot := by
  unfold snapshot
  rw [h.states, h.symbols]

theorem head?_eq (h : AgreeTo p c c') (hp : c.position ≤ p) :
    c'.remaining.head? = c.remaining.head? := by
  have hSome : p + 1 - c.position ≠ 0 := by omega
  have hHead := congrArg List.head? h.unread
  rwa [List.head?_take, List.head?_take, if_neg hSome, if_neg hSome] at hHead

variable [Token κ τ] {table : LookupTable σ τ ν ρ}

theorem looksUp_eq (h : AgreeTo p c c') (hp : c.position ≤ p) :
    LookupTable.looksUp c' = LookupTable.looksUp c := by
  have hHead := h.head?_eq hp
  unfold LookupTable.looksUp
  cases hRemaining : c.remaining <;> cases hRemaining' : c'.remaining <;>
    simp_all

theorem chosen_eq (h : AgreeTo p c c') (hp : c.position ≤ p) :
    table.chosen c' = table.chosen c := by
  have hHead := h.head?_eq hp
  unfold LookupTable.chosen LookupTable.actionAt
  rw [h.states]
  cases hRemaining : c.remaining <;> cases hRemaining' : c'.remaining <;>
    simp_all

end Configuration.AgreeTo

/-! ## Moves that agree -/

/-- Whether two moves lead to configurations that agree, or end a run in the same way. -/
inductive Move.AgreeTo (p : Nat) : Move σ τ ν ρ κ → Move σ τ ν ρ κ → Prop
  | next {c c' : Configuration σ κ ν} : c.AgreeTo p c' → AgreeTo p (.next c) (.next c')
  | halt (verdict : Verdict σ τ κ) : AgreeTo p (.halt verdict) (.halt verdict)
  | fail (fault : Fault σ ν ρ) : AgreeTo p (.fail fault) (.fail fault)

section Moves

variable [Token κ τ] {table : LookupTable σ τ ν ρ} {p : Nat} {c c' d : Configuration σ κ ν}
  {steps : List (Step σ ρ κ ν)}

namespace Configuration.AgreeTo

/-- A shift takes the same token away on both sides. -/
theorem shift {token : κ} {rest rest' : List κ} (h : AgreeTo p c c') (hp : c.position ≤ p)
    (hRemaining : c.remaining = token :: rest) (hRemaining' : c'.remaining = token :: rest')
    (target : σ) : AgreeTo p (c.shift token rest target) (c'.shift token rest' target) where
  states := congrArg (target :: ·) h.states
  symbols := congrArg (StackSymbol.token token :: ·) h.symbols
  position := congrArg (· + 1) h.position
  unread := by
    have hUnread := h.unread
    obtain ⟨n, hn⟩ : ∃ n, p + 1 - c.position = n + 1 := ⟨p - c.position, by omega⟩
    rw [hRemaining, hRemaining', hn, List.take_succ_cons, List.take_succ_cons] at hUnread
    change rest'.take (p + 1 - (c.position + 1)) = rest.take (p + 1 - (c.position + 1))
    rw [show p + 1 - (c.position + 1) = n by omega]
    exact (List.cons.inj hUnread).2

omit [Token κ τ] in
/-- A reduction reads no token. -/
theorem reduce (h : AgreeTo p c c') (rule : ρ) :
    Move.AgreeTo p (table.reduce c rule : Move σ τ ν ρ κ) (table.reduce c' rule) := by
  unfold LookupTable.reduce
  cases table.production rule with
  | none => exact .fail _
  | some production =>
    obtain ⟨left, length⟩ := production
    have hPop : AgreeTo p (c.pop length) (c'.pop length) :=
      ⟨congrArg (List.drop length) h.states, congrArg (List.drop length) h.symbols, h.position,
        h.unread⟩
    dsimp only
    rw [h.symbols, hPop.states]
    split
    · exact .fail _
    · cases (c.pop length).states with
      | nil => exact .fail _
      | cons state below =>
        dsimp only
        cases table.goto state left with
        | none => exact .fail _
        | some target =>
          exact .next ⟨congrArg (target :: ·) hPop.states,
            congrArg (StackSymbol.nonterminal left :: ·) hPop.symbols, hPop.position, hPop.unread⟩

/-- As long as the position is at most `p`, both machines make the same move. -/
theorem move (h : AgreeTo p c c') (hp : c.position ≤ p) :
    Move.AgreeTo p (table.move c) (table.move c') := by
  have hHead := h.head?_eq hp
  cases hStates : c.states with
  | nil =>
    have hStates' : c'.states = [] := h.states.trans hStates
    rw [LookupTable.move, LookupTable.move, hStates, hStates']
    exact .fail _
  | cons state states =>
    rw [LookupTable.move_eq hStates, LookupTable.move_eq (h.states.trans hStates), h.chosen_eq hp,
      hHead, h.position]
    cases table.chosen c with
    | none => exact .halt _
    | some action =>
      cases action with
      | accept => exact .halt _
      | reduce rule => exact h.reduce rule
      | shift target =>
        cases hRemaining : c.remaining with
        | nil =>
          rw [hRemaining, List.head?_nil, List.head?_eq_none_iff] at hHead
          rw [hHead]
          exact .fail _
        | cons token rest =>
          rw [hRemaining, List.head?_cons] at hHead
          obtain ⟨rest', hRemaining'⟩ := List.head?_eq_some_iff.mp hHead
          rw [hRemaining']
          exact .next (h.shift hp hRemaining hRemaining' target)

theorem exists_next (h : AgreeTo p c c') (hp : c.position ≤ p) (hMove : table.move c = .next d) :
    ∃ d', table.move c' = .next d' ∧ AgreeTo p d d' := by
  have hBoth : Move.AgreeTo p (table.move c) (table.move c') := h.move hp
  rw [hMove] at hBoth
  generalize hMove' : table.move c' = move' at hBoth
  cases hBoth with
  | next hNext => exact ⟨_, rfl, hNext⟩

theorem halt {verdict : Verdict σ τ κ} (h : AgreeTo p c c') (hp : c.position ≤ p)
    (hMove : table.move c = .halt verdict) : table.move c' = .halt verdict := by
  have hBoth : Move.AgreeTo p (table.move c) (table.move c') := h.move hp
  rw [hMove] at hBoth
  generalize table.move c' = move' at hBoth ⊢
  cases hBoth with
  | halt => rfl

theorem fail {fault : Fault σ ν ρ} (h : AgreeTo p c c') (hp : c.position ≤ p)
    (hMove : table.move c = .fail fault) : table.move c' = .fail fault := by
  have hBoth : Move.AgreeTo p (table.move c) (table.move c') := h.move hp
  rw [hMove] at hBoth
  generalize table.move c' = move' at hBoth ⊢
  cases hBoth with
  | fail => rfl

/-- A run whose position stays at most `p` is made on the other input as well. -/
theorem exists_moves (h : AgreeTo p c c') (hMoves : table.Moves c steps d) (hp : d.position ≤ p) :
    ∃ steps' d', table.Moves c' steps' d' ∧ steps'.length = steps.length ∧ AgreeTo p d d' := by
  induction hMoves with
  | refl => exact ⟨[], c', .refl, rfl, h⟩
  | @step d e steps hMoves hMove ih =>
    have hLe : d.position ≤ p :=
      Nat.le_trans (LookupTable.Moves.position_le (.step .refl hMove)) hp
    obtain ⟨steps', d', hMoves', hLength, hAgree⟩ := ih hLe
    obtain ⟨e', hMove', hNext⟩ := hAgree.exists_next hLe hMove
    exact ⟨_, e', .step hMoves' hMove', by simp [hLength], hNext⟩

omit [Token κ τ] in
theorem start {tokens tokens' : List κ} (h : tokens.take (p + 1) = tokens'.take (p + 1)) :
    AgreeTo p (table.start tokens) (table.start tokens') :=
  ⟨rfl, rfl, rfl, h.symm⟩

end Configuration.AgreeTo

end Moves

/-! ## Runs that agree -/

/-- Whether two steps show the same stack and action, each with what comes after the first `n`
tokens of its input. -/
def Step.SameAt (tokens tokens' : List κ) (n : Nat) (step step' : Step σ ρ κ ν) : Prop :=
  step'.stack = step.stack ∧ step'.action = step.action ∧
    n ≤ tokens.length ∧ step.remaining = tokens.drop n ∧
    n ≤ tokens'.length ∧ step'.remaining = tokens'.drop n

/-- What a run over some tokens, while its position is at most `p`, tells about the run over
others. -/
structure LookupTable.DecidesAlike [Token κ τ] (table : LookupTable σ τ ν ρ) (p : Nat)
    (tokens tokens' : List κ) : Prop where
  step : ∀ k c, table.after? (table.start tokens) k = some c → c.position ≤ p →
    ∃ c' step step', table.after? (table.start tokens') k = some c' ∧ c'.states = c.states ∧
      c'.symbols = c.symbols ∧ c'.position = c.position ∧ table.step? tokens k = some step ∧
      table.step? tokens' k = some step' ∧ step.SameAt tokens tokens' c.position step'
  halt : ∀ k c verdict, table.after? (table.start tokens) k = some c → c.position ≤ p →
    table.move c = .halt verdict →
      ∃ c', table.after? (table.start tokens') k = some c' ∧ table.move c' = .halt verdict
  fail : ∀ k c fault, table.after? (table.start tokens) k = some c → c.position ≤ p →
    table.move c = .fail fault →
      ∃ c', table.after? (table.start tokens') k = some c' ∧ table.move c' = .fail fault
  /-- A rejection at a position of at most `p` is found by the other run too, with as many look-ups
  and the same steps before it. -/
  rejected : ∀ lookups rejection steps,
    table.run tokens lookups = .finished (.rejected rejection) steps → rejection.position ≤ p →
      ∃ steps', table.run tokens' lookups = .finished (.rejected rejection) steps' ∧
        steps'.length = steps.length ∧ ∀ (k : Nat) (step : Step σ ρ κ ν), steps[k]? = some step →
          ∃ n ≤ p, ∃ step', steps'[k]? = some step' ∧ step.SameAt tokens tokens' n step'
  failed : ∀ lookups fault k c, table.run tokens lookups = .failed fault →
    table.after? (table.start tokens) k = some c → table.move c = .fail fault → c.position ≤ p →
      table.run tokens' lookups = .failed fault

section Runs

variable [Token κ τ] {table : LookupTable σ τ ν ρ} {p k : Nat} {tokens tokens' : List κ}
  {c : Configuration σ κ ν}

/-- After as many moves, the machine stands in the same place of either input. -/
theorem exists_agreeTo (h : tokens.take (p + 1) = tokens'.take (p + 1))
    (hAfter : table.after? (table.start tokens) k = some c) (hp : c.position ≤ p) :
    ∃ c', table.after? (table.start tokens') k = some c' ∧ c.AgreeTo p c' := by
  obtain ⟨steps, rfl, hMoves⟩ := LookupTable.moves_of_after? hAfter
  obtain ⟨steps', c', hMoves', hLength, hAgree⟩ :=
    (Configuration.AgreeTo.start h).exists_moves hMoves hp
  exact ⟨c', hLength ▸ LookupTable.after?_of_moves hMoves', hAgree⟩

/-- The steps recorded after as many moves are the same but for the tokens not read. -/
theorem exists_sameAt (h : tokens.take (p + 1) = tokens'.take (p + 1))
    (hAfter : table.after? (table.start tokens) k = some c) (hp : c.position ≤ p) :
    ∃ step', table.step? tokens' k = some step' ∧
      (c.record (table.chosen c)).SameAt tokens tokens' c.position step' := by
  obtain ⟨c', hAfter', hAgree⟩ := exists_agreeTo h hAfter hp
  obtain ⟨_, _, hMoves⟩ := LookupTable.moves_of_after? hAfter
  obtain ⟨_, _, hMoves'⟩ := LookupTable.moves_of_after? hAfter'
  obtain ⟨hLe, hUnread⟩ := hMoves.remaining_eq
  obtain ⟨hLe', hUnread'⟩ := hMoves'.remaining_eq
  rw [hAgree.position] at hLe' hUnread'
  refine ⟨c'.record (table.chosen c'), ?_, hAgree.snapshot_eq, hAgree.chosen_eq hp, hLe, hUnread,
    hLe', hUnread'⟩
  rw [LookupTable.step?, hAfter', Option.map_some]

/-- Over every table, whatever it answers, inputs that agree on their first `p + 1` tokens are told
apart only after these have been read. -/
theorem LookupTable.decidesAlike (table : LookupTable σ τ ν ρ)
    (h : tokens.take (p + 1) = tokens'.take (p + 1)) : table.DecidesAlike p tokens tokens' where
  step k c hAfter hp := by
    obtain ⟨c', hAfter', hAgree⟩ := exists_agreeTo h hAfter hp
    obtain ⟨step', hStep', hSame⟩ := exists_sameAt h hAfter hp
    refine ⟨c', _, step', hAfter', hAgree.states, hAgree.symbols, hAgree.position, ?_, hStep',
      hSame⟩
    rw [step?, hAfter, Option.map_some]
  halt k c verdict hAfter hp hHalt := by
    obtain ⟨c', hAfter', hAgree⟩ := exists_agreeTo h hAfter hp
    exact ⟨c', hAfter', hAgree.halt hp hHalt⟩
  fail k c fault hAfter hp hFail := by
    obtain ⟨c', hAfter', hAgree⟩ := exists_agreeTo h hAfter hp
    exact ⟨c', hAfter', hAgree.fail hp hFail⟩
  rejected lookups rejection steps hRun hp := by
    obtain ⟨before, last, hMoves, hEnough, hHalt, hTrace⟩ := run_eq_finished_iff.mp hRun
    rw [(move_eq_rejected hHalt).2.1] at hp
    obtain ⟨before', last', hMoves', hLength, hAgree⟩ :=
      (Configuration.AgreeTo.start h).exists_moves hMoves hp
    have hEnough' : EnoughLookups lookups before'.length last' := by
      rwa [EnoughLookups, hLength, hAgree.looksUp_eq hp]
    have hRun' := run_eq_finished_iff.mpr
      ⟨before', last', hMoves', hEnough', hAgree.halt hp hHalt, rfl⟩
    refine ⟨_, hRun', by simp [hTrace, hLength], fun k step hStep => ?_⟩
    rw [getElem?_trace hRun] at hStep
    obtain ⟨c, hAfter, rfl⟩ := Option.map_eq_some_iff.mp hStep
    obtain ⟨_, _, hReach⟩ := moves_of_after? hAfter
    -- Every step of the trace is recorded on the way to the rejection.
    obtain ⟨_, hRest⟩ := hReach.exists_of_halt hMoves hHalt
    have hBefore : c.position ≤ p := Nat.le_trans hRest.position_le hp
    obtain ⟨step', hStep', hSame⟩ := exists_sameAt h hAfter hBefore
    exact ⟨c.position, hBefore, step', (getElem?_trace hRun' k).trans hStep', hSame⟩
  failed lookups fault k c hRun hAfter hFail hp := by
    obtain ⟨steps, rfl, hMoves⟩ := moves_of_after? hAfter
    obtain ⟨steps', c', hMoves', hLength, hAgree⟩ :=
      (Configuration.AgreeTo.start h).exists_moves hMoves hp
    refine run_eq_failed_iff.mpr ⟨steps', c', hMoves', ?_, hAgree.fail hp hFail⟩
    rw [EnoughLookups, hLength, hAgree.looksUp_eq hp]
    exact enoughLookups_of_run hMoves (by simp [hRun])

end Runs

/-- A table without any target: after a `0` and before a `1` it finds a rule to reduce, and then no
place to go to. -/
def strandedTable : ListedTable where
  initial := 0
  actions := [((0, some 0), .shift 1), ((1, some 1), .reduce 1)]
  gotos := []
  productions := [(1, 0, 1)]
  expected := []

/-- The tokens of the terminals `0` and `1`, with others after them. -/
def strandedTokens (others : List (Option Nat)) : List NumberToken :=
  (some 0 :: some 1 :: others).map NumberToken.mk

theorem decidesAlike_stranded :
    (strandedTokens []).take 2 = (strandedTokens [none, some 0]).take 2 ∧
      strandedTable.lookups.run (strandedTokens []) 2 = .failed (.missingGoto 0 0) ∧
      strandedTable.lookups.DecidesAlike 1 (strandedTokens []) (strandedTokens [none, some 0]) :=
  have hAgree : (strandedTokens []).take 2 = (strandedTokens [none, some 0]).take 2 := rfl
  ⟨hAgree, by decide, strandedTable.lookups.decidesAlike hAgree⟩

end ShiftReduce
