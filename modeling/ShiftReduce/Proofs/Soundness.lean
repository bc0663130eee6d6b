import ShiftReduce.Derivation
import ShiftReduce.Grammar.Draft
import ShiftReduce.Proofs.StackPath

/-!
# Accepted inputs are sentences

A run reads a rightmost derivation backwards. At every moment, the rules that
were reduced, the last one first, lead from the symbols on the stack to the
terminals that were read. When the input is accepted, the stack holds the start
symbol and everything has been read.

A reduction that no derivation of the input needs is no exception: it is one more
replacement in a derivation of what was read so far. So it does not matter which
action was kept in a cell with conflicts, nor what lookaheads merging has added.
-/

namespace ShiftReduce

/-! ## Reductions -/

def Step.reduced? {σ ρ κ ν : Type} (step : Step σ ρ κ ν) : Option ρ :=
  match step.action with
  | some (.reduce r) => some r
  | _ => none

def reductions {σ ρ κ ν : Type} (trace : List (Step σ ρ κ ν)) : List ρ :=
  trace.filterMap Step.reduced?

theorem reductions_concat_none {σ ρ κ ν : Type} {trace : List (Step σ ρ κ ν)}
    {step : Step σ ρ κ ν} (h : step.reduced? = none) :
    reductions (trace ++ [step]) = reductions trace := by
  unfold reductions
  rw [List.filterMap_append, List.filterMap_cons_none h, List.filterMap_nil, List.append_nil]

theorem reductions_concat_some {σ ρ κ ν : Type} {trace : List (Step σ ρ κ ν)}
    {step : Step σ ρ κ ν} {r : ρ} (h : step.reduced? = some r) :
    reductions (trace ++ [step]) = reductions trace ++ [r] := by
  unfold reductions
  rw [List.filterMap_append, List.filterMap_cons_some h, List.filterMap_nil]

/-! ## The derivation that a run reads -/

/-- What is known when the tokens have been read in part: the terminals that were
read are derived from the symbols on the stack by the rules that were reduced. -/
structure ReadsBack (g : Grammar) (tokens : List InputToken)
    (steps : List (Step StateId RuleId InputToken Nonterminal)) (γ : List Symbol)
    (remaining : List InputToken) (w : List Terminal) : Prop where
  tokens_eq : tokens.map InputToken.terminal? = w.map some ++ remaining.map InputToken.terminal?
  rightmost : g.Rightmost (reductions steps).reverse γ.reverse (terminalString w)
  user_rules : ∀ r ∈ reductions steps, r ≠ augmentedRule

namespace ReadsBack

variable {g : Grammar} {automaton : Automaton} {tokens remaining rest : List InputToken}
  {token : InputToken} {steps : List (Step StateId RuleId InputToken Nonterminal)}
  {step : Step StateId RuleId InputToken Nonterminal} {γ δ : List Symbol} {w : List Terminal}
  {t : Terminal} {r : RuleId} {rule : Rule}

theorem start (g : Grammar) (tokens : List InputToken) : ReadsBack g tokens [] [] tokens [] :=
  ⟨rfl, .refl _, fun _ h => absurd h List.not_mem_nil⟩

theorem shift (h : ReadsBack g tokens steps γ (token :: rest) w) (ht : token.terminal? = some t)
    (hStep : step.reduced? = none) :
    ReadsBack g tokens (steps ++ [step]) (.terminal t :: γ) rest (w ++ [t]) := by
  have hReductions : reductions (steps ++ [step]) = reductions steps :=
    reductions_concat_none hStep
  constructor
  · rw [h.tokens_eq, List.map_append, List.append_assoc, List.map_cons, ht]
    rfl
  · rw [hReductions, List.reverse_cons, terminalString_append]
    exact h.rightmost.append_terminals [t]
  · rw [hReductions]
    exact h.user_rules

theorem reduce (h : ReadsBack g tokens steps (rule.right.reverse ++ δ) remaining w)
    (hr : g.rules[r]? = some rule) (h0 : r ≠ augmentedRule) (hStep : step.reduced? = some r) :
    ReadsBack g tokens (steps ++ [step]) (.nonterminal rule.left :: δ) remaining w := by
  have hReductions : reductions (steps ++ [step]) = reductions steps ++ [r] :=
    reductions_concat_some hStep
  constructor
  · exact h.tokens_eq
  · have hRightmost := h.rightmost
    rw [List.reverse_append, List.reverse_reverse] at hRightmost
    rw [hReductions, List.reverse_append, List.reverse_singleton, List.singleton_append,
      List.reverse_cons]
    exact hRightmost.head hr
  · rw [hReductions]
    intro s hs
    rcases List.mem_append.mp hs with hs | hs
    · exact h.user_rules s hs
    · rwa [List.mem_singleton.mp hs]

/-- One move keeps what is known. -/
theorem next {c c' : Configuration StateId InputToken Nonterminal} (hOutcome : Outcome g automaton c γ)
    (h : ReadsBack g tokens steps γ c.remaining w) (hMove : (automaton.machine g).move c = .next c') :
    ∃ γ' w', c'.Shows automaton γ' ∧
      ReadsBack g tokens (steps ++ [c.record ((automaton.machine g).chosen c)]) γ' c'.remaining w' := by
  rcases hOutcome.of_next hMove with ⟨_, _, _, _, hChosen, rfl, hRemaining, ht, hShows⟩ |
    ⟨_, _, _, _, hChosen, rfl, hr, h0, hγ, hShows⟩
  · rw [hRemaining] at h
    refine ⟨_, _, hShows, h.shift ht ?_⟩
    rw [hChosen]
    rfl
  · rw [hγ] at h
    refine ⟨_, _, hShows, h.reduce hr h0 ?_⟩
    rw [hChosen]
    rfl

theorem of_moves (hCoherent : automaton.Coherent g) {input : String}
    {c : Configuration StateId InputToken Nonterminal}
    (h : (automaton.machine g).Moves ((automaton.machine g).start (g.tokenize input)) steps c) :
    ∃ γ w, c.Shows automaton γ ∧ ReadsBack g (g.tokenize input) steps γ c.remaining w := by
  induction h with
  | refl => exact ⟨[], [], shows_start _ _ _, .start g _⟩
  | step hMoves hMove ih =>
    obtain ⟨γ, w, hShows, hReads⟩ := ih
    obtain ⟨_, hTokens⟩ := shows_of_moves hCoherent input hMoves
    exact hReads.next (outcome hCoherent hShows hTokens) hMove

end ReadsBack

/-! ## Soundness -/

/-- Whatever table is generated, with or without conflicts: if it accepts an
input, then every token is a terminal of the grammar, and the rules of the trace,
read backwards, are a rightmost derivation of the tokens' terminals. -/
theorem Construction.rightmost_of_accepted {construction : Construction} {g : Grammar}
    {table : ParseTable} {input : String} {lookups : Nat}
    {trace : List (Step StateId RuleId InputToken Nonterminal)}
    (hTable : construction.generate g = .ok table)
    (hAccepted : table.parse g input lookups = .finished .accepted trace) :
    ∃ w, (g.tokenize input).map InputToken.terminal? = w.map some ∧
      (∀ t ∈ w, (Symbol.terminal t).Declared g.terminals.size g.nonterminals.size) ∧
      g.Rightmost (reductions trace).reverse [.nonterminal g.start] (terminalString w) ∧
      (∀ r ∈ reductions trace, r ≠ augmentedRule) ∧ g.Sentence w := by
  obtain ⟨automaton, hCoherent, rfl⟩ := exists_coherent hTable
  obtain ⟨steps, last, hMoves, hHalt, rfl⟩ := LookupTable.exists_moves_of_finished .refl hAccepted
  obtain ⟨γ, w, hShows, hReads⟩ := ReadsBack.of_moves hCoherent hMoves
  obtain ⟨_, hTokens⟩ := shows_of_moves hCoherent input hMoves
  cases outcome hCoherent hShows hTokens with
  | reject _ hReject =>
    obtain ⟨_, hReject⟩ := hReject
    rw [hReject] at hHalt
    cases hHalt
  | shift _ hNext => rw [hNext] at hHalt; cases hHalt
  | reduce _ hNext => rw [hNext] at hHalt; cases hHalt
  | accept hChosen _ hRemaining hγ =>
    have hLast : (last.record ((automaton.machine g).chosen last)).reduced? = none := by
      rw [hChosen]
      rfl
    have hWord := hReads.tokens_eq
    rw [hRemaining, List.map_nil, List.append_nil] at hWord
    have hRightmost := hReads.rightmost
    rw [hγ] at hRightmost
    rw [reductions_concat_none hLast]
    refine ⟨w, hWord, ?_, hRightmost, hReads.user_rules, hRightmost.derives⟩
    intro t ht
    have hMem : some t ∈ (g.tokenize input).map InputToken.terminal? := by
      rw [hWord]
      exact List.mem_map_of_mem ht
    obtain ⟨token, hToken, hTerminal⟩ := List.mem_map.mp hMem
    exact declared_of_tokenize hToken hTerminal

/-! ### A table with conflicts -/

/-- An ambiguous grammar: `S → S S` and `S → a`. -/
def pairs : Grammar := (Grammar.define do
  let a ← Draft.terminal "a"
  let s ← Draft.nonterminal "S"
  let _ ← Draft.rule s [.nonterminal s, .nonterminal s]
  let _ ← Draft.rule s [.terminal a]).toOption.get (by decide +kernel)

/-- The table of `pairs`; in one cell it has kept a shift instead of a reduction. -/
def pairsTable : ParseTable :=
  ((Construction.mk .merged false).generate pairs).toOption.get (by decide +kernel)

def pairsTrace : List (Step StateId RuleId InputToken Nonterminal) :=
  match pairsTable.parse pairs "a a a" 9 with
  | .finished _ trace => trace
  | _ => []

theorem rightmost_of_accepted_pairs :
    (Construction.mk .merged false).generate pairs = .ok pairsTable ∧
      pairsTable.conflicts ≠ [] ∧
      pairsTable.parse pairs "a a a" 9 = .finished .accepted pairsTrace ∧
      ∃ w, (pairs.tokenize "a a a").map InputToken.terminal? = w.map some ∧
        (∀ t ∈ w, (Symbol.terminal t).Declared pairs.terminals.size pairs.nonterminals.size) ∧
        pairs.Rightmost (reductions pairsTrace).reverse [.nonterminal pairs.start]
          (terminalString w) ∧
        (∀ r ∈ reductions pairsTrace, r ≠ augmentedRule) ∧ pairs.Sentence w := by
  have hTable : (Construction.mk .merged false).generate pairs = .ok pairsTable :=
    eq_ok_of_toOption (Option.some_get _).symm
  have hAccepted : pairsTable.parse pairs "a a a" 9 = .finished .accepted pairsTrace := by
    decide +kernel
  refine ⟨hTable, by decide +kernel, hAccepted, ?_⟩
  exact Construction.rightmost_of_accepted hTable hAccepted

end ShiftReduce
