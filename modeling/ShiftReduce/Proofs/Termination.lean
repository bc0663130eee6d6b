import ShiftReduce.Follow
import ShiftReduce.Proofs.Completeness

/-!
# Runs over tables without conflicts end

The only way not to end is to reduce for ever before one terminal. Take the
reductions of rules that are live as a whole with a given lookahead `b`
(`Grammar.Reduces`). In a deterministic grammar there is at most one such reduction
on a stack, and the question is whether a chain of them ends.

* If a live item expects `b` as the next terminal, nothing can be reduced.
* If a live item has `X` after its marker and `X` can begin with `b`, then the chain
  is the one that leads down to that terminal, and ends there
  (`Live.haltsBefore_of_begins`).
* The symbols that remain of a live item can be put on the stack. What the chain
  does before the lookahead of the item goes on from there, and ends
  (`Live.haltsBefore_rest`). The induction is along the moves that make the item live.

The second step predicts items, and that takes a lookahead: what comes after `X` in
the rule must be able to begin. The theorem has this as a hypothesis
(`Grammar.Begins`), and does not hold without it. If `U` only derives strings that
begin with `U`, then the rules of `X` are not predicted in `S → B X U`, there is no
shift of what `X` begins with, and no conflict with a reduction of `B → B`.

The rows of a merged automaton reduce before terminals that are no lookaheads of
live items. Such a chain is also one before a terminal that is: the last rule of it
is live as a whole with some lookahead, and that is carried backwards through the
chain (`HaltsWithin.of_reduction`).
-/

namespace ShiftReduce

namespace Grammar

/-! ## Symbols that can begin -/

/-- Whether a string derives the empty string, or one that begins with a terminal. -/
def Begins (g : Grammar) (α : List Symbol) : Prop :=
  g.Derives α [] ∨ ∃ t β, g.Derives α (.terminal t :: β)

variable {g : Grammar} {γ γ' γ'' δ α β ζ : List Symbol} {i : Item} {b : Terminal} {X : Symbol}
  {r : RuleId} {rule : Rule} {m n : Nat}

theorem Begins.exists_mem (h : g.Begins α) (a : Terminal) :
    ∃ u, u ∈ g.firstSets.ofSequenceThen α a := by
  rcases h with h | ⟨t, β, h⟩
  · exact ⟨a, FirstSets.mem_ofSequenceThen_iff.mpr (.inr ⟨epsilon_ofSequence_iff.mpr h, rfl⟩)⟩
  · exact ⟨t, FirstSets.mem_ofSequenceThen_iff.mpr (.inl h.mem_first)⟩

/-- The rule of a live item is one of a nonterminal that the augmented start
involves. -/
theorem Live.involves (h : g.Live γ i) (hr : g.rules[i.core.rule]? = some rule) :
    g.Involves augmentedStart rule.left := by
  induction h generalizing rule with
  | initial =>
    cases g.augmentedRule_first.symm.trans hr
    exact ⟨[], [], .refl _⟩
  | predict _ hj ih =>
    obtain ⟨n, tail, hRest, hn, _, _⟩ := (g.mem_predicts _).mp hj
    obtain ⟨rule', hr', rfl⟩ := g.mem_rulesOf.mp hn
    cases hr.symm.trans hr'
    obtain ⟨above, hAbove, hDrop⟩ := Core.exists_rule_of_rest hRest
    have hMem : .nonterminal rule.left ∈ above.right.drop _ := hDrop ▸ List.mem_cons_self
    exact (ih hAbove).of_rule hAbove (List.mem_of_mem_drop hMem)
  | advance _ _ ih => exact ih hr

/-! ## Reductions before one terminal -/

/-- A rule that is live as a whole with the lookahead `b` is reduced. -/
def Reduces (g : Grammar) (b : Terminal) (γ γ' : List Symbol) : Prop :=
  ∃ (r : RuleId) (rule : Rule) (δ : List Symbol), g.rules[r]? = some rule ∧ r ≠ augmentedRule ∧
    γ = rule.right.reverse ++ δ ∧ γ' = .nonterminal rule.left :: δ ∧
    g.Live γ ⟨⟨r, rule.right.length⟩, b⟩

/-- Fewer than the given number of reductions can follow each other before `b`. -/
def HaltsIn (g : Grammar) (b : Terminal) : Nat → List Symbol → Prop
  | 0, _ => False
  | n + 1, γ => ∀ γ', g.Reduces b γ γ' → HaltsIn g b n γ'

/-- Only finitely many reductions can follow each other before `b`. -/
def HaltsBefore (g : Grammar) (b : Terminal) (γ : List Symbol) : Prop := ∃ n, g.HaltsIn b n γ

theorem HaltsIn.succ (h : g.HaltsIn b n γ) : g.HaltsIn b (n + 1) γ := by
  induction n generalizing γ with
  | zero => exact absurd h id
  | succ n ih =>
    intro γ' hReduces
    exact ih (h γ' hReduces)

theorem HaltsIn.mono (h : g.HaltsIn b m γ) (hLe : m ≤ n) : g.HaltsIn b n γ := by
  induction hLe with
  | refl => exact h
  | step _ ih => exact ih.succ

theorem haltsBefore_of_not_reduces (h : ∀ γ', ¬ g.Reduces b γ γ') : g.HaltsBefore b γ :=
  ⟨1, fun γ' hReduces => absurd hReduces (h γ')⟩

section Deterministic

variable (hDet : g.Deterministic)
include hDet

theorem Deterministic.reduces_unique (h : g.Reduces b γ γ') (h' : g.Reduces b γ γ'') :
    γ' = γ'' := by
  obtain ⟨r, rule, δ, hr, _, hγ, rfl, hLive⟩ := h
  obtain ⟨r', rule', δ', hr', _, hγ', rfl, hLive'⟩ := h'
  have hSame : r = r' := hDet.same_rule hLive (rest_full hr) hLive' (rest_full hr') rfl
  subst hSame
  cases hr.symm.trans hr'
  rw [hγ] at hγ'
  rw [List.append_cancel_left hγ']

theorem Deterministic.haltsBefore_of_reduces (h : g.Reduces b γ γ') (hHalts : g.HaltsBefore b γ') :
    g.HaltsBefore b γ := by
  obtain ⟨n, hn⟩ := hHalts
  refine ⟨n + 1, fun γ'' h' => ?_⟩
  rw [← hDet.reduces_unique h h']
  exact hn

/-- If a live item expects `b` as the next terminal, nothing can be reduced before
it. -/
theorem Deterministic.haltsBefore_of_next (hLive : g.Live γ i)
    (hNext : i.core.next g = some (.terminal b)) : g.HaltsBefore b γ := by
  apply haltsBefore_of_not_reduces
  rintro γ' ⟨r, rule, δ, hr, _, _, _, hWhole⟩
  exact hDet.no_shift hWhole (rest_full hr) hLive hNext

/-- A parse that reads nothing is a chain of reductions. -/
theorem Deterministic.haltsBefore_of_parses {v v' : List Terminal} (h : g.Parses γ v n γ' v')
    (hSame : v' = v) (hHalts : g.HaltsBefore (nextTerminal v) γ') :
    g.HaltsBefore (nextTerminal v) γ := by
  induction h with
  | refl => exact hHalts
  | shift _ _ h =>
    have hLength := h.length_le
    rw [hSame, List.length_cons] at hLength
    omega
  | @reduce γ γ' v v' n r rule hr h0 hLive _ ih =>
    refine hDet.haltsBefore_of_reduces ?_ (ih hSame hHalts)
    exact ⟨r, rule, γ, hr, h0, rfl, rfl, hLive⟩

/-- Symbols that derive the empty string can be put on the stack before the chain
is followed. -/
theorem Deterministic.haltsBefore_of_empty (hLive : g.Live γ i) (hRest : i.core.rest g = β ++ ζ)
    (hEmpty : g.Derives β []) (hb : b ∈ g.firstSets.ofSequenceThen ζ i.lookahead)
    (hHalts : g.HaltsBefore b (β.reverse ++ γ)) : g.HaltsBefore b γ := by
  obtain ⟨n, hYields⟩ := hEmpty.yields_nil
  have hNext : nextTerminal [b] ∈ g.firstSets.ofSequenceThen ζ i.lookahead := hb
  exact hDet.haltsBefore_of_parses (v := [b]) (hYields.parses hLive hRest hNext) rfl hHalts

/-! ## Every chain ends -/

variable (hBegins : ∀ (r : RuleId) (rule : Rule) (front : List Symbol) (n : Nonterminal)
  (back : List Symbol), g.rules[r]? = some rule → g.Involves augmentedStart rule.left →
    rule.right = front ++ .nonterminal n :: back → g.Begins back)
include hBegins

/-- Before a terminal that the next symbol of a live item can begin with, the chain
ends. -/
theorem Live.haltsBefore_of_begins (hLive : g.Live γ i) (hRest : i.core.rest g = X :: ζ)
    (hb : b ∈ (g.firstSets.ofSymbol X).terminals) : g.HaltsBefore b γ := by
  rw [mem_ofSymbol_iff] at hb
  induction hb using Relation.ReflTransGen.head_induction_on generalizing γ i ζ with
  | refl => exact hDet.haltsBefore_of_next hLive (Core.next_of_rest hRest)
  | @head X Y hY hReaches ih =>
    cases X with
    | terminal t => exact absurd hY List.not_mem_nil
    | nonterminal n =>
      obtain ⟨r, rule, front, back, hr, rfl, hRight, hFront⟩ := mem_leadsTo_iff.mp hY
      obtain ⟨above, hAbove, hDrop⟩ := Core.exists_rule_of_rest hRest
      have hSplit : above.right = above.right.take i.core.marker ++ .nonterminal rule.left :: ζ := by
        rw [← hDrop, List.take_append_drop]
      -- Some item with the rule is predicted, since what follows can begin.
      obtain ⟨u, hu⟩ := (hBegins _ _ _ _ _ hAbove (hLive.involves hAbove) hSplit).exists_mem
        i.lookahead
      have hPredicted : (⟨⟨r, 0⟩, u⟩ : Item) ∈ g.predicts g.firstSets i :=
        (g.mem_predicts _).mpr ⟨_, ζ, hRest, g.mem_rulesOf.mpr ⟨rule, hr, rfl⟩, rfl, hu⟩
      have hRule := hLive.predict hPredicted
      have hWhole : (⟨r, 0⟩ : Core).rest g = front ++ Y :: back := by
        rw [Core.rest_mk hr, List.drop_zero, hRight]
      have hAfter : b ∈ g.firstSets.ofSequenceThen (Y :: back) u := by
        rw [← List.singleton_append, FirstSets.mem_ofSequenceThen_append,
          FirstSets.mem_terminals_singleton]
        exact .inl (mem_ofSymbol_iff.mpr hReaches)
      apply hDet.haltsBefore_of_empty hRule hWhole hFront hAfter
      exact ih (hRule.read hWhole) (Core.rest_add hWhole)

/-- Before a terminal that a live item expects, the chain ends, if it ends before
the lookahead of the item when the rest of the item has been put on the stack. -/
theorem Live.haltsBefore_of_expects (hLive : g.Live γ i) (hb : b ∈ g.expects i)
    (hHalts : g.HaltsBefore i.lookahead ((i.core.rest g).reverse ++ γ)) : g.HaltsBefore b γ := by
  rcases FirstSets.mem_ofSequenceThen_iff.mp hb with hFirst | ⟨hEmpty, rfl⟩
  · obtain ⟨front, X, back, hRest, hFront, hX⟩ := FirstSets.mem_terminals_ofSequence.mp hFirst
    have hAfter : b ∈ g.firstSets.ofSequenceThen (X :: back) i.lookahead := by
      rw [← List.singleton_append, FirstSets.mem_ofSequenceThen_append,
        FirstSets.mem_terminals_singleton]
      exact .inl hX
    apply hDet.haltsBefore_of_empty hLive hRest (epsilon_ofSequence_iff.mp hFront) hAfter
    exact (hLive.read hRest).haltsBefore_of_begins hDet hBegins (Core.rest_add hRest) hX
  · have hRest : i.core.rest g = i.core.rest g ++ [] := (List.append_nil _).symm
    apply hDet.haltsBefore_of_empty hLive hRest (epsilon_ofSequence_iff.mp hEmpty)
    · exact FirstSets.mem_ofSequenceThen_nil.mpr rfl
    · exact hHalts

/-- With the rest of a live item on the stack, the chain before its lookahead
ends. -/
theorem Live.haltsBefore_rest (h : g.Live γ i) :
    g.HaltsBefore i.lookahead ((i.core.rest g).reverse ++ γ) := by
  induction h with
  | initial =>
    have hRest : (⟨augmentedRule, 0⟩ : Core).rest g = [.nonterminal g.start] :=
      Core.rest_mk g.augmentedRule_first 0
    have hWhole : g.Live [.nonterminal g.start] ⟨⟨augmentedRule, 1⟩, endMarker⟩ :=
      Live.initial.read_rule g.augmentedRule_first
    change g.HaltsBefore endMarker (((⟨augmentedRule, 0⟩ : Core).rest g).reverse ++ [])
    rw [hRest]
    apply haltsBefore_of_not_reduces
    rintro γ' ⟨r, rule, δ, hr, h0, _, _, hLive⟩
    exact h0 (hDet.same_rule hLive (rest_full hr) hWhole (rest_full g.augmentedRule_first) rfl)
  | @predict γ i j hi hj ih =>
    obtain ⟨n, tail, hRest, hn, hm, hb⟩ := (g.mem_predicts _).mp hj
    obtain ⟨rule, hr, rfl⟩ := g.mem_rulesOf.mp hn
    have hRule : j.core.rest g = rule.right := by
      rw [Core.rest_eq_drop hr, hm, List.drop_zero]
    have hMem : .nonterminal rule.left ∈ i.core.rest g := hRest ▸ List.mem_cons_self
    have hLive := hi.predict hj
    have hWhole : g.Live (rule.right.reverse ++ γ) ⟨⟨j.core.rule, rule.right.length⟩, j.lookahead⟩ := by
      have hRead := hLive.read (show j.core.rest g = rule.right ++ [] by rw [hRule, List.append_nil])
      rwa [hm, Nat.zero_add] at hRead
    -- The rule is reduced, and the item that predicts it goes on.
    rw [hRule]
    apply hDet.haltsBefore_of_reduces
      ⟨j.core.rule, rule, γ, hr, rule_ne_augmentedRule hr hMem, rfl, rfl, hWhole⟩
    have hNext := hi.advance (Core.next_of_rest hRest)
    apply hNext.haltsBefore_of_expects hDet hBegins
    · rw [expects, Core.rest_advance hRest]
      exact hb
    · rw [Core.rest_advance hRest]
      rwa [hRest, List.reverse_cons, List.append_assoc, List.singleton_append] at ih
  | @advance γ i X hi hX ih =>
    obtain ⟨tail, hRest⟩ := Core.next_eq_some_iff.mp hX
    rw [Core.rest_advance hRest]
    rwa [hRest, List.reverse_cons, List.append_assoc, List.singleton_append] at ih

/-- On every stack and before every terminal, the chain ends. -/
theorem haltsBefore (b : Terminal) (γ : List Symbol) : g.HaltsBefore b γ := by
  by_cases hReduces : ∃ γ', g.Reduces b γ γ'
  · obtain ⟨_, r, rule, δ, hr, _, _, _, hLive⟩ := hReduces
    have hHalts := hLive.haltsBefore_rest hDet hBegins
    rwa [rest_full hr] at hHalts
  · exact haltsBefore_of_not_reduces fun γ' h => hReduces ⟨γ', h⟩

end Deterministic

/-! ## Chains before any terminal -/

/-- Chains before all terminals that live items expect have fewer reductions than
the given number. -/
def HaltsWithin (g : Grammar) (n : Nat) (γ : List Symbol) : Prop :=
  ∀ b i, g.Live γ i → b ∈ g.expects i → g.HaltsIn b n γ

theorem Live.lt_of_mem_expects (h : g.Live γ i) (hb : b ∈ g.expects i) :
    b < g.terminals.size := by
  rcases FirstSets.mem_ofSequenceThen hb with hb | hb | hb
  · rw [hb]
    exact h.belongs.2
  · exact g.lt_of_mem_usedTerminals hb
  · exact (declared_of_mem_rest hb).2

/-- Bounds for finitely many terminals have a common one. -/
theorem exists_common_bound (h : ∀ b, g.HaltsBefore b γ) (size : Nat) :
    ∃ n, ∀ b < size, g.HaltsIn b n γ := by
  induction size with
  | zero => exact ⟨0, fun b hb => absurd hb (Nat.not_lt_zero b)⟩
  | succ size ih =>
    obtain ⟨m, hm⟩ := ih
    obtain ⟨n, hn⟩ := h size
    refine ⟨max m n, ?_⟩
    intro b hb
    by_cases hEq : b = size
    · rw [hEq]
      exact hn.mono (Nat.le_max_right m n)
    · exact (hm b (by omega)).mono (Nat.le_max_left m n)

theorem exists_haltsWithin (h : ∀ b, g.HaltsBefore b γ) : ∃ n, g.HaltsWithin n γ := by
  obtain ⟨n, hn⟩ := exists_common_bound h g.terminals.size
  exact ⟨n, fun b i hLive hb => hn b (hLive.lt_of_mem_expects hb)⟩

/-- A reduction uses up one of the bound. What is expected after it is a lookahead
with which the rule was live before it, so the chain before that terminal has been
followed. -/
theorem HaltsWithin.of_reduction (h : g.HaltsWithin (n + 1) (rule.right.reverse ++ δ))
    (hr : g.rules[r]? = some rule) (h0 : r ≠ augmentedRule) :
    g.HaltsWithin n (.nonterminal rule.left :: δ) := by
  intro b i hLive hb
  have hWhole := hLive.completes hb hr
  have hExpects : b ∈ g.expects ⟨⟨r, rule.right.length⟩, b⟩ :=
    (mem_expects_of_complete (rest_full hr)).mpr rfl
  exact h b _ hWhole hExpects _ ⟨r, rule, δ, hr, h0, rfl, rfl, hWhole⟩

end Grammar

/-! ## Runs -/

section Runs

variable {g : Grammar} {automaton : Automaton} {γ : List Symbol}
  {c : Configuration StateId InputToken Nonterminal}

/-- The machine comes to a configuration in which it does not reduce, and has read
nothing by then. -/
theorem exists_not_reduce (hCoherent : automaton.Coherent g) {n : Nat}
    (hHalts : g.HaltsWithin n γ) (hShows : c.Shows automaton γ)
    (hTokens : NoEndMarker c.remaining) :
    ∃ steps c' γ', (automaton.machine g).Moves c steps c' ∧ c'.Shows automaton γ' ∧
      c'.remaining = c.remaining ∧ ∀ r, (automaton.machine g).chosen c' ≠ some (.reduce r) := by
  induction n generalizing c γ with
  | zero =>
    refine ⟨[], c, γ, .refl, hShows, rfl, ?_⟩
    intro r hReduce
    obtain ⟨_, _, _, _, _, hr, _, _, hLive, _⟩ :=
      (outcome hCoherent hShows hTokens).exists_reduce hReduce
    exact hHalts _ _ hLive ((Grammar.mem_expects_of_complete (Grammar.rest_full hr)).mpr rfl)
  | succ n ih =>
    by_cases hReduce : ∃ r, (automaton.machine g).chosen c = some (.reduce r)
    · obtain ⟨r, hReduce⟩ := hReduce
      obtain ⟨rule, _, δ, p, hMove, hr, h0, hγ, _, hNext⟩ :=
        (outcome hCoherent hShows hTokens).exists_reduce hReduce
      rw [hγ] at hHalts
      obtain ⟨steps, c', γ', hMoves, hShows', hRemaining, hStop⟩ :=
        ih (hHalts.of_reduction hr h0) hNext hTokens
      exact ⟨_, c', γ', .head hMove hMoves, hShows', hRemaining, hStop⟩
    · exact ⟨[], c, γ, .refl, hShows, rfl, fun r h => hReduce ⟨r, h⟩⟩

/-- The machine comes to a verdict, if no chain of reductions goes on for ever. -/
theorem exists_verdict (hCoherent : automaton.Coherent g)
    (hHalts : ∀ b γ, g.HaltsBefore b γ) (hShows : c.Shows automaton γ)
    (hTokens : NoEndMarker c.remaining) :
    ∃ steps last verdict, (automaton.machine g).Moves c steps last ∧
      (automaton.machine g).move last = .halt verdict := by
  induction hLength : c.remaining.length using Nat.strongRecOn generalizing c γ with
  | ind length ih =>
    obtain ⟨n, hn⟩ := Grammar.exists_haltsWithin fun b => hHalts b γ
    obtain ⟨steps, c', γ', hMoves, hShows', hRemaining, hStop⟩ :=
      exists_not_reduce hCoherent hn hShows hTokens
    rw [← hRemaining] at hTokens hLength
    cases outcome hCoherent hShows' hTokens with
    | reject _ hHalt =>
      obtain ⟨rejection, hHalt⟩ := hHalt
      exact ⟨steps, c', _, hMoves, hHalt⟩
    | accept _ hHalt => exact ⟨steps, c', _, hMoves, hHalt⟩
    | reduce hChosen => exact absurd hChosen (hStop _)
    | @shift token rest t p _ hMove hCons _ hNext =>
      rw [hCons] at hTokens hLength
      have hShorter : rest.length < length := by
        rw [← hLength, List.length_cons]
        exact Nat.lt_succ_self _
      obtain ⟨steps', last, verdict, hMoves', hHalt⟩ :=
        ih rest.length hShorter hNext hTokens.tail rfl
      exact ⟨_, last, verdict, hMoves.trans (.head hMove hMoves'), hHalt⟩

end Runs

/-- Over a table without conflicts, every run with enough look-ups comes to a
verdict, if in the rules that the augmented start involves, whatever follows a
nonterminal can begin. -/
theorem Construction.finishes_of_begins {construction : Construction} {g : Grammar}
    {table : ParseTable} (hTable : construction.generate g = .ok table)
    (hConflicts : table.conflicts = [])
    (hBegins : ∀ (r : RuleId) (rule : Rule) (front : List Symbol) (n : Nonterminal)
      (back : List Symbol), g.rules[r]? = some rule → g.Involves augmentedStart rule.left →
        rule.right = front ++ .nonterminal n :: back → g.Begins back)
    (input : String) :
    ∃ enough verdict trace, ∀ lookups, enough ≤ lookups →
      table.parse g input lookups = .finished verdict trace := by
  obtain ⟨automaton, hCoherent, rfl⟩ := exists_coherent hTable
  have hDet := hCoherent.deterministic hConflicts
  obtain ⟨steps, last, verdict, hMoves, hHalt⟩ :=
    exists_verdict hCoherent (Grammar.haltsBefore hDet hBegins)
      (shows_start automaton (ParseTable.ofAutomaton g automaton) (g.tokenize input))
      (noEndMarker_tokenize g input)
  exact ⟨steps.length + 1, verdict, _, fun lookups hEnough =>
    LookupTable.run_of_moves hMoves hHalt hEnough⟩

/-! ### A rule that never ends -/

/-- `S → a S b`, the empty `S`, `S → c V` and `V → c V`. No string of terminals is
derived from `V`, but what it derives begins with one. -/
def unending : Grammar := (Grammar.define do
  let a ← Draft.terminal "a"
  let b ← Draft.terminal "b"
  let c ← Draft.terminal "c"
  let s ← Draft.nonterminal "S"
  let v ← Draft.nonterminal "V"
  let _ ← Draft.rule s [.terminal a, .nonterminal s, .terminal b]
  let _ ← Draft.rule s []
  let _ ← Draft.rule s [.terminal c, .nonterminal v]
  let _ ← Draft.rule v [.terminal c, .nonterminal v]).toOption.get (by decide +kernel)

def unendingTable : ParseTable :=
  ((Construction.mk .merged false).generate unending).toOption.get (by decide +kernel)

/-- In no rule of `unending` is a nonterminal followed by more than a terminal. -/
theorem unending_begins (r : RuleId) (rule : Rule) (front : List Symbol) (n : Nonterminal)
    (back : List Symbol) (hr : unending.rules[r]? = some rule)
    (hRight : rule.right = front ++ .nonterminal n :: back) : unending.Begins back := by
  have hMem : rule ∈ unending.rules.toList := Array.mem_toList_iff.mpr (Array.mem_of_getElem? hr)
  have hSymbol : Symbol.nonterminal n ∈ rule.right := by
    rw [hRight]
    exact List.mem_append_right _ List.mem_cons_self
  have hn : n < unending.nonterminals.size := (unending.declared_of_mem_right hr hSymbol).2
  have hAfter : back ∈ after n rule.right := mem_after.mpr ⟨front, hRight⟩
  have hRules : ∀ n < unending.nonterminals.size, ∀ rule ∈ unending.rules.toList,
      ∀ back ∈ after n rule.right, back = [] ∨ back = [.terminal 2] := by decide +kernel
  have hBack : back = [] ∨ back = [.terminal 2] := hRules n hn rule hMem back hAfter
  rcases hBack with rfl | rfl
  · exact .inl (.refl _)
  · exact .inr ⟨2, [], .refl _⟩

theorem finishes_of_begins_unending :
    (Construction.mk .merged false).generate unending = .ok unendingTable ∧
      unendingTable.conflicts = [] ∧
      (∀ (r : RuleId) (rule : Rule) (front : List Symbol) (n : Nonterminal) (back : List Symbol),
        unending.rules[r]? = some rule → unending.Involves augmentedStart rule.left →
          rule.right = front ++ .nonterminal n :: back → unending.Begins back) ∧
      ∃ enough verdict trace, ∀ lookups, enough ≤ lookups →
        unendingTable.parse unending "a c c b" lookups = .finished verdict trace := by
  have hTable : (Construction.mk .merged false).generate unending = .ok unendingTable :=
    eq_ok_of_toOption (Option.some_get _).symm
  have hConflicts : unendingTable.conflicts = [] := by decide +kernel
  have hBegins : ∀ (r : RuleId) (rule : Rule) (front : List Symbol) (n : Nonterminal)
      (back : List Symbol), unending.rules[r]? = some rule →
        unending.Involves augmentedStart rule.left →
          rule.right = front ++ .nonterminal n :: back → unending.Begins back :=
    fun r rule front n back hr _ hRight => unending_begins r rule front n back hr hRight
  refine ⟨hTable, hConflicts, hBegins, ?_⟩
  exact Construction.finishes_of_begins hTable hConflicts hBegins "a c c b"

/-! ### A rule that never begins -/

/-- `S → B X U`, `B → B`, the empty `B`, `X → b` and `U → U b`. Nothing that `U`
derives begins with a terminal. -/
def stalled : Grammar := (Grammar.define do
  let b ← Draft.terminal "b"
  let s ← Draft.nonterminal "S"
  let n ← Draft.nonterminal "B"
  let x ← Draft.nonterminal "X"
  let u ← Draft.nonterminal "U"
  let _ ← Draft.rule s [.nonterminal n, .nonterminal x, .nonterminal u]
  let _ ← Draft.rule n [.nonterminal n]
  let _ ← Draft.rule n []
  let _ ← Draft.rule x [.terminal b]
  let _ ← Draft.rule u [.nonterminal u, .terminal b]).toOption.get (by decide +kernel)

def stalledTable (algorithm : Algorithm) : ParseTable :=
  ((Construction.mk algorithm false).generate stalled).toOption.get
    (by cases algorithm <;> decide +kernel)

/-- After the empty `B` has been reduced, `B → B` is reduced for ever. -/
theorem stalled_loops (algorithm : Algorithm) (lookups : Nat) :
    (stalledTable algorithm).parse stalled "b" lookups = .outOfLookups := by
  have hStart : (stalledTable algorithm).lookups.move
      ((stalledTable algorithm).lookups.start (stalled.tokenize "b")) =
        .next ⟨[2, 0], [.nonterminal 2], 0, stalled.tokenize "b"⟩ := by
    cases algorithm <;> decide +kernel
  have hLoop : (stalledTable algorithm).lookups.move
      ⟨[2, 0], [.nonterminal 2], 0, stalled.tokenize "b"⟩ =
        .next ⟨[2, 0], [.nonterminal 2], 0, stalled.tokenize "b"⟩ := by
    cases algorithm <;> decide +kernel
  apply LookupTable.run_outOfLookups
  intro steps c hMoves
  have hPlace : c = (stalledTable algorithm).lookups.start (stalled.tokenize "b") ∨
      c = ⟨[2, 0], [.nonterminal 2], 0, stalled.tokenize "b"⟩ := by
    induction hMoves with
    | refl => exact .inl rfl
    | step _ hMove ih =>
      rcases ih with rfl | rfl
      · rw [hStart] at hMove
        exact .inr (Move.next.inj hMove).symm
      · rw [hLoop] at hMove
        exact .inr (Move.next.inj hMove).symm
  rcases hPlace with rfl | rfl
  · exact ⟨_, hStart⟩
  · exact ⟨_, hLoop⟩

/-- Without conflicts alone, runs need not end, whichever the method. -/
theorem not_finishes_stalled :
    ((Construction.mk .canonical false).generate stalled = .ok (stalledTable .canonical) ∧
      (stalledTable .canonical).conflicts = [] ∧ ∀ lookups verdict trace,
        (stalledTable .canonical).parse stalled "b" lookups ≠ .finished verdict trace) ∧
    ((Construction.mk .merged false).generate stalled = .ok (stalledTable .merged) ∧
      (stalledTable .merged).conflicts = [] ∧ ∀ lookups verdict trace,
        (stalledTable .merged).parse stalled "b" lookups ≠ .finished verdict trace) ∧
    ¬ ∀ (construction : Construction) (g : Grammar) (table : ParseTable) (input : String),
      construction.generate g = .ok table → table.conflicts = [] →
        ∃ lookups verdict trace, table.parse g input lookups = .finished verdict trace := by
  have hTable : ∀ algorithm, (Construction.mk algorithm false).generate stalled =
      .ok (stalledTable algorithm) := fun algorithm =>
    eq_ok_of_toOption (Option.some_get _).symm
  have hConflicts : ∀ algorithm, (stalledTable algorithm).conflicts = [] := fun algorithm => by
    cases algorithm <;> decide +kernel
  have hEndless : ∀ algorithm lookups verdict trace,
      (stalledTable algorithm).parse stalled "b" lookups ≠ .finished verdict trace := by
    intro algorithm lookups verdict trace hFinished
    rw [stalled_loops] at hFinished
    cases hFinished
  refine ⟨⟨hTable _, hConflicts _, hEndless _⟩, ⟨hTable _, hConflicts _, hEndless _⟩, ?_⟩
  intro hClaim
  obtain ⟨lookups, verdict, trace, hFinished⟩ :=
    hClaim _ stalled _ "b" (hTable .canonical) (hConflicts .canonical)
  exact hEndless _ lookups verdict trace hFinished

end ShiftReduce
