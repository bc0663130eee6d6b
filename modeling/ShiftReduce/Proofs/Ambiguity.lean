import ShiftReduce.Proofs.Soundness
import ShiftReduce.Proofs.ConflictFree
import ShiftReduce.Proofs.ValidItems

/-!
# Ambiguity shows in conflicts

If a table has no conflicts, its grammar has at most one rightmost derivation of every
string. Two derivations of one string are compared from their ends. Each of them ends with a
rule that is live as a whole, with the terminal after it as the lookahead, and there are three
ways in which these last steps could differ.

* One rule ends before the other. Then the first is complete where an item that is live on
  the same stack expects its lookahead as the next terminal: a shift against a reduction.
* Both end at the same place, but they are different rules: two reductions.
* One derivation has come to the start symbol, and the other has not. Then a rule is
  complete on the start symbol at the end of the input, where the augmented rule is complete
  as well: acceptance against a reduction.

None of them is possible in a deterministic grammar (`Deterministic.rightmost_unique`). Cyclic
derivations and derivations of the empty string are no special cases.
-/

namespace ShiftReduce

namespace Grammar

variable {g : Grammar} {β γ front front' : List Symbol} {w w' : List Terminal}
  {rs rs' : List RuleId} {r r' : RuleId} {rule rule' : Rule} {i j : Item}

/-! ## The last step of a derivation -/

/-- The rule of the last step is live as a whole, and the terminal after it is its
lookahead. -/
theorem Rightmost.live_last
    (h : g.Rightmost rs [.nonterminal g.start] (front ++ .nonterminal rule.left :: terminalString w))
    (hr : g.rules[r]? = some rule) :
    g.Live (front ++ rule.right).reverse ⟨⟨r, rule.right.length⟩, nextTerminal w⟩ := by
  have hValid : (⟨⟨r, rule.right.length⟩, nextTerminal w⟩ : Item).ValidAfter g (front ++ rule.right) := by
    refine ⟨_, front, rule, w, hr, Nat.le_refl _, (Rightmost.of_rule g.augmentedRule_first).trans h, ?_, rfl⟩
    rw [List.take_length]
  exact hValid.live

/-- The start symbol derives no string with the augmented start in it, so no step of a
derivation from it uses the augmented rule. -/
theorem Rightmost.ne_augmentedRule
    (h : g.Rightmost rs [.nonterminal g.start] (front ++ .nonterminal rule.left :: terminalString w))
    (hr : g.rules[r]? = some rule) : r ≠ augmentedRule := by
  intro h0
  rw [h0, g.augmentedRule_first, Option.some_inj] at hr
  have hDeclared := h.derives.declared (List.forall_mem_singleton.mpr g.start_declared)
  have hLeft : (Symbol.nonterminal rule.left).Declared g.terminals.size g.nonterminals.size :=
    hDeclared _ (List.mem_append_right _ List.mem_cons_self)
  rw [← hr] at hLeft
  exact Nat.lt_irrefl 0 hLeft.1

/-! ## Two derivations of one string -/

/-- If a rule is complete where the input goes on with `w`, then no live item has part of
`w` below its marker. -/
theorem Deterministic.eq_nil_of_live (hDet : g.Deterministic) {mid : List Symbol}
    (hi : g.Live γ.reverse i) (hRest : i.core.rest g = []) (hLookahead : i.lookahead = nextTerminal w)
    (hj : g.Live (γ ++ mid).reverse j) (hMid : terminalString w = mid ++ terminalString w') :
    mid = [] := by
  cases mid with
  | nil => rfl
  | cons X mid =>
    cases w with
    | nil => simp at hMid
    | cons t w =>
      obtain ⟨rfl, _⟩ := List.cons.inj hMid
      rw [List.reverse_append, List.reverse_cons, List.append_assoc, List.singleton_append] at hj
      obtain ⟨k, hk, hNext⟩ := hj.exists_next
      have hShift : k.core.next g = some (.terminal i.lookahead) := by
        rw [hLookahead]
        exact hNext
      exact absurd hShift (hDet.no_shift hi hRest hk)

/-- Two last steps to the same string are the same step. -/
theorem Deterministic.last_step_unique (hDet : g.Deterministic)
    (h : g.Rightmost rs [.nonterminal g.start] (front ++ .nonterminal rule.left :: terminalString w))
    (hr : g.rules[r]? = some rule)
    (h' : g.Rightmost rs' [.nonterminal g.start]
      (front' ++ .nonterminal rule'.left :: terminalString w'))
    (hr' : g.rules[r']? = some rule')
    (hEq : front ++ (rule.right ++ terminalString w) =
      front' ++ (rule'.right ++ terminalString w')) :
    r = r' ∧ front = front' ∧ terminalString w = terminalString w' := by
  have hLive := h.live_last hr
  have hLive' := h'.live_last hr'
  have hPlace : front ++ rule.right = front' ++ rule'.right ∧
      terminalString w = terminalString w' := by
    rw [← List.append_assoc, ← List.append_assoc] at hEq
    rcases List.append_eq_append_iff.mp hEq with ⟨mid, hBelow, hMid⟩ | ⟨mid, hBelow, hMid⟩
    · rw [hBelow] at hLive'
      have hNil : mid = [] := hDet.eq_nil_of_live hLive (rest_full hr) rfl hLive' hMid
      rw [hNil] at hBelow hMid
      exact ⟨by simp [hBelow], hMid⟩
    · rw [hBelow] at hLive
      have hNil : mid = [] := hDet.eq_nil_of_live hLive' (rest_full hr') rfl hLive hMid
      rw [hNil] at hBelow hMid
      exact ⟨by simpa using hBelow, hMid.symm⟩
  obtain ⟨hBelow, hAfter⟩ := hPlace
  have hw : w = w' := by
    refine (List.map_inj_right ?_).mp hAfter
    intro s t hst
    exact Symbol.terminal.inj hst
  rw [hBelow] at hLive
  have hSame : r = r' :=
    hDet.same_rule hLive (rest_full hr) hLive' (rest_full hr') (congrArg nextTerminal hw)
  refine ⟨hSame, ?_, hAfter⟩
  rw [← hSame, hr, Option.some_inj] at hr'
  rw [hr'] at hBelow
  exact List.append_cancel_right hBelow

/-- No derivation comes back to the start symbol. -/
theorem Deterministic.ne_start (hDet : g.Deterministic)
    (h : g.Rightmost rs [.nonterminal g.start] (front ++ .nonterminal rule.left :: terminalString w))
    (hr : g.rules[r]? = some rule) :
    front ++ (rule.right ++ terminalString w) ≠ [.nonterminal g.start] := by
  intro hEq
  rw [← List.append_assoc] at hEq
  have hLive := h.live_last hr
  rcases List.append_eq_singleton_iff.mp hEq with ⟨_, hAfter⟩ | ⟨hBelow, hAfter⟩
  · have hMem : .nonterminal g.start ∈ terminalString w := by
      rw [hAfter]
      exact List.mem_cons_self
    exact nonterminal_not_mem_terminalString _ _ hMem
  · rw [List.map_eq_nil_iff.mp hAfter, hBelow] at hLive
    have hAccept : g.Live [.nonterminal g.start] ⟨⟨augmentedRule, 1⟩, endMarker⟩ :=
      Live.initial.read_rule g.augmentedRule_first
    have hSame : r = augmentedRule := hDet.same_rule hLive (rest_full hr) hAccept
      (rest_full g.augmentedRule_first) rfl
    exact h.ne_augmentedRule hr hSame

/-- In a deterministic grammar, a string has at most one rightmost derivation from the start
symbol. -/
theorem Deterministic.rightmost_unique (hDet : g.Deterministic)
    (h : g.Rightmost rs [.nonterminal g.start] β) (h' : g.Rightmost rs' [.nonterminal g.start] β) :
    rs = rs' := by
  generalize hα : [Symbol.nonterminal g.start] = α at h
  induction h generalizing rs' with
  | refl =>
    cases h' with
    | refl => rfl
    | step hPrevious' hr' => exact absurd hα.symm (hDet.ne_start hPrevious' hr')
  | @step rs r rule _ front w hPrevious hr ih =>
    subst hα
    generalize hβ : front ++ (rule.right ++ terminalString w) = β at h'
    cases h' with
    | refl => exact absurd hβ (hDet.ne_start hPrevious hr)
    | @step rs' r' rule' _ front' w' hPrevious' hr' =>
      obtain ⟨rfl, rfl, hAfter⟩ := hDet.last_step_unique hPrevious hr hPrevious' hr' hβ
      rw [hr, Option.some_inj] at hr'
      rw [← hr', ← hAfter] at hPrevious'
      rw [ih hPrevious' rfl]

theorem Deterministic.not_ambiguous (hDet : g.Deterministic) : ¬ g.Ambiguous := by
  rintro ⟨w, rs, rs', hNe, h, h'⟩
  exact hNe (hDet.rightmost_unique h h')

end Grammar

/-! ## Generated tables -/

/-- Whichever the method, the table of an ambiguous grammar has conflicts, and strict
construction refuses the grammar with the list of them. -/
theorem Construction.conflicts_of_ambiguous {g : Grammar} (hAmbiguous : g.Ambiguous)
    (algorithm : Algorithm) :
    ∃ table, (Construction.mk algorithm false).generate g = .ok table ∧ table.conflicts ≠ [] ∧
      (Construction.mk algorithm true).generate g = .error (.conflicts table.conflicts) := by
  obtain ⟨automaton, hAutomaton, hCoherent, _⟩ := exists_table algorithm g
  have hConflicts : (ParseTable.ofAutomaton g automaton).conflicts ≠ [] := by
    intro hNone
    exact (hCoherent.deterministic hNone).not_ambiguous hAmbiguous
  -- Both modes work on the same automaton.
  have hStrict : (Construction.mk algorithm true).automaton g = .ok automaton := hAutomaton
  refine ⟨ParseTable.ofAutomaton g automaton, ?_, hConflicts, ?_⟩
  · rw [generate_of_coherent hAutomaton hCoherent]
    simp
  · rw [generate_of_coherent hStrict hCoherent]
    simp [hConflicts]

/-! ### A circular grammar -/

/-- `S → S` and the empty `S`: the empty string has a derivation for every number of
steps. -/
def circular : Grammar := (Grammar.define do
  let s ← Draft.nonterminal "S"
  let _ ← Draft.rule s [.nonterminal s]
  let _ ← Draft.rule s []).toOption.get (by decide +kernel)

theorem circular_ambiguous : circular.Ambiguous := by
  have hCycle : circular.rules[1]? = some ⟨1, [.nonterminal 1]⟩ := by decide +kernel
  have hEmpty : circular.rules[2]? = some ⟨1, []⟩ := by decide +kernel
  have hStart : circular.start = 1 := by decide +kernel
  have hDirect : circular.Rightmost [2] [.nonterminal circular.start] (terminalString []) := by
    rw [hStart]
    exact .of_rule hEmpty
  have hAround : circular.Rightmost [1] [.nonterminal circular.start] [.nonterminal circular.start] := by
    rw [hStart]
    exact .of_rule hCycle
  exact ⟨[], [2], [1] ++ [2], by decide, hDirect, hAround.trans hDirect⟩

theorem conflicts_of_ambiguous_circular :
    circular.Ambiguous ∧
      ∃ table, (Construction.mk .merged false).generate circular = .ok table ∧
        table.conflicts ≠ [] ∧
        (Construction.mk .merged true).generate circular = .error (.conflicts table.conflicts) :=
  ⟨circular_ambiguous, Construction.conflicts_of_ambiguous circular_ambiguous .merged⟩

end ShiftReduce
