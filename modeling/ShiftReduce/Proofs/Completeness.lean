import ShiftReduce.Proofs.ConflictFree
import ShiftReduce.Proofs.ValidItems

/-!
# Sentences are accepted

A table without conflicts accepts every sentence. The sentence has derivation
trees, the initial item expects what they yield, and so there is a parse along live
items that leaves the start symbol on the stack (`Yields.parses`). The machine makes
its moves, and then the augmented rule is complete at the end of the input.

The trace has one step for each terminal, one for each rule of the trees and one
for acceptance. All derivations of the sentence have the same number of
replacements, because each of them gives trees with that many rules, and each of
these numbers is that of the reductions in the one trace.
-/

namespace ShiftReduce

variable {g : Grammar} {automaton : Automaton} {α : List Symbol} {w : List Terminal} {n : Nat}

/-- Trees over declared symbols have declared leaves. -/
theorem Grammar.Yields.declared (h : g.Yields α w n)
    (hα : ∀ s ∈ α, s.Declared g.terminals.size g.nonterminals.size) :
    ∀ t ∈ w, (Symbol.terminal t).Declared g.terminals.size g.nonterminals.size := by
  intro t ht
  exact h.derives.declared hα _ (List.mem_map_of_mem ht)

/-- From the start, the machine reads a sentence and comes to acceptance. -/
theorem Grammar.Yields.accepted (h : g.Yields [.nonterminal g.start] w n)
    (hCoherent : automaton.Coherent g)
    (hConflicts : (ParseTable.ofAutomaton g automaton).conflicts = [])
    {tokens : List InputToken} (hTokens : NoEndMarker tokens) (hStand : StandFor tokens w) :
    ∃ steps last, (automaton.machine g).Moves ((automaton.machine g).start tokens) steps last ∧
      (automaton.machine g).move last = .halt .accepted ∧
      (automaton.machine g).chosen last = some .accept ∧
      shiftCount steps = w.length ∧ (reductions steps).length = n ∧
      steps.length = w.length + n := by
  obtain ⟨steps, last, hMoves, hShows, hEnd, hShifts, hReductions, hLength⟩ :=
    h.parses_sentence.moves hCoherent hConflicts (shows_start automaton _ tokens) hTokens hStand
  have hRemaining : last.remaining = [] := List.map_eq_nil_iff.mp hEnd
  obtain ⟨hChosen, hMove⟩ := accept_of_live hCoherent hConflicts hShows hRemaining
  rw [List.length_nil, Nat.add_zero] at hShifts
  rw [hShifts] at hLength
  exact ⟨steps, last, hMoves, hMove, hChosen, hShifts, hReductions, hLength⟩

/-- A table without conflicts accepts every text of the names of a sentence's
terminals, as soon as it may look up as many actions as the trace is long. The
trace has one shift for each terminal, one reduction for each replacement of any
derivation, and accepts at its end. -/
theorem Construction.accepts_sentence {construction : Construction} {table : ParseTable}
    {names : List String} {input : String} (hTable : construction.generate g = .ok table)
    (hConflicts : table.conflicts = []) (hSentence : g.Sentence w)
    (hNames : w.map (fun t => g.terminals[t]?) = names.map some)
    (hText : Text.Separated (names.map String.toList) input.toList) :
    ∃ trace, (∀ lookups, trace.length ≤ lookups →
        table.parse g input lookups = .finished .accepted trace) ∧
      shiftCount trace = w.length ∧
      (∀ n, g.DerivesIn n [.nonterminal g.start] (terminalString w) →
        (reductions trace).length = n) ∧
      trace.length = w.length + (reductions trace).length + 1 ∧
      trace.getLast?.bind (fun step => step.action) = some .accept := by
  obtain ⟨automaton, hCoherent, rfl⟩ := exists_coherent hTable
  have hStart : ∀ s ∈ [Symbol.nonterminal g.start],
      s.Declared g.terminals.size g.nonterminals.size :=
    List.forall_mem_singleton.mpr g.start_declared
  obtain ⟨n, hDerives⟩ := Grammar.derives_iff_derivesIn.mp hSentence
  have hDeclared := hDerives.yields.declared hStart
  have hStand := standFor_tokenize hNames (fun t ht => (hDeclared t ht).1) hText
  have hTokens := noEndMarker_tokenize g input
  obtain ⟨steps, last, hMoves, hHalt, hChosen, hShifts, hReductions, hLength⟩ :=
    hDerives.yields.accepted hCoherent hConflicts hTokens hStand
  have hLast : (last.record ((automaton.machine g).chosen last)).reduced? = none := by
    rw [hChosen]
    rfl
  refine ⟨steps ++ [last.record ((automaton.machine g).chosen last)], ?_, ?_, ?_, ?_, ?_⟩
  · intro lookups hEnough
    rw [List.length_append, List.length_singleton] at hEnough
    exact LookupTable.run_of_moves hMoves hHalt hEnough
  · rw [hChosen, shiftCount, List.countP_append]
    exact hShifts
  · -- The trees of any other derivation give the same trace.
    intro n' hDerives'
    obtain ⟨steps', last', hMoves', hHalt', hChosen', _, hReductions', _⟩ :=
      hDerives'.yields.accepted hCoherent hConflicts hTokens hStand
    have hRun := LookupTable.run_of_moves hMoves hHalt
      (show steps.length < steps.length + steps'.length + 1 by omega)
    have hRun' := LookupTable.run_of_moves hMoves' hHalt'
      (show steps'.length < steps.length + steps'.length + 1 by omega)
    have hLast' : (last'.record ((automaton.machine g).chosen last')).reduced? = none := by
      rw [hChosen']
      rfl
    rw [hRun'] at hRun
    rw [← (Ending.finished.inj hRun).2, reductions_concat_none hLast', hReductions']
  · rw [reductions_concat_none hLast, hReductions, List.length_append, List.length_singleton, hLength]
  · rw [List.getLast?_concat, Option.bind_some]
    exact hChosen

/-! ### A table without conflicts -/

/-- Matched pairs: `S → a S b` and the empty `S`. The rule `U → U a` is beside the
point; nothing involves `U`, and it derives no terminals. -/
def matched : Grammar := (Grammar.define do
  let a ← Draft.terminal "a"
  let b ← Draft.terminal "b"
  let s ← Draft.nonterminal "S"
  let u ← Draft.nonterminal "U"
  let _ ← Draft.rule s [.terminal a, .nonterminal s, .terminal b]
  let _ ← Draft.rule s []
  let _ ← Draft.rule u [.nonterminal u, .terminal a]).toOption.get (by decide +kernel)

def matchedTable : ParseTable :=
  ((Construction.mk .merged false).generate matched).toOption.get (by decide +kernel)

theorem matched_yields : matched.Yields [.nonterminal 1] [1, 1, 2, 2] 3 := by
  have hNest : matched.rules[1]? = some ⟨1, [.terminal 1, .nonterminal 1, .terminal 2]⟩ := by
    decide +kernel
  have hEmpty : matched.rules[2]? = some ⟨1, []⟩ := by decide +kernel
  have hInner : matched.Yields [.nonterminal 1, .terminal 2] [1, 2, 2] 2 :=
    .nonterminal hNest (.terminal 1 (.nonterminal hEmpty .nil (.terminal 2 .nil))) (.terminal 2 .nil)
  exact .nonterminal hNest (.terminal 1 hInner) .nil

theorem accepts_sentence_matched :
    (Construction.mk .merged false).generate matched = .ok matchedTable ∧
      matchedTable.conflicts = [] ∧ matched.Sentence [1, 1, 2, 2] ∧
      Text.Separated (["a", "a", "b", "b"].map String.toList) " a a b  b".toList ∧
      ∃ trace, (∀ lookups, trace.length ≤ lookups →
          matchedTable.parse matched " a a b  b" lookups = .finished .accepted trace) ∧
        shiftCount trace = 4 ∧
        (∀ n, matched.DerivesIn n [.nonterminal matched.start] (terminalString [1, 1, 2, 2]) →
          (reductions trace).length = n) ∧
        trace.length = 4 + (reductions trace).length + 1 ∧
        trace.getLast?.bind (fun step => step.action) = some .accept := by
  have hTable : (Construction.mk .merged false).generate matched = .ok matchedTable :=
    eq_ok_of_toOption (Option.some_get _).symm
  have hConflicts : matchedTable.conflicts = [] := by decide +kernel
  have hStart : matched.start = 1 := by decide +kernel
  have hSentence : matched.Sentence [1, 1, 2, 2] := by
    unfold Grammar.Sentence
    rw [hStart]
    exact matched_yields.derives
  have hNames : [1, 1, 2, 2].map (fun t => matched.terminals[t]?) =
      ["a", "a", "b", "b"].map some := by
    decide +kernel
  have hText : Text.Separated (["a", "a", "b", "b"].map String.toList) " a a b  b".toList := by
    have hBlank : Text.isBlank ' ' = true := by decide
    exact .blank hBlank (.word ['a'] hBlank (.word ['a'] hBlank (.word ['b'] hBlank
      (.blank hBlank (.last ['b'])))))
  refine ⟨hTable, hConflicts, hSentence, hText, ?_⟩
  exact Construction.accepts_sentence hTable hConflicts hSentence hNames hText

end ShiftReduce
