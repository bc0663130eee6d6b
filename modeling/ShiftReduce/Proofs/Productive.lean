import ShiftReduce.Grammar.Draft
import ShiftReduce.Proofs.ValidItems

/-!
# Grammars whose nonterminals all derive terminals

If every nonterminal derives a string of terminals, then so does everything that can follow on
the stack, and nothing that a parser looks out for is beyond reach. A lookahead that FIRST sets
promise for a sequence then begins what the sequence and its context really go on with
(`AllProductive.exists_yields`). Without this, a sequence can begin with a terminal and still
derive no string of terminals, because something behind that terminal does not.
-/

namespace ShiftReduce

namespace Grammar

variable {g : Grammar} {α front back : List Symbol} {w : List Terminal} {r : RuleId} {rule : Rule}
  {core : Core} {b : Terminal}

/-! ## Strings of terminals -/

theorem exists_string_of_forall (h : ∀ s ∈ α, ∃ w, g.Derives [s] (terminalString w)) :
    ∃ w, g.Derives α (terminalString w) := by
  induction α with
  | nil => exact ⟨[], .refl _⟩
  | cons s α ih =>
    rw [List.forall_mem_cons] at h
    obtain ⟨u, hu⟩ := h.1
    obtain ⟨w, hw⟩ := ih h.2
    refine ⟨u ++ w, ?_⟩
    rw [terminalString_append]
    exact hu.append hw

theorem AllProductive.exists_string_of_mem_right (h : g.AllProductive)
    (hr : g.rules[r]? = some rule) {s : Symbol} (hs : s ∈ rule.right) :
    ∃ w, g.Derives [s] (terminalString w) := by
  have hDeclared := g.declared_of_mem_right hr hs
  cases s with
  | terminal t => exact ⟨[t], .refl _⟩
  | nonterminal n => exact h n hDeclared.2

/-- Whatever follows something derived from the augmented start derives terminals. -/
theorem AllProductive.exists_string (h : g.AllProductive)
    (hDerives : g.Derives [.nonterminal augmentedStart] (front ++ back)) :
    ∃ w, g.Derives back (terminalString w) := by
  have hStart : augmentedStart < g.nonterminals.size :=
    Nat.lt_trans g.start_declared.1 g.start_declared.2
  have hAll : ∀ s ∈ front ++ back, ∃ w, g.Derives [s] (terminalString w) :=
    hDerives.forall_mem (fun _ _ hr _ hs => h.exists_string_of_mem_right hr hs)
      (List.forall_mem_singleton.mpr (h augmentedStart hStart))
  exact exists_string_of_forall fun s hs => hAll s (List.mem_append_right _ hs)

/-! ## Lookaheads are realised -/

/-- Whatever can follow a sequence does follow trees over it: if `b` is a terminal that the
sequence before `w` can begin with, then there are trees whose leaves together with `w` begin
with `b`. -/
theorem AllProductive.exists_yields (h : g.AllProductive)
    (hα : ∀ s ∈ α, ∃ w, g.Derives [s] (terminalString w))
    (hb : b ∈ g.firstSets.ofSequenceThen α (nextTerminal w)) :
    ∃ u n, g.Yields α u n ∧ nextTerminal (u ++ w) = b := by
  rcases FirstSets.mem_ofSequenceThen_iff.mp hb with hFirst | ⟨hEmpty, rfl⟩
  · obtain ⟨back, hBegin⟩ := exists_derives_of_mem_ofSequence hFirst
    have hAll := hBegin.forall_mem (fun _ _ hr _ hs => h.exists_string_of_mem_right hr hs) hα
    rw [List.forall_mem_cons] at hAll
    obtain ⟨u, hu⟩ := exists_string_of_forall hAll.2
    have hDerives : g.Derives α (terminalString (b :: u)) :=
      hBegin.trans (hu.append_left [.terminal b])
    obtain ⟨n, hn⟩ := derives_iff_derivesIn.mp hDerives
    exact ⟨b :: u, n, hn.yields, rfl⟩
  · obtain ⟨n, hn⟩ := (epsilon_ofSequence_iff.mp hEmpty).yields_nil
    exact ⟨[], n, hn, rfl⟩

/-- The symbols after a marker derive strings of terminals. -/
theorem AllProductive.exists_string_of_mem_rest (h : g.AllProductive) {s : Symbol}
    (hs : s ∈ core.rest g) : ∃ w, g.Derives [s] (terminalString w) := by
  obtain ⟨rule, hMem, hs⟩ := g.mem_usedSymbols.mp (g.mem_usedSymbols_of_mem_rest hs)
  obtain ⟨r, hr⟩ := Array.mem_iff_getElem?.mp hMem
  exact h.exists_string_of_mem_right hr hs

end Grammar

/-! ## A grammar of this kind -/

/-- `S → A A`, `A → a A` and `A → b`. -/
def twice : Grammar := (Grammar.define do
  let a ← Draft.terminal "a"
  let b ← Draft.terminal "b"
  let s ← Draft.nonterminal "S"
  let n ← Draft.nonterminal "A"
  let _ ← Draft.rule s [.nonterminal n, .nonterminal n]
  let _ ← Draft.rule n [.terminal a, .nonterminal n]
  let _ ← Draft.rule n [.terminal b]).toOption.get (by decide +kernel)

theorem twice_allProductive : twice.AllProductive := by
  have hAugmented : twice.rules[0]? = some ⟨0, [.nonterminal 1]⟩ := by decide +kernel
  have hPair : twice.rules[1]? = some ⟨1, [.nonterminal 2, .nonterminal 2]⟩ := by decide +kernel
  have hLast : twice.rules[3]? = some ⟨2, [.terminal 2]⟩ := by decide +kernel
  have hA : twice.Yields [.nonterminal 2] [2] 1 := .nonterminal hLast (.terminal 2 .nil) .nil
  have hS : twice.Yields [.nonterminal 1] [2, 2] 3 := .nonterminal hPair (hA.append hA) .nil
  have hStart : twice.Yields [.nonterminal 0] [2, 2] 4 := .nonterminal hAugmented hS .nil
  have hSize : twice.nonterminals.size = 3 := by decide +kernel
  intro n hn
  rw [hSize] at hn
  match n with
  | 0 => exact ⟨_, hStart.derives⟩
  | 1 => exact ⟨_, hS.derives⟩
  | 2 => exact ⟨_, hA.derives⟩
  | n + 3 => omega

end ShiftReduce
