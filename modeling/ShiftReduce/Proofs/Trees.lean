import ShiftReduce.Derivation

/-!
# Derivation trees

`Yields α w n` says that the symbols of `α` have derivation trees whose leaves,
read from left to right, are the terminals `w`, and that these trees use `n`
rules in all. The trees are not built: the relation follows the sequence of
symbols, and a nonterminal at its head stands for the right-hand side of one of
its rules. This is the form in which a derivation can be followed from left to
right, one symbol after the other, as a parser reads it.

Derivations in any order are counted by `DerivesIn`. The number of replacements
in a derivation of a string of terminals is the number of rules of the trees
(`DerivesIn.yields`), whatever the order in which nonterminals are replaced. One of these orders
is the rightmost one (`Yields.exists_rightmost`).
-/

namespace ShiftReduce.Grammar

variable (g : Grammar)

/-! ## Counted derivations -/

/-- The second string comes from the first by exactly `n` replacements. -/
inductive DerivesIn : Nat → List Symbol → List Symbol → Prop
  | refl (α : List Symbol) : DerivesIn 0 α α
  | step {n : Nat} {α β γ : List Symbol} :
      DerivesIn n α β → g.Produces β γ → DerivesIn (n + 1) α γ

/-- The symbols yield the terminals by `n` uses of rules. -/
inductive Yields : List Symbol → List Terminal → Nat → Prop
  | nil : Yields [] [] 0
  | terminal (t : Terminal) {β : List Symbol} {w : List Terminal} {n : Nat} :
      Yields β w n → Yields (.terminal t :: β) (t :: w) n
  | nonterminal {r : RuleId} {rule : Rule} {β : List Symbol} {u w : List Terminal} {m n : Nat} :
      g.rules[r]? = some rule → Yields rule.right u m → Yields β w n →
      Yields (.nonterminal rule.left :: β) (u ++ w) (m + 1 + n)

variable {g} {α β γ front : List Symbol} {u w : List Terminal} {m n : Nat} {rs : List RuleId}
  {r : RuleId} {rule : Rule}

theorem derives_iff_derivesIn : g.Derives α β ↔ ∃ n, g.DerivesIn n α β := by
  constructor
  · intro h
    induction h with
    | refl => exact ⟨0, .refl _⟩
    | step _ hp ih =>
      obtain ⟨n, hn⟩ := ih
      exact ⟨n + 1, .step hn hp⟩
  · rintro ⟨n, h⟩
    induction h with
    | refl => exact .refl _
    | step _ hp ih => exact .step ih hp

/-! ## Trees side by side -/

theorem Yields.append (hα : g.Yields α u m) (hβ : g.Yields β w n) :
    g.Yields (α ++ β) (u ++ w) (m + n) := by
  induction hα with
  | nil => simpa using hβ
  | terminal t _ ih => exact .terminal t ih
  | nonterminal hr hu _ _ ih =>
    have h := Yields.nonterminal hr hu ih
    rwa [← List.append_assoc, ← Nat.add_assoc] at h

/-- The trees over two strings are trees over the first and trees over the
second. -/
theorem Yields.split (h : g.Yields (α ++ β) w n) :
    ∃ u v k l, w = u ++ v ∧ n = k + l ∧ g.Yields α u k ∧ g.Yields β v l := by
  induction α generalizing w n with
  | nil => exact ⟨[], w, 0, n, rfl, (Nat.zero_add n).symm, .nil, h⟩
  | cons X α ih =>
    cases h with
    | terminal t h =>
      obtain ⟨u, v, k, l, rfl, rfl, hα, hβ⟩ := ih h
      exact ⟨t :: u, v, k, l, rfl, rfl, .terminal t hα, hβ⟩
    | @nonterminal r rule _ u' _ m' _ hr hu h =>
      obtain ⟨u, v, k, l, rfl, rfl, hα, hβ⟩ := ih h
      refine ⟨u' ++ u, v, m' + 1 + k, l, ?_, ?_, .nonterminal hr hu hα, hβ⟩
      · rw [List.append_assoc]
      · omega

/-- Above the leaves of a nonterminal stands one of its rules. -/
theorem Yields.exists_rule {A : Nonterminal} (h : g.Yields (.nonterminal A :: β) w n) :
    ∃ (r : RuleId) (rule : Rule), g.rules[r]? = some rule ∧ rule.left = A := by
  cases h with
  | nonterminal hr => exact ⟨_, _, hr, rfl⟩

theorem yields_terminalString (w : List Terminal) : g.Yields (terminalString w) w 0 := by
  induction w with
  | nil => exact .nil
  | cons t w ih => exact .terminal t ih

/-! ## Trees and derivations -/

theorem Yields.derives (h : g.Yields α w n) : g.Derives α (terminalString w) := by
  induction h with
  | nil => exact .refl _
  | terminal t _ ih => exact ih.append_left [.terminal t]
  | nonterminal hr _ _ ihu ihw =>
    rw [terminalString_append]
    exact ((Derives.of_rule hr).trans ihu).append ihw

/-- A replacement is the root of one tree. -/
theorem Produces.yields (hp : g.Produces α β) (h : g.Yields β w n) : g.Yields α w (n + 1) := by
  cases hp with
  | intro front back hr =>
    obtain ⟨u, _, k, _, rfl, rfl, hFront, h⟩ := h.split
    obtain ⟨v, x, l, m, rfl, rfl, hRight, hBack⟩ := h.split
    have := hFront.append (.nonterminal hr hRight hBack)
    rwa [show k + (l + 1 + m) = k + (l + m) + 1 by omega] at this

theorem DerivesIn.yields_of_yields (hd : g.DerivesIn m α β) (h : g.Yields β w n) :
    g.Yields α w (m + n) := by
  induction hd generalizing n with
  | refl => simpa using h
  | @step m α β γ _ hp ih =>
    have := ih (hp.yields h)
    rwa [show m + 1 + n = m + (n + 1) by omega]

/-- Derivation trees have as many rules as a derivation has replacements. -/
theorem DerivesIn.yields (h : g.DerivesIn n α (terminalString w)) : g.Yields α w n :=
  h.yields_of_yields (yields_terminalString w)

theorem Derives.yields_nil (h : g.Derives α []) : ∃ n, g.Yields α [] n := by
  obtain ⟨n, hn⟩ := derives_iff_derivesIn.mp h
  exact ⟨n, hn.yields (w := [])⟩

/-! ## Trees and rightmost derivations -/

/-- Terminals on the right do not disturb a rightmost derivation. -/
theorem Rightmost.append_terminals (h : g.Rightmost rs α β) (v : List Terminal) :
    g.Rightmost rs (α ++ terminalString v) (β ++ terminalString v) := by
  induction h with
  | refl => exact .refl _
  | @step rs r rule α front w _ hr ih =>
    rw [List.append_assoc, List.cons_append, ← terminalString_append] at ih
    have := Rightmost.step ih hr
    rwa [terminalString_append, ← List.append_assoc rule.right, ← List.append_assoc front] at this

theorem Rightmost.of_rule (hr : g.rules[r]? = some rule) :
    g.Rightmost [r] [.nonterminal rule.left] rule.right := by
  have hStep : g.Rightmost ([] ++ [r]) [.nonterminal rule.left]
      ([] ++ (rule.right ++ terminalString [])) := .step (.refl _) hr
  simpa using hStep

/-- One more replacement before all others. -/
theorem Rightmost.head (hr : g.rules[r]? = some rule) (h : g.Rightmost rs (front ++ rule.right) β) :
    g.Rightmost (r :: rs) (front ++ [.nonterminal rule.left]) β :=
  ((Rightmost.of_rule hr).append_left front).trans h

/-- Trees can be grown by a rightmost derivation: the last symbol is replaced by its leaves
first. -/
theorem Yields.exists_rightmost (h : g.Yields α w n) :
    ∃ rs, g.Rightmost rs α (terminalString w) := by
  induction h with
  | nil => exact ⟨[], .refl _⟩
  | terminal t _ ih =>
    obtain ⟨rs, hrs⟩ := ih
    exact ⟨rs, hrs.append_left [.terminal t]⟩
  | @nonterminal r rule β u w _ _ hr _ _ ihRight ihβ =>
    obtain ⟨rs, hRight⟩ := ihRight
    obtain ⟨rs', hβ⟩ := ihβ
    have hTail : g.Rightmost rs' (.nonterminal rule.left :: β)
        (.nonterminal rule.left :: terminalString w) := hβ.append_left [.nonterminal rule.left]
    have hHead : g.Rightmost [r] (.nonterminal rule.left :: terminalString w)
        (rule.right ++ terminalString w) := (Rightmost.of_rule hr).append_terminals w
    refine ⟨rs' ++ ([r] ++ rs), hTail.trans (hHead.trans ?_)⟩
    rw [terminalString_append]
    exact hRight.append_terminals w

end ShiftReduce.Grammar
