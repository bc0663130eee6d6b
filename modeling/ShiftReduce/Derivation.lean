import ShiftReduce.Grammar.Basic

/-!
# Derivations

What the rules of a grammar mean. A derivation replaces one nonterminal after
the other by the right-hand side of one of its rules; a rightmost derivation
replaces the last nonterminal each time, and is recorded by the rules it uses.
Nothing here depends on automata or tables.
-/

namespace ShiftReduce

def terminalString (w : List Terminal) : List Symbol := w.map .terminal

@[simp] theorem terminalString_nil : terminalString [] = [] := rfl

@[simp] theorem terminalString_append (v w : List Terminal) :
    terminalString (v ++ w) = terminalString v ++ terminalString w := List.map_append

namespace Grammar

variable (g : Grammar)

/-! ## Derivations in any order -/

/-- One nonterminal of the first string is replaced by the right-hand side of
one of its rules. -/
inductive Produces : List Symbol → List Symbol → Prop
  | intro {r : RuleId} {rule : Rule} (front back : List Symbol) (hr : g.rules[r]? = some rule) :
      Produces (front ++ .nonterminal rule.left :: back) (front ++ (rule.right ++ back))

/-- The second string comes from the first by any number of replacements. -/
inductive Derives : List Symbol → List Symbol → Prop
  | refl (α : List Symbol) : Derives α α
  | step {α β γ : List Symbol} : Derives α β → g.Produces β γ → Derives α γ

variable {g} {α β γ δ : List Symbol}

theorem Produces.append_left (front : List Symbol) (h : g.Produces α β) :
    g.Produces (front ++ α) (front ++ β) := by
  cases h with
  | intro front' back hr => simpa using Produces.intro (front ++ front') back hr

theorem Produces.append_right (back : List Symbol) (h : g.Produces α β) :
    g.Produces (α ++ back) (β ++ back) := by
  cases h with
  | intro front back' hr => simpa using Produces.intro front (back' ++ back) hr

theorem Derives.trans (hαβ : g.Derives α β) (hβγ : g.Derives β γ) : g.Derives α γ := by
  induction hβγ with
  | refl => exact hαβ
  | step _ hr ih => exact .step ih hr

theorem Derives.append_left (front : List Symbol) (h : g.Derives α β) :
    g.Derives (front ++ α) (front ++ β) := by
  induction h with
  | refl => exact .refl _
  | step _ hr ih => exact .step ih (hr.append_left front)

theorem Derives.append_right (back : List Symbol) (h : g.Derives α β) :
    g.Derives (α ++ back) (β ++ back) := by
  induction h with
  | refl => exact .refl _
  | step _ hr ih => exact .step ih (hr.append_right back)

theorem Derives.append (h : g.Derives α β) (h' : g.Derives γ δ) :
    g.Derives (α ++ γ) (β ++ δ) :=
  (h.append_right γ).trans (h'.append_left β)

theorem Derives.of_rule {r : RuleId} {rule : Rule} (hr : g.rules[r]? = some rule) :
    g.Derives [.nonterminal rule.left] rule.right := by
  simpa using Derives.step (.refl _) (Produces.intro [] [] hr)

/-! ## Rightmost derivations -/

variable (g)

/-- The rules `rs`, in this order, lead from the first string to the second, and
each is used on the last nonterminal. -/
inductive Rightmost : List RuleId → List Symbol → List Symbol → Prop
  | refl (α : List Symbol) : Rightmost [] α α
  | step {rs : List RuleId} {r : RuleId} {rule : Rule} {α front : List Symbol}
      {w : List Terminal} :
      Rightmost rs α (front ++ .nonterminal rule.left :: terminalString w) →
      g.rules[r]? = some rule →
      Rightmost (rs ++ [r]) α (front ++ (rule.right ++ terminalString w))

variable {g}

theorem Rightmost.derives {rs : List RuleId} (h : g.Rightmost rs α β) : g.Derives α β := by
  induction h with
  | refl => exact .refl _
  | step _ hr ih => exact .step ih (.intro _ _ hr)

theorem Rightmost.trans {rs rs' : List RuleId} (h : g.Rightmost rs α β)
    (h' : g.Rightmost rs' β γ) : g.Rightmost (rs ++ rs') α γ := by
  induction h' with
  | refl => simpa using h
  | step _ hr ih =>
    rw [← List.append_assoc]
    exact .step (ih h) hr

theorem Rightmost.append_left {rs : List RuleId} (front : List Symbol) (h : g.Rightmost rs α β) :
    g.Rightmost rs (front ++ α) (front ++ β) := by
  induction h with
  | refl => exact .refl _
  | step _ hr ih =>
    rw [← List.append_assoc] at ih ⊢
    exact .step ih hr

/-! ## The language -/

variable (g)

/-- Whether a string of terminals is derived from the start symbol. -/
def Sentence (w : List Terminal) : Prop := g.Derives [.nonterminal g.start] (terminalString w)

def BeginsSentence (w : List Terminal) : Prop := ∃ rest, g.Sentence (w ++ rest)

def Productive (n : Nonterminal) : Prop :=
  ∃ w, g.Derives [.nonterminal n] (terminalString w)

def AllProductive : Prop := ∀ n < g.nonterminals.size, g.Productive n

/-- Whether a nonterminal occurs in a string that the first one derives. -/
def Involves (n m : Nonterminal) : Prop :=
  ∃ front back, g.Derives [.nonterminal n] (front ++ .nonterminal m :: back)

theorem Involves.of_rule {g : Grammar} {r : RuleId} {rule : Rule} {n m : Nonterminal}
    (h : g.Involves n rule.left) (hr : g.rules[r]? = some rule)
    (hm : .nonterminal m ∈ rule.right) : g.Involves n m := by
  obtain ⟨front, back, hDerives⟩ := h
  obtain ⟨front', back', hRight⟩ := List.append_of_mem hm
  refine ⟨front ++ front', back' ++ back, ?_⟩
  have hStep := hDerives.step (.intro front back hr)
  rw [hRight] at hStep
  simpa using hStep

/-- Whether every nonterminal occurs in a string that the augmented start
derives. -/
def AllInvolved : Prop := ∀ n < g.nonterminals.size, g.Involves augmentedStart n

/-- Whether some string of terminals has two rightmost derivations from the
start symbol, as far as they differ in the rules they use. -/
def Ambiguous : Prop :=
  ∃ w rs rs', rs ≠ rs' ∧
    g.Rightmost rs [.nonterminal g.start] (terminalString w) ∧
    g.Rightmost rs' [.nonterminal g.start] (terminalString w)

end Grammar

end ShiftReduce
