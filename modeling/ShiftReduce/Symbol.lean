/-!
# Symbols and rules

Terminals, nonterminals and rules are numbered from `0` in the order of their
declaration. Three numbers are reserved: terminal `0` is the end marker,
nonterminal `0` is the augmented start and rule `0` is the augmented rule.
-/

namespace ShiftReduce

abbrev Terminal := Nat

abbrev Nonterminal := Nat

abbrev RuleId := Nat

/-- The terminal that stands for the end of the input. -/
def endMarker : Terminal := 0

/-- The nonterminal whose only rule leads to the start symbol. -/
def augmentedStart : Nonterminal := 0

/-- The rule that leads from the augmented start to the start symbol. -/
def augmentedRule : RuleId := 0

inductive Symbol
  | terminal (id : Terminal)
  | nonterminal (id : Nonterminal)
  deriving DecidableEq, Repr

/-- A rule: its left-hand side may be replaced by its right-hand side. -/
structure Rule where
  left : Nonterminal
  right : List Symbol
  deriving DecidableEq, Repr

/-- Whether a rule may use a symbol: it has been declared, so it is none of the
reserved ones. The counts include the end marker and the augmented start. -/
def Symbol.Declared (terminals nonterminals : Nat) : Symbol → Prop
  | .terminal t => 0 < t ∧ t < terminals
  | .nonterminal n => 0 < n ∧ n < nonterminals

instance (terminals nonterminals : Nat) : (s : Symbol) →
    Decidable (s.Declared terminals nonterminals)
  | .terminal _ => inferInstanceAs (Decidable (_ ∧ _))
  | .nonterminal _ => inferInstanceAs (Decidable (_ ∧ _))

theorem Symbol.Declared.mono {t n t' n' : Nat} {s : Symbol} (h : s.Declared t n)
    (ht : t ≤ t') (hn : n ≤ n') : s.Declared t' n' := by
  cases s with
  | terminal _ => exact ⟨h.1, Nat.lt_of_lt_of_le h.2 ht⟩
  | nonterminal _ => exact ⟨h.1, Nat.lt_of_lt_of_le h.2 hn⟩

def Rule.Declared (terminals nonterminals : Nat) (rule : Rule) : Prop :=
  (Symbol.nonterminal rule.left).Declared terminals nonterminals ∧
    ∀ s ∈ rule.right, s.Declared terminals nonterminals

theorem Rule.Declared.mono {t n t' n' : Nat} {rule : Rule} (h : rule.Declared t n)
    (ht : t ≤ t') (hn : n ≤ n') : rule.Declared t' n' :=
  ⟨h.1.mono ht hn, fun s hs => (h.2 s hs).mono ht hn⟩

end ShiftReduce
