import ShiftReduce.First
import ShiftReduce.Sweep

/-!
# FIRST sets, swept together

A rule adds what its right-hand side begins with, as far as the sets say so far, to the FIRST set
of its left-hand side. Sweeping over the rules until nothing is added needs no nullable
nonterminals in advance, and the order of the rules decides only how many passes there are.
-/

namespace ShiftReduce

namespace FirstSet

/-- Adds what another FIRST set holds, and says whether that was new. -/
def absorb (first other : FirstSet) : Bool × FirstSet :=
  let terminals := first.terminals.absorb other.terminals
  (terminals.1 || (other.epsilon && !first.epsilon),
    ⟨terminals.2, first.epsilon || other.epsilon⟩)

def size (first : FirstSet) : Nat := first.terminals.size + first.epsilon.toNat

variable {first other : FirstSet}

@[simp] theorem epsilon_absorb :
    (first.absorb other).2.epsilon = (first.epsilon || other.epsilon) := rfl

theorem absorb_fst_iff : (first.absorb other).1 = true ↔
    (first.terminals.absorb other.terminals).1 = true ∨
      other.epsilon = true ∧ first.epsilon = false := by
  simp [absorb]

theorem absorb_eq (h : (first.absorb other).1 = false) : (first.absorb other).2 = first := by
  rw [← Bool.not_eq_true, absorb_fst_iff, not_or, not_and, Bool.not_eq_true,
    Bool.not_eq_false] at h
  obtain ⟨terminals, epsilon⟩ := first
  rw [absorb, OrdSet.absorb_eq h.1, FirstSet.mk.injEq, Bool.or_eq_left_iff_imp]
  exact ⟨rfl, h.2⟩

/-- What is new makes a FIRST set larger. -/
theorem size_lt_absorb (h : (first.absorb other).1 = true) :
    first.size < (first.absorb other).2.size := by
  rcases absorb_fst_iff.mp h with h | ⟨hOther, hFirst⟩
  · have hTerminals := OrdSet.size_lt_absorb h
    have hEpsilon : first.epsilon.toNat ≤ (first.epsilon || other.epsilon).toNat := by
      cases first.epsilon <;> simp
    exact Nat.add_lt_add_of_lt_of_le hTerminals hEpsilon
  · have hTerminals : first.terminals.size ≤ (first.absorb other).2.terminals.size :=
      OrdSet.size_le_size_absorb
    have hEpsilon : first.epsilon.toNat < (first.epsilon || other.epsilon).toNat := by
      simp [hOther, hFirst]
    exact Nat.add_lt_add_of_le_of_lt hTerminals hEpsilon

theorem size_le {n : Nat} (h : ∀ t ∈ first.terminals, t < n) : first.size ≤ n + 1 :=
  Nat.add_le_add (OrdSet.size_le_of_forall_lt h) (Bool.toNat_le _)

end FirstSet

/-- What a rule's right-hand side begins with is added to the set of its left-hand side. -/
def Rule.firstVisit (rule : Rule) : Visit FirstSet where
  place := rule.left
  share sets := (FirstSets.mk sets).ofSequence rule.right

namespace Grammar

variable (g : Grammar) (rules : List Rule) (known : ∀ rule ∈ rules, rule ∈ g.rules)

def firstSweep : Sweep FirstSet where
  visits := rules.map Rule.firstVisit
  join := FirstSet.absorb
  Fits first := ∀ t ∈ first.terminals, t < g.terminals.size
  size := FirstSet.size
  limit := g.terminals.size + 1
  fits_share := by
    intro visit sets hVisit hSets t ht
    obtain ⟨rule, hRule, rfl⟩ := List.mem_map.mp hVisit
    rcases FirstSets.mem_ofSequence ht with ht | ht
    · obtain ⟨first, hFirst, ht⟩ := List.mem_flatMap.mp ht
      exact hSets first (Array.mem_toList_iff.mp hFirst) t ht
    · obtain ⟨r, hr⟩ := Array.mem_iff_getElem?.mp (known rule hRule)
      exact (g.declared_of_mem_right hr ht).2
  fits_join hFirst hOther t ht := (OrdSet.mem_union.mp ht).elim (hFirst t) (hOther t)
  size_le := FirstSet.size_le
  size_lt := FirstSet.size_lt_absorb
  join_eq := FirstSet.absorb_eq

/-- The FIRST sets before anything is known. -/
def noFirstSets : Array FirstSet := Array.replicate g.nonterminals.size ⟨∅, false⟩

theorem fits_noFirstSets : ∀ first ∈ g.noFirstSets, (g.firstSweep rules known).Fits first := by
  intro first hFirst t ht
  rw [Array.eq_of_mem_replicate hFirst] at ht
  exact absurd ht OrdSet.not_mem_empty

/-- The FIRST sets that sweeping over rules of the grammar ends with. -/
def sweptFirstSets : FirstSets where
  sets := (g.firstSweep rules known).settle g.noFirstSets (g.fits_noFirstSets rules known)

end Grammar

end ShiftReduce
