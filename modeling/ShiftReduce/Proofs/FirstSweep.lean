import ShiftReduce.First.Sweep
import ShiftReduce.Grammar.Draft
import ShiftReduce.Proofs.FirstSets

/-!
# FIRST sets are exact

FIRST sets can be described in three ways: by what derivations begin with (`FirstSets.Exact`), by
what nonterminals lead to (`Grammar.firstSets`), and as the sets that sweeping over the rules ends
with (`Grammar.sweptFirstSets`). This module shows that they are the same.

* `sweptFirstSets_within`: sweeping adds nothing that the FIRST sets do not hold.
* `sweptFirstSets_closed`, `firstSets_within`: when sweeping ends, the sets are closed under the
  rules, and then nothing that a derivation begins with is missing.

Neither direction looks at the order of the rules, so each order of sweeping, and each order of
declaring the rules, gives the same sets.
-/

namespace ShiftReduce

/-! ## Comparing FIRST sets -/

namespace FirstSet

variable {first other more : FirstSet}

theorem Within.absorb (h : first.Within more) (h' : other.Within more) :
    (first.absorb other).2.Within more := by
  constructor
  · intro t ht
    exact (OrdSet.mem_union.mp ht).elim (h.terminals t) (h'.terminals t)
  · intro hEpsilon
    rw [epsilon_absorb, Bool.or_eq_true] at hEpsilon
    exact hEpsilon.elim h.epsilon h'.epsilon

theorem within_of_absorb_eq (h : (first.absorb other).2 = first) : other.Within first := by
  rw [← h]
  constructor
  · exact OrdSet.subset_union_right
  · intro hEpsilon
    rw [epsilon_absorb, hEpsilon, Bool.or_true]

theorem within_of_empty : (⟨∅, false⟩ : FirstSet).Within first :=
  ⟨fun _ ht => absurd ht OrdSet.not_mem_empty, nofun⟩

end FirstSet

namespace FirstSets

variable {F F' : FirstSets} {n : Nonterminal} {first : FirstSet} {g g' : Grammar}

theorem ofSymbol_of_getElem? (h : F.sets[n]? = some first) :
    F.ofSymbol (.nonterminal n) = first := by
  rw [ofSymbol, nonterminal?, h, Option.getD_some]

/-- If the sets of nonterminals hold nothing new, neither do those of other symbols. -/
theorem within_ofSymbol (h : ∀ (n : Nonterminal) (first : FirstSet), F.sets[n]? = some first →
    first.Within (F'.ofSymbol (.nonterminal n))) (s : Symbol) :
    (F.ofSymbol s).Within (F'.ofSymbol s) := by
  cases s with
  | terminal t => exact .refl _
  | nonterminal n =>
    cases hn : F.sets[n]? with
    | none =>
      rw [ofSymbol, nonterminal?, hn]
      exact FirstSet.within_of_empty
    | some first =>
      rw [ofSymbol_of_getElem? hn]
      exact h n first hn

/-- With more in the FIRST sets of symbols, there is more in those of sequences. -/
theorem ofSequence_mono (h : ∀ s, (F.ofSymbol s).Within (F'.ofSymbol s)) (α : List Symbol) :
    (F.ofSequence α).Within (F'.ofSequence α) := by
  have hEpsilon : ∀ α, (F.ofSequence α).epsilon = true → (F'.ofSequence α).epsilon = true := by
    intro α hα
    rw [epsilon_ofSequence] at hα ⊢
    exact fun s hs => (h s).epsilon (hα s hs)
  refine ⟨fun t ht => ?_, hEpsilon α⟩
  obtain ⟨front, X, back, hα, hFront, hX⟩ := mem_terminals_ofSequence.mp ht
  exact mem_terminals_ofSequence.mpr
    ⟨front, X, back, hα, hEpsilon front hFront, (h X).terminals t hX⟩

theorem eq_of_within (hSize : F.sets.size = F'.sets.size)
    (h : ∀ s, (F.ofSymbol s).Within (F'.ofSymbol s))
    (h' : ∀ s, (F'.ofSymbol s).Within (F.ofSymbol s)) : F = F' := by
  rw [FirstSets.mk.injEq]
  apply Array.ext hSize
  intro n hn hn'
  rw [← ofSymbol_of_getElem? (Array.getElem?_eq_getElem hn),
    ← ofSymbol_of_getElem? (Array.getElem?_eq_getElem hn')]
  exact (h _).antisymm (h' _)

/-- Whether sets are closed under rules does not depend on how the rules are numbered. -/
theorem Closed.congr (h : F.Closed g) (hRules : ∀ rule ∈ g'.rules, rule ∈ g.rules) :
    F.Closed g' := by
  intro r' rule hr'
  obtain ⟨r, hr⟩ := Array.mem_iff_getElem?.mp (hRules rule (Array.mem_of_getElem? hr'))
  exact h r rule hr

end FirstSets

namespace Grammar

variable (g : Grammar) (rules : List Rule) (known : ∀ rule ∈ rules, rule ∈ g.rules)

/-! ## Sweeping finds the FIRST sets -/

theorem size_firstSets : g.firstSets.sets.size = g.nonterminals.size := by
  simp [firstSets]

theorem size_sweptFirstSets : (g.sweptFirstSets rules known).sets.size = g.nonterminals.size := by
  rw [sweptFirstSets, Sweep.size_settle, noFirstSets, Array.size_replicate]

/-- Sweeping adds only what the FIRST sets hold. -/
theorem sweptFirstSets_within (s : Symbol) :
    ((g.sweptFirstSets rules known).ofSymbol s).Within (g.firstSets.ofSymbol s) := by
  apply FirstSets.within_ofSymbol
  apply Sweep.settle_forall
  · intro visit hVisit sets hSets first hFirst
    obtain ⟨rule, hRule, rfl⟩ := List.mem_map.mp hVisit
    obtain ⟨r, hr⟩ := Array.mem_iff_getElem?.mp (known rule hRule)
    have hSymbols : ∀ s, ((FirstSets.mk sets).ofSymbol s).Within (g.firstSets.ofSymbol s) :=
      FirstSets.within_ofSymbol hSets
    have hShare := FirstSets.ofSequence_mono hSymbols rule.right
    exact hFirst.absorb (hShare.trans (g.firstSets_closed r rule hr))
  · intro n first hFirst
    rw [Array.eq_of_mem_replicate (Array.mem_of_getElem? hFirst)]
    exact FirstSet.within_of_empty

/-- If no rule is left out, the sets that sweeping ends with are closed under the rules. -/
theorem sweptFirstSets_closed (hAll : ∀ rule ∈ g.rules, rule ∈ rules) :
    (g.sweptFirstSets rules known).Closed g := by
  intro r rule hr
  have hVisit : rule.firstVisit ∈ (g.firstSweep rules known).visits :=
    List.mem_map_of_mem (hAll rule (Array.mem_of_getElem? hr))
  have hPlace := g.left_lt hr
  rw [← g.size_sweptFirstSets rules known] at hPlace
  have hFirst := Array.getElem?_eq_getElem hPlace
  rw [FirstSets.ofSymbol_of_getElem? hFirst]
  exact FirstSet.within_of_absorb_eq (Sweep.join_share_settle _ hVisit hFirst)

variable {g}

/-- FIRST sets that are closed under the rules hold all that the grammar's own ones hold. -/
theorem firstSets_within {F : FirstSets} (hClosed : F.Closed g) (s : Symbol) :
    (g.firstSets.ofSymbol s).Within (F.ofSymbol s) := by
  constructor
  · intro t ht
    obtain ⟨back, hDerives⟩ := exists_derives_of_mem_ofSymbol ht
    exact FirstSets.mem_terminals_singleton.mp (hClosed.mem_of_derives hDerives)
  · intro hEpsilon
    have hDerives := epsilon_ofSymbol_iff.mp hEpsilon
    exact FirstSets.epsilon_singleton.mp (hClosed.epsilon_of_derives hDerives)

/-- Sweeping over the rules of a grammar, in whatever order, ends with its FIRST sets. -/
theorem sweptFirstSets_eq (hAll : ∀ rule ∈ g.rules, rule ∈ rules) :
    g.sweptFirstSets rules known = g.firstSets := by
  apply FirstSets.eq_of_within
  · rw [size_sweptFirstSets, size_firstSets]
  · exact g.sweptFirstSets_within rules known
  · exact firstSets_within (g.sweptFirstSets_closed rules known hAll)

/-- The same rules in another order give the same FIRST sets. -/
theorem firstSets_congr {g' : Grammar} (hSize : g'.nonterminals.size = g.nonterminals.size)
    (hRules : ∀ rule, rule ∈ g'.rules ↔ rule ∈ g.rules) : g'.firstSets = g.firstSets := by
  apply FirstSets.eq_of_within
  · rw [size_firstSets, size_firstSets, hSize]
  · exact firstSets_within (g.firstSets_closed.congr fun rule => (hRules rule).mp)
  · exact firstSets_within (g'.firstSets_closed.congr fun rule => (hRules rule).mpr)

end Grammar

/-! ## Exactness -/

/-- FIRST sets that say what derivations begin with, for the nonterminals of a grammar and for
sequences of symbols. -/
structure FirstSets.Exact (F : FirstSets) (g : Grammar) : Prop where
  size_eq : F.sets.size = g.nonterminals.size
  mem_iff : ∀ (n : Nonterminal) (first : FirstSet), F.nonterminal? n = some first →
    ∀ t, t ∈ first.terminals ↔ ∃ δ, g.Derives [.nonterminal n] (.terminal t :: δ)
  epsilon_iff : ∀ (n : Nonterminal) (first : FirstSet), F.nonterminal? n = some first →
    (first.epsilon = true ↔ g.Derives [.nonterminal n] [])
  mem_ofSequence_iff : ∀ α t,
    t ∈ (F.ofSequence α).terminals ↔ ∃ δ, g.Derives α (.terminal t :: δ)
  epsilon_ofSequence_iff : ∀ α, (F.ofSequence α).epsilon = true ↔ g.Derives α []
  mem_ofSequenceThen_iff : ∀ α a t,
    t ∈ F.ofSequenceThen α a ↔ t ∈ (F.ofSequence α).terminals ∨ g.Derives α [] ∧ t = a

namespace Grammar

theorem exact_firstSets (g : Grammar) : g.firstSets.Exact g where
  size_eq := g.size_firstSets
  mem_iff n first hFirst t := by
    rw [← FirstSets.ofSymbol_of_getElem? hFirst, ← FirstSets.mem_terminals_singleton]
    exact ⟨exists_derives_of_mem_ofSequence, fun ⟨_, hDerives⟩ => hDerives.mem_first⟩
  epsilon_iff n first hFirst := by
    rw [← FirstSets.ofSymbol_of_getElem? hFirst]
    exact epsilon_ofSymbol_iff
  mem_ofSequence_iff α t :=
    ⟨exists_derives_of_mem_ofSequence, fun ⟨_, hDerives⟩ => hDerives.mem_first⟩
  epsilon_ofSequence_iff _ := epsilon_ofSequence_iff
  mem_ofSequenceThen_iff α a t := by
    rw [FirstSets.mem_ofSequenceThen_iff, epsilon_ofSequence_iff]

/-- FIRST sets are exact; sweeping over the rules in any order ends with them; and they are the
same for all grammars that differ in the order of their rules only. -/
theorem firstSets_exact (g g' : Grammar) (rules : List Rule)
    (hOrder : rules.Perm g.rules.toList) (hSize : g'.nonterminals.size = g.nonterminals.size)
    (hRules : g'.rules.toList.Perm g.rules.toList) :
    g.firstSets.Exact g ∧
      g.sweptFirstSets rules (fun _ h => Array.mem_toList_iff.mp (hOrder.subset h)) =
        g.firstSets ∧
      g'.firstSets = g.firstSets := by
  refine ⟨g.exact_firstSets, ?_, ?_⟩
  · apply sweptFirstSets_eq
    exact fun rule hRule => hOrder.symm.subset (Array.mem_toList_iff.mpr hRule)
  · apply firstSets_congr hSize
    intro rule
    rw [← Array.mem_toList_iff, hRules.mem_iff, Array.mem_toList_iff]

end Grammar

/-- `S → A x`, with `A → B a | ε` and `B → A b | A`, which begin with each other. -/
def entwinedRules : List Rule :=
  [⟨1, [.nonterminal 2, .terminal 1]⟩, ⟨2, [.nonterminal 3, .terminal 2]⟩, ⟨2, []⟩,
    ⟨3, [.nonterminal 2, .terminal 3]⟩, ⟨3, [.nonterminal 2]⟩]

/-- The grammar of rules over `x`, `a`, `b` and `S`, `A`, `B`. -/
def entwinedBy (rules : List Rule) : Except DefinitionError Grammar := Grammar.define do
  let _ ← ["x", "a", "b"].mapM Draft.terminal
  let names ← ["S", "A", "B"].mapM Draft.nonterminal
  let _ ← rules.mapM fun rule => Draft.rule rule.left rule.right
  Draft.startSymbol (names.headD augmentedStart)

def entwined : Grammar := (entwinedBy entwinedRules).toOption.get (by decide +kernel)

def entwinedBackwards : Grammar :=
  (entwinedBy entwinedRules.reverse).toOption.get (by decide +kernel)

theorem firstSets_exact_entwined :
    entwined.rules.toList.reverse.Perm entwined.rules.toList ∧
      entwinedBackwards.nonterminals.size = entwined.nonterminals.size ∧
      entwinedBackwards.rules.toList.Perm entwined.rules.toList ∧
      entwined.firstSets.Exact entwined ∧
      entwined.sweptFirstSets entwined.rules.toList.reverse
        (fun _ h => Array.mem_toList_iff.mp (List.mem_reverse.mp h)) = entwined.firstSets ∧
      entwinedBackwards.firstSets = entwined.firstSets := by
  have hOrder := List.reverse_perm entwined.rules.toList
  have hSize : entwinedBackwards.nonterminals.size = entwined.nonterminals.size := by
    decide +kernel
  have hRules : entwinedBackwards.rules.toList.Perm entwined.rules.toList := by decide +kernel
  exact ⟨hOrder, hSize, hRules, Grammar.firstSets_exact _ _ _ hOrder hSize hRules⟩

end ShiftReduce
