import ShiftReduce.Proofs.Reachability
import ShiftReduce.Proofs.Trees

/-!
# FIRST sets and derivations

What FIRST sets are computed from: a symbol leads to the symbols that its rules
can begin with, where `X` can begin a rule if only symbols that derive the empty
string stand before it. The lemmas of this module replace the computation by
that description, and connect it with derivations:

* `mem_nullable_iff`, `epsilon_ofSequence_iff`: a nonterminal is found to be
  nullable, and a sequence to have `ε` in its FIRST set, exactly if it derives
  the empty string;
* `mem_ofSymbol_iff`, `mem_leadsTo_iff`: a terminal is in the FIRST set of a
  symbol exactly if the symbol leads to it;
* `FirstSets.Closed.within_of_derives`: no derivation brings anything new into FIRST sets that are
  closed under the rules;
* `exists_derives_of_mem_ofSequence`: what is in a FIRST set begins a derived string, which
  need not derive terminals.

A nonterminal from which no derivation ever reaches a terminal or the empty
string has an empty FIRST set.
-/

namespace ShiftReduce

/-- A FIRST set holds nothing that another one does not. -/
structure FirstSet.Within (first other : FirstSet) : Prop where
  terminals : first.terminals ⊆ other.terminals
  epsilon : first.epsilon = true → other.epsilon = true

theorem FirstSet.Within.refl (first : FirstSet) : first.Within first :=
  ⟨OrdSet.subset_refl _, id⟩

theorem FirstSet.Within.trans {first other more : FirstSet} (h : first.Within other)
    (h' : other.Within more) : first.Within more :=
  ⟨OrdSet.subset_trans h.terminals h'.terminals, h'.epsilon ∘ h.epsilon⟩

theorem FirstSet.Within.antisymm {first other : FirstSet} (h : first.Within other)
    (h' : other.Within first) : first = other := by
  obtain ⟨terminals, epsilon⟩ := first
  obtain ⟨terminals', epsilon'⟩ := other
  rw [FirstSet.mk.injEq]
  exact ⟨OrdSet.subset_antisymm h.terminals h'.terminals,
    Bool.eq_iff_iff.mpr ⟨h.epsilon, h'.epsilon⟩⟩

/-- Whether the set of a rule's left-hand side holds all that its right-hand side begins with,
for every rule. -/
def FirstSets.Closed (F : FirstSets) (g : Grammar) : Prop :=
  ∀ (r : RuleId) (rule : Rule), g.rules[r]? = some rule →
    (F.ofSequence rule.right).Within (F.ofSymbol (.nonterminal rule.left))

/-! ## Sequences, for any FIRST sets -/

namespace FirstSets

variable {F : FirstSets} {α β : List Symbol} {t a : Terminal}

theorem epsilon_ofSequence :
    (F.ofSequence α).epsilon = true ↔ ∀ s ∈ α, (F.ofSymbol s).epsilon = true := by
  induction α with
  | nil => simp [ofSequence]
  | cons s α ih =>
    rw [ofSequence]
    dsimp only
    split
    · next h => simp [h, ih]
    · next h => simp [h]

/-- The terminals of a sequence come from a symbol with only symbols before it
that have `ε`. -/
theorem mem_terminals_ofSequence :
    t ∈ (F.ofSequence α).terminals ↔ ∃ front X back, α = front ++ X :: back ∧
      (F.ofSequence front).epsilon = true ∧ t ∈ (F.ofSymbol X).terminals := by
  induction α with
  | nil => simp [ofSequence]
  | cons s α ih =>
    have hHead : t ∈ (F.ofSymbol s).terminals → ∃ front X back, s :: α = front ++ X :: back ∧
        (F.ofSequence front).epsilon = true ∧ t ∈ (F.ofSymbol X).terminals := fun h =>
      ⟨[], s, α, rfl, rfl, h⟩
    rw [ofSequence]
    dsimp only
    constructor
    · intro h
      split at h
      · next hs =>
        rcases OrdSet.mem_union.mp h with h | h
        · exact hHead h
        · obtain ⟨front, X, back, rfl, hf, hX⟩ := ih.mp h
          refine ⟨s :: front, X, back, rfl, ?_, hX⟩
          rw [epsilon_ofSequence] at hf ⊢
          exact List.forall_mem_cons.mpr ⟨hs, hf⟩
      · exact hHead h
    · rintro ⟨front, X, back, hEq, hf, hX⟩
      cases front with
      | nil =>
        obtain ⟨rfl, rfl⟩ := List.cons.inj hEq
        split
        · exact OrdSet.mem_union.mpr (.inl hX)
        · exact hX
      | cons s' front =>
        obtain ⟨rfl, rfl⟩ := List.cons.inj hEq
        rw [epsilon_ofSequence, List.forall_mem_cons] at hf
        rw [if_pos hf.1]
        refine OrdSet.mem_union.mpr (.inr (ih.mpr ⟨front, X, back, rfl, ?_, hX⟩))
        exact epsilon_ofSequence.mpr hf.2

theorem epsilon_append : (F.ofSequence (α ++ β)).epsilon = true ↔
    (F.ofSequence α).epsilon = true ∧ (F.ofSequence β).epsilon = true := by
  simp only [epsilon_ofSequence, List.forall_mem_append]

theorem mem_terminals_append : t ∈ (F.ofSequence (α ++ β)).terminals ↔
    t ∈ (F.ofSequence α).terminals ∨
      (F.ofSequence α).epsilon = true ∧ t ∈ (F.ofSequence β).terminals := by
  induction α with
  | nil => simp [ofSequence]
  | cons s α ih =>
    rw [List.cons_append, ofSequence, ofSequence]
    dsimp only
    split
    · simp only [OrdSet.mem_union, ih, or_assoc]
    · simp

theorem mem_terminals_singleton {s : Symbol} :
    t ∈ (F.ofSequence [s]).terminals ↔ t ∈ (F.ofSymbol s).terminals := by
  rw [ofSequence]
  dsimp only
  split <;> simp [ofSequence]

theorem epsilon_singleton {s : Symbol} :
    (F.ofSequence [s]).epsilon = true ↔ (F.ofSymbol s).epsilon = true := by
  rw [epsilon_ofSequence, List.forall_mem_singleton]

theorem mem_ofSequenceThen_iff : t ∈ F.ofSequenceThen α a ↔
    t ∈ (F.ofSequence α).terminals ∨ (F.ofSequence α).epsilon = true ∧ t = a := by
  unfold ofSequenceThen
  dsimp only
  split
  · next h => rw [OrdSet.mem_insert, or_comm, and_iff_right h]
  · next h => rw [or_iff_left fun hn => h hn.1]

/-- A sequence begins like its first part, and like the rest of it if the first
part has `ε`. -/
theorem mem_ofSequenceThen_append : t ∈ F.ofSequenceThen (α ++ β) a ↔
    t ∈ (F.ofSequence α).terminals ∨
      (F.ofSequence α).epsilon = true ∧ t ∈ F.ofSequenceThen β a := by
  rw [mem_ofSequenceThen_iff, mem_ofSequenceThen_iff, mem_terminals_append, epsilon_append,
    or_assoc, and_assoc, ← and_or_left]

@[simp] theorem mem_ofSequenceThen_nil : t ∈ F.ofSequenceThen [] a ↔ t = a := by
  simp [mem_ofSequenceThen_iff, ofSequence]

/-- Whether something can begin a sequence does not depend on what follows it. -/
theorem exists_mem_ofSequenceThen (h : t ∈ F.ofSequenceThen α a) (b : Terminal) :
    ∃ u, u ∈ F.ofSequenceThen α b := by
  rcases mem_ofSequenceThen_iff.mp h with h | ⟨h, _⟩
  · exact ⟨t, mem_ofSequenceThen_iff.mpr (.inl h)⟩
  · exact ⟨b, mem_ofSequenceThen_iff.mpr (.inr ⟨h, rfl⟩)⟩

end FirstSets

/-! ## Nullable nonterminals -/

theorem Rule.vanishes_iff {known : OrdSet Nonterminal} {rule : Rule} :
    rule.vanishes known = true ↔ ∀ s ∈ rule.right, ∃ n ∈ known, s = .nonterminal n := by
  unfold Rule.vanishes
  rw [List.all_eq_true]
  refine forall₂_congr fun s _ => ?_
  cases s <;> simp

/-- The rounds over the rules go on until every rule whose right-hand side
vanishes has been used. -/
theorem left_mem_nullableFrom {known : OrdSet Nonterminal} {pending : List Rule} {rule : Rule}
    (hRule : rule ∈ pending ∨ rule.left ∈ known)
    (hVanishes : rule.vanishes (nullableFrom known pending) = true) :
    rule.left ∈ nullableFrom known pending := by
  fun_induction nullableFrom known pending with
  | case1 known pending hDone =>
    rcases hRule with hRule | hRule
    · have : rule ∈ vanishing known pending := List.mem_filter.mpr ⟨hRule, hVanishes⟩
      rw [hDone] at this
      exact absurd this List.not_mem_nil
    · exact hRule
  | case2 known pending _ ih =>
    refine ih ?_ hVanishes
    rcases hRule with hRule | hRule
    · by_cases hNow : rule.vanishes known = true
      · refine .inr (OrdSet.mem_union.mpr (.inr (OrdSet.mem_ofList.mpr ?_)))
        exact List.mem_map_of_mem (List.mem_filter.mpr ⟨hRule, hNow⟩)
      · exact .inl (List.mem_filter.mpr ⟨hRule, by simpa using hNow⟩)
    · exact .inr (OrdSet.mem_union.mpr (.inl hRule))

namespace Grammar

variable {g : Grammar} {α β : List Symbol} {t : Terminal} {n : Nonterminal}

theorem derives_nil_of_forall (h : ∀ s ∈ α, g.Derives [s] []) : g.Derives α [] := by
  induction α with
  | nil => exact .refl _
  | cons s α ih =>
    rw [List.forall_mem_cons] at h
    exact h.1.append (ih h.2)

theorem derives_nil_of_mem_nullableFrom {known : OrdSet Nonterminal} {pending : List Rule}
    (hKnown : ∀ m ∈ known, g.Derives [.nonterminal m] []) (hPending : ∀ rule ∈ pending, rule ∈ g.rules)
    (h : n ∈ nullableFrom known pending) : g.Derives [.nonterminal n] [] := by
  fun_induction nullableFrom known pending with
  | case1 => exact hKnown n h
  | case2 known pending _ ih =>
    refine ih ?_ ?_ h
    · intro m hm
      rcases OrdSet.mem_union.mp hm with hm | hm
      · exact hKnown m hm
      · obtain ⟨rule, hRule, rfl⟩ := List.mem_map.mp (OrdSet.mem_ofList.mp hm)
        obtain ⟨hMem, hVanishes⟩ := List.mem_filter.mp hRule
        obtain ⟨r, hr⟩ := Array.mem_iff_getElem?.mp (hPending rule hMem)
        refine (Derives.of_rule hr).trans (derives_nil_of_forall fun s hs => ?_)
        obtain ⟨k, hk, rfl⟩ := Rule.vanishes_iff.mp hVanishes s hs
        exact hKnown k hk
    · exact fun rule hRule => hPending rule (List.mem_filter.mp hRule).1

theorem left_mem_nullable {r : RuleId} {rule : Rule} (hr : g.rules[r]? = some rule)
    (h : ∀ s ∈ rule.right, ∃ m ∈ g.nullable, s = .nonterminal m) : rule.left ∈ g.nullable := by
  have hMem : rule ∈ g.rules.toList := Array.mem_toList_iff.mpr (Array.mem_of_getElem? hr)
  exact left_mem_nullableFrom (.inl hMem) (Rule.vanishes_iff.mpr h)

theorem Yields.forall_nullable {w : List Terminal} {k : Nat} (h : g.Yields α w k) (hw : w = []) :
    ∀ s ∈ α, ∃ m ∈ g.nullable, s = .nonterminal m := by
  induction h with
  | nil => simp
  | terminal => cases hw
  | nonterminal hr _ _ ihu ihw =>
    obtain ⟨hu, hw⟩ := List.append_eq_nil_iff.mp hw
    exact List.forall_mem_cons.mpr ⟨⟨_, left_mem_nullable hr (ihu hu), rfl⟩, ihw hw⟩

theorem mem_nullable_iff : n ∈ g.nullable ↔ g.Derives [.nonterminal n] [] := by
  constructor
  · intro h
    refine derives_nil_of_mem_nullableFrom (fun m hm => absurd hm OrdSet.not_mem_empty) ?_ h
    exact fun rule hRule => Array.mem_toList_iff.mp hRule
  · intro h
    obtain ⟨k, hk⟩ := h.yields_nil
    obtain ⟨m, hm, he⟩ := hk.forall_nullable rfl _ (List.mem_singleton.mpr rfl)
    cases he
    exact hm

/-! ## The FIRST sets of symbols -/

theorem ofSymbol_nonterminal (hn : n < g.nonterminals.size) :
    g.firstSets.ofSymbol (.nonterminal n) = g.firstSet g.nullable n := by
  simp [FirstSets.ofSymbol, FirstSets.nonterminal?, firstSets, hn]

theorem ofSymbol_unknown (hn : ¬ n < g.nonterminals.size) :
    g.firstSets.ofSymbol (.nonterminal n) = ⟨∅, false⟩ := by
  simp [FirstSets.ofSymbol, FirstSets.nonterminal?, firstSets, hn]

theorem lt_of_mem_nullable (h : n ∈ g.nullable) : n < g.nonterminals.size := by
  obtain ⟨k, hk⟩ := (mem_nullable_iff.mp h).yields_nil
  obtain ⟨r, rule, hr, rfl⟩ := hk.exists_rule
  exact g.left_lt hr

theorem epsilon_ofSymbol_iff {s : Symbol} :
    (g.firstSets.ofSymbol s).epsilon = true ↔ g.Derives [s] [] := by
  cases s with
  | terminal t =>
    refine iff_of_false (by simp [FirstSets.ofSymbol]) fun h => ?_
    obtain ⟨k, hk⟩ := h.yields_nil
    cases hk
  | nonterminal n =>
    rw [← mem_nullable_iff]
    by_cases hn : n < g.nonterminals.size
    · simp [ofSymbol_nonterminal hn, firstSet]
    · rw [ofSymbol_unknown hn]
      exact iff_of_false (by simp) fun h => hn (lt_of_mem_nullable h)

theorem epsilon_ofSequence_iff : (g.firstSets.ofSequence α).epsilon = true ↔ g.Derives α [] := by
  rw [FirstSets.epsilon_ofSequence]
  constructor
  · exact fun h => derives_nil_of_forall fun s hs => epsilon_ofSymbol_iff.mp (h s hs)
  · intro h s hs
    obtain ⟨k, hk⟩ := h.yields_nil
    obtain ⟨m, hm, rfl⟩ := hk.forall_nullable rfl s hs
    exact epsilon_ofSymbol_iff.mpr (mem_nullable_iff.mp hm)

/-! ## What a symbol leads to -/

theorem mem_beginners_iff {nullable : OrdSet Nonterminal} {X : Symbol} :
    X ∈ beginners nullable α ↔ ∃ front back, α = front ++ X :: back ∧
      ∀ s ∈ front, ∃ m ∈ nullable, s = .nonterminal m := by
  constructor
  · intro h
    fun_induction beginners nullable α with
    | case1 => exact absurd h List.not_mem_nil
    | case2 t rest => exact ⟨[], rest, by rw [List.mem_singleton.mp h]; rfl, by simp⟩
    | case3 m rest ih =>
      rcases List.mem_cons.mp h with rfl | h
      · exact ⟨[], rest, rfl, by simp⟩
      · split at h
        · next hm =>
          obtain ⟨front, back, rfl, hf⟩ := ih h
          exact ⟨.nonterminal m :: front, back, rfl, List.forall_mem_cons.mpr ⟨⟨m, hm, rfl⟩, hf⟩⟩
        · exact absurd h List.not_mem_nil
  · rintro ⟨front, back, rfl, hf⟩
    induction front with
    | nil => cases X <;> simp [beginners]
    | cons s front ih =>
      rw [List.forall_mem_cons] at hf
      obtain ⟨⟨m, hm, rfl⟩, hf⟩ := hf
      rw [List.cons_append, beginners, if_pos hm]
      exact List.mem_cons_of_mem _ (ih hf)

/-- A nonterminal leads to a symbol if it has a rule in which only symbols that
derive the empty string precede it. -/
theorem mem_leadsTo_iff {X : Symbol} : X ∈ g.leadsTo g.nullable (.nonterminal n) ↔
    ∃ (r : RuleId) (rule : Rule) (front back : List Symbol), g.rules[r]? = some rule ∧
      rule.left = n ∧ rule.right = front ++ X :: back ∧ g.Derives front [] := by
  simp only [leadsTo, List.mem_flatMap, List.mem_filter, decide_eq_true_iff, mem_beginners_iff]
  constructor
  · rintro ⟨rule, ⟨hMem, hn⟩, front, back, hRight, hf⟩
    obtain ⟨r, hr⟩ := Array.mem_iff_getElem?.mp (Array.mem_toList_iff.mp hMem)
    refine ⟨r, rule, front, back, hr, hn, hRight, derives_nil_of_forall fun s hs => ?_⟩
    obtain ⟨m, hm, rfl⟩ := hf s hs
    exact mem_nullable_iff.mp hm
  · rintro ⟨r, rule, front, back, hr, hn, hRight, hf⟩
    refine ⟨rule, ⟨Array.mem_toList_iff.mpr (Array.mem_of_getElem? hr), hn⟩, front, back, hRight, ?_⟩
    obtain ⟨k, hk⟩ := hf.yields_nil
    exact hk.forall_nullable rfl

theorem mem_ofSymbol_iff {s : Symbol} : t ∈ (g.firstSets.ofSymbol s).terminals ↔
    Reaches (g.leadsTo g.nullable) s (.terminal t) := by
  cases s with
  | terminal u =>
    simp only [FirstSets.ofSymbol, OrdSet.mem_singleton]
    constructor
    · rintro rfl
      exact .refl
    · intro h
      rcases h.cases_head with hEq | ⟨_, hNext, _⟩
      · exact (Symbol.terminal.inj hEq).symm
      · exact absurd hNext List.not_mem_nil
  | nonterminal n =>
    by_cases hn : n < g.nonterminals.size
    · rw [ofSymbol_nonterminal hn, firstSet, OrdSet.mem_ofList, List.mem_filterMap]
      simp only [Symbol.terminal?_eq_some_iff, exists_eq_right, mem_beginnings]
    · rw [ofSymbol_unknown hn]
      refine iff_of_false OrdSet.not_mem_empty fun h => ?_
      rcases h.cases_head with hEq | ⟨X, hX, _⟩
      · cases hEq
      · obtain ⟨r, rule, _, _, hr, rfl, _⟩ := mem_leadsTo_iff.mp hX
        exact hn (g.left_lt hr)

/-! ## Rules and derivations -/

/-- What begins the right-hand side of a rule begins its left-hand side. -/
theorem mem_ofSymbol_left {r : RuleId} {rule : Rule} (hr : g.rules[r]? = some rule)
    (h : t ∈ (g.firstSets.ofSequence rule.right).terminals) :
    t ∈ (g.firstSets.ofSymbol (.nonterminal rule.left)).terminals := by
  obtain ⟨front, X, back, hRight, hf, hX⟩ := FirstSets.mem_terminals_ofSequence.mp h
  rw [mem_ofSymbol_iff] at hX ⊢
  refine .head (mem_leadsTo_iff.mpr ⟨r, rule, front, back, hr, rfl, hRight, ?_⟩) hX
  exact epsilon_ofSequence_iff.mp hf

theorem epsilon_ofSymbol_left {r : RuleId} {rule : Rule} (hr : g.rules[r]? = some rule)
    (h : (g.firstSets.ofSequence rule.right).epsilon = true) :
    (g.firstSets.ofSymbol (.nonterminal rule.left)).epsilon = true :=
  epsilon_ofSymbol_iff.mpr ((Derives.of_rule hr).trans (epsilon_ofSequence_iff.mp h))

theorem firstSets_closed (g : Grammar) : g.firstSets.Closed g := fun _ _ hr =>
  ⟨fun _ => mem_ofSymbol_left hr, epsilon_ofSymbol_left hr⟩

end Grammar

namespace FirstSets

open Grammar

variable {F : FirstSets} {g : Grammar} {α β : List Symbol} {t : Terminal}

theorem Closed.within_of_produces (hClosed : F.Closed g) (hp : g.Produces α β) :
    (F.ofSequence β).Within (F.ofSequence α) := by
  cases hp with
  | @intro r rule front back hr =>
    have hRule := hClosed r rule hr
    rw [← List.singleton_append]
    constructor
    · intro t ht
      rw [mem_terminals_append, mem_terminals_append] at ht ⊢
      refine ht.imp_right fun ⟨hFront, ht⟩ => ⟨hFront, ?_⟩
      rw [mem_terminals_singleton, epsilon_singleton]
      exact ht.imp (hRule.terminals t) (And.imp_left hRule.epsilon)
    · simp only [epsilon_append, epsilon_singleton]
      exact And.imp_right (And.imp_left hRule.epsilon)

/-- No derivation brings anything new into FIRST sets that are closed under the rules. -/
theorem Closed.within_of_derives (hClosed : F.Closed g) (h : g.Derives α β) :
    (F.ofSequence β).Within (F.ofSequence α) := by
  induction h with
  | refl => exact .refl _
  | step _ hp ih => exact (hClosed.within_of_produces hp).trans ih

/-- The terminal that a derived string begins with is in the FIRST set. -/
theorem Closed.mem_of_derives (hClosed : F.Closed g) (h : g.Derives α (.terminal t :: β)) :
    t ∈ (F.ofSequence α).terminals := by
  refine (hClosed.within_of_derives h).terminals t ?_
  simp [ofSequence, ofSymbol]

theorem Closed.epsilon_of_derives (hClosed : F.Closed g) (h : g.Derives α []) :
    (F.ofSequence α).epsilon = true :=
  (hClosed.within_of_derives h).epsilon rfl

end FirstSets

namespace Grammar

variable {g : Grammar} {α β : List Symbol} {t : Terminal}

theorem Derives.mem_first (h : g.Derives α (.terminal t :: β)) :
    t ∈ (g.firstSets.ofSequence α).terminals :=
  g.firstSets_closed.mem_of_derives h

/-! ## What FIRST sets promise -/

/-- A terminal in the FIRST set of a symbol begins a string that the symbol derives. -/
theorem exists_derives_of_mem_ofSymbol {s : Symbol} (h : t ∈ (g.firstSets.ofSymbol s).terminals) :
    ∃ back, g.Derives [s] (.terminal t :: back) := by
  rw [mem_ofSymbol_iff] at h
  induction h using Relation.ReflTransGen.head_induction_on with
  | refl => exact ⟨[], .refl _⟩
  | @head X Y hY _ ih =>
    obtain ⟨back, hDerives⟩ := ih
    cases X with
    | terminal u => exact absurd hY List.not_mem_nil
    | nonterminal n =>
      obtain ⟨r, rule, front, rest, hr, rfl, hRight, hFront⟩ := mem_leadsTo_iff.mp hY
      have hRule := Derives.of_rule hr
      rw [hRight, ← List.singleton_append] at hRule
      exact ⟨back ++ rest, hRule.trans (hFront.append (hDerives.append_right rest))⟩

/-- A terminal in the FIRST set of a sequence begins a string that the sequence derives. -/
theorem exists_derives_of_mem_ofSequence (h : t ∈ (g.firstSets.ofSequence α).terminals) :
    ∃ back, g.Derives α (.terminal t :: back) := by
  obtain ⟨front, X, rest, rfl, hFront, hX⟩ := FirstSets.mem_terminals_ofSequence.mp h
  obtain ⟨back, hDerives⟩ := exists_derives_of_mem_ofSymbol hX
  refine ⟨back ++ rest, ?_⟩
  exact (epsilon_ofSequence_iff.mp hFront).append (hDerives.append_right rest)

end Grammar

end ShiftReduce
