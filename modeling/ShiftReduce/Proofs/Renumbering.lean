import ShiftReduce.Proofs.CanonicalStates
import ShiftReduce.Proofs.ValidItems

/-!
# Renumbered rules

A grammar may have the rules of another one under other numbers, and besides them rules of
nonterminals that the augmented start does not involve (`Grammar.Renumbers`). Nothing in the
automaton of the first grammar but the numbers changes with that.

The argument goes through derivations. From a string of involved symbols both grammars derive the
same strings, because a derivation that starts there never comes to a rule that only the second
grammar has (`derives_iff`). FIRST sets are what derivations make them, whatever the rounds are in
which they are found, so they agree on such strings (`ofSequence_eq`). All items that the initial
one leads to are of rules of involved nonterminals, and on sets of such items everything commutes
with renumbering: predictions, closure, goto and the collection of item sets.
-/

namespace ShiftReduce

/-! ## Items with other rule numbers -/

section Items

variable {ρ : RuleId → RuleId} {i j : Item} {s t : ItemSet} {core : Core}

def Core.renumber (ρ : RuleId → RuleId) (core : Core) : Core :=
  ⟨ρ core.rule, core.marker⟩

def Item.renumber (ρ : RuleId → RuleId) (i : Item) : Item :=
  ⟨i.core.renumber ρ, i.lookahead⟩

def ItemSet.renumber (ρ : RuleId → RuleId) (s : ItemSet) : ItemSet :=
  OrdSet.ofList (s.toList.map (Item.renumber ρ))

theorem Core.renumber_injective (hρ : Function.Injective ρ) :
    Function.Injective (Core.renumber ρ) := by
  rintro ⟨r, m⟩ ⟨r', m'⟩ hEq
  obtain ⟨hRule, hMarker⟩ := Core.mk.inj hEq
  rw [Core.mk.injEq]
  exact ⟨hρ hRule, hMarker⟩

theorem Item.renumber_injective (hρ : Function.Injective ρ) :
    Function.Injective (Item.renumber ρ) := by
  rintro ⟨core, t⟩ ⟨core', t'⟩ hEq
  obtain ⟨hCore, hLookahead⟩ := Item.mk.inj hEq
  rw [Item.mk.injEq]
  exact ⟨Core.renumber_injective hρ hCore, hLookahead⟩

theorem Item.renumber_id (i : Item) : i.renumber id = i :=
  rfl

theorem ItemSet.mem_renumber : j ∈ s.renumber ρ ↔ ∃ i ∈ s, i.renumber ρ = j := by
  simp only [renumber, OrdSet.mem_ofList, List.mem_map, OrdSet.mem_toList]

theorem ItemSet.mem_renumber_iff (hρ : Function.Injective ρ) :
    i.renumber ρ ∈ s.renumber ρ ↔ i ∈ s := by
  rw [mem_renumber]
  constructor
  · rintro ⟨j, hj, hEq⟩
    exact Item.renumber_injective hρ hEq ▸ hj
  · exact fun hi => ⟨i, hi, rfl⟩

theorem ItemSet.renumber_injective (hρ : Function.Injective ρ) :
    Function.Injective (ItemSet.renumber ρ) := fun s t hEq =>
  OrdSet.ext fun i => by rw [← mem_renumber_iff hρ, hEq, mem_renumber_iff hρ]

theorem ItemSet.renumber_id (s : ItemSet) : s.renumber id = s :=
  OrdSet.ext fun i => by simp only [mem_renumber, Item.renumber_id, exists_eq_right]

theorem ItemSet.mem_cores_renumber :
    core ∈ (s.renumber ρ).cores ↔ ∃ core' ∈ s.cores, core'.renumber ρ = core := by
  simp only [mem_cores, mem_renumber]
  constructor
  · rintro ⟨_, ⟨core', t⟩, hMem, hEq⟩
    exact ⟨core', ⟨t, hMem⟩, congrArg Item.core hEq⟩
  · rintro ⟨core', ⟨t, hMem⟩, rfl⟩
    exact ⟨t, ⟨core', t⟩, hMem, rfl⟩

end Items

namespace Grammar

variable {g g' : Grammar} {ρ : RuleId → RuleId} {α β : List Symbol} {i j : Item} {s : ItemSet}
  {X : Symbol} {n : Nonterminal} {a : Terminal} {core : Core}

/-! ## What the augmented start involves -/

/-- Whether the augmented start involves every nonterminal of a string. -/
def Involved (g : Grammar) (α : List Symbol) : Prop :=
  ∀ n, .nonterminal n ∈ α → g.Involves augmentedStart n

theorem involves_self (g : Grammar) (n : Nonterminal) : g.Involves n n :=
  ⟨[], [], .refl _⟩

theorem Involved.of_rule {r : RuleId} {rule : Rule} (hr : g.rules[r]? = some rule)
    (hLeft : g.Involves augmentedStart rule.left) : g.Involved rule.right :=
  fun _ hn => hLeft.of_rule hr hn

theorem Involved.of_derives (hα : g.Involved α) (h : g.Derives α β) : g.Involved β := by
  have hAll : ∀ s ∈ β, ∀ n, s = .nonterminal n → g.Involves augmentedStart n := by
    refine h.forall_mem_of_left (fun r rule hr hLeft s hs n hn => ?_) fun s hs n hn => ?_
    · exact (hLeft _ rfl).of_rule hr (hn ▸ hs)
    · exact hα n (hn ▸ hs)
  exact fun n hn => hAll _ hn n rfl

theorem Involved.of_cons (hα : g.Involved (X :: α)) : g.Involved α :=
  fun n hn => hα n (List.mem_cons_of_mem _ hn)

/-- An item of a rule whose left-hand side the augmented start involves. -/
def InvolvesItem (g : Grammar) (i : Item) : Prop :=
  ∃ rule, g.rules[i.core.rule]? = some rule ∧ g.Involves augmentedStart rule.left

theorem InvolvesItem.rest (h : g.InvolvesItem i) : g.Involved (i.core.rest g) := by
  obtain ⟨rule, hr, hLeft⟩ := h
  rw [Core.rest_eq_drop hr]
  exact fun n hn => Involved.of_rule hr hLeft n (List.mem_of_mem_drop hn)

theorem InvolvesItem.of_predicts (h : g.InvolvesItem i) (hj : j ∈ g.predicts g.firstSets i) :
    g.InvolvesItem j := by
  obtain ⟨n, tail, hRest, hn, _, _⟩ := (g.mem_predicts _).mp hj
  obtain ⟨rule, hr, rfl⟩ := g.mem_rulesOf.mp hn
  exact ⟨rule, hr, h.rest _ (hRest ▸ List.mem_cons_self)⟩

theorem involvesItem_of_mem_closure (hs : ∀ i ∈ s, g.InvolvesItem i) :
    ∀ j ∈ g.closure g.firstSets s, g.InvolvesItem j :=
  g.forall_mem_closure _ hs fun _ hi _ hj => hi.of_predicts hj

theorem involvesItem_of_mem_shifted (hs : ∀ i ∈ s, g.InvolvesItem i) :
    ∀ j ∈ g.shifted s X, g.InvolvesItem j := by
  intro j hj
  obtain ⟨i, hi, _, rfl⟩ := g.mem_shifted.mp hj
  exact hs i hi

theorem involvesItem_of_mem_goto (hs : ∀ i ∈ s, g.InvolvesItem i) :
    ∀ j ∈ g.goto g.firstSets s X, g.InvolvesItem j :=
  involvesItem_of_mem_closure (involvesItem_of_mem_shifted hs)

theorem involvesItem_initialItem (g : Grammar) : g.InvolvesItem initialItem :=
  ⟨_, g.augmentedRule_first, g.involves_self augmentedStart⟩

theorem involvesItem_of_mem_initialItems :
    ∀ j ∈ g.initialItems g.firstSets, g.InvolvesItem j :=
  involvesItem_of_mem_closure fun _ hi => OrdSet.mem_singleton.mp hi ▸ g.involvesItem_initialItem

theorem involvesItem_of_mem_collection (hs : s ∈ g.collection) : ∀ i ∈ s, g.InvolvesItem i := by
  induction hs using collection_induction with
  | initial => exact involvesItem_of_mem_initialItems
  | goto s X _ _ ih => exact involvesItem_of_mem_goto ih

/-! ## Grammars with other rule numbers -/

/-- The second grammar has the rules of the first one under the numbers that `ρ` gives them, and
no others for the nonterminals that matter to the first one. -/
structure Renumbers (g g' : Grammar) (ρ : RuleId → RuleId) : Prop where
  injective : Function.Injective ρ
  rule : ∀ (r : RuleId) (rule : Rule), g.rules[r]? = some rule → g'.rules[ρ r]? = some rule
  exists_rule : ∀ (r' : RuleId) (rule : Rule), g'.rules[r']? = some rule →
    g.Involves augmentedStart rule.left → ∃ r, ρ r = r' ∧ g.rules[r]? = some rule

namespace Renumbers

variable (hR : g.Renumbers g' ρ)
include hR

theorem augmentedRule_eq : ρ augmentedRule = augmentedRule := by
  refine Decidable.byContradiction fun h0 => ?_
  exact Nat.lt_irrefl 0 (g'.left_pos (hR.rule _ _ g.augmentedRule_first) h0)

theorem eq_augmentedRule_iff {r : RuleId} : ρ r = augmentedRule ↔ r = augmentedRule := by
  conv => lhs; rw [← hR.augmentedRule_eq]
  exact hR.injective.eq_iff

theorem derives (h : g.Derives α β) : g'.Derives α β := by
  induction h with
  | refl => exact .refl _
  | step _ hStep ih =>
    cases hStep with
    | intro front back hr => exact ih.step (.intro front back (hR.rule _ _ hr))

/-- A derivation that starts from what is involved does not leave the first grammar. -/
theorem derives_of_involved (hα : g.Involved α) (h : g'.Derives α β) : g.Derives α β := by
  induction h with
  | refl => exact .refl _
  | step _ hStep ih =>
    cases hStep with
    | intro front back hr =>
      have hLeft := hα.of_derives ih _ (List.mem_append_right _ List.mem_cons_self)
      obtain ⟨r, _, hr⟩ := hR.exists_rule _ _ hr hLeft
      exact ih.step (.intro front back hr)

theorem derives_iff (hα : g.Involved α) : g'.Derives α β ↔ g.Derives α β :=
  ⟨hR.derives_of_involved hα, hR.derives⟩

theorem ofSequence_eq (hα : g.Involved α) :
    g'.firstSets.ofSequence α = g.firstSets.ofSequence α := by
  refine FirstSet.Within.antisymm ⟨fun t ht => ?_, fun hEpsilon => ?_⟩
    ⟨fun t ht => ?_, fun hEpsilon => ?_⟩
  · obtain ⟨back, hDerives⟩ := exists_derives_of_mem_ofSequence ht
    exact ((hR.derives_iff hα).mp hDerives).mem_first
  · exact epsilon_ofSequence_iff.mpr ((hR.derives_iff hα).mp (epsilon_ofSequence_iff.mp hEpsilon))
  · obtain ⟨back, hDerives⟩ := exists_derives_of_mem_ofSequence ht
    exact (hR.derives hDerives).mem_first
  · exact epsilon_ofSequence_iff.mpr (hR.derives (epsilon_ofSequence_iff.mp hEpsilon))

theorem ofSequenceThen_eq (hα : g.Involved α) (a : Terminal) :
    g'.firstSets.ofSequenceThen α a = g.firstSets.ofSequenceThen α a := by
  rw [FirstSets.ofSequenceThen, FirstSets.ofSequenceThen, hR.ofSequence_eq hα]

/-! ## Closure and goto -/

theorem rest_renumber (hi : g.InvolvesItem i) :
    (i.renumber ρ).core.rest g' = i.core.rest g := by
  obtain ⟨rule, hr, _⟩ := hi
  rw [Core.rest_eq_drop hr]
  exact Core.rest_eq_drop (hR.rule _ _ hr)

theorem next_renumber (hi : g.InvolvesItem i) :
    (i.renumber ρ).core.next g' = i.core.next g :=
  congrArg List.head? (hR.rest_renumber hi)

theorem mem_predicts_renumber (hi : g.InvolvesItem i) :
    j ∈ g'.predicts g'.firstSets (i.renumber ρ) ↔
      ∃ k ∈ g.predicts g.firstSets i, k.renumber ρ = j := by
  simp only [mem_predicts, hR.rest_renumber hi]
  constructor
  · rintro ⟨n, tail, hRest, hn, hMarker, hLookahead⟩
    have hInvolved : g.Involved (.nonterminal n :: tail) := hRest ▸ hi.rest
    obtain ⟨rule, hr', rfl⟩ := g'.mem_rulesOf.mp hn
    obtain ⟨r, hRule, hr⟩ := hR.exists_rule _ _ hr' (hInvolved _ List.mem_cons_self)
    rw [hR.ofSequenceThen_eq hInvolved.of_cons] at hLookahead
    refine ⟨⟨⟨r, 0⟩, j.lookahead⟩, ⟨_, tail, hRest, g.mem_rulesOf.mpr ⟨rule, hr, rfl⟩, rfl,
      hLookahead⟩, ?_⟩
    rw [Item.renumber, Core.renumber, hRule, ← hMarker]
  · rintro ⟨k, ⟨n, tail, hRest, hn, hMarker, hLookahead⟩, rfl⟩
    have hInvolved : g.Involved (.nonterminal n :: tail) := hRest ▸ hi.rest
    obtain ⟨rule, hr, rfl⟩ := g.mem_rulesOf.mp hn
    refine ⟨_, tail, hRest, g'.mem_rulesOf.mpr ⟨rule, hR.rule _ _ hr, rfl⟩, hMarker, ?_⟩
    rw [hR.ofSequenceThen_eq hInvolved.of_cons]
    exact hLookahead

theorem reaches_renumber (hi : g.InvolvesItem i) :
    Reaches (g'.predicts g'.firstSets) (i.renumber ρ) j ↔
      ∃ k, Reaches (g.predicts g.firstSets) i k ∧ k.renumber ρ = j := by
  have hInvolved : ∀ k, Reaches (g.predicts g.firstSets) i k → g.InvolvesItem k := by
    intro k hk
    induction hk with
    | refl => exact hi
    | tail _ hStep ih => exact ih.of_predicts hStep
  constructor
  · intro h
    induction h with
    | refl => exact ⟨i, .refl, rfl⟩
    | tail _ hStep ih =>
      obtain ⟨k, hk, rfl⟩ := ih
      obtain ⟨k', hk', rfl⟩ := (hR.mem_predicts_renumber (hInvolved k hk)).mp hStep
      exact ⟨k', hk.tail hk', rfl⟩
  · rintro ⟨k, hk, rfl⟩
    induction hk with
    | refl => exact .refl
    | tail hk hStep ih =>
      exact ih.tail ((hR.mem_predicts_renumber (hInvolved _ hk)).mpr ⟨_, hStep, rfl⟩)

theorem closure_renumber (hs : ∀ i ∈ s, g.InvolvesItem i) :
    g'.closure g'.firstSets (s.renumber ρ) = (g.closure g.firstSets s).renumber ρ := by
  refine OrdSet.ext fun j => ?_
  rw [mem_closure, ItemSet.mem_renumber]
  constructor
  · rintro ⟨_, hMem, hReaches⟩
    obtain ⟨i, hi, rfl⟩ := ItemSet.mem_renumber.mp hMem
    obtain ⟨k, hk, hEq⟩ := (hR.reaches_renumber (hs i hi)).mp hReaches
    exact ⟨k, (g.mem_closure _).mpr ⟨i, hi, hk⟩, hEq⟩
  · rintro ⟨k, hk, hEq⟩
    obtain ⟨i, hi, hReaches⟩ := (g.mem_closure _).mp hk
    exact ⟨_, ItemSet.mem_renumber.mpr ⟨i, hi, rfl⟩,
      (hR.reaches_renumber (hs i hi)).mpr ⟨k, hReaches, hEq⟩⟩

theorem shifted_renumber (hs : ∀ i ∈ s, g.InvolvesItem i) (X : Symbol) :
    g'.shifted (s.renumber ρ) X = (g.shifted s X).renumber ρ := by
  refine OrdSet.ext fun j => ?_
  rw [mem_shifted, ItemSet.mem_renumber]
  constructor
  · rintro ⟨_, hMem, hNext, rfl⟩
    obtain ⟨i, hi, rfl⟩ := ItemSet.mem_renumber.mp hMem
    rw [hR.next_renumber (hs i hi)] at hNext
    exact ⟨_, g.mem_shifted.mpr ⟨i, hi, hNext, rfl⟩, rfl⟩
  · rintro ⟨k, hk, rfl⟩
    obtain ⟨i, hi, hNext, rfl⟩ := g.mem_shifted.mp hk
    rw [← hR.next_renumber (hs i hi)] at hNext
    exact ⟨_, ItemSet.mem_renumber.mpr ⟨i, hi, rfl⟩, hNext, rfl⟩

theorem goto_renumber (hs : ∀ i ∈ s, g.InvolvesItem i) (X : Symbol) :
    g'.goto g'.firstSets (s.renumber ρ) X = (g.goto g.firstSets s X).renumber ρ := by
  rw [goto, hR.shifted_renumber hs, hR.closure_renumber (involvesItem_of_mem_shifted hs), goto]

theorem initialItems_renumber :
    g'.initialItems g'.firstSets = (g.initialItems g.firstSets).renumber ρ := by
  have hInitial : OrdSet.singleton initialItem =
      ItemSet.renumber ρ (OrdSet.singleton initialItem) := by
    refine OrdSet.ext fun j => ?_
    rw [ItemSet.mem_renumber, OrdSet.mem_singleton]
    constructor
    · rintro rfl
      refine ⟨_, OrdSet.mem_singleton.mpr rfl, ?_⟩
      rw [Item.renumber, Core.renumber, initialItem, hR.augmentedRule_eq]
    · rintro ⟨i, hi, rfl⟩
      rw [OrdSet.mem_singleton.mp hi, Item.renumber, Core.renumber, initialItem,
        hR.augmentedRule_eq]
  rw [initialItems, hInitial]
  exact hR.closure_renumber fun _ hi => OrdSet.mem_singleton.mp hi ▸ g.involvesItem_initialItem

/-! ## The collection of item sets -/

theorem mem_nextSymbols_renumber (hs : ∀ i ∈ s, g.InvolvesItem i) :
    X ∈ g'.nextSymbols (s.renumber ρ) ↔ X ∈ g.nextSymbols s := by
  rw [mem_nextSymbols, mem_nextSymbols]
  constructor
  · rintro ⟨_, hMem, hNext⟩
    obtain ⟨i, hi, rfl⟩ := ItemSet.mem_renumber.mp hMem
    exact ⟨i, hi, hR.next_renumber (hs i hi) ▸ hNext⟩
  · rintro ⟨i, hi, hNext⟩
    exact ⟨_, ItemSet.mem_renumber.mpr ⟨i, hi, rfl⟩, (hR.next_renumber (hs i hi)).trans hNext⟩

/-- The item sets of both grammars are the same up to the numbers of their rules. -/
theorem mem_collection_iff {s' : ItemSet} :
    s' ∈ g'.collection ↔ ∃ s ∈ g.collection, s.renumber ρ = s' := by
  constructor
  · intro hs'
    induction hs' using collection_induction with
    | initial => exact ⟨_, initialItems_mem_collection, hR.initialItems_renumber.symm⟩
    | goto _ X _ hX ih =>
      obtain ⟨s, hs, rfl⟩ := ih
      have hInvolved := involvesItem_of_mem_collection hs
      rw [hR.mem_nextSymbols_renumber hInvolved] at hX
      exact ⟨_, goto_mem_collection hs hX, (hR.goto_renumber hInvolved X).symm⟩
  · rintro ⟨s, hs, rfl⟩
    induction hs using collection_induction with
    | initial => rw [← hR.initialItems_renumber]; exact initialItems_mem_collection
    | goto s X hs hX ih =>
      have hInvolved := involvesItem_of_mem_collection hs
      rw [← hR.goto_renumber hInvolved]
      exact goto_mem_collection ih ((hR.mem_nextSymbols_renumber hInvolved).mpr hX)

end Renumbers

end Grammar

end ShiftReduce
