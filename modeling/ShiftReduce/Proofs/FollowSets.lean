import ShiftReduce.Follow.Sweep
import ShiftReduce.Proofs.ValidItems

/-!
# FOLLOW sets are exact

The FOLLOW sets are the least ones with three properties: the end marker follows the augmented
start; where a nonterminal stands on the right of a rule, what the symbols behind it begin with
follows it; and if these symbols are nullable, what follows the left-hand side follows it too
(`followSet_induction` says that they are the least). From this description come

* `sweptFollowSets_eq`: sweeping over the rules ends with these sets, for any FIRST sets;
* `Derives.mem_followSet`: with the grammar's own FIRST sets nothing is missing that stands after
  a nonterminal in a derived string;
* `exists_derives_of_mem_followSet`, `exists_derives_of_endMarker`: everything in a FOLLOW set
  stands after the nonterminal in some derived string, or the nonterminal ends one.

The derivation that puts a terminal after a nonterminal starts from any nonterminal, since the
rules of nonterminals that are never involved in a parse contribute as well. Only for the end
marker does it start from the augmented start.
-/

namespace ShiftReduce

namespace Grammar

variable {g : Grammar} {F : FirstSets} {n m : Nonterminal} {t : Terminal} {rule : Rule}
  {rest front α β : List Symbol}

/-! ## The least sets -/

theorem mem_occurrences :
    (m, rest) ∈ g.occurrences n ↔ ∃ rule, g.Occurs rule n rest ∧ rule.left = m := by
  simp only [occurrences, List.mem_flatMap, List.mem_map, mem_after, Prod.mk.injEq,
    Array.mem_toList_iff, Occurs]
  constructor
  · rintro ⟨rule, hRule, rest', hFront, hLeft, rfl⟩
    exact ⟨rule, ⟨hRule, hFront⟩, hLeft⟩
  · rintro ⟨rule, ⟨hRule, hFront⟩, hLeft⟩
    exact ⟨rule, hRule, rest, hFront, hLeft, rfl⟩

theorem mem_passesTo : m ∈ g.passesTo F n ↔
    ∃ rule rest, g.Occurs rule n rest ∧ rule.left = m ∧ (F.ofSequence rest).epsilon = true := by
  simp only [passesTo, List.mem_map, List.mem_filter, Prod.exists, mem_occurrences]
  constructor
  · rintro ⟨_, rest, ⟨⟨rule, hOccurs, rfl⟩, hEmpty⟩, rfl⟩
    exact ⟨rule, rest, hOccurs, rfl, hEmpty⟩
  · rintro ⟨rule, rest, hOccurs, rfl, hEmpty⟩
    exact ⟨_, rest, ⟨⟨rule, hOccurs, rfl⟩, hEmpty⟩, rfl⟩

theorem mem_nearFollowers : t ∈ g.nearFollowers F n ↔ n = augmentedStart ∧ t = endMarker ∨
    ∃ rule rest, g.Occurs rule n rest ∧ t ∈ (F.ofSequence rest).terminals := by
  rw [nearFollowers, List.mem_append]
  refine or_congr ?_ ?_
  · split <;> simp [*]
  · simp only [List.mem_flatMap, Prod.exists, mem_occurrences, OrdSet.mem_toList]
    constructor
    · rintro ⟨_, rest, ⟨rule, hOccurs, _⟩, ht⟩
      exact ⟨rule, rest, hOccurs, ht⟩
    · rintro ⟨rule, rest, hOccurs, ht⟩
      exact ⟨_, rest, ⟨rule, hOccurs, rfl⟩, ht⟩

theorem mem_followSet : t ∈ g.followSet F n ↔
    ∃ m, Reaches (g.passesTo F) n m ∧ t ∈ g.nearFollowers F m := by
  simp [followSet, mem_ascents]

theorem endMarker_mem_followSet : endMarker ∈ g.followSet F augmentedStart :=
  mem_followSet.mpr ⟨_, .refl, mem_nearFollowers.mpr (.inl ⟨rfl, rfl⟩)⟩

theorem Occurs.mem_of_first (hOccurs : g.Occurs rule n rest)
    (ht : t ∈ (F.ofSequence rest).terminals) : t ∈ g.followSet F n :=
  mem_followSet.mpr ⟨_, .refl, mem_nearFollowers.mpr (.inr ⟨rule, rest, hOccurs, ht⟩)⟩

theorem Occurs.mem_of_left (hOccurs : g.Occurs rule n rest)
    (hEmpty : (F.ofSequence rest).epsilon = true) (ht : t ∈ g.followSet F rule.left) :
    t ∈ g.followSet F n := by
  obtain ⟨m, hReaches, ht⟩ := mem_followSet.mp ht
  have hPasses : rule.left ∈ g.passesTo F n := mem_passesTo.mpr ⟨rule, rest, hOccurs, rfl, hEmpty⟩
  exact mem_followSet.mpr ⟨m, .head hPasses hReaches, ht⟩

/-- A terminal follows only those nonterminals that it has to follow. -/
theorem followSet_induction {P : Nonterminal → Prop} (ht : t ∈ g.followSet F n)
    (start : t = endMarker → P augmentedStart)
    (first : ∀ rule n rest, g.Occurs rule n rest → t ∈ (F.ofSequence rest).terminals → P n)
    (left : ∀ rule n rest, g.Occurs rule n rest → (F.ofSequence rest).epsilon = true →
      P rule.left → P n) : P n := by
  rw [mem_followSet] at ht
  obtain ⟨m, hReaches, ht⟩ := ht
  induction hReaches using Relation.ReflTransGen.head_induction_on with
  | refl =>
    rcases mem_nearFollowers.mp ht with ⟨rfl, hEnd⟩ | ⟨rule, rest, hOccurs, ht⟩
    · exact start hEnd
    · exact first rule m rest hOccurs ht
  | @head n _ hPasses _ hLeft =>
    obtain ⟨rule, rest, hOccurs, rfl, hEmpty⟩ := mem_passesTo.mp hPasses
    exact left rule n rest hOccurs hEmpty hLeft

theorem Occurs.exists_rule (hOccurs : g.Occurs rule n rest) : ∃ (r : RuleId) (before : List Symbol),
    g.rules[r]? = some rule ∧ rule.right = before ++ .nonterminal n :: rest := by
  obtain ⟨hRule, before, hRight⟩ := hOccurs
  obtain ⟨r, hr⟩ := Array.mem_iff_getElem?.mp hRule
  exact ⟨r, before, hr, hRight⟩

theorem Occurs.lt (hOccurs : g.Occurs rule n rest) : n < g.nonterminals.size := by
  obtain ⟨r, before, hr, hRight⟩ := hOccurs.exists_rule
  have hMem : Symbol.nonterminal n ∈ rule.right := by
    rw [hRight]
    exact List.mem_append_right _ List.mem_cons_self
  exact (g.declared_of_mem_right hr hMem).2

/-! ## Sweeping finds the FOLLOW sets -/

theorem size_followSets : (g.followSets F).sets.size = g.nonterminals.size := by
  simp [followSets]

theorem size_sweptFollowSets : (g.sweptFollowSets F).sets.size = g.nonterminals.size := by
  rw [sweptFollowSets, Sweep.size_settle, endFollowSets, Array.size_setIfInBounds,
    Array.size_replicate]

/-- Sweeping adds only what the FOLLOW sets hold. -/
theorem sweptFollowSets_subset : ∀ (n : Nonterminal) (set : OrdSet Terminal),
    (g.sweptFollowSets F).sets[n]? = some set → set ⊆ g.followSet F n := by
  apply Sweep.settle_forall
  · intro visit hVisit sets hSets set hSet t ht
    obtain ⟨rule, n, rest, hOccurs, rfl⟩ := (g.mem_followVisits F).mp hVisit
    rcases OrdSet.mem_union.mp ht with ht | ht
    · exact hSet t ht
    · rcases Rule.mem_share_followVisit.mp ht with ht | ⟨hEmpty, set', hLeft, ht⟩
      · exact hOccurs.mem_of_first ht
      · exact hOccurs.mem_of_left hEmpty (hSets _ set' hLeft t ht)
  · intro n set hSet t ht
    rw [endFollowSets, Array.getElem?_setIfInBounds] at hSet
    split at hSet
    · next hStart =>
      split at hSet
      · rw [← Option.some_inj.mp hSet, OrdSet.mem_singleton] at ht
        rw [ht, ← hStart]
        exact endMarker_mem_followSet
      · cases hSet
    · rw [Array.eq_of_mem_replicate (Array.mem_of_getElem? hSet)] at ht
      exact absurd ht OrdSet.not_mem_empty

/-- When sweeping ends, no occurrence has anything to add. -/
theorem Occurs.share_subset (hOccurs : g.Occurs rule n rest) :
    ∃ set, (g.sweptFollowSets F).sets[n]? = some set ∧
      (rule.followVisit F (n, rest)).share (g.sweptFollowSets F).sets ⊆ set := by
  have hVisit : rule.followVisit F (n, rest) ∈ (g.followSweep F).visits :=
    (g.mem_followVisits F).mpr ⟨rule, n, rest, hOccurs, rfl⟩
  have hPlace := hOccurs.lt
  rw [← size_sweptFollowSets (F := F)] at hPlace
  have hSet := Array.getElem?_eq_getElem hPlace
  refine ⟨_, hSet, ?_⟩
  have hJoin := Sweep.join_share_settle _ hVisit hSet
  rw [← hJoin]
  exact OrdSet.subset_union_right

/-- Everything in the FOLLOW sets is found by sweeping. -/
theorem exists_mem_sweptFollowSets (ht : t ∈ g.followSet F n) :
    ∃ set, (g.sweptFollowSets F).sets[n]? = some set ∧ t ∈ set := by
  apply followSet_induction ht
  · rintro rfl
    apply Sweep.settle_keeps
    · exact fun _ _ h => OrdSet.mem_union.mpr (.inl h)
    · have hStart : augmentedStart < g.nonterminals.size :=
        Nat.lt_trans g.start_declared.1 g.start_declared.2
      exact ⟨_, Array.getElem?_setIfInBounds_self_of_lt (by simpa using hStart),
        OrdSet.mem_singleton.mpr rfl⟩
  · intro rule n rest hOccurs ht
    obtain ⟨set, hSet, hShare⟩ := hOccurs.share_subset (F := F)
    exact ⟨set, hSet, hShare t (Rule.mem_share_followVisit.mpr (.inl ht))⟩
  · intro rule n rest hOccurs hEmpty hLeft
    obtain ⟨set, hSet, hShare⟩ := hOccurs.share_subset (F := F)
    exact ⟨set, hSet, hShare t (Rule.mem_share_followVisit.mpr (.inr ⟨hEmpty, hLeft⟩))⟩

theorem getElem?_followSets {set : OrdSet Terminal} (h : (g.followSets F).sets[n]? = some set) :
    set = g.followSet F n := by
  obtain ⟨hLt, rfl⟩ := Array.getElem?_eq_some_iff.mp h
  simp [followSets]

/-- Sweeping over the rules of a grammar ends with its FOLLOW sets. -/
theorem sweptFollowSets_eq (g : Grammar) (F : FirstSets) :
    g.sweptFollowSets F = g.followSets F := by
  rw [FollowSets.mk.injEq]
  apply Array.ext
  · rw [size_sweptFollowSets, size_followSets]
  · intro n hn hn'
    have hSwept := Array.getElem?_eq_getElem hn
    rw [getElem?_followSets (Array.getElem?_eq_getElem hn')]
    apply OrdSet.subset_antisymm
    · exact sweptFollowSets_subset n _ hSwept
    · intro t ht
      obtain ⟨set, hSet, ht⟩ := exists_mem_sweptFollowSets ht
      rw [hSwept, Option.some_inj] at hSet
      rwa [hSet]

/-! ## What stands after a nonterminal in derived strings -/

/-- Nothing is missing that stands after a nonterminal in a string derived from another one, and
nothing that follows the latter, if the symbols in between are nullable. The induction is along
the derivation, and speaks of every nonterminal in its last string. -/
theorem Derives.mem_followSet
    (h : g.Derives [.nonterminal m] (front ++ .nonterminal n :: rest))
    (ht : t ∈ (g.firstSets.ofSequence rest).terminals ∨
      (g.firstSets.ofSequence rest).epsilon = true ∧ t ∈ g.followSet g.firstSets m) :
    t ∈ g.followSet g.firstSets n := by
  generalize hβ : front ++ .nonterminal n :: rest = β at h
  induction h generalizing front n rest with
  | refl =>
    rcases List.singleton_eq_append_iff.mp hβ.symm with ⟨rfl, hTail⟩ | ⟨_, hTail⟩
    · obtain ⟨hLeft, rfl⟩ := List.cons.inj hTail
      cases hLeft
      simpa [FirstSets.ofSequence] using ht
    · cases hTail
  | step _ hp ih =>
    cases hp with
    | @intro r rule before behind hr =>
      rcases append_cons_eq_append hβ with ⟨mid, rfl, rfl⟩ | ⟨mid, rfl, hRest⟩
      · -- It stood before the nonterminal that was replaced: there is nothing new to begin with.
        have hWithin := g.firstSets_closed.within_of_produces (.intro mid behind hr)
        have hString := List.append_assoc front (.nonterminal n :: mid)
          (.nonterminal rule.left :: behind)
        exact ih (ht.imp (hWithin.terminals t) (And.imp_left hWithin.epsilon)) hString.symm
      · rcases append_cons_eq_append hRest.symm with ⟨mid', hRight, rfl⟩ | ⟨mid', rfl, rfl⟩
        · -- It came with the rule, so that what follows the left-hand side may follow it.
          have hOccurs : g.Occurs rule n mid' := ⟨Array.mem_of_getElem? hr, mid, hRight⟩
          rw [FirstSets.mem_terminals_append, FirstSets.epsilon_append] at ht
          rcases ht with (ht | ⟨hEmpty, ht⟩) | ⟨⟨hEmpty, hEmpty'⟩, ht⟩
          · exact hOccurs.mem_of_first ht
          · exact hOccurs.mem_of_left hEmpty (ih (.inl ht) rfl)
          · exact hOccurs.mem_of_left hEmpty (ih (.inr ⟨hEmpty', ht⟩) rfl)
        · -- It stood behind, with the same symbols after it.
          have hString := List.append_assoc before (.nonterminal rule.left :: mid')
            (.nonterminal n :: rest)
          exact ih ht hString

/-- The end marker follows every nonterminal that stands last in a string derived from the
augmented start. -/
theorem Derives.endMarker_mem_followSet
    (h : g.Derives [.nonterminal augmentedStart] (front ++ [.nonterminal n])) :
    endMarker ∈ g.followSet g.firstSets n :=
  h.mem_followSet (.inr ⟨rfl, g.endMarker_mem_followSet⟩)

/-- A terminal follows every nonterminal that it stands after in a derived string. -/
theorem Derives.mem_followSet_of_next
    (h : g.Derives [.nonterminal m] (front ++ .nonterminal n :: .terminal t :: rest)) :
    t ∈ g.followSet g.firstSets n := by
  refine h.mem_followSet (.inl ?_)
  simp [FirstSets.ofSequence, FirstSets.ofSymbol]

/-! ## What FOLLOW sets promise -/

/-- A derivation goes on with the rule that a nonterminal occurs in, and with what the symbols
after this occurrence derive. -/
theorem Occurs.exists_derives (hOccurs : g.Occurs rule n rest)
    (h : g.Derives α (front ++ .nonterminal rule.left :: β)) {γ : List Symbol}
    (hRest : g.Derives rest γ) :
    ∃ front, g.Derives α (front ++ .nonterminal n :: (γ ++ β)) := by
  obtain ⟨r, before, hr, hRight⟩ := hOccurs.exists_rule
  have hStep : g.Derives α (front ++ (rule.right ++ β)) := .step h (.intro front β hr)
  have hBehind : g.Derives (front ++ (rule.right ++ β))
      (front ++ (before ++ .nonterminal n :: γ ++ β)) := by
    rw [hRight]
    have hWithin := (hRest.append_left [.nonterminal n]).append_left before
    exact (hWithin.append_right β).append_left front
  refine ⟨front ++ before, ?_⟩
  rw [List.append_assoc]
  simpa using hStep.trans hBehind

/-- Only declared terminals begin what stands on the right of a rule. -/
theorem Occurs.ne_endMarker (hOccurs : g.Occurs rule n rest)
    (ht : t ∈ (g.firstSets.ofSequence rest).terminals) : t ≠ endMarker := by
  obtain ⟨r, before, hr, hRight⟩ := hOccurs.exists_rule
  have hRest : ∀ s ∈ rest, s.Declared g.terminals.size g.nonterminals.size := by
    intro s hs
    refine g.declared_of_mem_right hr ?_
    rw [hRight]
    exact List.mem_append_right _ (List.mem_cons_of_mem _ hs)
  obtain ⟨back, hDerives⟩ := exists_derives_of_mem_ofSequence ht
  have hDeclared := hDerives.declared hRest (.terminal t) List.mem_cons_self
  exact Nat.ne_of_gt hDeclared.1

theorem exists_derives_of_mem_followSet (ht : t ∈ g.followSet g.firstSets n)
    (hEnd : t ≠ endMarker) : ∃ m < g.nonterminals.size, ∃ front back,
      g.Derives [.nonterminal m] (front ++ .nonterminal n :: .terminal t :: back) := by
  apply followSet_induction ht
  · exact fun h => absurd h hEnd
  · intro rule n rest hOccurs ht
    obtain ⟨r, _, hr, _⟩ := hOccurs.exists_rule
    obtain ⟨back, hRest⟩ := exists_derives_of_mem_ofSequence ht
    have hLeft : g.Derives [.nonterminal rule.left] ([] ++ .nonterminal rule.left :: []) := .refl _
    obtain ⟨front, hDerives⟩ := hOccurs.exists_derives hLeft hRest
    rw [List.append_nil] at hDerives
    exact ⟨rule.left, g.left_lt hr, front, back, hDerives⟩
  · rintro rule n rest hOccurs hEmpty ⟨m, hm, front, back, hLeft⟩
    obtain ⟨front', hDerives⟩ := hOccurs.exists_derives hLeft (epsilon_ofSequence_iff.mp hEmpty)
    exact ⟨m, hm, front', back, hDerives⟩

theorem exists_derives_of_endMarker (h : endMarker ∈ g.followSet g.firstSets n) :
    ∃ front, g.Derives [.nonterminal augmentedStart] (front ++ [.nonterminal n]) := by
  apply followSet_induction h
  · exact fun _ => ⟨[], .refl _⟩
  · exact fun rule n rest hOccurs ht => absurd rfl (hOccurs.ne_endMarker ht)
  · rintro rule n rest hOccurs hEmpty ⟨front, hLeft⟩
    exact hOccurs.exists_derives hLeft (epsilon_ofSequence_iff.mp hEmpty)

end Grammar

/-! ## Exactness -/

open Grammar in
/-- FOLLOW sets are exact if there is one for each nonterminal, and it holds what stands directly
after the nonterminal in the strings that any nonterminal derives, and the end marker if the
nonterminal ends a string that the augmented start derives. If every nonterminal is involved in
what the augmented start derives, then nothing else needs to be looked at. -/
structure FollowSets.Exact (follow : FollowSets) (g : Grammar) : Prop where
  size_eq : follow.sets.size = g.nonterminals.size
  mem_iff (n : Nonterminal) (set : OrdSet Terminal) (t : Terminal) :
    follow.nonterminal? n = some set → t ≠ endMarker →
      (t ∈ set ↔ ∃ m < g.nonterminals.size, ∃ front back,
        g.Derives [.nonterminal m] (front ++ .nonterminal n :: .terminal t :: back))
  endMarker_mem_iff (n : Nonterminal) (set : OrdSet Terminal) :
    follow.nonterminal? n = some set →
      (endMarker ∈ set ↔
        ∃ front, g.Derives [.nonterminal augmentedStart] (front ++ [.nonterminal n]))
  mem_iff_of_allInvolved (n : Nonterminal) (set : OrdSet Terminal) (t : Terminal) :
    g.AllInvolved → follow.nonterminal? n = some set →
      (t ∈ set ↔
        (∃ front back, g.Derives [.nonterminal augmentedStart]
          (front ++ .nonterminal n :: .terminal t :: back)) ∨
        t = endMarker ∧
          ∃ front, g.Derives [.nonterminal augmentedStart] (front ++ [.nonterminal n]))

namespace Grammar

variable {g : Grammar} {n : Nonterminal} {t : Terminal}

theorem mem_followSet_iff (hEnd : t ≠ endMarker) : t ∈ g.followSet g.firstSets n ↔
    ∃ m < g.nonterminals.size, ∃ front back,
      g.Derives [.nonterminal m] (front ++ .nonterminal n :: .terminal t :: back) :=
  ⟨fun h => exists_derives_of_mem_followSet h hEnd,
    fun ⟨_, _, _, _, hDerives⟩ => hDerives.mem_followSet_of_next⟩

theorem endMarker_mem_followSet_iff : endMarker ∈ g.followSet g.firstSets n ↔
    ∃ front, g.Derives [.nonterminal augmentedStart] (front ++ [.nonterminal n]) :=
  ⟨exists_derives_of_endMarker, fun ⟨_, hDerives⟩ => hDerives.endMarker_mem_followSet⟩

theorem mem_followSet_iff_of_allInvolved (hAll : g.AllInvolved) :
    t ∈ g.followSet g.firstSets n ↔
      (∃ front back, g.Derives [.nonterminal augmentedStart]
        (front ++ .nonterminal n :: .terminal t :: back)) ∨
      t = endMarker ∧
        ∃ front, g.Derives [.nonterminal augmentedStart] (front ++ [.nonterminal n]) := by
  constructor
  · intro ht
    by_cases hEnd : t = endMarker
    · rw [hEnd] at ht
      exact .inr ⟨hEnd, exists_derives_of_endMarker ht⟩
    · obtain ⟨m, hm, front, back, hDerives⟩ := exists_derives_of_mem_followSet ht hEnd
      obtain ⟨before, behind, hInvolved⟩ := hAll m hm
      rw [← List.singleton_append] at hInvolved
      have hWhole := hInvolved.trans ((hDerives.append_right behind).append_left before)
      refine .inl ⟨before ++ front, back ++ behind, ?_⟩
      simpa using hWhole
  · rintro (⟨_, _, hDerives⟩ | ⟨rfl, _, hDerives⟩)
    · exact hDerives.mem_followSet_of_next
    · exact hDerives.endMarker_mem_followSet

/-- The FOLLOW sets over the grammar's own FIRST sets are exact, and sweeping over the rules ends
with them. -/
theorem followSets_exact (g : Grammar) :
    (g.followSets g.firstSets).Exact g ∧
      g.sweptFollowSets g.firstSets = g.followSets g.firstSets := by
  refine ⟨⟨size_followSets, ?_, ?_, ?_⟩, g.sweptFollowSets_eq _⟩
  · intro n set t hSet hEnd
    rw [getElem?_followSets hSet]
    exact mem_followSet_iff hEnd
  · intro n set hSet
    rw [getElem?_followSets hSet]
    exact endMarker_mem_followSet_iff
  · intro n set t hAll hSet
    rw [getElem?_followSets hSet]
    exact mem_followSet_iff_of_allInvolved hAll

end Grammar

end ShiftReduce
