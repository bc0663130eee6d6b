import ShiftReduce.Follow
import ShiftReduce.Sweep

/-!
# FOLLOW sets, swept together

Every occurrence of a nonterminal on the right of a rule adds to its FOLLOW set what the symbols
after it begin with, and if these symbols are nullable, the FOLLOW set of the left-hand side, as
far as that is known. Sweeping over the occurrences until nothing is added carries followers up
through any number of rules, one rule at a time.
-/

namespace ShiftReduce

/-- The nonterminals of a sequence in order, each with what stands after it. -/
def places : List Symbol → List (Nonterminal × List Symbol)
  | [] => []
  | .terminal _ :: rest => places rest
  | .nonterminal n :: rest => (n, rest) :: places rest

theorem mem_places {n : Nonterminal} {symbols rest : List Symbol} :
    (n, rest) ∈ places symbols ↔ ∃ front, symbols = front ++ .nonterminal n :: rest := by
  rw [← mem_after]
  fun_induction places symbols with
  | case1 => simp [after]
  | case2 t symbols ih => simp [after, ih]
  | case3 m symbols ih =>
    rw [List.mem_cons, ih, after]
    by_cases hEq : m = n
    · simp [hEq]
    · simp [hEq, Ne.symm hEq]

/-- What an occurrence on the right of a rule adds to the FOLLOW set of its nonterminal. -/
def Rule.followVisit (F : FirstSets) (rule : Rule) (place : Nonterminal × List Symbol) :
    Visit (OrdSet Terminal) where
  place := place.1
  share sets :=
    let first := F.ofSequence place.2
    if first.epsilon then first.terminals ∪ (sets[rule.left]?).getD ∅ else first.terminals

theorem Rule.mem_share_followVisit {F : FirstSets} {rule : Rule} {n : Nonterminal}
    {rest : List Symbol} {sets : Array (OrdSet Terminal)} {t : Terminal} :
    t ∈ (rule.followVisit F (n, rest)).share sets ↔ t ∈ (F.ofSequence rest).terminals ∨
      (F.ofSequence rest).epsilon = true ∧ ∃ set, sets[rule.left]? = some set ∧ t ∈ set := by
  have hLeft : t ∈ (sets[rule.left]?).getD ∅ ↔ ∃ set, sets[rule.left]? = some set ∧ t ∈ set := by
    cases sets[rule.left]? <;> simp
  rw [followVisit]
  dsimp only
  split
  · next hEmpty => rw [OrdSet.mem_union, hLeft, and_iff_right hEmpty]
  · next hSome => rw [or_iff_left fun h => hSome h.1]

namespace Grammar

variable (g : Grammar) (F : FirstSets)

def followVisits : List (Visit (OrdSet Terminal)) :=
  g.rules.toList.flatMap fun rule => (places rule.right).map (rule.followVisit F)

/-- Whether a nonterminal stands on the right of a rule of the grammar, with `rest` after it. -/
def Occurs (rule : Rule) (n : Nonterminal) (rest : List Symbol) : Prop :=
  rule ∈ g.rules ∧ ∃ front, rule.right = front ++ .nonterminal n :: rest

theorem mem_followVisits {visit : Visit (OrdSet Terminal)} : visit ∈ g.followVisits F ↔
    ∃ rule n rest, g.Occurs rule n rest ∧ rule.followVisit F (n, rest) = visit := by
  simp only [followVisits, List.mem_flatMap, List.mem_map, Prod.exists, mem_places,
    Array.mem_toList_iff, Occurs]
  constructor
  · rintro ⟨rule, hRule, n, rest, hFront, hVisit⟩
    exact ⟨rule, n, rest, ⟨hRule, hFront⟩, hVisit⟩
  · rintro ⟨rule, n, rest, ⟨hRule, hFront⟩, hVisit⟩
    exact ⟨rule, hRule, n, rest, hFront, hVisit⟩

/-! ## The sweep -/

/-- The terminals that can follow a nonterminal. -/
def possibleFollowers : List Terminal :=
  endMarker :: (F.usedTerminals ++ g.usedSymbols.filterMap Symbol.terminal?)

variable {g} in
theorem Occurs.possible {rule : Rule} {n : Nonterminal} {rest : List Symbol} {t : Terminal}
    (hOccurs : g.Occurs rule n rest) (ht : t ∈ (F.ofSequence rest).terminals) :
    t ∈ g.possibleFollowers F := by
  obtain ⟨hRule, front, hRight⟩ := hOccurs
  refine List.mem_cons_of_mem _ (List.mem_append.mpr ?_)
  refine (FirstSets.mem_ofSequence ht).imp_right fun ht => ?_
  refine List.mem_filterMap.mpr ⟨.terminal t, g.mem_usedSymbols.mpr ⟨rule, hRule, ?_⟩, rfl⟩
  rw [hRight]
  exact List.mem_append_right _ (List.mem_cons_of_mem _ ht)

def followSweep : Sweep (OrdSet Terminal) where
  visits := g.followVisits F
  join := OrdSet.absorb
  Fits set := ∀ t ∈ set, t ∈ g.possibleFollowers F
  size := OrdSet.size
  limit := (g.possibleFollowers F).length
  fits_share := by
    intro visit sets hVisit hSets t ht
    obtain ⟨rule, n, rest, hOccurs, rfl⟩ := (g.mem_followVisits F).mp hVisit
    rcases Rule.mem_share_followVisit.mp ht with ht | ⟨_, set, hSet, ht⟩
    · exact hOccurs.possible F ht
    · exact hSets set (Array.mem_of_getElem? hSet) t ht
  fits_join hSet hOther t ht := (OrdSet.mem_union.mp ht).elim (hSet t) (hOther t)
  size_le hSet := (OrdSet.nodup _).length_le_of_subset fun t ht => hSet t ht
  size_lt := OrdSet.size_lt_absorb
  join_eq := OrdSet.absorb_eq

/-- The FOLLOW sets before anything but the end of the input is known. -/
def endFollowSets : Array (OrdSet Terminal) :=
  (Array.replicate g.nonterminals.size ∅).setIfInBounds augmentedStart
    (OrdSet.singleton endMarker)

theorem fits_endFollowSets : ∀ set ∈ g.endFollowSets, (g.followSweep F).Fits set := by
  intro set hSet t ht
  rcases Array.mem_or_eq_of_mem_setIfInBounds hSet with hSet | rfl
  · rw [Array.eq_of_mem_replicate hSet] at ht
    exact absurd ht OrdSet.not_mem_empty
  · rw [OrdSet.mem_singleton.mp ht]
    exact List.mem_cons_self

/-- The FOLLOW sets that sweeping over the occurrences of nonterminals ends with. -/
def sweptFollowSets : FollowSets where
  sets := (g.followSweep F).settle g.endFollowSets (g.fits_endFollowSets F)

end Grammar

end ShiftReduce
