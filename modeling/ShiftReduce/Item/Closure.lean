import ShiftReduce.First
import ShiftReduce.Item.Basic

/-!
# Closure and goto

An item whose marker stands before a nonterminal predicts the rules of that
nonterminal, with every lookahead that what comes after it can begin with. The
closure of an item set holds everything that its items predict, directly or
not; `goto` moves the markers over one symbol and closes the result.
-/

namespace ShiftReduce

namespace Grammar

variable (g : Grammar) (F : FirstSets)

/-- The items that an item predicts directly. -/
def predicts (i : Item) : List Item :=
  match i.core.rest g with
  | .nonterminal n :: rest =>
    (g.rulesOf n).flatMap fun r =>
      (F.ofSequenceThen rest i.lookahead).toList.map fun t => ⟨⟨r, 0⟩, t⟩
  | _ => []

theorem mem_predicts {i j : Item} :
    j ∈ g.predicts F i ↔ ∃ n rest, i.core.rest g = .nonterminal n :: rest ∧
      j.core.rule ∈ g.rulesOf n ∧ j.core.marker = 0 ∧
      j.lookahead ∈ F.ofSequenceThen rest i.lookahead := by
  unfold predicts
  constructor
  · intro h
    split at h
    · next n rest hRest =>
      simp only [List.mem_flatMap, List.mem_map] at h
      obtain ⟨r, hr, t, ht, rfl⟩ := h
      exact ⟨n, rest, hRest, hr, rfl, ht⟩
    · exact absurd h List.not_mem_nil
  · rintro ⟨n, rest, hRest, hr, hm, ht⟩
    obtain ⟨⟨r, m⟩, t⟩ := j
    dsimp only at hr hm ht
    subst hm
    simp only [hRest, List.mem_flatMap, List.mem_map]
    exact ⟨r, hr, t, ht, rfl⟩

/-! ## Finitely many items are predicted -/

def possibleLookaheads (s : ItemSet) : List Terminal :=
  (s.toList.map fun i => i.lookahead) ++
    (F.usedTerminals ++ g.usedSymbols.filterMap Symbol.terminal?)

def possibleItems (s : ItemSet) : List Item :=
  s.toList ++ (List.range g.rules.size).flatMap fun r =>
    (g.possibleLookaheads F s).map fun t => ⟨⟨r, 0⟩, t⟩

theorem mem_usedSymbols_of_mem_rest {core : Core} {s : Symbol} (h : s ∈ core.rest g) :
    s ∈ g.usedSymbols := by
  unfold Core.rest at h
  cases hr : g.rules[core.rule]? with
  | none => simp [hr] at h
  | some rule =>
    rw [hr] at h
    exact g.mem_usedSymbols.2 ⟨rule, Array.mem_of_getElem? hr, List.mem_of_mem_drop h⟩

theorem lookahead_mem_possible {s : ItemSet} {i : Item} (h : i ∈ g.possibleItems F s) :
    i.lookahead ∈ g.possibleLookaheads F s := by
  rcases List.mem_append.1 h with h | h
  · exact List.mem_append_left _ (List.mem_map_of_mem h)
  · simp only [List.mem_flatMap, List.mem_map] at h
    obtain ⟨_, _, t, ht, rfl⟩ := h
    exact ht

theorem predicts_possible {s : ItemSet} (i : Item) (hi : i ∈ g.possibleItems F s) :
    ∀ j ∈ g.predicts F i, j ∈ g.possibleItems F s := by
  intro j hj
  obtain ⟨n, rest, hRest, hr, hm, ht⟩ := (g.mem_predicts F).1 hj
  obtain ⟨rule, hRule, _⟩ := g.mem_rulesOf.1 hr
  refine List.mem_append_right _ (List.mem_flatMap.2 ⟨j.core.rule, ?_, ?_⟩)
  · exact List.mem_range.2 (Array.getElem?_eq_some_iff.1 hRule).1
  · refine List.mem_map.2 ⟨j.lookahead, ?_, ?_⟩
    · rcases FirstSets.mem_ofSequenceThen ht with h | h | h
      · rw [h]
        exact g.lookahead_mem_possible F hi
      · exact List.mem_append_right _ (List.mem_append_left _ h)
      · refine List.mem_append_right _ (List.mem_append_right _ ?_)
        refine List.mem_filterMap.2 ⟨.terminal j.lookahead, ?_, rfl⟩
        have hMem : Symbol.terminal j.lookahead ∈ i.core.rest g := by
          rw [hRest]
          exact List.mem_cons_of_mem _ h
        exact g.mem_usedSymbols_of_mem_rest hMem
    · obtain ⟨⟨r, m⟩, t⟩ := j
      dsimp only at hm
      rw [hm]

/-! ## Closure -/

/-- The item set with all that its items predict. -/
def closure (s : ItemSet) : ItemSet :=
  OrdSet.ofList <| reachable (g.predicts F)
    (AtMost.of_list (u := g.possibleItems F s) fun _ h => h) (g.predicts_possible F)
    s.toList fun _ h => List.mem_append_left _ h

/-- What holds of the items of a set and is kept by predictions holds of its closure. -/
theorem forall_mem_closure {Q : Item → Prop} {s : ItemSet} (hs : ∀ i ∈ s, Q i)
    (hPredicts : ∀ i, Q i → ∀ j ∈ g.predicts F i, Q j) : ∀ j ∈ g.closure F s, Q j :=
  fun _ hj => forall_mem_reachable hs hPredicts _ (OrdSet.mem_ofList.1 hj)

/-- The closure of item sets whose items all fit the grammar. -/
def closure? (s : ItemSet) : Option ItemSet :=
  if s.Fits g then some (g.closure F s) else none

/-! ## Goto -/

/-- The items with the marker moved over `symbol`. -/
def shifted (s : ItemSet) (symbol : Symbol) : ItemSet :=
  OrdSet.ofList ((s.toList.filter fun i => i.core.next g = some symbol).map fun i =>
    ⟨i.core.advance, i.lookahead⟩)

theorem mem_shifted {s : ItemSet} {symbol : Symbol} {j : Item} :
    j ∈ g.shifted s symbol ↔ ∃ i ∈ s, i.core.next g = some symbol ∧
      j = ⟨i.core.advance, i.lookahead⟩ := by
  simp only [shifted, OrdSet.mem_ofList, List.mem_map, List.mem_filter, OrdSet.mem_toList,
    decide_eq_true_iff]
  constructor
  · rintro ⟨i, ⟨hi, hn⟩, rfl⟩
    exact ⟨i, hi, hn, rfl⟩
  · rintro ⟨i, hi, hn, rfl⟩
    exact ⟨i, ⟨hi, hn⟩, rfl⟩

/-- What is recognised after `symbol`. It is empty if no item expects the
symbol. -/
def goto (s : ItemSet) (symbol : Symbol) : ItemSet := g.closure F (g.shifted s symbol)

/-- `goto` from item sets whose rules are all known. -/
def goto? (s : ItemSet) (symbol : Symbol) : Option ItemSet :=
  if s.Known g then some (g.goto F s symbol) else none

/-- The symbols after the markers, in the order of the cores. -/
def nextSymbols (s : ItemSet) : List Symbol :=
  (s.cores.toList.filterMap fun core => core.next g).eraseDups

theorem mem_nextSymbols {s : ItemSet} {symbol : Symbol} :
    symbol ∈ g.nextSymbols s ↔ ∃ i ∈ s, i.core.next g = some symbol := by
  simp only [nextSymbols, List.mem_eraseDups, List.mem_filterMap, OrdSet.mem_toList,
    ItemSet.mem_cores]
  constructor
  · rintro ⟨core, ⟨t, h⟩, hn⟩
    exact ⟨_, h, hn⟩
  · rintro ⟨i, h, hn⟩
    exact ⟨i.core, ⟨i.lookahead, h⟩, hn⟩

/-- `nextSymbols` of item sets whose rules are all known. -/
def nextSymbols? (s : ItemSet) : Option (List Symbol) :=
  if s.Known g then some (g.nextSymbols s) else none

/-- The item that a parse starts with: the augmented rule, nothing recognised,
followed by the end of the input. -/
def initialItem : Item := ⟨⟨augmentedRule, 0⟩, endMarker⟩

def initialItems : ItemSet := g.closure F (OrdSet.singleton initialItem)

end Grammar

end ShiftReduce
