import ShiftReduce.Automaton.Basic
import ShiftReduce.Item.Closure

/-!
# The canonical automaton

Its states are the item sets that `goto` leads to from the initial items. They
are numbered in the order of discovery: states are expanded in the order of
their numbers, each along its next symbols in order.

There are finitely many, since they are sets of items of the grammar.
-/

namespace ShiftReduce

/-- Whether an item is one of the grammar's: its rule, a marker within it, and
a terminal. -/
def Item.Belongs (g : Grammar) (i : Item) : Prop :=
  (∃ rule, g.rules[i.core.rule]? = some rule ∧ i.core.marker ≤ rule.right.length) ∧
    i.lookahead < g.terminals.size

namespace Grammar

variable (g : Grammar)

def items : List Item :=
  g.rules.toList.zipIdx.flatMap fun (rule, r) =>
    (List.range (rule.right.length + 1)).flatMap fun m =>
      (List.range g.terminals.size).map fun t => ⟨⟨r, m⟩, t⟩

theorem mem_items_of_belongs {i : Item} (h : i.Belongs g) : i ∈ g.items := by
  obtain ⟨⟨rule, hr, hm⟩, ht⟩ := h
  refine List.mem_flatMap.2 ⟨(rule, i.core.rule), ?_, ?_⟩
  · rw [List.mem_zipIdx_iff_getElem?]
    simpa using hr
  · exact List.mem_flatMap.2 ⟨i.core.marker, List.mem_range.2 (Nat.lt_succ_of_le hm),
      List.mem_map.2 ⟨i.lookahead, List.mem_range.2 ht, rfl⟩⟩

/-! ## Closure and goto stay within the items of the grammar -/

theorem lookahead_of_mem_predicts {i j : Item} (hj : j ∈ g.predicts g.firstSets i) :
    j.lookahead = i.lookahead ∨ j.lookahead < g.terminals.size := by
  obtain ⟨n, rest, hRest, _, _, ht⟩ := (g.mem_predicts _).1 hj
  rcases FirstSets.mem_ofSequenceThen ht with h | h | h
  · exact .inl h
  · exact .inr (g.lt_of_mem_usedTerminals h)
  · have hMem : Symbol.terminal j.lookahead ∈ i.core.rest g := by
      rw [hRest]
      exact List.mem_cons_of_mem _ h
    obtain ⟨used, hUsed, hIn⟩ := g.mem_usedSymbols.1 (g.mem_usedSymbols_of_mem_rest hMem)
    obtain ⟨r, hUsed⟩ := Array.mem_iff_getElem?.1 hUsed
    exact .inr (g.declared_of_mem_right hUsed hIn).2

theorem belongs_of_mem_predicts {i j : Item} (hi : i.Belongs g)
    (hj : j ∈ g.predicts g.firstSets i) : j.Belongs g := by
  obtain ⟨n, rest, _, hr, hm, _⟩ := (g.mem_predicts _).1 hj
  obtain ⟨rule, hRule, _⟩ := g.mem_rulesOf.1 hr
  refine ⟨⟨rule, hRule, by rw [hm]; exact Nat.zero_le _⟩, ?_⟩
  rcases g.lookahead_of_mem_predicts hj with h | h
  · rw [h]
    exact hi.2
  · exact h

theorem belongs_of_mem_closure {s : ItemSet} (h : ∀ i ∈ s, i.Belongs g) :
    ∀ j ∈ g.closure g.firstSets s, j.Belongs g :=
  g.forall_mem_closure _ h fun _ hi _ hj => g.belongs_of_mem_predicts hi hj

theorem belongs_of_mem_goto {s : ItemSet} (h : ∀ i ∈ s, i.Belongs g) (symbol : Symbol) :
    ∀ j ∈ g.goto g.firstSets s symbol, j.Belongs g := by
  refine g.belongs_of_mem_closure fun j hj => ?_
  obtain ⟨i, hi, hn, rfl⟩ := g.mem_shifted.1 hj
  obtain ⟨⟨rule, hr, _⟩, ht⟩ := h i hi
  refine ⟨⟨rule, hr, ?_⟩, ht⟩
  simp only [Core.next, Core.rest, hr, Option.elim_some, List.head?_drop] at hn
  exact (List.getElem?_eq_some_iff.1 hn).1

theorem belongs_of_mem_initialItems : ∀ j ∈ g.initialItems g.firstSets, j.Belongs g := by
  refine g.belongs_of_mem_closure fun j hj => ?_
  rw [OrdSet.mem_singleton.1 hj]
  exact ⟨⟨_, g.augmentedRule_first, Nat.zero_le _⟩, g.terminals_pos⟩

/-! ## The collection of item sets -/

/-- The item sets that follow one, in the order of its next symbols. -/
def successors (F : FirstSets) (s : ItemSet) : List ItemSet :=
  (g.nextSymbols s).map (g.goto F s)

theorem belongs_successors (s : ItemSet) (h : ∀ i ∈ s, i ∈ g.items ∧ i.Belongs g) :
    ∀ s' ∈ g.successors g.firstSets s, ∀ i ∈ s', i ∈ g.items ∧ i.Belongs g := by
  intro s' hs' i hi
  obtain ⟨symbol, _, rfl⟩ := List.mem_map.1 hs'
  have := g.belongs_of_mem_goto (fun i hi => (h i hi).2) symbol i hi
  exact ⟨g.mem_items_of_belongs this, this⟩

/-- The item sets that `goto` leads to from the initial items, in the order of
discovery. -/
def collection : List ItemSet :=
  reachable (g.successors g.firstSets)
    (fun l hd hp => AtMost.ordSet g.items l hd fun s hs i hi => (hp s hs i hi).1)
    g.belongs_successors [g.initialItems g.firstSets] fun s hs i hi => by
      rw [List.mem_singleton.1 hs] at hi
      have := g.belongs_of_mem_initialItems i hi
      exact ⟨g.mem_items_of_belongs this, this⟩

theorem nodup_collection : g.collection.Nodup := nodup_reachable

end Grammar

def Automaton.canonical (g : Grammar) : Automaton :=
  let F := g.firstSets
  let collection := g.collection
  { states := (collection.map fun s =>
      { items := s
        edges := (g.nextSymbols s).map fun symbol =>
          (symbol, collection.idxOf (g.goto F s symbol)) }).toArray
    mergeMap? := none }

end ShiftReduce
