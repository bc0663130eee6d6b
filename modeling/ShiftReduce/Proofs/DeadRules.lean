import ShiftReduce.Proofs.DeclaredGrammars
import ShiftReduce.Proofs.DiscoveryOrder
import ShiftReduce.Proofs.MergedStates
import ShiftReduce.Proofs.Renumbering
import ShiftReduce.Proofs.TableRows

/-!
# Dead rules

A rule whose left-hand side the start symbol does not involve has no effect on the parser, whatever
stands on its right. A grammar with such rules behind its own has the other rules under the numbers
that they have without them, so it renumbers nothing (`Grammar.Renumbers` with the identity). Then
not only do both grammars have the same item sets; they list the same symbols after each of them, so
that item sets are discovered in the same order, edges are written in the same order, and so are the
actions of each row.
-/

namespace ShiftReduce

namespace Grammar

variable {g g' : Grammar} {i : Item} {s : ItemSet} {automaton : Automaton} {q : StateId}
  {state : State}

/-! ## The automaton -/

namespace Renumbers

variable (hR : g.Renumbers g' id)
include hR

theorem next_eq (hi : g.InvolvesItem i) : i.core.next g' = i.core.next g :=
  hR.next_renumber hi

theorem goto_eq (hs : ∀ i ∈ s, g.InvolvesItem i) (X : Symbol) :
    g'.goto g'.firstSets s X = g.goto g.firstSets s X := by
  have hGoto := hR.goto_renumber hs X
  rwa [ItemSet.renumber_id, ItemSet.renumber_id] at hGoto

theorem nextSymbols_eq (hs : ∀ i ∈ s, g.InvolvesItem i) : g'.nextSymbols s = g.nextSymbols s := by
  have hCores : ∀ core ∈ s.cores.toList, core.next g' = core.next g := by
    intro core hCore
    obtain ⟨t, ht⟩ := ItemSet.mem_cores.mp (OrdSet.mem_toList.mp hCore)
    exact hR.next_eq (hs _ ht)
  rw [nextSymbols, nextSymbols, List.filterMap_congr hCores]

theorem successors_eq (hs : ∀ i ∈ s, g.InvolvesItem i) :
    g'.successors g'.firstSets s = g.successors g.firstSets s := by
  rw [successors, hR.nextSymbols_eq hs]
  exact List.map_congr_left fun X _ => hR.goto_eq hs X

theorem collection_same : g'.collection = g.collection := by
  have hInitial : g'.initialItems g'.firstSets = g.initialItems g.firstSets := by
    rw [hR.initialItems_renumber, ItemSet.renumber_id]
  unfold collection
  simp only [hInitial]
  refine reachable_congr (fun s hs => hR.successors_eq hs) (fun s hs s' hs' => ?_) fun s hs => ?_
  · obtain ⟨X, _, rfl⟩ := List.mem_map.mp hs'
    exact involvesItem_of_mem_goto hs
  · rw [List.mem_singleton.mp hs]
    exact involvesItem_of_mem_initialItems

theorem canonical_eq : Automaton.canonical g' = Automaton.canonical g := by
  have hStates : g'.collection.map (Automaton.canonicalState g') =
      g.collection.map (Automaton.canonicalState g) := by
    rw [hR.collection_same]
    refine List.map_congr_left fun s hs => ?_
    have hInvolved := involvesItem_of_mem_collection hs
    rw [Automaton.canonicalState, Automaton.canonicalState, hR.collection_same,
      hR.nextSymbols_eq hInvolved]
    simp only [hR.goto_eq hInvolved]
  exact congrArg (fun states : List State => Automaton.mk states.toArray none) hStates

end Renumbers

theorem involvesItem_of_mem_mergedItems {cores : OrdSet Core} :
    ∀ i ∈ (Automaton.canonical g).mergedItems cores, g.InvolvesItem i := by
  intro i hi
  obtain ⟨s, hs, _, hi⟩ := Automaton.mem_mergedItems_canonical.mp hi
  exact involvesItem_of_mem_collection hs i hi

theorem Renumbers.merged_eq (hR : g.Renumbers g' id) :
    (Automaton.canonical g).merged g' g'.firstSets =
      (Automaton.canonical g).merged g g.firstSets := by
  have hStates : ∀ cores, (Automaton.canonical g).mergedStateOf g' g'.firstSets
      ((Automaton.canonical g).mergedItems cores) = (Automaton.canonical g).mergedStateOf g
        g.firstSets ((Automaton.canonical g).mergedItems cores) := by
    intro cores
    rw [Automaton.mergedStateOf, Automaton.mergedStateOf,
      hR.nextSymbols_eq involvesItem_of_mem_mergedItems]
    simp only [hR.goto_eq involvesItem_of_mem_mergedItems]
  rw [Automaton.merged, Automaton.merged, funext hStates]

/-- Both grammars have the same automaton. -/
theorem Renumbers.automaton_eq (hR : g.Renumbers g' id) (construction : Construction) :
    construction.automaton g' = construction.automaton g := by
  unfold Construction.automaton
  cases construction.algorithm with
  | canonical => exact congrArg Except.ok hR.canonical_eq
  | merged =>
    dsimp only
    rw [Automaton.merge_canonical, Automaton.merge_canonical, hR.canonical_eq, hR.merged_eq]

/-! ## The table -/

theorem involvesItem_of_state {construction : Construction}
    (hAutomaton : construction.automaton g = .ok automaton)
    (hState : automaton.states[q]? = some state) : ∀ i ∈ state.items, g.InvolvesItem i := by
  unfold Construction.automaton at hAutomaton
  cases hAlgorithm : construction.algorithm with
  | canonical =>
    rw [hAlgorithm] at hAutomaton
    cases hAutomaton
    obtain ⟨s, hs, rfl⟩ := Automaton.exists_of_canonical_state hState
    exact involvesItem_of_mem_collection hs
  | merged =>
    rw [hAlgorithm] at hAutomaton
    dsimp only at hAutomaton
    rw [Automaton.merge_canonical] at hAutomaton
    cases hAutomaton
    obtain ⟨s, _, rfl⟩ := Automaton.exists_of_merged_state hState
    exact involvesItem_of_mem_mergedItems

namespace Renumbers

variable (hR : g.Renumbers g' id)
include hR

theorem isComplete_eq (hi : g.InvolvesItem i) : i.core.isComplete g' = i.core.isComplete g := by
  obtain ⟨rule, hr, hLeft⟩ := hi
  have hKnown : i.core.Known g := (Array.getElem?_eq_some_iff.mp hr).1
  have hKnown' : i.core.Known g' := (Array.getElem?_eq_some_iff.mp (hR.rule _ _ hr)).1
  have hRest : i.core.rest g' = i.core.rest g := hR.rest_renumber ⟨rule, hr, hLeft⟩
  rw [Core.isComplete, Core.isComplete, hRest, decide_eq_true hKnown, decide_eq_true hKnown']

theorem candidates_eq (hState : ∀ i ∈ state.items, g.InvolvesItem i) :
    state.candidates g' = state.candidates g := by
  have hComplete : (state.items.toList.filter fun i => i.core.isComplete g') =
      state.items.toList.filter fun i => i.core.isComplete g :=
    List.filter_congr fun i hi => hR.isComplete_eq (hState i (OrdSet.mem_toList.mp hi))
  rw [State.candidates, State.completions, hComplete]
  rfl

theorem row_eq (hState : ∀ i ∈ state.items, g.InvolvesItem i) :
    state.row g' = state.row g := by
  rw [State.row, State.row, hR.candidates_eq hState]

theorem conflicts_eq (hState : ∀ i ∈ state.items, g.InvolvesItem i) (id : StateId) :
    state.conflicts g' id = state.conflicts g id := by
  rw [State.conflicts, State.conflicts, hR.candidates_eq hState, hR.row_eq hState]

theorem ofAutomaton_eq
    (hItems : ∀ (q : StateId) (state : State), automaton.states[q]? = some state →
      ∀ i ∈ state.items, g.InvolvesItem i) :
    ParseTable.ofAutomaton g' automaton =
      { ParseTable.ofAutomaton g automaton with
        productions := (ParseTable.ofAutomaton g' automaton).productions } := by
  rw [ParseTable.mk.injEq]
  refine ⟨?_, ?_, rfl⟩
  · refine Array.ext_getElem? fun q => ?_
    rw [ParseTable.rows_ofAutomaton, ParseTable.rows_ofAutomaton]
    cases hState : automaton.states[q]? with
    | none => rfl
    | some state => exact congrArg some (hR.row_eq (hItems q state hState))
  · refine List.flatMap_congr fun ⟨state, q⟩ hPlace => ?_
    rw [List.mem_zipIdx_iff_getElem?, Array.getElem?_toList] at hPlace
    exact hR.conflicts_eq (hItems q state hPlace) q

end Renumbers

/-! ## Grammars with dead rules -/

/-- What a grammar has in common with one that has further rules behind its own. -/
structure Unaffected (g g' : Grammar) (added : List Rule) : Prop where
  rules : g'.rules.toList = g.rules.toList ++ added
  /-- Both grammars have the same automaton: the same states, items and edges, in order. -/
  automaton : ∀ construction : Construction, construction.automaton g' = construction.automaton g
  /-- Both grammars have the same table, or the same conflicts that forbid it. Only the
  productions of the added rules are new. -/
  table : ∀ construction : Construction, construction.generate g' =
    (construction.generate g).map fun table => { table with
      productions := table.productions ++
        (added.map fun rule => (rule.left, rule.right.length)).toArray }

/-- What the augmented start involves, the start symbol involves, unless it is the augmented
start. -/
theorem Involves.of_augmentedStart {n : Nonterminal} (h : g.Involves augmentedStart n) :
    n = augmentedStart ∨ g.Involves g.start n := by
  obtain ⟨front, back, hDerives⟩ := h
  have hAll : ∀ s ∈ front ++ Symbol.nonterminal n :: back,
      ∀ m, s = .nonterminal m → m = augmentedStart ∨ g.Involves g.start m := by
    refine hDerives.forall_mem_of_left (fun r rule hr hLeft s hs m hm => .inr ?_) ?_
    · rcases hLeft _ rfl with hFirst | hLeft
      · rw [eq_augmentedRule hr hFirst, g.augmentedRule_first, Option.some_inj] at hr
        rw [← hr, List.mem_singleton, hm] at hs
        exact Symbol.nonterminal.inj hs ▸ g.involves_self m
      · exact hLeft.of_rule hr (hm ▸ hs)
    · intro s hs m hm
      rw [List.mem_singleton.mp hs] at hm
      exact .inl (Symbol.nonterminal.inj hm).symm
  exact hAll _ (List.mem_append_right _ List.mem_cons_self) n rfl

/-- The rules of a grammar that others stand behind keep their numbers, and the others do not
matter if they are dead. -/
theorem renumbers_of_dead {added : List Rule} (hRules : g'.rules.toList = g.rules.toList ++ added)
    (hDead : ∀ rule ∈ added, ¬ g.Involves g.start rule.left) : g.Renumbers g' id := by
  have hOwn : ∀ r < g.rules.size, g'.rules[r]? = g.rules[r]? := by
    intro r hr
    rw [← Array.getElem?_toList, hRules, List.getElem?_append_left (by simpa using hr),
      Array.getElem?_toList]
  refine ⟨Function.injective_id, fun r rule hr => ?_, fun r rule hr hLeft => ⟨r, rfl, ?_⟩⟩
  · exact (hOwn r (Array.getElem?_eq_some_iff.mp hr).1).trans hr
  · by_cases hSize : r < g.rules.size
    · exact (hOwn r hSize).symm.trans hr
    · -- An added rule is not involved, and its left-hand side is not the augmented start.
      have hAdded : rule ∈ added := by
        rw [← Array.getElem?_toList, hRules,
          List.getElem?_append_right (by simpa using hSize)] at hr
        exact List.mem_of_getElem? hr
      have hFirst : 0 < g.rules.size := (Array.getElem?_eq_some_iff.mp g.augmentedRule_first).1
      have hPos := g'.left_pos hr (by rintro rfl; exact hSize hFirst)
      rcases hLeft.of_augmentedStart with hEq | hInvolves
      · exact absurd hEq (Nat.ne_of_gt hPos)
      · exact absurd hInvolves (hDead rule hAdded)

theorem unaffected_of_dead {added : List Rule} (hRules : g'.rules.toList = g.rules.toList ++ added)
    (hDead : ∀ rule ∈ added, ¬ g.Involves g.start rule.left) : g.Unaffected g' added := by
  have hR := renumbers_of_dead hRules hDead
  refine ⟨hRules, hR.automaton_eq, fun construction => ?_⟩
  obtain ⟨automaton, hAutomaton, hCoherent⟩ := construction.exists_automaton g
  have hAutomaton' := (hR.automaton_eq construction).trans hAutomaton
  obtain ⟨automaton', hEq, hCoherent'⟩ := construction.exists_automaton g'
  obtain rfl : automaton' = automaton := Except.ok.inj (hEq.symm.trans hAutomaton')
  have hTable := hR.ofAutomaton_eq fun _ _ hState => involvesItem_of_state hAutomaton hState
  have hProductions : (ParseTable.ofAutomaton g' automaton').productions =
      (ParseTable.ofAutomaton g automaton').productions ++
        (added.map fun rule => (rule.left, rule.right.length)).toArray := by
    rw [← Array.toList_inj]
    simp [ParseTable.ofAutomaton, hRules]
  rw [hProductions] at hTable
  rw [Construction.generate_of_coherent hAutomaton' hCoherent',
    Construction.generate_of_coherent hAutomaton hCoherent, hTable]
  dsimp only
  split <;> rfl

end Grammar

/-! ## Declarations of dead rules -/

namespace Draft

/-- A course of declarations goes on with the draft that its beginning ends with. -/
theorem after_append (d : Draft) (earlier later : List Declaration) :
    d.after (earlier ++ later) = (d.after earlier).after later := by
  rw [after, List.map_append, attempt_append]
  rfl

variable {d : Draft} {g : Grammar} {more : List Declaration}

/-- Rules and start symbols that are declared later do not change what a parse starts with. -/
theorem Grows.start? {d' : Draft} {accepted : List (Declaration × Option Nat)}
    (hGrows : d.Grows accepted d') (hRules : d.rules ≠ #[])
    (hStart : accepted.filterMap (·.1.start?) = []) : d'.start? = d.start? := by
  have hFirst : d'.rules[0]? = d.rules[0]? := by
    have hPos : 0 < d.rules.toList.length := by
      rw [Array.length_toList]
      exact Array.size_pos_iff.mpr hRules
    rw [← Array.getElem?_toList, hGrows.rules, List.getElem?_append_left hPos,
      Array.getElem?_toList]
  rw [Draft.start?, Draft.start?, hFirst, hGrows.start, hStart]
  rfl

/-- Symbols and dead rules that are declared behind a finished grammar do not influence the
parser. -/
theorem unaffected_by_dead_rules {calls more : List Declaration}
    (hFinish : (empty.after calls).finish = .ok g) (hStart : ∀ n, .start n ∉ more)
    (hDead : ∀ left right, .rule left right ∈ more → ¬ g.Involves g.start left) :
    ∃ g', (empty.after (calls ++ more)).finish = .ok g' ∧
      g.Unaffected g' (((empty.after calls).accepted more).flatMap fun tried => tried.1.rules) := by
  have hGrows := (empty.after calls).grows more
  rw [after_append]
  generalize empty.after calls = d at hFinish hGrows ⊢
  obtain ⟨start, h, hRules, rfl⟩ := finish_eq_ok_iff.mp hFinish
  have hNoStart : (d.accepted more).filterMap (·.1.start?) = [] := by
    refine List.filterMap_eq_nil_iff.mpr fun tried hTried => ?_
    have hMem := mem_of_mem_accepted hTried
    cases hDeclaration : tried.1 with
    | start n => exact absurd (hDeclaration ▸ hMem) (hStart n)
    | _ => rfl
  have h' : (d.after more).start? = some start := (hGrows.start? hRules hNoStart).trans h
  have hRules' : (d.after more).rules ≠ #[] := by
    intro hEmpty
    have hSome := hGrows.rules
    rw [hEmpty, eq_comm] at hSome
    exact hRules (Array.toList_eq_nil_iff.mp (List.append_eq_nil_iff.mp hSome).1)
  refine ⟨(d.after more).augment start h', finish_eq_ok_iff.mpr ⟨start, h', hRules', rfl⟩,
    Grammar.unaffected_of_dead ?_ fun rule hRule => ?_⟩
  · rw [rules_augment, rules_augment, hGrows.rules, List.cons_append]
  · obtain ⟨tried, hTried, hRule⟩ := List.mem_flatMap.mp hRule
    have hMem := mem_of_mem_accepted hTried
    cases hDeclaration : tried.1 with
    | rule left right =>
      rw [hDeclaration] at hRule hMem
      rw [List.mem_singleton.mp hRule]
      exact hDead left right hMem
    | _ =>
      rw [hDeclaration] at hRule
      cases hRule

end Draft

/-! ### Dead ends behind a chain -/

/-- `S → a S` and the empty `S`, and a nonterminal `D` that nothing leads to. -/
def chainDeclarations : List Declaration :=
  [.terminal "a", .nonterminal "S", .nonterminal "D", .start 1,
    .rule 1 [.terminal 1, .nonterminal 1], .rule 1 []]

/-- `D → D S a` and `E → D S`. -/
def deadEnds : List Declaration :=
  [.rule 2 [.nonterminal 2, .nonterminal 1, .terminal 1], .nonterminal "E",
    .rule 3 [.nonterminal 2, .nonterminal 1]]

def chain : Grammar :=
  (Draft.empty.after chainDeclarations).finish.toOption.get (by decide +kernel)

/-- The start symbol of `chain` leads to itself only. -/
theorem chain_involves {n : Nonterminal} (h : chain.Involves chain.start n) : n = 1 := by
  obtain ⟨front, back, hDerives⟩ := h
  have hRules : ∀ rule ∈ chain.rules.toList, ∀ s ∈ rule.right,
      s = .nonterminal 1 ∨ s = .terminal 1 := by decide +kernel
  have hStart : chain.start = 1 := by decide +kernel
  have hAll : ∀ s ∈ front ++ Symbol.nonterminal n :: back,
      s = .nonterminal 1 ∨ s = .terminal 1 := by
    refine hDerives.forall_mem (fun r rule hr => ?_) fun s hs => ?_
    · exact hRules rule (Array.mem_toList_iff.mpr (Array.mem_of_getElem? hr))
    · exact .inl (hStart ▸ List.mem_singleton.mp hs)
  rcases hAll _ (List.mem_append_right _ List.mem_cons_self) with hEq | hEq
  · exact Symbol.nonterminal.inj hEq
  · cases hEq

theorem unaffected_by_dead_rules_chain :
    (Draft.empty.after chainDeclarations).finish = .ok chain ∧ (∀ n, .start n ∉ deadEnds) ∧
      (∀ left right, .rule left right ∈ deadEnds → ¬ chain.Involves chain.start left) ∧
      ∃ g', (Draft.empty.after (chainDeclarations ++ deadEnds)).finish = .ok g' ∧
        chain.Unaffected g' (((Draft.empty.after chainDeclarations).accepted deadEnds).flatMap
          fun tried => tried.1.rules) := by
  have hFinish : (Draft.empty.after chainDeclarations).finish = .ok chain :=
    eq_ok_of_toOption (Option.some_get _).symm
  have hStart : ∀ n, .start n ∉ deadEnds := by simp [deadEnds]
  have hDead : ∀ left right, .rule left right ∈ deadEnds →
      ¬ chain.Involves chain.start left := by
    intro left right hMem hInvolves
    rw [chain_involves hInvolves] at hMem
    simp [deadEnds] at hMem
  exact ⟨hFinish, hStart, hDead, Draft.unaffected_by_dead_rules hFinish hStart hDead⟩

/-- Both dead rules are accepted. -/
example : ((Draft.empty.after chainDeclarations).accepted deadEnds).map Prod.snd =
    [some 3, some 3, some 4] := by
  decide +kernel

end ShiftReduce
