import ShiftReduce.Proofs.DeclaredGrammars
import ShiftReduce.Proofs.ExpectedTerminals
import ShiftReduce.Proofs.RenumberedStates

/-!
# The order of rules

Two grammars with the same rules in different orders (`Grammar.Reordered`) have automata with
different numbers. The order of the rules is the order of items, so it is the order of edges, and
so the order in which states are found. It also decides which of two reductions is kept in a cell.

Nothing else depends on it. Each renumbering of the rules comes with a renumbering of the states,
under which both automata are the same and have as many conflicts in each cell
(`Automaton.Renumbers`). Without conflicts both tables then have the same actions but for these
numbers (`Automaton.Renumbers.lookups`), and all runs are alike (`LookupTable.Renames.run`).
-/

namespace ShiftReduce

/-! ## Tables without conflicts -/

/-- A terminal is expected where the table has an action for it. -/
theorem ParseTable.mem_expected_iff_exists {table : ParseTable} {q : StateId} {t : Terminal} :
    t ∈ table.expected q ↔ ∃ action, table.action? q t = some action := by
  unfold expected action?
  cases table.rows[q]? with
  | none => simp
  | some row =>
    rw [Option.elim_some, Option.bind_some, List.mem_map]
    constructor
    · rintro ⟨⟨_, action⟩, hMem, rfl⟩
      exact exists_lookup_of_mem hMem
    · rintro ⟨action, hLookup⟩
      exact ⟨_, mem_of_lookup hLookup, rfl⟩

section Lookups

variable {g g' : Grammar} {ρ : Equiv.Perm RuleId} {β : Equiv.Perm StateId}
  {automaton automaton' : Automaton}

/-- `ρ` gives each rule a number that it has in the second grammar. -/
def Grammar.Rearranges (g g' : Grammar) (ρ : Equiv.Perm RuleId) : Prop :=
  ∀ r, g'.rules[ρ r]? = g.rules[r]?

theorem Grammar.Rearranges.renumbers (hρ : g.Rearranges g' ρ) : g.Renumbers g' ρ where
  injective := ρ.injective
  rule r _ hr := (hρ r).trans hr
  exists_rule r' _ hr' _ := by
    refine ⟨ρ.symm r', ρ.apply_symm_apply r', ?_⟩
    rw [← hρ, ρ.apply_symm_apply]
    exact hr'

theorem Automaton.Renumbers.lookups (hStates : automaton.Renumbers automaton' ρ β)
    (hρ : g.Rearranges g' ρ) (hCoherent : automaton.Coherent g)
    (hCoherent' : automaton'.Coherent g')
    (hConflicts : (ParseTable.ofAutomaton g automaton).conflicts = []) :
    (ParseTable.ofAutomaton g automaton).lookups.Renames
      (ParseTable.ofAutomaton g' automaton').lookups β ρ := by
  have hAction := hStates.action?_eq hρ.renumbers hCoherent
    (ParseTable.exact_ofAutomaton hCoherent) (ParseTable.exact_ofAutomaton hCoherent') hConflicts
  have hExpected : ∀ q t, t ∈ (ParseTable.ofAutomaton g' automaton').expected (β q) ↔
      t ∈ (ParseTable.ofAutomaton g automaton).expected q := by
    intro q t
    rw [ParseTable.mem_expected_iff_exists, ParseTable.mem_expected_iff_exists, hAction]
    simp only [← Option.isSome_iff_exists, Option.isSome_map]
  refine ⟨hStates.initial.symm, fun q t => hAction q (t.getD endMarker), fun q n => ?_,
    fun r => ?_, fun q t => ?_⟩
  · change (ParseTable.ofAutomaton g' automaton').goto? (β q) n =
      ((ParseTable.ofAutomaton g automaton).goto? q n).map β
    rw [ParseTable.goto?_ofAutomaton, ParseTable.goto?_ofAutomaton, hStates.edge]
  · change (ParseTable.ofAutomaton g' automaton').production? (ρ r) =
      (ParseTable.ofAutomaton g automaton).production? r
    rw [ParseTable.production?_ofAutomaton, ParseTable.production?_ofAutomaton, hρ]
  · cases t with
    | none => rw [ParseTable.none_mem_expected_iff, ParseTable.none_mem_expected_iff, hExpected]
    | some u => rw [ParseTable.some_mem_expected_iff, ParseTable.some_mem_expected_iff, hExpected]

end Lookups

/-! ## Grammars with reordered rules -/

namespace Grammar

/-- The second grammar has the rules of the first one in another order, behind the augmented rule.
The names of the nonterminals do not matter. -/
structure Reordered (g g' : Grammar) : Prop where
  terminals : g'.terminals = g.terminals
  start : g'.start = g.start
  rules : g.rules.toList.tail.Perm g'.rules.toList.tail

variable {g g' : Grammar}

theorem toList_rules (g : Grammar) : g.rules.toList =
    ⟨augmentedStart, [.nonterminal g.start]⟩ :: g.rules.toList.tail := by
  refine (List.cons_head?_tail ?_).symm
  rw [List.head?_eq_getElem?, Array.getElem?_toList]
  exact g.augmentedRule_first

theorem Reordered.exists_rearranges (h : g.Reordered g') : ∃ ρ, g.Rearranges g' ρ := by
  have hPerm : g.rules.toList.Perm g'.rules.toList := by
    rw [toList_rules, g'.toList_rules, h.start]
    exact h.rules.cons _
  obtain ⟨ρ, hρ⟩ := exists_equiv_getElem? hPerm
  refine ⟨ρ, fun r => ?_⟩
  rw [← Array.getElem?_toList, hρ, Array.getElem?_toList]

theorem Reordered.tokenize_eq (h : g.Reordered g') (input : String) :
    g'.tokenize input = g.tokenize input := by
  unfold tokenize terminalNamed?
  rw [h.terminals]

/-- What is left of an automaton and its table if the rules come in another order: all but the
numbers of rules and states, and what conflicts make of these. -/
structure SameButOrder (g g' : Grammar) (ρ : Equiv.Perm RuleId) (β : Equiv.Perm StateId)
    (automaton automaton' : Automaton) (table table' : ParseTable) : Prop where
  states : automaton.Renumbers automaton' ρ β
  conflicts : ∀ q t, (table'.conflictsAt (β q) t).length = (table.conflictsAt q t).length
  /-- With the same number of look-ups both runs end, or neither does. If they end, they have
  made the same steps, and rejections are in the same place. -/
  runs : table.conflicts = [] → ∀ (input : String) (lookups : Nat),
    (table.parse g input lookups).Renamed β ρ (table'.parse g' input lookups)

/-- The order of the rules makes no difference but for conflicts, whatever numbers equal rules are
given by the renumbering. -/
theorem Reordered.same_but_order (h : g.Reordered g') :
    (∃ ρ, g.Rearranges g' ρ) ∧ ∀ ρ, g.Rearranges g' ρ → ∀ algorithm : Algorithm,
      ∃ automaton automaton' table table' β,
        (Construction.mk algorithm false).automaton g = .ok automaton ∧
        (Construction.mk algorithm false).automaton g' = .ok automaton' ∧
        (Construction.mk algorithm false).generate g = .ok table ∧
        (Construction.mk algorithm false).generate g' = .ok table' ∧
        g.SameButOrder g' ρ β automaton automaton' table table' := by
  refine ⟨h.exists_rearranges, fun ρ hρ algorithm => ?_⟩
  have hR := hρ.renumbers
  obtain ⟨automaton, hAutomaton, hCoherent, hGathered⟩ := algorithm.exists_gathered g
  obtain ⟨automaton', hAutomaton', hCoherent', hGathered'⟩ := algorithm.exists_gathered g'
  obtain ⟨β, hStates⟩ := hR.exists_renumbers hGathered hGathered'
  refine ⟨_, _, ParseTable.ofAutomaton g automaton, ParseTable.ofAutomaton g' automaton', β,
    hAutomaton, hAutomaton', Construction.generate_of_coherent hAutomaton hCoherent,
    Construction.generate_of_coherent hAutomaton' hCoherent', hStates, fun q t => ?_,
    fun hConflicts input lookups => ?_⟩
  · exact hStates.length_conflictsAt_eq hR hCoherent (ParseTable.exact_ofAutomaton hCoherent)
      (ParseTable.exact_ofAutomaton hCoherent')
  · rw [ParseTable.parse, ParseTable.parse, h.tokenize_eq]
    exact (hStates.lookups hρ hCoherent hCoherent' hConflicts).run _ lookups

end Grammar

/-! ### Two orders of two rules -/

/-- `S → a S` and `S → b`. -/
def onwardFirst : Grammar :=
  (Draft.empty.after [.terminal "a", .terminal "b", .nonterminal "S", .start 1,
    .rule 1 [.terminal 1, .nonterminal 1], .rule 1 [.terminal 2]]).finish.toOption.get
      (by decide +kernel)

/-- `S → b` and `S → a S`. -/
def onwardLast : Grammar :=
  (Draft.empty.after [.terminal "a", .terminal "b", .nonterminal "S", .start 1,
    .rule 1 [.terminal 2], .rule 1 [.terminal 1, .nonterminal 1]]).finish.toOption.get
      (by decide +kernel)

theorem same_but_order_onward :
    onwardFirst.Reordered onwardLast ∧ ∃ ρ, onwardFirst.Rearranges onwardLast ρ ∧
      ∀ algorithm : Algorithm, ∃ automaton automaton' table table' β,
        (Construction.mk algorithm false).generate onwardFirst = .ok table ∧
        (Construction.mk algorithm false).generate onwardLast = .ok table' ∧
        table.conflicts = [] ∧
        onwardFirst.SameButOrder onwardLast ρ β automaton automaton' table table' := by
  have hReordered : onwardFirst.Reordered onwardLast :=
    ⟨by decide +kernel, by decide +kernel, by decide +kernel⟩
  have hConflicts : ∀ algorithm : Algorithm,
      ((Construction.mk algorithm false).generate onwardFirst).toOption.map ParseTable.conflicts =
        some [] := by
    intro algorithm
    cases algorithm <;> decide +kernel
  obtain ⟨⟨ρ, hρ⟩, hSame⟩ := hReordered.same_but_order
  refine ⟨hReordered, ρ, hρ, fun algorithm => ?_⟩
  obtain ⟨automaton, automaton', table, table', β, _, _, hTable, hTable', hAlike⟩ :=
    hSame ρ hρ algorithm
  have hNone := hConflicts algorithm
  rw [hTable] at hNone
  exact ⟨automaton, automaton', table, table', β, hTable, hTable', Option.some.inj hNone, hAlike⟩

/-- The state behind `a` is found after that behind `b` if the rules come the other way round. -/
example : (Automaton.canonical onwardFirst).edge? initialState (.terminal 1) = some 2 ∧
    (Automaton.canonical onwardLast).edge? initialState (.terminal 1) = some 3 := by
  decide +kernel

end ShiftReduce
