import ShiftReduce.Proofs.ErrorPosition
import ShiftReduce.Proofs.FollowSets
import ShiftReduce.Proofs.ReachedStates

/-!
# Lookaheads and FOLLOW sets

A FOLLOW set is computed from all rules together, and the lookaheads of items come about along the
edges of an automaton, one prediction after the other. An item is predicted with what the symbols
behind a nonterminal begin with, or with the lookahead of the item that predicts it. These are the
two ways in which FOLLOW sets grow, so

* a live item has its lookahead in the FOLLOW set of its left-hand side
  (`Live.lookahead_mem_followSet`), and with it every item of every state;
* a terminal comes into a FOLLOW set by an occurrence of the nonterminal in some rule. If that rule
  is live somewhere, then the nonterminal is predicted with this terminal (`Occurs.predicted`).

The second needs rules to be live that may be out of reach, or behind symbols that derive nothing
and so begin with nothing: it holds if every nonterminal is involved in what the augmented start
derives, and derives a string of terminals (`predicted_of_mem_followSet`).
-/

namespace ShiftReduce

namespace Grammar

variable {g : Grammar} {γ rest : List Symbol} {i : Item} {rule : Rule} {n : Nonterminal}
  {r : RuleId} {a b : Terminal}

/-! ## Live items -/

/-- A nonterminal after a marker occurs on the right of a rule. -/
theorem occurs_of_rest {core : Core} (hr : g.rules[core.rule]? = some rule)
    (hRest : core.rest g = .nonterminal n :: rest) : g.Occurs rule n rest := by
  refine ⟨Array.mem_of_getElem? hr, rule.right.take core.marker, ?_⟩
  rw [← hRest, Core.rest_eq_drop hr, List.take_append_drop]

/-- What an item is followed by follows its left-hand side. -/
theorem Live.lookahead_mem_followSet (h : g.Live γ i) (hr : g.rules[i.core.rule]? = some rule) :
    i.lookahead ∈ g.followSet g.firstSets rule.left := by
  induction h generalizing rule with
  | initial =>
    cases g.augmentedRule_first.symm.trans hr
    exact endMarker_mem_followSet
  | predict hLive hj ih =>
    obtain ⟨n, tail, hRest, hn, _, hb⟩ := (g.mem_predicts _).mp hj
    obtain ⟨rule', hr', rfl⟩ := g.mem_rulesOf.mp hn
    cases hr.symm.trans hr'
    obtain ⟨above, hAbove, _⟩ := Core.exists_rule_of_rest hRest
    have hOccurs := occurs_of_rest hAbove hRest
    rcases FirstSets.mem_ofSequenceThen_iff.mp hb with hFirst | ⟨hEmpty, hSame⟩
    · exact hOccurs.mem_of_first hFirst
    · rw [hSame]
      exact hOccurs.mem_of_left hEmpty (ih hAbove)
  | advance _ _ ih => exact ih hr

/-- Whether each rule of a nonterminal is live somewhere from its beginning, with the given
lookahead. -/
def Predicted (g : Grammar) (n : Nonterminal) (b : Terminal) : Prop :=
  ∀ (r : RuleId) (rule : Rule), g.rules[r]? = some rule → rule.left = n →
    ∃ γ, g.Live γ ⟨⟨r, 0⟩, b⟩

/-- A nonterminal that occurs in a live rule is predicted with all that can come behind it. -/
theorem Occurs.predicted (hOccurs : g.Occurs rule n rest) (hLive : g.Predicted rule.left a)
    (hb : b ∈ g.firstSets.ofSequenceThen rest a) : g.Predicted n b := by
  intro p below hp hBelow
  obtain ⟨r, before, hr, hRight⟩ := hOccurs.exists_rule
  obtain ⟨γ, hRule⟩ := hLive r rule hr rfl
  have hWhole : (⟨r, 0⟩ : Core).rest g = before ++ .nonterminal n :: rest := by
    rw [Core.rest_mk hr, List.drop_zero, hRight]
  refine ⟨_, (hRule.read hWhole).predict ((g.mem_predicts _).mpr ⟨n, rest, ?_, ?_, rfl, hb⟩)⟩
  · exact Core.rest_add hWhole
  · exact g.mem_rulesOf.mpr ⟨below, hp, hBelow⟩

theorem predicted_augmentedStart : g.Predicted augmentedStart endMarker := by
  intro r rule hr hLeft
  rw [eq_augmentedRule hr hLeft]
  exact ⟨[], .initial⟩

/-- A nonterminal that is involved is predicted, if all nonterminals derive strings of terminals. -/
theorem AllProductive.exists_predicted (hProductive : g.AllProductive)
    (hInvolved : g.Involves augmentedStart n) : ∃ a, g.Predicted n a := by
  obtain ⟨front, back, hDerives⟩ := hInvolved
  have hAll : ∀ s ∈ front ++ .nonterminal n :: back, ∀ m, s = .nonterminal m →
      ∃ a, g.Predicted m a := by
    refine hDerives.forall_mem_of_left ?_ ?_
    · rintro r rule hr hLeft s hs m rfl
      obtain ⟨a, ha⟩ := hLeft _ rfl
      obtain ⟨before, rest, hRight⟩ := List.append_of_mem hs
      obtain ⟨b, hb⟩ := (hProductive.begins hr hRight).exists_mem a
      have hOccurs : g.Occurs rule m rest := ⟨Array.mem_of_getElem? hr, before, hRight⟩
      exact ⟨b, hOccurs.predicted ha hb⟩
    · intro s hs m hm
      rw [List.mem_singleton.mp hs, Symbol.nonterminal.injEq] at hm
      exact ⟨endMarker, hm ▸ predicted_augmentedStart⟩
  exact hAll _ (List.mem_append_right _ List.mem_cons_self) n rfl

/-- Everything in a FOLLOW set is a lookahead with which the nonterminal is predicted. -/
theorem predicted_of_mem_followSet (hInvolved : g.AllInvolved) (hProductive : g.AllProductive)
    (hb : b ∈ g.followSet g.firstSets n) : g.Predicted n b := by
  apply followSet_induction hb
  · rintro rfl
    exact predicted_augmentedStart
  · intro rule n rest hOccurs hFirst
    obtain ⟨r, _, hr, _⟩ := hOccurs.exists_rule
    obtain ⟨a, ha⟩ := hProductive.exists_predicted (hInvolved _ (g.left_lt hr))
    exact hOccurs.predicted ha (FirstSets.mem_ofSequenceThen_iff.mpr (.inl hFirst))
  · intro rule n rest hOccurs hEmpty hLeft
    exact hOccurs.predicted hLeft (FirstSets.mem_ofSequenceThen_iff.mpr (.inr ⟨hEmpty, rfl⟩))

theorem AllProductive.exists_rule (hProductive : g.AllProductive)
    (hn : n < g.nonterminals.size) : ∃ (r : RuleId) (rule : Rule),
      g.rules[r]? = some rule ∧ rule.left = n := by
  obtain ⟨w, hDerives⟩ := hProductive n hn
  obtain ⟨m, hm⟩ := derives_iff_derivesIn.mp hDerives
  exact hm.yields.exists_rule

theorem nonterminal?_followSets {F : FirstSets} (hn : n < g.nonterminals.size) :
    (g.followSets F).nonterminal? n = some (g.followSet F n) := by
  have hLt : n < (g.followSets F).sets.size := by rwa [size_followSets]
  have hSet : (g.followSets F).nonterminal? n = some _ := Array.getElem?_eq_getElem hLt
  rw [hSet, getElem?_followSets hSet]

end Grammar

/-! ## Agreement -/

/-- FOLLOW sets agree with an automaton if no item has a lookahead that does not follow its
left-hand side. If every nonterminal is involved in what the augmented start derives and derives a
string of terminals, then also each rule has to be there, from its beginning, with everything that
follows its left-hand side. -/
structure FollowSets.AgreesWith (follow : FollowSets) (g : Grammar) (automaton : Automaton) :
    Prop where
  lookahead (q : StateId) (state : State) (i : Item) : automaton.states[q]? = some state →
    i ∈ state.items → ∃ rule set, g.rules[i.core.rule]? = some rule ∧
      follow.nonterminal? rule.left = some set ∧ i.lookahead ∈ set
  predicted (r : RuleId) (rule : Rule) (set : OrdSet Terminal) (b : Terminal) :
    g.AllInvolved → g.AllProductive → g.rules[r]? = some rule →
    follow.nonterminal? rule.left = some set → b ∈ set →
      ∃ (q : StateId) (state : State), automaton.states[q]? = some state ∧
        (⟨⟨r, 0⟩, b⟩ : Item) ∈ state.items
  exact (n : Nonterminal) (set : OrdSet Terminal) (b : Terminal) :
    g.AllInvolved → g.AllProductive → follow.nonterminal? n = some set →
      (b ∈ set ↔ ∃ (q : StateId) (state : State) (i : Item) (rule : Rule),
        automaton.states[q]? = some state ∧ i ∈ state.items ∧
          g.rules[i.core.rule]? = some rule ∧ rule.left = n ∧ i.lookahead = b)

namespace Automaton.Reached

variable {g : Grammar} {automaton : Automaton} {q : StateId} {state : State} {i : Item}
  {r : RuleId} {rule : Rule} {b : Terminal}

theorem lookahead_mem_followSet (hReached : automaton.Reached g)
    (hState : automaton.states[q]? = some state) (hi : i ∈ state.items)
    (hr : g.rules[i.core.rule]? = some rule) : i.lookahead ∈ g.followSet g.firstSets rule.left := by
  obtain ⟨γ, hLive⟩ := hReached.exists_live hState hi
  exact hLive.lookahead_mem_followSet hr

theorem exists_predicted (hReached : automaton.Reached g) (hInvolved : g.AllInvolved)
    (hProductive : g.AllProductive) (hr : g.rules[r]? = some rule)
    (hb : b ∈ g.followSet g.firstSets rule.left) :
    ∃ (q : StateId) (state : State), automaton.states[q]? = some state ∧
      (⟨⟨r, 0⟩, b⟩ : Item) ∈ state.items := by
  obtain ⟨γ, hLive⟩ :=
    Grammar.predicted_of_mem_followSet hInvolved hProductive hb r rule hr rfl
  exact hReached.coherent.exists_mem_of_live hLive

theorem follow_agrees (hReached : automaton.Reached g) :
    (g.followSets g.firstSets).AgreesWith g automaton where
  lookahead q state i hState hi := by
    obtain ⟨⟨rule, hr, _⟩, _⟩ := hReached.coherent.belongs hState i hi
    exact ⟨rule, _, hr, Grammar.nonterminal?_followSets (g.left_lt hr),
      hReached.lookahead_mem_followSet hState hi hr⟩
  predicted r rule set b hInvolved hProductive hr hSet hb := by
    rw [Grammar.getElem?_followSets hSet] at hb
    exact hReached.exists_predicted hInvolved hProductive hr hb
  exact n set b hInvolved hProductive hSet := by
    have hn : n < g.nonterminals.size := by
      have hLt := (Array.getElem?_eq_some_iff.mp hSet).1
      rwa [Grammar.size_followSets] at hLt
    rw [Grammar.getElem?_followSets hSet]
    constructor
    · intro hb
      obtain ⟨r, rule, hr, rfl⟩ := hProductive.exists_rule hn
      obtain ⟨q, state, hState, hi⟩ := hReached.exists_predicted hInvolved hProductive hr hb
      exact ⟨q, state, _, rule, hState, hi, hr, rfl, rfl⟩
    · rintro ⟨q, state, i, rule, hState, hi, hr, rfl, rfl⟩
      exact hReached.lookahead_mem_followSet hState hi hr

end Automaton.Reached

/-- The lookaheads of either automaton are what its grammar's FOLLOW sets say. -/
theorem Construction.follow_agrees_lookaheads (algorithm : Algorithm) (g : Grammar) :
    ∃ automaton, (Construction.mk algorithm false).automaton g = .ok automaton ∧
      (g.followSets g.firstSets).AgreesWith g automaton := by
  obtain ⟨automaton, hAutomaton, hReached⟩ := exists_reached algorithm g
  exact ⟨automaton, hAutomaton, hReached.follow_agrees⟩

theorem Grammar.twice_allInvolved : twice.AllInvolved := by
  have hAugmented : twice.rules[0]? = some ⟨0, [.nonterminal 1]⟩ := by decide +kernel
  have hPair : twice.rules[1]? = some ⟨1, [.nonterminal 2, .nonterminal 2]⟩ := by decide +kernel
  have hSize : twice.nonterminals.size = 3 := by decide +kernel
  have hStart : twice.Involves augmentedStart 0 := ⟨[], [], .refl _⟩
  have hS : twice.Involves augmentedStart 1 := hStart.of_rule hAugmented List.mem_cons_self
  have hA : twice.Involves augmentedStart 2 := hS.of_rule hPair List.mem_cons_self
  intro n hn
  rw [hSize] at hn
  match n with
  | 0 => exact hStart
  | 1 => exact hS
  | 2 => exact hA
  | n + 3 => omega

/-- In `twice`, `a` follows `A`, so some state has the last rule of `A` with this lookahead. -/
theorem follow_agrees_lookaheads_twice :
    twice.AllInvolved ∧ twice.AllProductive ∧ ∃ automaton set,
      (Construction.mk .merged false).automaton twice = .ok automaton ∧
        (twice.followSets twice.firstSets).nonterminal? 2 = some set ∧ 1 ∈ set ∧
        ∃ (q : StateId) (state : State), automaton.states[q]? = some state ∧
          (⟨⟨3, 0⟩, 1⟩ : Item) ∈ state.items := by
  obtain ⟨automaton, hAutomaton, hAgrees⟩ := Construction.follow_agrees_lookaheads .merged twice
  have hLast : twice.rules[3]? = some ⟨2, [.terminal 2]⟩ := by decide +kernel
  have hSet : (twice.followSets twice.firstSets).nonterminal? 2 =
      some (twice.followSet twice.firstSets 2) :=
    Grammar.nonterminal?_followSets (by decide +kernel)
  have hMem : 1 ∈ twice.followSet twice.firstSets 2 := by decide +kernel
  refine ⟨Grammar.twice_allInvolved, twice_allProductive, automaton, _, hAutomaton, hSet, hMem, ?_⟩
  exact hAgrees.predicted 3 _ _ 1 Grammar.twice_allInvolved twice_allProductive hLast hSet hMem

end ShiftReduce
