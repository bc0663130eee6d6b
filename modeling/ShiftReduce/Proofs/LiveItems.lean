import ShiftReduce.Automaton.Canonical
import ShiftReduce.Proofs.ItemClosure

/-!
# Live items

An item is live on a stack of symbols if it can be reached from the initial item
by two kinds of moves: to an item that the present one predicts, which leaves the
stack alone, and over the symbol after the marker, which puts that symbol on the
stack. Stacks are lists of symbols with the topmost first.

The live items are what the states of an automaton are made of, but they are
defined item by item: there are no sets of items, no numbers of states and no
merging here. What a parser may do depends on the live items alone, so the
properties of parsers are proved about them, and each kind of automaton is
compared with them once.

* `Live.base`: what a live item has recognised is on top of the stack, and below
  it the item was live with nothing recognised.
* `Live.of_augmentedRule`: the augmented rule is live in two places only.
* `Live.completes`: if some item that expects the terminal `b` is live after a
  reduction, then the complete item with the lookahead `b` was live before it.
  This is how lookaheads are carried backwards over reductions, and
  `Live.exists_expecting` carries them forwards.
-/

namespace ShiftReduce.Grammar

variable (g : Grammar)

/-- An item is live on a stack of symbols, the topmost symbol being the first. -/
inductive Live : List Symbol → Item → Prop
  | initial : Live [] initialItem
  | predict {γ : List Symbol} {i j : Item} : Live γ i → j ∈ g.predicts g.firstSets i → Live γ j
  | advance {γ : List Symbol} {i : Item} {X : Symbol} : Live γ i → i.core.next g = some X →
      Live (X :: γ) ⟨i.core.advance, i.lookahead⟩

/-- The terminals with which an item expects the input to go on. -/
def expects (i : Item) : OrdSet Terminal :=
  g.firstSets.ofSequenceThen (i.core.rest g) i.lookahead

variable {g} {γ β ζ : List Symbol} {i j : Item} {X : Symbol} {b : Terminal} {r : RuleId}
  {rule : Rule}

/-! ## The symbols after a marker -/

/-- The symbols after a marker have been declared. -/
theorem declared_of_mem_rest {core : Core} (h : X ∈ core.rest g) :
    X.Declared g.terminals.size g.nonterminals.size := by
  obtain ⟨rule, hMem, hX⟩ := g.mem_usedSymbols.mp (g.mem_usedSymbols_of_mem_rest h)
  obtain ⟨r, hr⟩ := Array.mem_iff_getElem?.mp hMem
  exact g.declared_of_mem_right hr hX

theorem rule_ne_augmentedRule (hr : g.rules[r]? = some rule) {core : Core}
    (h : .nonterminal rule.left ∈ core.rest g) : r ≠ augmentedRule := by
  rintro rfl
  rw [g.augmentedRule_first, Option.some_inj] at hr
  have hPos := (declared_of_mem_rest h).1
  rw [← hr] at hPos
  exact Nat.lt_irrefl 0 hPos

/-! ## Reading symbols -/

theorem Live.belongs (h : g.Live γ i) : i.Belongs g := by
  induction h with
  | initial => exact ⟨⟨_, g.augmentedRule_first, Nat.zero_le _⟩, g.terminals_pos⟩
  | predict _ hj ih => exact g.belongs_of_mem_predicts ih hj
  | @advance γ i X _ hX ih =>
    obtain ⟨⟨rule, hr, _⟩, ht⟩ := ih
    refine ⟨⟨rule, hr, ?_⟩, ht⟩
    rw [Core.next, Core.rest_eq_drop hr, List.head?_drop] at hX
    exact (List.getElem?_eq_some_iff.mp hX).1

theorem Live.of_reaches (h : g.Live γ i) (hij : Reaches (g.predicts g.firstSets) i j) :
    g.Live γ j := by
  induction hij with
  | refl => exact h
  | tail _ hj ih => exact ih.predict hj

/-- A live item stays live while a part of what it expects is read. -/
theorem Live.read (h : g.Live γ i) (hRest : i.core.rest g = β ++ ζ) :
    g.Live (β.reverse ++ γ) ⟨⟨i.core.rule, i.core.marker + β.length⟩, i.lookahead⟩ := by
  induction β generalizing γ i with
  | nil => exact h
  | cons X β ih =>
    have hNext := ih (h.advance (Core.next_of_rest hRest)) (Core.rest_advance hRest)
    rw [List.reverse_cons, List.append_assoc, List.singleton_append, List.length_cons]
    rwa [show i.core.advance.marker + β.length = i.core.marker + (β.length + 1) by
      simp only [Core.advance]; omega] at hNext

/-- A rule that is live with nothing recognised is live as a whole after its
right-hand side. -/
theorem Live.read_rule (hr : g.rules[r]? = some rule) (h : g.Live γ ⟨⟨r, 0⟩, b⟩) :
    g.Live (rule.right.reverse ++ γ) ⟨⟨r, rule.right.length⟩, b⟩ := by
  have hRest : (⟨r, 0⟩ : Core).rest g = rule.right ++ [] := by
    rw [Core.rest_mk hr, List.drop_zero, List.append_nil]
  simpa using h.read hRest

theorem rest_full (hr : g.rules[r]? = some rule) :
    (⟨r, rule.right.length⟩ : Core).rest g = [] := by
  rw [Core.rest_mk hr, List.drop_length]

/-- What a live item has recognised lies on top of the stack, and the item was
live before that was put there. -/
theorem Live.base (h : g.Live γ i) (hr : g.rules[i.core.rule]? = some rule) :
    ∃ δ, γ = (rule.right.take i.core.marker).reverse ++ δ ∧
      g.Live δ ⟨⟨i.core.rule, 0⟩, i.lookahead⟩ := by
  induction h with
  | initial => exact ⟨[], rfl, .initial⟩
  | @predict γ i j hi hj =>
    obtain ⟨_, _, _, _, hm, _⟩ := (g.mem_predicts _).mp hj
    obtain ⟨⟨r, m⟩, t⟩ := j
    dsimp only at hm
    subst hm
    exact ⟨γ, rfl, hi.predict hj⟩
  | @advance γ i X _ hX ih =>
    have hr' : g.rules[i.core.rule]? = some rule := hr
    obtain ⟨δ, rfl, hδ⟩ := ih hr'
    refine ⟨δ, ?_, hδ⟩
    change _ = (rule.right.take (i.core.marker + 1)).reverse ++ δ
    rw [Core.take_advance hr' hX, List.reverse_append, List.reverse_singleton,
      List.singleton_append, List.cons_append]

/-- A complete item has the right-hand side of its rule on top of the stack. -/
theorem Live.base_complete (h : g.Live γ i) (hr : g.rules[i.core.rule]? = some rule)
    (hRest : i.core.rest g = []) :
    ∃ δ, γ = rule.right.reverse ++ δ ∧ g.Live δ ⟨⟨i.core.rule, 0⟩, i.lookahead⟩ := by
  rw [Core.rest_eq_drop hr, List.drop_eq_nil_iff] at hRest
  have := h.base hr
  rwa [List.take_of_length_le hRest] at this

/-- With nothing recognised, an item is the initial one or a live item predicts
it. -/
theorem Live.predicted (h : g.Live γ ⟨⟨r, 0⟩, b⟩) :
    (γ = [] ∧ r = augmentedRule ∧ b = endMarker) ∨
      ∃ i, g.Live γ i ∧ (⟨⟨r, 0⟩, b⟩ : Item) ∈ g.predicts g.firstSets i := by
  generalize hj : (⟨⟨r, 0⟩, b⟩ : Item) = j at h
  cases h with
  | initial =>
    cases hj
    exact .inl ⟨rfl, rfl, rfl⟩
  | predict hi hp => exact .inr ⟨_, hi, hp⟩
  | advance =>
    have := congrArg (fun i : Item => i.core.marker) hj
    simp [Core.advance] at this

/-- Below a live rule other than the augmented one, some live item has the
left-hand side of the rule after its marker. -/
theorem Live.exists_parent (h : g.Live γ ⟨⟨r, 0⟩, b⟩) (hr : g.rules[r]? = some rule)
    (h0 : r ≠ augmentedRule) :
    ∃ i tail, g.Live γ i ∧ i.core.rest g = .nonterminal rule.left :: tail ∧
      b ∈ g.firstSets.ofSequenceThen tail i.lookahead := by
  rcases h.predicted with ⟨_, h, _⟩ | ⟨i, hi, hp⟩
  · exact absurd h h0
  · obtain ⟨n, tail, hRest, hn, _, hb⟩ := (g.mem_predicts _).mp hp
    obtain ⟨rule', hr', rfl⟩ := g.mem_rulesOf.mp hn
    cases hr.symm.trans hr'
    exact ⟨i, tail, hi, hRest, hb⟩

/-- An item of the augmented rule is live on the empty stack, or on the start
symbol alone. Its lookahead is the end marker. -/
theorem Live.of_augmentedRule (h : g.Live γ i) (h0 : i.core.rule = augmentedRule) :
    i.lookahead = endMarker ∧ (γ = [] ∧ i.core.marker = 0 ∨
      γ = [.nonterminal g.start] ∧ i.core.marker = 1) := by
  have hr : g.rules[i.core.rule]? = _ := h0 ▸ g.augmentedRule_first
  obtain ⟨δ, hγ, hδ⟩ := h.base hr
  obtain ⟨_, hm⟩ := h.belongs.1
  rw [hr] at hm
  obtain ⟨hRule, hm⟩ := hm
  cases Option.some.inj hRule
  rcases hδ.predicted with ⟨rfl, _, hb⟩ | ⟨k, _, hp⟩
  · refine ⟨hb, ?_⟩
    have hm : i.core.marker = 0 ∨ i.core.marker = 1 := by
      simp only [List.length_singleton] at hm
      omega
    rcases hm with hm | hm <;> rw [hm] at hγ ⊢
    · exact .inl ⟨hγ, rfl⟩
    · exact .inr ⟨hγ, rfl⟩
  · obtain ⟨n, tail, hRest, hn, _, _⟩ := (g.mem_predicts _).mp hp
    obtain ⟨rule, hr', rfl⟩ := g.mem_rulesOf.mp hn
    have hMem : .nonterminal rule.left ∈ k.core.rest g := by
      rw [hRest]
      exact List.mem_cons_self
    exact absurd h0 (rule_ne_augmentedRule hr' hMem)

/-! ## Lookaheads -/

theorem mem_expects_of_rest (h : i.core.rest g = X :: ζ) :
    b ∈ g.expects i ↔ b ∈ (g.firstSets.ofSymbol X).terminals ∨
      (g.firstSets.ofSymbol X).epsilon = true ∧ b ∈ g.firstSets.ofSequenceThen ζ i.lookahead := by
  rw [expects, h, ← List.singleton_append, FirstSets.mem_ofSequenceThen_append,
    FirstSets.mem_terminals_singleton, FirstSets.epsilon_ofSequence, List.forall_mem_singleton]

theorem mem_expects_of_complete (h : i.core.rest g = []) :
    b ∈ g.expects i ↔ b = i.lookahead := by
  rw [expects, h, FirstSets.mem_ofSequenceThen_nil]

/-- What a predicted item expects is expected by the item that predicts it. -/
theorem expects_of_mem_predicts (hj : j ∈ g.predicts g.firstSets i) (hb : b ∈ g.expects j) :
    b ∈ g.expects i := by
  obtain ⟨n, tail, hRest, hn, hm, ha⟩ := (g.mem_predicts _).mp hj
  obtain ⟨rule, hr, rfl⟩ := g.mem_rulesOf.mp hn
  have hRule : j.core.rest g = rule.right := by
    rw [Core.rest_eq_drop hr, hm, List.drop_zero]
  rw [mem_expects_of_rest hRest]
  rw [expects, hRule, FirstSets.mem_ofSequenceThen_iff] at hb
  rcases hb with hb | ⟨hEpsilon, rfl⟩
  · exact .inl (mem_ofSymbol_left hr hb)
  · exact .inr ⟨epsilon_ofSymbol_left hr hEpsilon, ha⟩

/-- An item that expects `b` above a symbol was live before the symbol was put
on the stack, or comes from one that was: either way some item expected the
symbol, and `b` after it. -/
theorem Live.exists_before (h : g.Live (X :: γ) i) (hb : b ∈ g.expects i) :
    ∃ k tail, g.Live γ k ∧ k.core.rest g = X :: tail ∧
      b ∈ g.firstSets.ofSequenceThen tail k.lookahead := by
  generalize hδ : X :: γ = δ at h
  induction h with
  | initial => cases hδ
  | predict _ hj ih => exact ih (expects_of_mem_predicts hj hb) hδ
  | @advance γ k X hk hX _ =>
    obtain ⟨rfl, rfl⟩ := List.cons.inj hδ
    obtain ⟨tail, hRest⟩ := Core.next_eq_some_iff.mp hX
    refine ⟨k, tail, hk, hRest, ?_⟩
    rwa [expects, Core.rest_advance hRest] at hb

/-- If an item that expects `b` is live after a reduction, then the rule was
complete with the lookahead `b` before the reduction. -/
theorem Live.completes (h : g.Live (.nonterminal rule.left :: γ) i) (hb : b ∈ g.expects i)
    (hr : g.rules[r]? = some rule) :
    g.Live (rule.right.reverse ++ γ) ⟨⟨r, rule.right.length⟩, b⟩ := by
  obtain ⟨k, tail, hk, hRest, hb⟩ := h.exists_before hb
  have hPredicted : (⟨⟨r, 0⟩, b⟩ : Item) ∈ g.predicts g.firstSets k :=
    (g.mem_predicts _).mpr ⟨_, tail, hRest, g.mem_rulesOf.mpr ⟨rule, hr, rfl⟩, rfl, hb⟩
  exact (hk.predict hPredicted).read_rule hr

/-- After the reduction of a complete item, some live item expects its lookahead. -/
theorem Live.exists_expecting (h : g.Live γ i) (hr : g.rules[i.core.rule]? = some rule)
    (h0 : i.core.rule ≠ augmentedRule) (hRest : i.core.rest g = []) :
    ∃ δ j, γ = rule.right.reverse ++ δ ∧ g.Live (.nonterminal rule.left :: δ) j ∧
      i.lookahead ∈ g.expects j := by
  obtain ⟨δ, hγ, hBelow⟩ := h.base_complete hr hRest
  obtain ⟨k, tail, hParent, hTail, hb⟩ := hBelow.exists_parent hr h0
  refine ⟨δ, _, hγ, hParent.advance (Core.next_of_rest hTail), ?_⟩
  rwa [expects, Core.rest_advance hTail]

end ShiftReduce.Grammar
