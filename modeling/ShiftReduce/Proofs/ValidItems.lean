import ShiftReduce.Proofs.LiveParses

/-!
# Valid items are live

There are two accounts of what may stand on a stack. An item is valid after `γ` if some
rightmost derivation uses its rule at that place (`Item.ValidAfter`), and it is live on a
stack if predictions and markers lead to it (`Grammar.Live`). The first speaks of
derivations and inputs, the second is what automata are made of.

* `Item.ValidAfter.live`: a valid item is live. A prediction needs something that the rest
  of a rule can begin with, and here there always is something: the rest of the rule has
  been replaced by terminals before the nonterminal in front of it is.
* `Live.derives`: below a live item the stack and what the item expects are part of a string
  derived from the augmented start. Nothing is said about how that string goes on, and it
  may go on with symbols that derive no terminals.

The induction for the first is along the derivation, and the statement is about all
nonterminals of its last string, not only about the one that is replaced next
(`live_of_rightmost`).
-/

namespace ShiftReduce

/-- An element of two strings side by side is in the first or in the second. -/
theorem append_cons_eq_append {α : Type} {front back l m : List α} {a : α}
    (h : front ++ a :: back = l ++ m) :
    (∃ mid, l = front ++ a :: mid ∧ back = mid ++ m) ∨
      ∃ mid, front = l ++ mid ∧ m = mid ++ a :: back := by
  rcases List.append_eq_append_iff.mp h with ⟨mid, hl, hm⟩ | ⟨mid, hFront, hm⟩
  · rcases List.cons_eq_append_iff.mp hm with ⟨hMid, hm⟩ | ⟨mid', hMid, hBack⟩
    · right
      exact ⟨[], by simp [hl, hMid], by simpa using hm⟩
    · left
      exact ⟨mid', by rw [hl, hMid], hBack⟩
  · right
    exact ⟨mid, hFront, hm⟩

theorem nonterminal_not_mem_terminalString (n : Nonterminal) (w : List Terminal) :
    .nonterminal n ∉ terminalString w := by
  simp [terminalString]

namespace Grammar

variable {g : Grammar} {α β γ front back : List Symbol} {v w : List Terminal} {n : Nat}
  {r : RuleId} {rule : Rule} {i : Item} {X : Symbol}

/-! ## Strings of terminals -/

/-- Trees over terminals are the terminals. -/
theorem Yields.eq_of_terminalString (h : g.Yields (terminalString w) v n) : v = w := by
  induction w generalizing v n with
  | nil =>
    cases h
    rfl
  | cons t w ih =>
    cases h with
    | terminal _ h => rw [ih h]

/-- What holds of the symbols on the right of a rule whenever it holds of its left-hand side holds
of all symbols that are derived. -/
theorem Derives.forall_mem_of_left {P : Symbol → Prop} (h : g.Derives α β)
    (hRules : ∀ (r : RuleId) (rule : Rule), g.rules[r]? = some rule →
      P (.nonterminal rule.left) → ∀ s ∈ rule.right, P s)
    (hα : ∀ s ∈ α, P s) : ∀ s ∈ β, P s := by
  induction h with
  | refl => exact hα
  | step _ hp ih =>
    cases hp with
    | @intro r rule front back hr =>
      intro s hs
      rcases List.mem_append.mp hs with hs | hs
      · exact ih s (List.mem_append_left _ hs)
      · rcases List.mem_append.mp hs with hs | hs
        · exact hRules r rule hr (ih _ (List.mem_append_right _ List.mem_cons_self)) s hs
        · exact ih s (List.mem_append_right _ (List.mem_cons_of_mem _ hs))

/-- What holds of all right-hand sides holds of all that is derived. -/
theorem Derives.forall_mem {P : Symbol → Prop} (h : g.Derives α β)
    (hRules : ∀ (r : RuleId) (rule : Rule), g.rules[r]? = some rule → ∀ s ∈ rule.right, P s)
    (hα : ∀ s ∈ α, P s) : ∀ s ∈ β, P s :=
  h.forall_mem_of_left (fun r rule hr _ => hRules r rule hr) hα

/-- Declared symbols derive declared symbols only. -/
theorem Derives.declared (h : g.Derives α β)
    (hα : ∀ s ∈ α, s.Declared g.terminals.size g.nonterminals.size) :
    ∀ s ∈ β, s.Declared g.terminals.size g.nonterminals.size :=
  h.forall_mem (fun _ _ hr _ hs => g.declared_of_mem_right hr hs) hα

theorem eq_augmentedRule (hr : g.rules[r]? = some rule) (hLeft : rule.left = augmentedStart) :
    r = augmentedRule := by
  by_cases h0 : r = augmentedRule
  · exact h0
  · have hPos := g.left_pos hr h0
    rw [hLeft] at hPos
    exact absurd hPos (Nat.lt_irrefl 0)

/-! ## From derivations to live items -/

/-- Every rule of a nonterminal that a rightmost derivation comes to is live there, with
the first terminal of what comes after it as its lookahead. -/
theorem live_of_rightmost {rs : List RuleId} (h : g.Rightmost rs [.nonterminal augmentedStart] β)
    (hβ : β = front ++ .nonterminal rule.left :: back) (hr : g.rules[r]? = some rule)
    (hBack : g.Yields back v n) : g.Live front.reverse ⟨⟨r, 0⟩, nextTerminal v⟩ := by
  generalize hα : [Symbol.nonterminal augmentedStart] = α at h
  induction h generalizing front back r rule v n with
  | refl =>
    rw [← hα] at hβ
    rcases List.singleton_eq_append_iff.mp hβ with ⟨rfl, hTail⟩ | ⟨_, hTail⟩
    · obtain ⟨hLeft, rfl⟩ := List.cons.inj hTail
      have h0 : r = augmentedRule := eq_augmentedRule hr (Symbol.nonterminal.inj hLeft)
      cases hBack
      rw [h0]
      exact .initial
    · cases hTail
  | @step rs r₀ rule₀ _ front₀ w hPrevious hr₀ ih =>
    rcases append_cons_eq_append hβ.symm with ⟨mid, hFront, hMid⟩ | ⟨mid, hFront, hRest⟩
    · -- The nonterminal stands before the one that was replaced, and stood there already.
      have hBefore : g.Yields (mid ++ .nonterminal rule₀.left :: terminalString w) v (n + 1) := by
        rw [hMid] at hBack
        exact (Produces.intro mid (terminalString w) hr₀).yields hBack
      refine ih ?_ hr hBefore hα
      rw [hFront, List.append_assoc, List.cons_append]
    · rcases append_cons_eq_append hRest.symm with ⟨tail, hRight, hTail⟩ | ⟨tail, _, hTail⟩
      · -- It came with the rule, which is live with the terminal after its left-hand side.
        rw [hTail] at hBack
        obtain ⟨u, x, k, l, rfl, _, hu, hx⟩ := hBack.split
        rw [hx.eq_of_terminalString]
        have hRule : g.Live front₀.reverse ⟨⟨r₀, 0⟩, nextTerminal w⟩ :=
          ih rfl hr₀ (yields_terminalString w) hα
        have hWhole : (⟨r₀, 0⟩ : Core).rest g = mid ++ .nonterminal rule.left :: tail := by
          rw [Core.rest_mk hr₀, List.drop_zero, hRight]
        have hRead := hRule.read hWhole
        have hNext := Core.rest_add hWhole
        have hAfter : nextTerminal (u ++ w) ∈ g.firstSets.ofSequenceThen (tail ++ []) (nextTerminal w) :=
          hu.nextTerminal_mem (FirstSets.mem_ofSequenceThen_nil.mpr rfl)
        rw [List.append_nil] at hAfter
        rw [hFront, List.reverse_append]
        apply hRead.predict
        exact (g.mem_predicts _).mpr
          ⟨_, tail, hNext, g.mem_rulesOf.mpr ⟨rule, hr, rfl⟩, rfl, hAfter⟩
      · -- The terminals at the end hold no nonterminal.
        have hMem : .nonterminal rule.left ∈ terminalString w := by
          rw [hTail]
          simp
        exact absurd hMem (nonterminal_not_mem_terminalString _ _)

/-! ## From live items to derivations -/

/-- What lies on the stack below a live item, followed by what the item expects, begins a
string that is derived from the augmented start. -/
theorem Live.derives (h : g.Live γ i) :
    ∃ back, g.Derives [.nonterminal augmentedStart] (γ.reverse ++ (i.core.rest g ++ back)) := by
  induction h with
  | initial =>
    refine ⟨[], ?_⟩
    have hRest : initialItem.core.rest g = [.nonterminal g.start] :=
      Core.rest_mk g.augmentedRule_first 0
    rw [hRest]
    exact Derives.of_rule g.augmentedRule_first
  | @predict γ i j _ hj ih =>
    obtain ⟨back, hDerives⟩ := ih
    obtain ⟨m, tail, hRest, hm, hMarker, _⟩ := (g.mem_predicts _).mp hj
    obtain ⟨rule, hr, rfl⟩ := g.mem_rulesOf.mp hm
    have hRule : j.core.rest g = rule.right := by
      rw [Core.rest_eq_drop hr, hMarker, List.drop_zero]
    refine ⟨tail ++ back, ?_⟩
    rw [hRule]
    rw [hRest] at hDerives
    exact hDerives.step (.intro γ.reverse (tail ++ back) hr)
  | @advance γ i X _ hX ih =>
    obtain ⟨back, hDerives⟩ := ih
    obtain ⟨tail, hRest⟩ := Core.next_eq_some_iff.mp hX
    refine ⟨back, ?_⟩
    rw [Core.rest_advance hRest, List.reverse_cons, List.append_assoc]
    rwa [hRest] at hDerives

/-- An item that is live above a symbol comes from one that expected the symbol. -/
theorem Live.exists_next (h : g.Live (β ++ X :: γ) i) :
    ∃ k, g.Live γ k ∧ k.core.next g = some X := by
  generalize hδ : β ++ X :: γ = δ at h
  induction h generalizing β with
  | initial => simp at hδ
  | predict _ _ ih => exact ih hδ
  | @advance δ k Y hk hY ih =>
    cases β with
    | nil =>
      obtain ⟨rfl, rfl⟩ := List.cons.inj hδ
      exact ⟨k, hk, hY⟩
    | cons Z β =>
      obtain ⟨_, hδ⟩ := List.cons.inj hδ
      exact ih hδ

end Grammar

/-- A valid item is live, on the stack that it is valid after. -/
theorem Item.ValidAfter.live {g : Grammar} {γ : List Symbol} {i : Item} (h : i.ValidAfter g γ) :
    g.Live γ.reverse i := by
  obtain ⟨rs, front, rule, w, hr, hMarker, hRightmost, hγ, hLookahead⟩ := h
  have hRule : g.Live front.reverse ⟨⟨i.core.rule, 0⟩, nextTerminal w⟩ :=
    Grammar.live_of_rightmost hRightmost rfl hr (Grammar.yields_terminalString w)
  have hRest : (⟨i.core.rule, 0⟩ : Core).rest g =
      rule.right.take i.core.marker ++ rule.right.drop i.core.marker := by
    rw [Core.rest_mk hr, List.drop_zero, List.take_append_drop]
  have hLength : (rule.right.take i.core.marker).length = i.core.marker := by
    simp [hMarker]
  have hRead := hRule.read hRest
  rw [hLength, Nat.zero_add, ← hLookahead] at hRead
  rwa [hγ, List.reverse_append]

end ShiftReduce
