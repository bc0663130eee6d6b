import ShiftReduce.Proofs.CanonicalStates
import ShiftReduce.Proofs.Productive

/-!
# Canonical states are the sets of valid items

The state that the canonical automaton reaches along `γ` holds the items that are valid after
`γ`, if every nonterminal derives a string of terminals. Live items stand between the two, and
are compared with either side.

* `Path.mem_items_iff_live`: a canonical state holds an item exactly if the item is live on the
  path to the state. For any coherent automaton this is true of cores; canonical states have no
  lookaheads of other paths.
* `Live.validAfter`: a live item is valid. The derivation is put together along the moves that
  make the item live. A prediction leaves the rest of a rule behind the new nonterminal, and a
  rightmost derivation has to replace that rest by terminals first, which is where nonterminals
  that derive no terminals would stop it.

The automaton is followed from the first symbol on (`walk?`), and a path grows at its last
symbol, so the two agree by induction from the end (`walk?_eq_some_iff`).
-/

namespace ShiftReduce

variable {g : Grammar} {γ δ : List Symbol} {i : Item} {X : Symbol}

/-! ## From live items to valid items -/

namespace Grammar

/-- A predicted item is valid where the item that predicts it is. -/
theorem AllProductive.validAfter_of_mem_predicts (hProductive : g.AllProductive) {j : Item}
    (h : i.ValidAfter g γ) (hj : j ∈ g.predicts g.firstSets i) : j.ValidAfter g γ := by
  obtain ⟨rs, front, rule, w, hr, _, hRightmost, hγ, hLookahead⟩ := h
  obtain ⟨n, tail, hRest, hn, hMarker, hb⟩ := (g.mem_predicts _).mp hj
  obtain ⟨rule', hr', rfl⟩ := g.mem_rulesOf.mp hn
  have hRight : rule.right =
      rule.right.take i.core.marker ++ .nonterminal rule'.left :: tail := by
    rw [← hRest, Core.rest_eq_drop hr, List.take_append_drop]
  -- What comes after the nonterminal is replaced by terminals that begin with the lookahead.
  have hTail : ∀ s ∈ tail, ∃ w, g.Derives [s] (terminalString w) := by
    intro s hs
    have hMem : s ∈ i.core.rest g := hRest ▸ List.mem_cons_of_mem _ hs
    exact hProductive.exists_string_of_mem_rest hMem
  rw [hLookahead] at hb
  obtain ⟨u, _, hYields, hNext⟩ := hProductive.exists_yields hTail hb
  obtain ⟨rs', hGrow⟩ := hYields.exists_rightmost
  have hRule : g.Rightmost (rs ++ [i.core.rule]) [.nonterminal augmentedStart]
      (front ++ (rule.right ++ terminalString w)) := .step hRightmost hr
  have hAfter : g.Rightmost rs' (γ ++ .nonterminal rule'.left :: (tail ++ terminalString w))
      (γ ++ .nonterminal rule'.left :: terminalString (u ++ w)) := by
    rw [terminalString_append]
    exact ((hGrow.append_terminals w).append_left [.nonterminal rule'.left]).append_left γ
  have hMiddle : front ++ (rule.right ++ terminalString w) =
      γ ++ .nonterminal rule'.left :: (tail ++ terminalString w) := by
    rw [hRight, hγ]
    simp
  rw [hMiddle] at hRule
  refine ⟨_, γ, rule', u ++ w, hr', ?_, hRule.trans hAfter, ?_, hNext.symm⟩
  · rw [hMarker]
    exact Nat.zero_le _
  · rw [hMarker, List.take_zero, List.append_nil]

/-- An item stays valid when the symbol after its marker is recognised. -/
theorem validAfter_advance (h : i.ValidAfter g γ) (hX : i.core.next g = some X) :
    (⟨i.core.advance, i.lookahead⟩ : Item).ValidAfter g (γ ++ [X]) := by
  obtain ⟨rs, front, rule, w, hr, _, hRightmost, hγ, hLookahead⟩ := h
  refine ⟨rs, front, rule, w, hr, ?_, hRightmost, ?_, hLookahead⟩
  · rw [Core.next, Core.rest_eq_drop hr, List.head?_drop] at hX
    exact (List.getElem?_eq_some_iff.mp hX).1
  · change γ ++ [X] = front ++ rule.right.take (i.core.marker + 1)
    rw [Core.take_advance hr hX, hγ, List.append_assoc]

/-- A live item is valid, if every nonterminal derives a string of terminals. -/
theorem Live.validAfter (h : g.Live γ i) (hProductive : g.AllProductive) :
    i.ValidAfter g γ.reverse := by
  induction h with
  | initial => exact g.initialItem_validAfter
  | predict _ hj ih => exact hProductive.validAfter_of_mem_predicts ih hj
  | advance _ hX ih =>
    rw [List.reverse_cons]
    exact validAfter_advance ih hX

theorem AllProductive.live_iff_validAfter (hProductive : g.AllProductive) :
    g.Live γ.reverse i ↔ i.ValidAfter g γ := by
  constructor
  · intro h
    have hValid := h.validAfter hProductive
    rwa [List.reverse_reverse] at hValid
  · exact Item.ValidAfter.live

end Grammar

namespace Automaton

variable {automaton : Automaton} {q p : StateId} {ps : List StateId} {state : State}

/-! ## The items of canonical states -/

/-- The topmost state of a path of the canonical automaton holds live items only. -/
theorem Path.live_of_mem_canonical (h : (canonical g).Path (q :: ps) γ)
    (hState : (canonical g).states[q]? = some state) (hMem : i ∈ state.items) : g.Live γ i := by
  generalize hStates : q :: ps = qs at h
  induction h generalizing q ps state i with
  | bottom =>
    obtain ⟨rfl, _⟩ := List.cons.inj hStates
    obtain ⟨s, hs, rfl⟩ := canonical_state_iff.mp hState
    cases g.getElem?_collection_zero.symm.trans hs
    obtain ⟨j, hj, hReaches⟩ := (g.mem_closure _).mp hMem
    rw [OrdSet.mem_singleton.mp hj] at hReaches
    exact .of_reaches .initial hReaches
  | @push p q' ps' γ X h hEdge ih =>
    obtain ⟨rfl, _⟩ := List.cons.inj hStates
    -- The edge leads to the state of `goto`, and its items come from items below.
    obtain ⟨s, hs, _, hNext⟩ := exists_goto_of_edge? hEdge
    cases (canonical_state_iff.mpr ⟨_, hNext, rfl⟩).symm.trans hState
    obtain ⟨k, hk, hX, hReaches⟩ := Grammar.mem_goto.mp hMem
    exact .of_reaches ((ih (canonical_state_iff.mpr ⟨s, hs, rfl⟩) hk rfl).advance hX) hReaches

/-- The topmost state of a path of the canonical automaton holds the live items. -/
theorem Path.mem_items_iff_live (h : (canonical g).Path (q :: ps) γ)
    (hState : (canonical g).states[q]? = some state) : i ∈ state.items ↔ g.Live γ i :=
  ⟨h.live_of_mem_canonical hState, h.mem_of_live (coherent_canonical g) hState⟩

/-! ## Walks and paths -/

theorem walk?_concat : automaton.walk? p (γ ++ [X]) =
    (automaton.walk? p γ).bind fun q => automaton.edge? q X := by
  induction γ generalizing p with
  | nil =>
    rw [List.nil_append, walk?, walk?, Option.bind_some]
    cases automaton.edge? p X <;> rfl
  | cons Y γ ih =>
    rw [List.cons_append, walk?, walk?, Option.bind_assoc]
    exact congrArg _ (funext fun next => ih)

/-- Following the edges along `γ` from the initial state leads to the topmost state of the path
with the symbols `γ`. -/
theorem walk?_eq_some_iff : automaton.walk? initialState γ.reverse = some q ↔
    ∃ ps, automaton.Path (q :: ps) γ := by
  induction γ generalizing q with
  | nil =>
    constructor
    · intro h
      obtain rfl := Option.some.inj h
      exact ⟨[], .bottom⟩
    · rintro ⟨ps, h⟩
      cases h
      rfl
  | cons X γ ih =>
    rw [List.reverse_cons, walk?_concat, Option.bind_eq_some_iff]
    constructor
    · rintro ⟨p, hWalk, hEdge⟩
      obtain ⟨ps, hPath⟩ := ih.mp hWalk
      exact ⟨p :: ps, hPath.push hEdge⟩
    · rintro ⟨_, h⟩
      cases h with
      | push hPath hEdge => exact ⟨_, ih.mpr ⟨_, hPath⟩, hEdge⟩

/-! ## States and valid items -/

/-- If every nonterminal derives a string of terminals, the canonical automaton can be followed
along the viable prefixes and along no other strings, and the state that it comes to holds the
items that are valid there. -/
theorem canonical_walk_valid (hProductive : g.AllProductive) (γ : List Symbol) :
    ((∃ q, (canonical g).walk? initialState γ = some q) ↔ g.ViablePrefix γ) ∧
      ∀ q, (canonical g).walk? initialState γ = some q →
        ∃ state, (canonical g).states[q]? = some state ∧
          ∀ i, i ∈ state.items ↔ i.ValidAfter g γ := by
  have hWalk : ∀ q, (canonical g).walk? initialState γ = some q ↔
      ∃ ps, (canonical g).Path (q :: ps) γ.reverse := by
    intro q
    rw [← walk?_eq_some_iff, List.reverse_reverse]
  constructor
  · constructor
    · rintro ⟨q, hq⟩
      obtain ⟨ps, hPath⟩ := (hWalk q).mp hq
      obtain ⟨i, hLive⟩ := hPath.exists_live (coherent_canonical g)
      exact ⟨i, hProductive.live_iff_validAfter.mp hLive⟩
    · rintro ⟨i, hValid⟩
      obtain ⟨q, ps, hPath⟩ := Path.exists_of_live (coherent_canonical g) hValid.live
      exact ⟨q, (hWalk q).mpr ⟨ps, hPath⟩⟩
  · intro q hq
    obtain ⟨ps, hPath⟩ := (hWalk q).mp hq
    obtain ⟨state, hState⟩ := hPath.exists_state (coherent_canonical g)
    refine ⟨state, hState, ?_⟩
    intro i
    rw [hPath.mem_items_iff_live hState, hProductive.live_iff_validAfter]

/-- After `A a A` the automaton of `twice` can be followed, and after `A A a` it cannot. -/
theorem canonical_walk_valid_twice :
    twice.AllProductive ∧
      (canonical twice).walk? initialState [.nonterminal 2, .terminal 1, .nonterminal 2] = some 9 ∧
      (canonical twice).walk? initialState [.nonterminal 2, .nonterminal 2, .terminal 1] = none ∧
      twice.ViablePrefix [.nonterminal 2, .terminal 1, .nonterminal 2] ∧
      (∃ state, (canonical twice).states[9]? = some state ∧
        ∀ i, i ∈ state.items ↔
          i.ValidAfter twice [.nonterminal 2, .terminal 1, .nonterminal 2]) ∧
      ¬ twice.ViablePrefix [.nonterminal 2, .nonterminal 2, .terminal 1] := by
  have hSome : (canonical twice).walk? initialState
      [.nonterminal 2, .terminal 1, .nonterminal 2] = some 9 := by
    decide +kernel
  have hNone : (canonical twice).walk? initialState
      [.nonterminal 2, .nonterminal 2, .terminal 1] = none := by
    decide +kernel
  obtain ⟨hViable, hItems⟩ :=
    canonical_walk_valid twice_allProductive [.nonterminal 2, .terminal 1, .nonterminal 2]
  obtain ⟨hNotViable, _⟩ :=
    canonical_walk_valid twice_allProductive [.nonterminal 2, .nonterminal 2, .terminal 1]
  refine ⟨twice_allProductive, hSome, hNone, hViable.mp ⟨9, hSome⟩, hItems 9 hSome, ?_⟩
  intro hPrefix
  obtain ⟨q, hq⟩ := hNotViable.mpr hPrefix
  rw [hNone] at hq
  cases hq

end Automaton

end ShiftReduce
