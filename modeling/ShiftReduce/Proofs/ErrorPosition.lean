import ShiftReduce.Proofs.Productive
import ShiftReduce.Proofs.Termination

/-!
# Where a run rejects

A table without conflicts rejects an input at the first token that is wrong: what was read
begins a sentence, and together with the next token it does not. This takes a grammar in which
every nonterminal derives a string of terminals, and then the run over every input ends.

* What was read begins a sentence. A live item on the stack tells what can come next
  (`Live.derives`), and all of it derives terminals (`AllProductive.exists_string`). For this it
  does not matter whether a merged automaton has made reductions that no sentence needs.
* As long as the tokens begin a sentence, the machine makes the moves of the parse of that
  sentence (`Parses.moves_to`). So it reads them all, and rejects only later.
-/

namespace ShiftReduce

namespace Grammar

variable {g : Grammar} {α β γ γ' front back : List Symbol} {u v v' w x : List Terminal} {n : Nat}
  {r : RuleId} {rule : Rule} {i : Item}

/-! ## What begins and what is derived -/

/-- Whatever follows a nonterminal in a rule can begin. -/
theorem AllProductive.begins (h : g.AllProductive) (hr : g.rules[r]? = some rule)
    (hRight : rule.right = front ++ .nonterminal n :: back) : g.Begins back := by
  have hBack : ∀ s ∈ back, ∃ w, g.Derives [s] (terminalString w) := by
    intro s hs
    apply h.exists_string_of_mem_right hr
    rw [hRight]
    exact List.mem_append_right _ (List.mem_cons_of_mem _ hs)
  obtain ⟨w, hw⟩ := exists_string_of_forall hBack
  cases w with
  | nil => exact .inl hw
  | cons t w => exact .inr ⟨t, terminalString w, hw⟩

/-- What the augmented start derives is derived from the start symbol. -/
theorem sentence_of_augmentedStart
    (h : g.Derives [.nonterminal augmentedStart] (terminalString w)) : g.Sentence w := by
  obtain ⟨n, hn⟩ := derives_iff_derivesIn.mp h
  generalize hA : augmentedStart = A at hn
  cases hn.yields with
  | @nonterminal r rule _ u _ m _ hr hRight hNil =>
    have h0 : r = augmentedRule := eq_augmentedRule hr hA.symm
    rw [h0, g.augmentedRule_first, Option.some_inj] at hr
    rw [← hr] at hRight
    cases hNil
    rw [List.append_nil]
    exact hRight.derives

/-! ## Beginnings of sentences -/

/-- Whether tokens stand for terminals that a sentence begins with. -/
def Opens (g : Grammar) (tokens : List InputToken) : Prop :=
  ∃ w, StandFor tokens w ∧ g.BeginsSentence w

theorem Opens.take {tokens : List InputToken} (h : g.Opens tokens) (n : Nat) :
    g.Opens (tokens.take n) := by
  obtain ⟨w, hStand, rest, hSentence⟩ := h
  refine ⟨w.take n, ?_, w.drop n ++ rest, ?_⟩
  · rw [StandFor, List.map_take, hStand, List.map_take]
  · rwa [← List.append_assoc, List.take_append_drop]

/-- Below a live item, whatever is derived from the stack begins a sentence. -/
theorem Live.beginsSentence (hProductive : g.AllProductive) (h : g.Live γ i)
    (hw : g.Derives γ.reverse (terminalString w)) : g.BeginsSentence w := by
  obtain ⟨back, hDerives⟩ := h.derives
  obtain ⟨x, hx⟩ := hProductive.exists_string hDerives
  refine ⟨x, sentence_of_augmentedStart ?_⟩
  rw [terminalString_append]
  exact hDerives.trans (hw.append hx)

end Grammar

/-! ## Runs over beginnings of sentences -/

section Runs

variable {g : Grammar} {automaton : Automaton} {γ γ' : List Symbol} {u x v v' w : List Terminal}
  {n : Nat} {c : Configuration StateId InputToken Nonterminal}
  {tokens front back : List InputToken}
  {steps : List (Step StateId RuleId InputToken Nonterminal)}

/-- If a parse reads `u` and more, then the machine makes its moves as long as the tokens
stand for `u`, whatever comes after them, and the rest of the parse is left. -/
theorem Grammar.Parses.moves_to (h : g.Parses γ v n γ' v') (hCoherent : automaton.Coherent g)
    (hConflicts : (ParseTable.ofAutomaton g automaton).conflicts = [])
    (hv : v = u ++ x) (hEnd : v'.length ≤ x.length) (hShows : c.Shows automaton γ)
    (hTokens : NoEndMarker c.remaining) (hRemaining : c.remaining = front ++ back)
    (hStand : StandFor front u) :
    ∃ steps c' γ'' m, (automaton.machine g).Moves c steps c' ∧ c'.remaining = back ∧
      c'.Shows automaton γ'' ∧ g.Parses γ'' x m γ' v' := by
  induction h generalizing c u front with
  | refl γ v =>
    have hNil : u = [] := by
      rw [hv, List.length_append] at hEnd
      exact List.length_eq_zero_iff.mp (by omega)
    rw [hNil] at hStand hv
    rw [List.map_eq_nil_iff.mp hStand] at hRemaining
    obtain rfl : v = x := hv
    exact ⟨[], c, γ, 0, .refl, hRemaining, hShows, .refl γ v⟩
  | @shift γ γ' t v v' n i hLive hNext hRest ih =>
    cases u with
    | nil =>
      rw [List.map_eq_nil_iff.mp hStand] at hRemaining
      obtain rfl : t :: v = x := hv
      exact ⟨[], c, γ, n, .refl, hRemaining, hShows, .shift hLive hNext hRest⟩
    | cons t' u =>
      obtain ⟨rfl, rfl⟩ := List.cons.inj hv
      obtain ⟨token, front', rfl, ht, hStand'⟩ := List.map_eq_cons_iff.mp hStand
      obtain ⟨p, _, hMove, hNextShows⟩ :=
        shift_of_live hCoherent hConflicts hShows hTokens hRemaining ht hLive hNext
      rw [hRemaining] at hTokens
      obtain ⟨steps, c', γ'', m, hMoves, hBack⟩ :=
        ih rfl hEnd hNextShows hTokens.tail rfl hStand'
      exact ⟨_, c', γ'', m, .head hMove hMoves, hBack⟩
  | @reduce γ γ' v v' n r rule hr h0 hLive hRest ih =>
    cases u with
    | nil =>
      rw [List.map_eq_nil_iff.mp hStand] at hRemaining
      obtain rfl : v = x := hv
      exact ⟨[], c, _, n + 1, .refl, hRemaining, hShows, .reduce hr h0 hLive hRest⟩
    | cons t u =>
      obtain ⟨token, front', rfl, ht, _⟩ := List.map_eq_cons_iff.mp hStand
      have hLookahead : lookahead? c.remaining = some (nextTerminal v) := by
        rw [hRemaining, hv]
        exact ht
      obtain ⟨c₁, _, hMove, hNextShows, hSame⟩ :=
        reduce_of_live hCoherent hConflicts hShows hTokens hr h0 hLive hLookahead
      obtain ⟨steps, c', γ'', m, hMoves, hBack⟩ :=
        ih hv hEnd hNextShows (hSame ▸ hTokens) (hSame.trans hRemaining) hStand
      exact ⟨_, c', γ'', m, .head hMove hMoves, hBack⟩

/-- If a sentence begins with `u`, then the machine reads the tokens that stand for `u`, and a
parse of the rest of the sentence is left on its way to the end. -/
theorem Grammar.Sentence.moves_to (hSentence : g.Sentence (u ++ x))
    (hCoherent : automaton.Coherent g)
    (hConflicts : (ParseTable.ofAutomaton g automaton).conflicts = [])
    (hTokens : NoEndMarker tokens) (hSplit : tokens = front ++ back) (hStand : StandFor front u)
    {verdict : Verdict StateId Terminal InputToken}
    (hMoves : (automaton.machine g).Moves ((automaton.machine g).start tokens) steps c)
    (hHalt : (automaton.machine g).move c = .halt verdict) :
    ∃ steps' c' rest γ m,
      (automaton.machine g).Moves ((automaton.machine g).start tokens) steps' c' ∧
      (automaton.machine g).Moves c' rest c ∧ c'.position = front.length ∧
      c'.Shows automaton γ ∧ g.Parses γ x m [.nonterminal g.start] [] := by
  obtain ⟨n, hn⟩ := Grammar.derives_iff_derivesIn.mp hSentence
  obtain ⟨steps', c', γ, m, hMoves', hBack, hShows, hParses⟩ :=
    hn.yields.parses_sentence.moves_to hCoherent hConflicts rfl (Nat.zero_le _)
      (shows_start automaton _ tokens) hTokens hSplit hStand
  -- The machine has no choice, so it reads the beginning on its way to the end.
  obtain ⟨rest, hAfter⟩ := hMoves'.exists_of_halt hMoves hHalt
  obtain ⟨hLe, hUnread⟩ := hMoves'.remaining_eq
  refine ⟨steps', c', rest, γ, m, hMoves', hAfter, ?_, hShows, hParses⟩
  have hLengths := congrArg List.length (hUnread.symm.trans hBack)
  rw [List.length_drop] at hLengths
  rw [hSplit, List.length_append] at hLe hLengths
  omega

/-- A machine that has come to an end has read every beginning of a sentence. -/
theorem length_le_of_halt (hCoherent : automaton.Coherent g)
    (hConflicts : (ParseTable.ofAutomaton g automaton).conflicts = [])
    (hTokens : NoEndMarker tokens) (hSplit : tokens = front ++ back) (hOpens : g.Opens front)
    {verdict : Verdict StateId Terminal InputToken}
    (hMoves : (automaton.machine g).Moves ((automaton.machine g).start tokens) steps c)
    (hHalt : (automaton.machine g).move c = .halt verdict) : front.length ≤ c.position := by
  obtain ⟨u, hStand, x, hSentence⟩ := hOpens
  obtain ⟨_, c', _, _, _, _, hAfter, hPosition, _⟩ :=
    hSentence.moves_to hCoherent hConflicts hTokens hSplit hStand hMoves hHalt
  rw [← hPosition]
  exact hAfter.position_le

/-- The terminals that were read are those of the tokens before the position. -/
theorem ReadsBack.standFor_take {position : Nat}
    (h : ReadsBack g tokens steps γ (tokens.drop position) w) :
    StandFor (tokens.take position) w := by
  have hParts : tokens.map InputToken.terminal? =
      (tokens.take position).map InputToken.terminal? ++
        (tokens.drop position).map InputToken.terminal? := by
    rw [← List.map_append, List.take_append_drop]
  exact List.append_cancel_right (hParts.symm.trans h.tokens_eq)

/-- The tokens that a machine has read begin a sentence. -/
theorem opens_of_moves (hCoherent : automaton.Coherent g) (hProductive : g.AllProductive)
    {input : String}
    (hMoves : (automaton.machine g).Moves ((automaton.machine g).start (g.tokenize input)) steps c) :
    g.Opens ((g.tokenize input).take c.position) := by
  obtain ⟨γ, w, hShows, hReads⟩ := ReadsBack.of_moves hCoherent hMoves
  obtain ⟨i, hLive⟩ := hShows.path.exists_live hCoherent
  rw [hMoves.remaining_eq.2] at hReads
  exact ⟨w, hReads.standFor_take, hLive.beginsSentence hProductive hReads.rightmost.derives⟩

/-- The tokens are a sentence, if the machine accepts them. -/
theorem exists_sentence_of_accepted (hCoherent : automaton.Coherent g) {input : String}
    (hMoves : (automaton.machine g).Moves ((automaton.machine g).start (g.tokenize input)) steps c)
    (hHalt : (automaton.machine g).move c = .halt .accepted) :
    ∃ w, StandFor (g.tokenize input) w ∧ g.Sentence w := by
  obtain ⟨γ, w, hShows, hReads⟩ := ReadsBack.of_moves hCoherent hMoves
  obtain ⟨_, hTokens⟩ := shows_of_moves hCoherent input hMoves
  obtain ⟨hRemaining, hγ⟩ := (outcome hCoherent hShows hTokens).of_accepted hHalt
  have hWord := hReads.tokens_eq
  rw [hRemaining, List.map_nil, List.append_nil] at hWord
  have hRightmost := hReads.rightmost
  rw [hγ] at hRightmost
  exact ⟨w, hWord, hRightmost.derives⟩

/-- The tokens are no sentence, if the machine rejects them and has no conflicts. -/
theorem not_sentence_of_rejected (hCoherent : automaton.Coherent g)
    (hConflicts : (ParseTable.ofAutomaton g automaton).conflicts = []) (hTokens : NoEndMarker tokens)
    {rejection : Rejection StateId Terminal InputToken}
    (hMoves : (automaton.machine g).Moves ((automaton.machine g).start tokens) steps c)
    (hHalt : (automaton.machine g).move c = .halt (.rejected rejection)) (hStand : StandFor tokens w) :
    ¬ g.Sentence w := by
  intro hSentence
  obtain ⟨n, hn⟩ := Grammar.derives_iff_derivesIn.mp hSentence
  obtain ⟨steps', last, hMoves', hAccept, _⟩ :=
    hn.yields.accepted hCoherent hConflicts hTokens hStand
  -- Both ends lie on the way to the other.
  obtain ⟨rest, hRest⟩ := hMoves.exists_of_halt hMoves' hAccept
  rcases hRest.cases_head with rfl | ⟨_, _, hNext, _⟩
  · rw [hHalt] at hAccept
    cases hAccept
  · rw [hHalt] at hNext
    cases hNext

end Runs

/-! ## Rejections -/

/-- Over a table without conflicts, for a grammar whose nonterminals all derive terminals, the
run over an input that is no sentence rejects it. The tokens before the position of the
rejection are the longest part of the input that a sentence begins with, and the lookahead is
the token after them, if there is one. -/
theorem Construction.rejects_at_first_error {construction : Construction} {g : Grammar}
    {table : ParseTable} {input : String} (hTable : construction.generate g = .ok table)
    (hConflicts : table.conflicts = []) (hProductive : g.AllProductive)
    (hInput : ¬ ∃ w, StandFor (g.tokenize input) w ∧ g.Sentence w) :
    ∃ rejection trace, (∀ lookups, trace.length ≤ lookups →
        table.parse g input lookups = .finished (.rejected rejection) trace) ∧
      rejection.position ≤ (g.tokenize input).length ∧
      rejection.lookahead = (g.tokenize input)[rejection.position]? ∧
      ∀ n ≤ (g.tokenize input).length,
        g.Opens ((g.tokenize input).take n) ↔ n ≤ rejection.position := by
  obtain ⟨automaton, hCoherent, rfl⟩ := exists_coherent hTable
  have hDet := hCoherent.deterministic hConflicts
  have hTokens := noEndMarker_tokenize g input
  obtain ⟨steps, last, verdict, hMoves, hHalt⟩ :=
    exists_verdict hCoherent
      (Grammar.haltsBefore hDet fun _ _ _ _ _ hr _ hRight => hProductive.begins hr hRight)
      (shows_start automaton (ParseTable.ofAutomaton g automaton) (g.tokenize input)) hTokens
  obtain ⟨hLe, hRemaining⟩ := hMoves.remaining_eq
  cases verdict with
  | accepted =>
    exact absurd (exists_sentence_of_accepted hCoherent hMoves hHalt) hInput
  | rejected rejection =>
    obtain ⟨_, hPosition, hLookahead⟩ := LookupTable.move_eq_rejected hHalt
    refine ⟨rejection, steps ++ [last.record ((automaton.machine g).chosen last)], ?_, ?_, ?_, ?_⟩
    · intro lookups hEnough
      rw [List.length_append, List.length_singleton] at hEnough
      exact LookupTable.run_of_moves hMoves hHalt hEnough
    · rwa [hPosition]
    · rw [hLookahead, hPosition, hRemaining, List.head?_drop]
    · intro n hn
      rw [hPosition]
      constructor
      · intro hOpens
        have hRead := length_le_of_halt hCoherent hConflicts hTokens
          (List.take_append_drop n (g.tokenize input)).symm hOpens hMoves hHalt
        rwa [List.length_take, Nat.min_eq_left hn] at hRead
      · intro hBefore
        have hRead := (opens_of_moves hCoherent hProductive hMoves).take n
        rwa [List.take_take, Nat.min_eq_left hBefore] at hRead

/-! ### A reduction before a rejection -/

/-- The tables of `twice`. After the first `b`, merging has added the end of the input to the
lookaheads of `A → b`. -/
def twiceTable (algorithm : Algorithm) : ParseTable :=
  ((Construction.mk algorithm false).generate twice).toOption.get
    (by cases algorithm <;> decide +kernel)

/-- No sentence of `twice` reads `a b`, since its table rejects that after four moves. -/
theorem twice_not_sentence : ¬ ∃ w, StandFor (twice.tokenize "a b") w ∧ twice.Sentence w := by
  rintro ⟨w, hStand, hSentence⟩
  have hTable : (Construction.mk .merged false).generate twice = .ok (twiceTable .merged) :=
    eq_ok_of_toOption (Option.some_get _).symm
  have hConflicts : (twiceTable .merged).conflicts = [] := by decide +kernel
  have hEnd : ((twiceTable .merged).lookups.after?
      ((twiceTable .merged).lookups.start (twice.tokenize "a b")) 4).map
        (twiceTable .merged).lookups.move =
      some (.halt (.rejected ⟨2, 2, none, [some 1, some 2]⟩)) := by
    decide +kernel
  obtain ⟨automaton, hCoherent, hEq⟩ := Construction.exists_coherent hTable
  rw [hEq] at hConflicts hEnd
  obtain ⟨last, hAfter, hHalt⟩ := Option.map_eq_some_iff.mp hEnd
  obtain ⟨_, _, hMoves⟩ := LookupTable.moves_of_after? hAfter
  exact not_sentence_of_rejected hCoherent hConflicts (noEndMarker_tokenize twice "a b") hMoves
    hHalt hStand hSentence

theorem rejects_at_first_error_twice :
    (Construction.mk .merged false).generate twice = .ok (twiceTable .merged) ∧
      (twiceTable .merged).conflicts = [] ∧ twice.AllProductive ∧
      (¬ ∃ w, StandFor (twice.tokenize "a b") w ∧ twice.Sentence w) ∧
      ∃ rejection trace, (∀ lookups, trace.length ≤ lookups →
          (twiceTable .merged).parse twice "a b" lookups = .finished (.rejected rejection) trace) ∧
        rejection.position ≤ (twice.tokenize "a b").length ∧
        rejection.lookahead = (twice.tokenize "a b")[rejection.position]? ∧
        ∀ n ≤ (twice.tokenize "a b").length,
          twice.Opens ((twice.tokenize "a b").take n) ↔ n ≤ rejection.position := by
  have hTable : (Construction.mk .merged false).generate twice = .ok (twiceTable .merged) :=
    eq_ok_of_toOption (Option.some_get _).symm
  have hConflicts : (twiceTable .merged).conflicts = [] := by decide +kernel
  refine ⟨hTable, hConflicts, twice_allProductive, twice_not_sentence, ?_⟩
  exact Construction.rejects_at_first_error hTable hConflicts twice_allProductive twice_not_sentence

end ShiftReduce
