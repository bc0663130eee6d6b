import ShiftReduce.Proofs.Simulation
import ShiftReduce.Proofs.ValidStates

/-!
# What a rejection expects

The canonical machine rejects a wrong token when it first stands before it, and reports exactly
the terminals that could stand there instead. Both are due to the lookaheads of canonical states,
which are those of live items on the very path to the state, and to a grammar whose nonterminals
all derive terminals, so that a lookahead can really come up.

* What a live item expects is not blocked (`Live.not_blocked`): some string that begins with it
  is parsed from there, and the first move of this parse is one that a blocked terminal does not
  have. After a reduction the lookahead is still expected, so the machine goes on
  (`shift_of_next_rejected`).
* The terminals of the row are those that are not blocked (`Path.mem_expected_iff`). One that is
  expected by a live item goes on from what was read to the end of a sentence
  (`Live.exists_sentence`). In turn, a machine that has read the beginning of a sentence has a
  parse of the rest before it. It then stands where it rejects (`eq_of_position_eq`), because
  only reductions could come between.
-/

namespace ShiftReduce

/-! ## Lookaheads that are reported -/

namespace ParseTable

variable {table : ParseTable} {q : StateId}

theorem some_mem_expected_iff {t : Terminal} :
    some t ∈ table.lookups.expected q ↔ t ∈ table.expected q ∧ t ≠ endMarker := by
  simp only [lookups, List.mem_map]
  constructor
  · rintro ⟨u, hMem, hEq⟩
    by_cases hEnd : u = endMarker
    · simp [hEnd] at hEq
    · rw [if_neg hEnd] at hEq
      cases hEq
      exact ⟨hMem, hEnd⟩
  · rintro ⟨hMem, hEnd⟩
    exact ⟨t, hMem, if_neg hEnd⟩

theorem none_mem_expected_iff :
    none ∈ table.lookups.expected q ↔ endMarker ∈ table.expected q := by
  simp [lookups]

/-- Different terminals are reported as different lookaheads. -/
theorem nodup_lookups_expected (h : (table.expected q).Nodup) :
    (table.lookups.expected q).Nodup := by
  apply h.map
  intro t u hEq
  by_cases ht : t = endMarker <;> by_cases hu : u = endMarker <;> simp_all

end ParseTable

/-! ## Live items and what they expect -/

namespace Grammar

variable {g : Grammar} {γ γ' : List Symbol} {v v' w : List Terminal} {n : Nat} {i : Item}
  {b : Terminal}

/-- A parse cannot go on where its next terminal is blocked. -/
theorem Parses.eq_of_blocked (h : g.Parses γ v n γ' v') (hBlocked : g.Blocked (nextTerminal v) γ) :
    γ' = γ ∧ v' = v := by
  cases h with
  | refl => exact ⟨rfl, rfl⟩
  | shift hLive hNext _ => exact absurd hNext (hBlocked _ hLive).1
  | reduce hr _ hLive _ => exact absurd rfl ((hBlocked _ hLive).2 (rest_full hr))

/-- The next terminal of a sentence that is being parsed is not blocked. -/
theorem Parses.not_blocked (h : g.Parses γ v n [.nonterminal g.start] []) :
    ¬ g.Blocked (nextTerminal v) γ := by
  intro hBlocked
  obtain ⟨rfl, rfl⟩ := h.eq_of_blocked hBlocked
  exact g.not_blocked_start hBlocked

/-- What an item expects does come up: the symbols after its marker yield terminals that begin
with it, where `w` goes on with the lookahead of the item. -/
theorem AllProductive.exists_yields_rest (hProductive : g.AllProductive) (hb : b ∈ g.expects i)
    (hLookahead : i.lookahead = nextTerminal w) :
    ∃ u n, g.Yields (i.core.rest g) u n ∧ nextTerminal (u ++ w) = b := by
  rw [expects, hLookahead] at hb
  exact hProductive.exists_yields (fun s hs => hProductive.exists_string_of_mem_rest hs) hb

theorem Live.not_blocked (h : g.Live γ i) (hProductive : g.AllProductive) (hb : b ∈ g.expects i) :
    ¬ g.Blocked b γ := by
  intro hBlocked
  obtain ⟨u, n, hYields, hNext⟩ := hProductive.exists_yields_rest (w := [i.lookahead]) hb rfl
  have hParses : g.Parses γ (u ++ [i.lookahead]) n ((i.core.rest g).reverse ++ γ) [i.lookahead] :=
    hYields.parses h (List.append_nil _).symm (FirstSets.mem_ofSequenceThen_nil.mpr rfl)
  -- Nothing can be done, so there is nothing left to be done.
  obtain ⟨hγ, hu⟩ := hParses.eq_of_blocked (hNext ▸ hBlocked)
  have hComplete : i.core.rest g = [] :=
    List.reverse_eq_nil_iff.mp (List.append_left_eq_self.mp hγ)
  rw [← hu] at hNext
  exact (hBlocked i h).2 hComplete hNext

/-- A terminal that a live item expects comes next in some sentence that begins with what was
read. -/
theorem Live.exists_sentence (h : g.Live γ i) (hProductive : g.AllProductive)
    (hb : b ∈ g.expects i) (hw : g.Derives γ.reverse (terminalString w)) :
    ∃ v, nextTerminal v = b ∧ g.Sentence (w ++ v) := by
  obtain ⟨rs, front, rule, z, hr, _, hRightmost, hγ, hLookahead⟩ := h.validAfter hProductive
  obtain ⟨u, _, hYields, hNext⟩ := hProductive.exists_yields_rest hb hLookahead
  have hStep : g.Derives [.nonterminal augmentedStart]
      (front ++ (rule.right ++ terminalString z)) := (Rightmost.step hRightmost hr).derives
  have hMiddle : front ++ (rule.right ++ terminalString z) =
      γ.reverse ++ (i.core.rest g ++ terminalString z) := by
    rw [hγ, Core.rest_eq_drop hr, List.append_assoc, ← List.append_assoc (rule.right.take _),
      List.take_append_drop]
  refine ⟨u ++ z, hNext, sentence_of_augmentedStart ?_⟩
  rw [terminalString_append, terminalString_append]
  rw [hMiddle] at hStep
  exact hStep.trans (hw.append (hYields.derives.append (.refl _)))

theorem Sentence.ne_endMarker {t : Terminal} (h : g.Sentence w) (ht : t ∈ w) : t ≠ endMarker := by
  have hDeclared := Derives.declared h (List.forall_mem_singleton.mpr g.start_declared)
  exact Nat.ne_of_gt (hDeclared _ (List.mem_map_of_mem ht)).1

/-- A sentence goes on with a terminal if that comes next in it, and is not its end. -/
theorem beginsSentence_concat_iff {t : Terminal} : g.BeginsSentence (w ++ [t]) ↔
    (∃ v, nextTerminal v = t ∧ g.Sentence (w ++ v)) ∧ t ≠ endMarker := by
  constructor
  · rintro ⟨v, hSentence⟩
    have hEnd := hSentence.ne_endMarker (t := t) (by simp)
    exact ⟨⟨t :: v, rfl, by simpa using hSentence⟩, hEnd⟩
  · rintro ⟨⟨v, hFirst, hSentence⟩, hEnd⟩
    cases v with
    | nil => exact absurd hFirst.symm hEnd
    | cons u v =>
      obtain rfl : u = t := hFirst
      exact ⟨v, by simpa using hSentence⟩

/-- A string is a sentence if the end can come next. -/
theorem sentence_iff : g.Sentence w ↔ ∃ v, nextTerminal v = endMarker ∧ g.Sentence (w ++ v) := by
  constructor
  · intro hSentence
    exact ⟨[], rfl, by simpa using hSentence⟩
  · rintro ⟨v, hEnd, hSentence⟩
    cases v with
    | nil => simpa using hSentence
    | cons t v => exact absurd hEnd (hSentence.ne_endMarker (t := t) (by simp))

end Grammar

/-! ## The canonical machine -/

section Canonical

variable {g : Grammar} {γ : List Symbol} {q : StateId} {ps : List StateId} {b : Terminal}
  {c d : Configuration StateId InputToken Nonterminal}
  {steps : List (Step StateId RuleId InputToken Nonterminal)} {input : String}

/-- The terminals of a canonical row are those with which something can be done. -/
theorem Automaton.Path.mem_expected_iff (hPath : (Automaton.canonical g).Path (q :: ps) γ) :
    b ∈ (ParseTable.ofAutomaton g (Automaton.canonical g)).expected q ↔ ¬ g.Blocked b γ := by
  have hCoherent := Automaton.coherent_canonical g
  obtain ⟨state, hState⟩ := hPath.exists_state hCoherent
  rw [ParseTable.mem_expected_iff hState]
  constructor
  · rintro ⟨action, hMem⟩ hBlocked
    rcases State.mem_candidates.mp hMem with ⟨p, hEdge, _⟩ | ⟨core, hItem, hComplete, _⟩
    · have hEdge? := (hCoherent.edge?_eq_some_iff hState).mpr hEdge
      obtain ⟨i, hLive, hNext⟩ := (hPath.exists_edge?_iff hCoherent).mp ⟨p, hEdge?⟩
      exact (hBlocked i hLive).1 hNext
    · have hLive := hPath.live_of_mem_canonical hState hItem
      exact (hBlocked _ hLive).2 (Core.isComplete_iff.mp hComplete).2 rfl
  · intro hNot
    apply Classical.byContradiction
    intro hNone
    apply hNot
    apply hPath.blocked_of_no_candidate hCoherent hState
    intro action hMem
    exact hNone ⟨action, hMem⟩

/-- What the canonical machine reduces is live with the very terminal that comes next. -/
theorem live_of_chosen_reduce {r : RuleId} (hShows : c.Shows (Automaton.canonical g) γ)
    (hChosen : ((Automaton.canonical g).machine g).chosen c = some (.reduce r)) :
    ∃ i, g.Live γ i ∧ i.core.rule = r ∧ i.core.rest g = [] ∧
      lookahead? c.remaining = some i.lookahead := by
  obtain ⟨q, ps, hStates, hPath⟩ := hShows.exists_path
  rw [chosen_lookups _ hStates] at hChosen
  obtain ⟨b, hLookahead, hAction⟩ := Option.bind_eq_some_iff.mp hChosen
  obtain ⟨state, hState, hMem⟩ := ParseTable.mem_candidates_of_action? hAction
  rcases State.mem_candidates.mp hMem with ⟨_, _, hShift⟩ | ⟨core, hItem, hComplete, hReduce⟩
  · cases hShift
  · exact ⟨⟨core, b⟩, hPath.live_of_mem_canonical hState hItem,
      (completion_eq_reduce_iff.mp hReduce.symm).1, (Core.isComplete_iff.mp hComplete).2, hLookahead⟩

/-- A move after which the canonical machine rejects has read a token. -/
theorem shift_of_next_rejected (hProductive : g.AllProductive)
    (hShows : d.Shows (Automaton.canonical g) γ) (hTokens : NoEndMarker d.remaining)
    (hMove : ((Automaton.canonical g).machine g).move d = .next c)
    (hNone : ((Automaton.canonical g).machine g).chosen c = none) :
    (∃ p, ((Automaton.canonical g).machine g).chosen d = some (.shift p)) ∧
      c.position = d.position + 1 := by
  have hCoherent := Automaton.coherent_canonical g
  rcases (outcome hCoherent hShows hTokens).of_next hMove with
    ⟨p, _, _, _, hChosen, rfl, _⟩ | ⟨r, rule, δ, _, hChosen, rfl, hr, h0, hγ, hNextShows⟩
  · exact ⟨⟨p, hChosen⟩, rfl⟩
  · obtain ⟨i, hLive, rfl, hRest, hLookahead⟩ := live_of_chosen_reduce hShows hChosen
    obtain ⟨δ', j, hγ', hNextLive, hb⟩ := hLive.exists_expecting hr h0 hRest
    obtain rfl := List.append_cancel_left (hγ.symm.trans hγ')
    have hRefused := refused_of_chosen hCoherent hNextShows hNone
    exact absurd (hRefused.blocked _ hLookahead) (hNextLive.not_blocked hProductive hb)

/-- The last step before a rejection is a shift. -/
theorem isShift_of_rejected (hProductive : g.AllProductive)
    (hMoves : ((Automaton.canonical g).machine g).Moves
      (((Automaton.canonical g).machine g).start (g.tokenize input)) steps c)
    (hNone : ((Automaton.canonical g).machine g).chosen c = none) :
    ∀ step ∈ steps.getLast?, step.isShift = true := by
  intro step hStep
  cases hMoves with
  | refl => cases hStep
  | step hBefore hMove =>
    obtain ⟨⟨γ, hShows⟩, hTokens⟩ :=
      shows_of_moves (Automaton.coherent_canonical g) input hBefore
    obtain ⟨⟨p, hShift⟩, _⟩ := shift_of_next_rejected hProductive hShows hTokens hMove hNone
    rw [List.getLast?_concat, Option.mem_some] at hStep
    rw [← hStep, hShift]
    rfl

/-- As soon as the canonical machine has read all that it reads, it stands where it rejects. -/
theorem eq_of_position_eq (hProductive : g.AllProductive)
    {rest : List (Step StateId RuleId InputToken Nonterminal)}
    (hMoves : ((Automaton.canonical g).machine g).Moves
      (((Automaton.canonical g).machine g).start (g.tokenize input)) steps d)
    (hRest : ((Automaton.canonical g).machine g).Moves d rest c)
    (hNone : ((Automaton.canonical g).machine g).chosen c = none)
    (hPosition : d.position = c.position) : d = c := by
  cases hRest with
  | refl => rfl
  | @step c' _ _ hBefore hMove =>
    obtain ⟨⟨γ, hShows⟩, hTokens⟩ :=
      shows_of_moves (Automaton.coherent_canonical g) input (hMoves.trans hBefore)
    obtain ⟨_, hRead⟩ := shift_of_next_rejected hProductive hShows hTokens hMove hNone
    have hLe := hBefore.position_le
    omega

/-- Where the canonical machine rejects, its row has the terminals that come next in the
sentences that begin with what was read. -/
theorem exists_read_of_rejected (hProductive : g.AllProductive)
    (hConflicts : (ParseTable.ofAutomaton g (Automaton.canonical g)).conflicts = [])
    {rejection : Rejection StateId Terminal InputToken}
    (hMoves : ((Automaton.canonical g).machine g).Moves
      (((Automaton.canonical g).machine g).start (g.tokenize input)) steps c)
    (hHalt : ((Automaton.canonical g).machine g).move c = .halt (.rejected rejection)) :
    ∃ w, StandFor ((g.tokenize input).take rejection.position) w ∧ ∀ b,
      b ∈ (ParseTable.ofAutomaton g (Automaton.canonical g)).expected rejection.state ↔
        ∃ v, nextTerminal v = b ∧ g.Sentence (w ++ v) := by
  have hCoherent := Automaton.coherent_canonical g
  obtain ⟨hNone, q, ps, hStates, rfl⟩ := LookupTable.exists_of_rejected hHalt
  obtain ⟨γ, w, hShows, hReads⟩ := ReadsBack.of_moves hCoherent hMoves
  obtain ⟨hLe, hUnread⟩ := hMoves.remaining_eq
  rw [hUnread] at hReads
  have hStand := hReads.standFor_take
  refine ⟨w, hStand, ?_⟩
  intro b
  constructor
  · intro hMem
    have hPath := hShows.path
    rw [hStates] at hPath
    have hNot : ¬ ∀ i, g.Live γ i → b ∉ g.expects i :=
      fun h => hPath.mem_expected_iff.mp hMem (Grammar.blocked_of_not_expected h)
    obtain ⟨i, hLive, hb⟩ : ∃ i, g.Live γ i ∧ b ∈ g.expects i := by
      simpa using hNot
    exact hLive.exists_sentence hProductive hb hReads.rightmost.derives
  · rintro ⟨v, rfl, hSentence⟩
    obtain ⟨_, d, _, δ, _, hBefore, hAfter, hPosition, hShows', hParses⟩ :=
      hSentence.moves_to hCoherent hConflicts (noEndMarker_tokenize g input)
        (List.take_append_drop c.position (g.tokenize input)).symm hStand hMoves hHalt
    rw [List.length_take, Nat.min_eq_left hLe] at hPosition
    obtain rfl := eq_of_position_eq hProductive hBefore hAfter hNone hPosition
    have hPath := hShows'.path
    rw [hStates] at hPath
    exact hPath.mem_expected_iff.mpr hParses.not_blocked

end Canonical

/-! ## Rejections -/

/-- A canonical table without conflicts, for a grammar whose nonterminals all derive terminals,
rejects before any reduction on the wrong token, and the expected lookaheads are exactly those
with which the tokens that were read go on to a sentence. -/
theorem Construction.rejection_expects {strict : Bool} {g : Grammar} {table : ParseTable}
    {input : String} {lookups : Nat} {rejection : Rejection StateId Terminal InputToken}
    {trace : List (Step StateId RuleId InputToken Nonterminal)}
    (hTable : (Construction.mk .canonical strict).generate g = .ok table)
    (hConflicts : table.conflicts = []) (hProductive : g.AllProductive)
    (hRejected : table.parse g input lookups = .finished (.rejected rejection) trace) :
    (∃ before last, trace = before ++ [last] ∧ last.action = none ∧
        ∀ step ∈ before.getLast?, step.isShift = true) ∧
      rejection.expected.Nodup ∧
      ∃ w, StandFor ((g.tokenize input).take rejection.position) w ∧
        (∀ t, some t ∈ rejection.expected ↔ g.BeginsSentence (w ++ [t])) ∧
        (none ∈ rejection.expected ↔ g.Sentence w) := by
  have hCoherent := Automaton.coherent_canonical g
  obtain rfl := eq_ofAutomaton hTable rfl hCoherent
  obtain ⟨before, last, hMoves, hHalt, rfl⟩ := LookupTable.exists_moves_of_finished .refl hRejected
  obtain ⟨w, hStand, hNext⟩ := exists_read_of_rejected hProductive hConflicts hMoves hHalt
  obtain ⟨hNone, q, ps, hStates, rfl⟩ := LookupTable.exists_of_rejected hHalt
  obtain ⟨⟨γ, hShows⟩, _⟩ := shows_of_moves hCoherent input hMoves
  have hPath := hShows.path
  rw [hStates] at hPath
  refine ⟨⟨before, _, rfl, hNone, isShift_of_rejected hProductive hMoves hNone⟩, ?_, w, hStand,
    ?_, ?_⟩
  · obtain ⟨state, hState⟩ := hPath.exists_state hCoherent
    apply ParseTable.nodup_lookups_expected
    rw [ParseTable.expected_ofAutomaton hState]
    exact nodup_eraseDups _
  · intro t
    rw [ParseTable.some_mem_expected_iff, hNext, Grammar.beginsSentence_concat_iff]
  · rw [ParseTable.none_mem_expected_iff, hNext, ← Grammar.sentence_iff]

/-- The trace of `twice` over `b b b`: a shift, a reduction and a shift before the rejection. -/
def twiceTrace : List (Step StateId RuleId InputToken Nonterminal) :=
  match (twiceTable .canonical).parse twice "b b b" 9 with
  | .finished _ trace => trace
  | _ => []

/-- After `b b` nothing may follow. -/
theorem rejection_expects_twice :
    (Construction.mk .canonical false).generate twice = .ok (twiceTable .canonical) ∧
      (twiceTable .canonical).conflicts = [] ∧ twice.AllProductive ∧
      (twiceTable .canonical).parse twice "b b b" 9 =
        .finished (.rejected ⟨7, 2, some ⟨"b", some 2⟩, [none]⟩) twiceTrace ∧
      (∃ before last, twiceTrace = before ++ [last] ∧ last.action = none ∧
        ∀ step ∈ before.getLast?, step.isShift = true) ∧
      ([none] : List (Option Terminal)).Nodup ∧
      ∃ w, StandFor ((twice.tokenize "b b b").take 2) w ∧
        (∀ t, some t ∈ [none] ↔ twice.BeginsSentence (w ++ [t])) ∧
        (none ∈ ([none] : List (Option Terminal)) ↔ twice.Sentence w) := by
  have hTable : (Construction.mk .canonical false).generate twice = .ok (twiceTable .canonical) :=
    eq_ok_of_toOption (Option.some_get _).symm
  have hConflicts : (twiceTable .canonical).conflicts = [] := by decide +kernel
  have hRejected : (twiceTable .canonical).parse twice "b b b" 9 =
      .finished (.rejected ⟨7, 2, some ⟨"b", some 2⟩, [none]⟩) twiceTrace := by
    decide +kernel
  refine ⟨hTable, hConflicts, twice_allProductive, hRejected, ?_⟩
  exact Construction.rejection_expects hTable hConflicts twice_allProductive hRejected

end ShiftReduce
