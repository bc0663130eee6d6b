import ShiftReduce.Proofs.Runs
import ShiftReduce.Proofs.TableRows
import ShiftReduce.Proofs.Tokens

/-!
# The stack is a path

The two stacks of the machine show a path of the automaton whose table it runs
over (`Configuration.Shows`). This is the invariant of all runs: `outcome` finds
the action of a configuration among the edges and complete items of the topmost
state, and for each kind of action what the move does to the path. No move can
fault, because the right-hand side of a complete item is on top of the path, and
the item below that predicted the rule expects its left-hand side.

Conflicts do not matter here. Whichever candidate a cell has kept, it comes from
the topmost state.
-/

namespace ShiftReduce

variable {g : Grammar} {automaton : Automaton} {γ : List Symbol} {p q : StateId}
  {ps : List StateId} {t : Terminal}

/-! ## Recorded stacks -/

/-- The grammar symbol that a symbol on the stack stands for. -/
def StackSymbol.symbol? : StackSymbol InputToken Nonterminal → Option Symbol
  | .token word => word.terminal?.map .terminal
  | .nonterminal n => some (.nonterminal n)

/-- The grammar symbols on a recorded stack, from the bottom. -/
def stackSymbols (stack : List (StackItem StateId InputToken Nonterminal)) :
    List (Option Symbol) :=
  stack.filterMap fun
    | .state _ => none
    | .symbol x => some x.symbol?

/-- Whether a recorded stack leads from one state to another: each symbol is
followed by the state to which its edge leads. -/
def Automaton.Climbs (automaton : Automaton) (p : StateId) :
    List (StackItem StateId InputToken Nonterminal) → StateId → Prop
  | [], q => p = q
  | .symbol x :: .state next :: rest, q =>
    (∃ X, x.symbol? = some X ∧ automaton.edge? p X = some next) ∧ Climbs automaton next rest q
  | _, _ => False

theorem Automaton.Climbs.append {rest : List (StackItem StateId InputToken Nonterminal)}
    {x : StackSymbol InputToken Nonterminal} {X : Symbol} {r : StateId}
    (h : automaton.Climbs p rest q) (hX : x.symbol? = some X)
    (hEdge : automaton.edge? q X = some r) :
    automaton.Climbs p (rest ++ [.symbol x, .state r]) r := by
  induction p, rest, q using Automaton.Climbs.induct with
  | case1 p q =>
    obtain rfl : p = q := h
    exact ⟨⟨X, hX, hEdge⟩, rfl⟩
  | case2 p x next rest q ih => exact ⟨h.1, ih h.2 hEdge⟩
  | case3 p items q hNil hCons =>
    unfold Climbs at h
    split at h
    · exact absurd rfl hNil
    · exact absurd rfl (hCons _ _ _)
    · cases h

/-! ## The invariant -/

/-- Whether the stacks of a configuration show a path of the automaton with the
given symbols, the topmost first. -/
structure Configuration.Shows (automaton : Automaton)
    (c : Configuration StateId InputToken Nonterminal) (γ : List Symbol) : Prop where
  path : automaton.Path c.states γ
  symbols : c.symbols.map StackSymbol.symbol? = γ.map some

namespace Configuration.Shows

variable {c : Configuration StateId InputToken Nonterminal}

theorem exists_path (h : c.Shows automaton γ) :
    ∃ q ps, c.states = q :: ps ∧ automaton.Path (q :: ps) γ := by
  obtain ⟨q, ps, hStates⟩ := h.path.exists_cons
  exact ⟨q, ps, hStates, hStates ▸ h.path⟩

theorem length_eq (h : c.Shows automaton γ) : c.symbols.length = γ.length := by
  have := congrArg List.length h.symbols
  rwa [List.length_map, List.length_map] at this

/-- A configuration that shows a path is recorded as that path. -/
theorem snapshot (h : c.Shows automaton γ) : ∃ rest q,
    c.snapshot = .state initialState :: rest ∧ automaton.Climbs initialState rest q ∧
      c.states.head? = some q ∧ stackSymbols c.snapshot = γ.reverse.map some := by
  obtain ⟨states, symbols, position, remaining⟩ := c
  obtain ⟨hPath, hSymbols⟩ := h
  dsimp only at hPath hSymbols ⊢
  induction hPath generalizing symbols with
  | bottom =>
    obtain rfl := List.map_eq_nil_iff.mp hSymbols
    exact ⟨[], initialState, rfl, rfl, rfl, rfl⟩
  | @push p q ps γ X hPath hEdge ih =>
    cases symbols with
    | nil => cases hSymbols
    | cons x xs =>
      obtain ⟨hX, hSymbols⟩ := List.cons.inj hSymbols
      obtain ⟨rest, top, hSnapshot, hClimbs, hTop, hStack⟩ := ih xs hSymbols
      obtain rfl := Option.some.inj hTop
      have hLength : xs.length = ps.length := by
        have hLengths := congrArg List.length hSymbols
        have hPathLength := hPath.length_eq
        simp only [List.length_map, List.length_cons] at hLengths hPathLength
        omega
      rw [snapshot_push hLength position position remaining remaining, hSnapshot]
      refine ⟨_, q, rfl, hClimbs.append hX hEdge, rfl, ?_⟩
      rw [hSnapshot] at hStack
      rw [stackSymbols, List.filterMap_append, ← stackSymbols, hStack, List.reverse_cons,
        List.map_append, List.map_singleton, ← hX]
      rfl

theorem push {n : Nonterminal} (h : c.Shows automaton γ) (hStates : c.states = p :: ps)
    (hEdge : automaton.edge? p (.nonterminal n) = some q) :
    (c.push n q).Shows automaton (.nonterminal n :: γ) where
  path := by
    have hPath := h.path
    rw [hStates] at hPath
    rw [Configuration.push, hStates]
    exact hPath.push hEdge
  symbols := by
    rw [Configuration.push, List.map_cons, List.map_cons, h.symbols]
    rfl

theorem pop {δ : List Symbol} (h : c.Shows automaton (δ ++ γ)) :
    (c.pop δ.length).Shows automaton γ where
  path := h.path.drop
  symbols := by
    rw [Configuration.pop, List.map_drop, h.symbols, List.map_append, ← List.length_map some,
      List.drop_left]

theorem shift {token : InputToken} {rest : List InputToken} (h : c.Shows automaton γ)
    (hStates : c.states = p :: ps) (hToken : token.terminal? = some t)
    (hEdge : automaton.edge? p (.terminal t) = some q) :
    (c.shift token rest q).Shows automaton (.terminal t :: γ) where
  path := by
    have hPath := h.path
    rw [hStates] at hPath
    rw [Configuration.shift, hStates]
    exact hPath.push hEdge
  symbols := by
    rw [Configuration.shift, List.map_cons, List.map_cons, h.symbols, StackSymbol.symbol?,
      hToken]
    rfl

end Configuration.Shows

/-! ## Look-ups -/

theorem actionAt_lookups (table : ParseTable) (q : StateId) (tokens : List InputToken) :
    table.lookups.actionAt q tokens = (lookahead? tokens).bind (table.action? q) := by
  cases tokens with
  | nil => rfl
  | cons token rest => rfl

theorem chosen_lookups (table : ParseTable) {c : Configuration StateId InputToken Nonterminal}
    (hStates : c.states = q :: ps) :
    table.lookups.chosen c = (lookahead? c.remaining).bind (table.action? q) := by
  rw [LookupTable.chosen, hStates, List.head?_cons, Option.bind_some, actionAt_lookups]

/-! ## The outcome of a look-up -/

/-- The table of an automaton, as the machine looks it up. -/
abbrev Automaton.machine (automaton : Automaton) (g : Grammar) :
    LookupTable StateId Terminal Nonterminal RuleId :=
  (ParseTable.ofAutomaton g automaton).lookups

/-- What a look-up of the table leads to in a configuration that shows a path. -/
inductive Outcome (g : Grammar) (automaton : Automaton)
    (c : Configuration StateId InputToken Nonterminal) (γ : List Symbol) : Prop
  | reject :
      (automaton.machine g).chosen c = none →
      (∃ rejection, (automaton.machine g).move c = .halt (.rejected rejection)) →
      Outcome g automaton c γ
  /-- The input has been read, and the stack holds the start symbol. -/
  | accept :
      (automaton.machine g).chosen c = some .accept →
      (automaton.machine g).move c = .halt .accepted →
      c.remaining = [] → γ = [.nonterminal g.start] → Outcome g automaton c γ
  /-- The next token extends the path. -/
  | shift {token : InputToken} {rest : List InputToken} {t : Terminal} {p : StateId} :
      (automaton.machine g).chosen c = some (.shift p) →
      (automaton.machine g).move c = .next (c.shift token rest p) →
      c.remaining = token :: rest → token.terminal? = some t →
      (c.shift token rest p).Shows automaton (.terminal t :: γ) → Outcome g automaton c γ
  /-- A rule of the grammar is live as a whole, and its left-hand side extends the
  path below. -/
  | reduce {r : RuleId} {rule : Rule} {a : Terminal} {δ : List Symbol} {p : StateId} :
      (automaton.machine g).chosen c = some (.reduce r) →
      (automaton.machine g).move c = .next ((c.pop rule.right.length).push rule.left p) →
      g.rules[r]? = some rule → r ≠ augmentedRule → γ = rule.right.reverse ++ δ →
      g.Live γ ⟨⟨r, rule.right.length⟩, a⟩ →
      ((c.pop rule.right.length).push rule.left p).Shows automaton (.nonterminal rule.left :: δ) →
      Outcome g automaton c γ

section Outcome

variable {c : Configuration StateId InputToken Nonterminal} {r : RuleId} {state : State}

/-- A state has no edge for the end marker, which no rule uses. -/
theorem Automaton.Coherent.edge_ne_endMarker (hCoherent : automaton.Coherent g)
    (hState : automaton.states[q]? = some state) (hEdge : (.terminal t, p) ∈ state.edges) :
    t ≠ endMarker := by
  have hEdge? := (hCoherent.edge?_eq_some_iff hState).mpr hEdge
  obtain ⟨i, _, hNext⟩ := (hCoherent.exists_edge?_iff hState).mp ⟨p, hEdge?⟩
  obtain ⟨tail, hRest⟩ := Core.next_eq_some_iff.mp hNext
  have hMem : .terminal t ∈ i.core.rest g := hRest ▸ List.mem_cons_self
  exact Nat.ne_of_gt (Grammar.declared_of_mem_rest hMem).1

/-- A shift follows the edge of the next token. -/
theorem Outcome.of_shift (hCoherent : automaton.Coherent g) (hShows : c.Shows automaton γ)
    (hStates : c.states = q :: ps) (hState : automaton.states[q]? = some state)
    (hLookahead : lookahead? c.remaining = some t) (hEdge : (.terminal t, p) ∈ state.edges)
    (hChosen : (automaton.machine g).chosen c = some (.shift p)) :
    Outcome g automaton c γ := by
  cases hRemaining : c.remaining with
  | nil =>
    rw [hRemaining] at hLookahead
    exact absurd (Option.some.inj hLookahead).symm (hCoherent.edge_ne_endMarker hState hEdge)
  | cons token rest =>
    rw [hRemaining] at hLookahead
    have hEdge? := (hCoherent.edge?_eq_some_iff hState).mpr hEdge
    refine .shift hChosen ?_ hRemaining hLookahead (hShows.shift hStates hLookahead hEdge?)
    rw [LookupTable.move_eq hStates, hChosen]
    dsimp only
    rw [hRemaining]

/-- A reduction uncovers a state with an edge for the left-hand side. -/
theorem Outcome.of_reduce (hCoherent : automaton.Coherent g) (hShows : c.Shows automaton γ)
    (hStates : c.states = q :: ps) {core : Core} {a : Terminal} (hLive : g.Live γ ⟨core, a⟩)
    (hComplete : core.rest g = []) (h0 : core.rule ≠ augmentedRule)
    (hChosen : (automaton.machine g).chosen c = some (.reduce core.rule)) :
    Outcome g automaton c γ := by
  obtain ⟨⟨rule, hr, _⟩, _⟩ := hLive.belongs
  obtain ⟨δ, rfl, hBelow⟩ := hLive.base_complete hr hComplete
  obtain ⟨i, tail, hParent, hRest, _⟩ := hBelow.exists_parent hr h0
  have hPop := hShows.pop
  rw [List.length_reverse] at hPop
  obtain ⟨p, ps', hPopped, hPath⟩ := hPop.exists_path
  obtain ⟨next, hEdge⟩ :=
    (hPath.exists_edge?_iff hCoherent).mpr ⟨i, hParent, Core.next_of_rest hRest⟩
  refine .reduce hChosen ?_ hr h0 rfl (hBelow.read_rule hr) (hPop.push hPopped hEdge)
  have hLength : ¬ c.symbols.length < rule.right.length := by
    rw [hShows.length_eq, List.length_append, List.length_reverse]
    omega
  have hProduction : (automaton.machine g).production core.rule =
      some (rule.left, rule.right.length) := by
    change ParseTable.production? _ _ = _
    rw [ParseTable.production?_ofAutomaton, hr, Option.map_some]
  have hGoto : (automaton.machine g).goto p rule.left = some next := by
    change ParseTable.goto? _ _ _ = _
    rw [ParseTable.goto?_ofAutomaton, hEdge]
  rw [LookupTable.move_eq hStates, hChosen]
  dsimp only
  unfold LookupTable.reduce
  rw [hProduction]
  dsimp only
  rw [if_neg hLength, hPopped]
  dsimp only
  rw [hGoto]

theorem outcome (hCoherent : automaton.Coherent g) (hShows : c.Shows automaton γ)
    (hTokens : NoEndMarker c.remaining) : Outcome g automaton c γ := by
  obtain ⟨q, ps, hStates, hPath⟩ := hShows.exists_path
  cases hChosen : (automaton.machine g).chosen c with
  | none =>
    refine .reject hChosen ⟨⟨q, c.position, c.remaining.head?, (automaton.machine g).expected q⟩, ?_⟩
    rw [LookupTable.move_eq hStates, hChosen]
  | some action =>
    have hLookup := hChosen
    rw [chosen_lookups _ hStates] at hLookup
    obtain ⟨t, hLookahead, hAction?⟩ := Option.bind_eq_some_iff.mp hLookup
    obtain ⟨state, hState, hMem⟩ := ParseTable.mem_candidates_of_action? hAction?
    rcases State.mem_candidates.mp hMem with ⟨p, hEdge, rfl⟩ | ⟨core, hItem, hComplete, rfl⟩
    · exact .of_shift hCoherent hShows hStates hState hLookahead hEdge hChosen
    · obtain ⟨_, hRest⟩ := Core.isComplete_iff.mp hComplete
      obtain ⟨a, hLive⟩ := hPath.live_of_mem hCoherent hState hItem
      by_cases h0 : core.rule = augmentedRule
      · have ht : t = endMarker := hCoherent.lookahead hState _ hItem h0
        have hAccept : completion core.rule t = .accept := completion_eq_accept_iff.mpr ⟨h0, ht⟩
        rw [hAccept] at hChosen
        refine .accept hChosen (LookupTable.move_eq_accepted_iff.mpr hChosen)
          (hTokens.eq_nil (ht ▸ hLookahead)) ?_
        -- Only above the start symbol is the augmented rule complete.
        obtain ⟨_, ⟨rfl, hm⟩ | ⟨hγ, _⟩⟩ := hLive.of_augmentedRule h0
        · dsimp only at hm
          rw [Core.rest_eq_drop (h0 ▸ g.augmentedRule_first), hm] at hRest
          cases hRest
        · exact hγ
      · have hReduce : completion core.rule t = .reduce core.rule :=
          completion_eq_reduce_iff.mpr ⟨rfl, fun h => h0 h.1⟩
        rw [hReduce] at hChosen
        exact .of_reduce hCoherent hShows hStates hLive hRest h0 hChosen

/-! ### What follows from the action -/

theorem Outcome.exists_shift (h : Outcome g automaton c γ)
    (hChosen : (automaton.machine g).chosen c = some (.shift p)) :
    ∃ token rest t, (automaton.machine g).move c = .next (c.shift token rest p) ∧
      c.remaining = token :: rest ∧ token.terminal? = some t ∧
      (c.shift token rest p).Shows automaton (.terminal t :: γ) := by
  cases h with
  | reject hNone => rw [hNone] at hChosen; cases hChosen
  | accept hAccept => rw [hAccept] at hChosen; cases hChosen
  | reduce hReduce => rw [hReduce] at hChosen; cases hChosen
  | shift hShift hMove hRemaining ht hShows =>
    rw [hShift] at hChosen
    cases hChosen
    exact ⟨_, _, _, hMove, hRemaining, ht, hShows⟩

theorem Outcome.exists_reduce (h : Outcome g automaton c γ)
    (hChosen : (automaton.machine g).chosen c = some (.reduce r)) :
    ∃ rule a δ p, (automaton.machine g).move c = .next ((c.pop rule.right.length).push rule.left p) ∧
      g.rules[r]? = some rule ∧ r ≠ augmentedRule ∧ γ = rule.right.reverse ++ δ ∧
      g.Live γ ⟨⟨r, rule.right.length⟩, a⟩ ∧
      ((c.pop rule.right.length).push rule.left p).Shows automaton (.nonterminal rule.left :: δ) := by
  cases h with
  | reject hNone => rw [hNone] at hChosen; cases hChosen
  | accept hAccept => rw [hAccept] at hChosen; cases hChosen
  | shift hShift => rw [hShift] at hChosen; cases hChosen
  | reduce hReduce hMove hr h0 hγ hLive hShows =>
    rw [hReduce] at hChosen
    cases hChosen
    exact ⟨_, _, _, _, hMove, hr, h0, hγ, hLive, hShows⟩

/-- A move that goes on is a shift or a reduction. -/
theorem Outcome.of_next {c' : Configuration StateId InputToken Nonterminal}
    (h : Outcome g automaton c γ) (hMove : (automaton.machine g).move c = .next c') :
    (∃ p token rest t, (automaton.machine g).chosen c = some (.shift p) ∧
        c' = c.shift token rest p ∧ c.remaining = token :: rest ∧ token.terminal? = some t ∧
        c'.Shows automaton (.terminal t :: γ)) ∨
      ∃ r rule δ p, (automaton.machine g).chosen c = some (.reduce r) ∧
        c' = (c.pop rule.right.length).push rule.left p ∧ g.rules[r]? = some rule ∧
        r ≠ augmentedRule ∧ γ = rule.right.reverse ++ δ ∧
        c'.Shows automaton (.nonterminal rule.left :: δ) := by
  cases h with
  | reject _ hHalt =>
    obtain ⟨_, hHalt⟩ := hHalt
    rw [hHalt] at hMove
    cases hMove
  | accept _ hHalt =>
    rw [hHalt] at hMove
    cases hMove
  | shift hChosen hNext hRemaining ht hShows =>
    rw [hNext] at hMove
    cases hMove
    exact .inl ⟨_, _, _, _, hChosen, rfl, hRemaining, ht, hShows⟩
  | reduce hChosen hNext hr h0 hγ _ hShows =>
    rw [hNext] at hMove
    cases hMove
    exact .inr ⟨_, _, _, _, hChosen, rfl, hr, h0, hγ, hShows⟩

/-- The machine accepts when it has read everything and holds the start symbol. -/
theorem Outcome.of_accepted (h : Outcome g automaton c γ)
    (hHalt : (automaton.machine g).move c = .halt .accepted) :
    c.remaining = [] ∧ γ = [.nonterminal g.start] := by
  have hChosen := LookupTable.move_eq_accepted_iff.mp hHalt
  cases h with
  | reject hNone => rw [hNone] at hChosen; cases hChosen
  | shift hShift => rw [hShift] at hChosen; cases hChosen
  | reduce hReduce => rw [hReduce] at hChosen; cases hChosen
  | accept _ _ hRemaining hγ => exact ⟨hRemaining, hγ⟩

end Outcome

/-! ## Runs -/

section Runs

variable {c c' : Configuration StateId InputToken Nonterminal}
  {steps : List (Step StateId RuleId InputToken Nonterminal)}

theorem shows_start (automaton : Automaton) (table : ParseTable) (tokens : List InputToken) :
    (table.lookups.start tokens).Shows automaton [] :=
  ⟨.bottom, rfl⟩

/-- What a move does to the shown path and the unread tokens. -/
theorem Outcome.shows_next (h : Outcome g automaton c γ) (hTokens : NoEndMarker c.remaining)
    (hMove : (automaton.machine g).move c = .next c') :
    (∃ γ', c'.Shows automaton γ') ∧ NoEndMarker c'.remaining := by
  rcases h.of_next hMove with ⟨_, _, _, _, _, rfl, hRemaining, _, hShows⟩ |
    ⟨_, _, _, _, _, rfl, _, _, _, hShows⟩
  · rw [hRemaining] at hTokens
    exact ⟨⟨_, hShows⟩, hTokens.tail⟩
  · exact ⟨⟨_, hShows⟩, hTokens⟩

/-- The stacks of every configuration of every run show a path. -/
theorem shows_of_moves (hCoherent : automaton.Coherent g) (input : String)
    (h : (automaton.machine g).Moves ((automaton.machine g).start (g.tokenize input)) steps c) :
    (∃ γ, c.Shows automaton γ) ∧ NoEndMarker c.remaining := by
  induction h with
  | refl => exact ⟨⟨[], shows_start _ _ _⟩, noEndMarker_tokenize g input⟩
  | step _ hMove ih =>
    obtain ⟨⟨γ, hShows⟩, hTokens⟩ := ih
    exact (outcome hCoherent hShows hTokens).shows_next hTokens hMove

/-- In a configuration that shows a path no move faults, the step that is recorded
climbs along the path, and a rule that is reduced has its right-hand side on top. -/
theorem Outcome.step (h : Outcome g automaton c γ) (hShows : c.Shows automaton γ) :
    (∀ fault, (automaton.machine g).move c ≠ .fail fault) ∧
      (∃ rest q, c.snapshot = .state initialState :: rest ∧
        automaton.Climbs initialState rest q) ∧
      ∀ r, (automaton.machine g).chosen c = some (.reduce r) → ∃ rule,
        g.rules[r]? = some rule ∧ rule.right.map some <:+ stackSymbols c.snapshot := by
  obtain ⟨rest, q, hSnapshot, hClimbs, _, hStack⟩ := hShows.snapshot
  refine ⟨?_, ⟨rest, q, hSnapshot, hClimbs⟩, ?_⟩
  · intro fault hFail
    cases h with
    | reject _ hHalt =>
      obtain ⟨_, hHalt⟩ := hHalt
      rw [hHalt] at hFail
      cases hFail
    | accept _ hHalt => rw [hHalt] at hFail; cases hFail
    | shift _ hNext => rw [hNext] at hFail; cases hFail
    | reduce _ hNext => rw [hNext] at hFail; cases hFail
  · intro r hReduce
    cases h with
    | reject hChosen => rw [hChosen] at hReduce; cases hReduce
    | accept hChosen => rw [hChosen] at hReduce; cases hReduce
    | shift hChosen => rw [hChosen] at hReduce; cases hReduce
    | @reduce r' rule a δ p hChosen _ hr _ hγ =>
      rw [hChosen] at hReduce
      cases hReduce
      refine ⟨rule, hr, δ.reverse.map some, ?_⟩
      rw [hStack, hγ, List.reverse_append, List.reverse_reverse, List.map_append]

end Runs

/-! ## Generated tables -/

/-- Either method makes a table for every grammar, with or without conflicts. No
run over any input ever faults, and at every step of every run the recorded stack
climbs along edges of the automaton from the initial state, and a rule that is
reduced has its right-hand side on top of the stack. -/
theorem Construction.stack_climbs_edges (algorithm : Algorithm) (g : Grammar) :
    ∃ automaton table, (Construction.mk algorithm false).automaton g = .ok automaton ∧
      (Construction.mk algorithm false).table g automaton = .ok table ∧
      ∀ input : String,
        (∀ lookups fault, table.parse g input lookups ≠ .failed fault) ∧
        ∀ moves c, table.lookups.after? (table.lookups.start (g.tokenize input)) moves = some c →
          (∀ fault, table.lookups.move c ≠ .fail fault) ∧
          (∃ rest q, c.snapshot = .state initialState :: rest ∧
            automaton.Climbs initialState rest q) ∧
          ∀ r, table.lookups.chosen c = some (.reduce r) → ∃ rule,
            g.rules[r]? = some rule ∧ rule.right.map some <:+ stackSymbols c.snapshot := by
  obtain ⟨automaton, hAutomaton, hCoherent, hTable⟩ := exists_table algorithm g
  refine ⟨automaton, _, hAutomaton, hTable, ?_⟩
  intro input
  constructor
  · intro lookups fault hParse
    obtain ⟨_, last, hMoves, hFail⟩ := LookupTable.exists_moves_of_failed .refl hParse
    obtain ⟨⟨γ, hShows⟩, hTokens⟩ := shows_of_moves hCoherent input hMoves
    exact ((outcome hCoherent hShows hTokens).step hShows).1 fault hFail
  · intro moves c hAfter
    obtain ⟨_, _, hMoves⟩ := LookupTable.moves_of_after? hAfter
    obtain ⟨⟨γ, hShows⟩, hTokens⟩ := shows_of_moves hCoherent input hMoves
    exact (outcome hCoherent hShows hTokens).step hShows

end ShiftReduce
