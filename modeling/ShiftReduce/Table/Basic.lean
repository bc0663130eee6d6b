import ShiftReduce.Automaton.Merged
import ShiftReduce.Machine.Action

/-!
# Parse tables

Each state of an automaton gives a row of actions by terminal and of targets by
nonterminal. The candidates for a row's actions are its edges on terminals, in
order, and then its complete items, in order. A cell keeps its first candidate;
every later candidate that differs from it is a conflict.
-/

namespace ShiftReduce

/-- What a generated parser does: its states and rules are numbers. -/
abbrev TableAction := Action StateId RuleId

/-! ## Candidates -/

/-- What a complete item of a rule does at a lookahead. -/
def completion (rule : RuleId) (lookahead : Terminal) : TableAction :=
  if rule = augmentedRule ∧ lookahead = endMarker then .accept else .reduce rule

namespace State

variable (g : Grammar) (state : State)

/-- The edges on terminals, as shifts. -/
def shifts : List (Terminal × TableAction) :=
  state.edges.filterMap fun (symbol, target) => symbol.terminal?.map fun t => (t, .shift target)

/-- The complete items, by their lookaheads. -/
def completions : List (Terminal × TableAction) :=
  (state.items.toList.filter fun i => i.core.isComplete g).map fun i =>
    (i.lookahead, completion i.core.rule i.lookahead)

/-- All actions that the state offers, in the order in which they are
written. -/
def candidates : List (Terminal × TableAction) := state.shifts ++ state.completions g

/-- The edges on nonterminals. -/
def targets : List (Nonterminal × StateId) :=
  state.edges.filterMap fun
    | (.nonterminal n, target) => some (n, target)
    | (.terminal _, _) => none

end State

/-! ## Rows and conflicts -/

structure Row where
  actions : List (Terminal × TableAction)
  gotos : List (Nonterminal × StateId)
  deriving DecidableEq

inductive ConflictKind
  | shiftReduce
  | reduceReduce
  deriving DecidableEq, Repr

/-- Two actions for one cell: the one that the table keeps, and another. -/
structure Conflict where
  state : StateId
  terminal : Terminal
  kept : TableAction
  other : TableAction
  deriving DecidableEq, Repr

/-- A conflict is between shift and reduce if either action is a shift. -/
def Conflict.kind (conflict : Conflict) : ConflictKind :=
  if conflict.kept.isShift || conflict.other.isShift then .shiftReduce else .reduceReduce

/-- The entries of a list with different terminals, the first of each. -/
def keepFirst (candidates : List (Terminal × TableAction)) : List (Terminal × TableAction) :=
  candidates.eraseDupsBy fun a b => a.1 == b.1

def State.row (g : Grammar) (state : State) : Row where
  actions := keepFirst (state.candidates g)
  gotos := state.targets

/-- The candidates of a state that differ from the action kept in their
cell. -/
def State.conflicts (g : Grammar) (state : State) (id : StateId) : List Conflict :=
  (state.candidates g).filterMap fun (t, action) =>
    ((state.row g).actions.lookup t).bind fun kept =>
      if kept = action then none else some ⟨id, t, kept, action⟩

/-! ## Tables -/

/-- A parse table: its rows by state, the conflicts by state, and the left-hand
side and length of every rule. -/
structure ParseTable where
  rows : Array Row
  conflicts : List Conflict
  productions : Array (Nonterminal × Nat)
  deriving DecidableEq

namespace ParseTable

variable (table : ParseTable)

def action? (state : StateId) (t : Terminal) : Option TableAction :=
  (table.rows[state]?).bind fun row => row.actions.lookup t

def goto? (state : StateId) (n : Nonterminal) : Option StateId :=
  (table.rows[state]?).bind fun row => row.gotos.lookup n

def production? (rule : RuleId) : Option (Nonterminal × Nat) := table.productions[rule]?

/-- The terminals at which a state has an action, in the order in which the
actions were written. -/
def expected (state : StateId) : List Terminal :=
  (table.rows[state]?).elim [] fun row => row.actions.map fun entry => entry.1

def actionCount : Nat :=
  (table.rows.toList.map fun row => row.actions.length).foldr (· + ·) 0

def gotoCount : Nat :=
  (table.rows.toList.map fun row => row.gotos.length).foldr (· + ·) 0

end ParseTable

/-! ## Construction -/

inductive BuildError
  /-- The automaton has an item of a rule that the grammar does not have. -/
  | unknownRule
  | merge (error : MergeError)
  /-- There are conflicts, which strict construction does not allow. -/
  | conflicts (conflicts : List Conflict)
  deriving DecidableEq, Repr

structure Construction where
  algorithm : Algorithm := .canonical
  strict : Bool := false
  deriving DecidableEq, Repr

/-- The table of an automaton whose items' rules the grammar has. -/
def ParseTable.ofAutomaton (g : Grammar) (automaton : Automaton) : ParseTable where
  rows := automaton.states.map fun state => state.row g
  conflicts := automaton.states.toList.zipIdx.flatMap fun (state, id) => state.conflicts g id
  productions := g.rules.map fun rule => (rule.left, rule.right.length)

namespace Construction

variable (construction : Construction)

def automaton (g : Grammar) : Except MergeError Automaton :=
  match construction.algorithm with
  | .canonical => .ok (Automaton.canonical g)
  | .merged => (Automaton.canonical g).merge g g.firstSets

def table (g : Grammar) (automaton : Automaton) : Except BuildError ParseTable :=
  if automaton.states.toList.all fun state => decide (state.items.Known g) then
    let table := ParseTable.ofAutomaton g automaton
    if construction.strict && !table.conflicts.isEmpty then .error (.conflicts table.conflicts)
    else .ok table
  else .error .unknownRule

def generate (g : Grammar) : Except BuildError ParseTable := do
  let automaton ← (construction.automaton g).mapError .merge
  construction.table g automaton

end Construction

end ShiftReduce
