import ShiftReduce.Machine.Action

/-!
# The shift-reduce machine

The machine runs over any table that answers four questions; nothing is assumed
of the answers. A configuration is the stack of states, the stack of symbols
and the unread tokens. Each move looks up one action, for the state on top and
the next token, and performs it. A run records every move before it is made.

A table can make the machine move for ever, so a run is given the number of
actions that it may look up.
-/

namespace ShiftReduce

/-! ## Tables and tokens -/

/-- What the machine needs to know, given the types of states, terminals,
nonterminals and rules. The end of the input is the lookahead `none`. -/
structure LookupTable (σ τ ν ρ : Type) where
  initial : σ
  action : σ → Option τ → Option (Action σ ρ)
  goto : σ → ν → Option σ
  /-- The left-hand side and the length of a rule. -/
  production : ρ → Option (ν × Nat)
  /-- The lookaheads at which a state has an action, for reports only. -/
  expected : σ → List (Option τ) := fun _ => []

/-- A token stands for a terminal, or for none that the table knows. -/
class Token (κ : Type) (τ : outParam Type) where
  terminal? : κ → Option τ

/-! ## Configurations -/

/-- A symbol on the stack: a token that was read, or a nonterminal. -/
inductive StackSymbol (κ ν : Type)
  | token (token : κ)
  | nonterminal (nonterminal : ν)
  deriving DecidableEq, Repr

/-- The two stacks, topmost elements first, the number of tokens read, and the
tokens not read yet. -/
structure Configuration (σ κ ν : Type) where
  states : List σ
  symbols : List (StackSymbol κ ν)
  position : Nat
  remaining : List κ
  deriving DecidableEq, Repr

inductive StackItem (σ κ ν : Type)
  | state (state : σ)
  | symbol (symbol : StackSymbol κ ν)
  deriving DecidableEq, Repr

/-- A recorded move: the stack from the bottom, the tokens not read yet, and
the action found, which is `none` for a rejection. -/
structure Step (σ ρ κ ν : Type) where
  stack : List (StackItem σ κ ν)
  remaining : List κ
  action : Option (Action σ ρ)
  deriving DecidableEq, Repr

namespace Configuration

variable {σ ρ κ ν : Type}

/-- The whole stack from the bottom: states and symbols in turn. -/
def snapshot (c : Configuration σ κ ν) : List (StackItem σ κ ν) :=
  match c.states.reverse with
  | [] => []
  | bottom :: states =>
    .state bottom :: (c.symbols.reverse.zip states).flatMap fun (symbol, state) =>
      [.symbol symbol, .state state]

def record (c : Configuration σ κ ν) (action : Option (Action σ ρ)) : Step σ ρ κ ν :=
  ⟨c.snapshot, c.remaining, action⟩

def shift (c : Configuration σ κ ν) (token : κ) (rest : List κ) (target : σ) :
    Configuration σ κ ν :=
  ⟨target :: c.states, .token token :: c.symbols, c.position + 1, rest⟩

/-- Takes `length` symbols and their states off the stack. -/
def pop (c : Configuration σ κ ν) (length : Nat) : Configuration σ κ ν :=
  { c with states := c.states.drop length, symbols := c.symbols.drop length }

def push (c : Configuration σ κ ν) (nonterminal : ν) (target : σ) : Configuration σ κ ν :=
  { c with states := target :: c.states, symbols := .nonterminal nonterminal :: c.symbols }

end Configuration

/-! ## Ends of a run -/

/-- Where and why a run rejects its input. -/
structure Rejection (σ τ κ : Type) where
  state : σ
  position : Nat
  lookahead : Option κ
  expected : List (Option τ)
  deriving DecidableEq, Repr

inductive Verdict (σ τ κ : Type)
  | accepted
  | rejected (rejection : Rejection σ τ κ)
  deriving DecidableEq, Repr

/-- What is wrong with a table that a run fails on. -/
inductive Fault (σ ν ρ : Type)
  | undefinedRule (rule : ρ)
  | missingGoto (state : σ) (nonterminal : ν)
  | shiftAtEnd
  | stackUnderflow
  deriving DecidableEq, Repr

inductive Move (σ τ ν ρ κ : Type)
  | next (configuration : Configuration σ κ ν)
  | halt (verdict : Verdict σ τ κ)
  | fail (fault : Fault σ ν ρ)
  deriving DecidableEq, Repr

inductive Ending (σ τ ν ρ κ : Type)
  /-- The verdict and the recorded moves. -/
  | finished (verdict : Verdict σ τ κ) (trace : List (Step σ ρ κ ν))
  | failed (fault : Fault σ ν ρ)
  /-- No further action may be looked up. -/
  | outOfLookups
  deriving DecidableEq, Repr

namespace LookupTable

variable {σ τ ν ρ κ : Type} [Token κ τ] (table : LookupTable σ τ ν ρ)

def start (tokens : List κ) : Configuration σ κ ν := ⟨[table.initial], [], 0, tokens⟩

/-- The action of a state before the given tokens. A token that stands for no
terminal has none. -/
def actionAt (state : σ) (remaining : List κ) : Option (Action σ ρ) :=
  match remaining with
  | [] => table.action state none
  | token :: _ => (Token.terminal? token).bind fun t => table.action state (some t)

def chosen (c : Configuration σ κ ν) : Option (Action σ ρ) :=
  c.states.head?.bind fun state => table.actionAt state c.remaining

def reduce (c : Configuration σ κ ν) (rule : ρ) : Move σ τ ν ρ κ :=
  match table.production rule with
  | none => .fail (.undefinedRule rule)
  | some (left, length) =>
    if c.symbols.length < length then .fail .stackUnderflow
    else
      match (c.pop length).states with
      | [] => .fail .stackUnderflow
      | state :: _ =>
        match table.goto state left with
        | none => .fail (.missingGoto state left)
        | some target => .next ((c.pop length).push left target)

def move (c : Configuration σ κ ν) : Move σ τ ν ρ κ :=
  match c.states with
  | [] => .fail .stackUnderflow
  | state :: _ =>
    match table.actionAt state c.remaining with
    | some (.shift target) =>
      match c.remaining with
      | [] => .fail .shiftAtEnd
      | token :: rest => .next (c.shift token rest target)
    | some (.reduce rule) => table.reduce c rule
    | some .accept => .halt .accepted
    | none => .halt (.rejected ⟨state, c.position, c.remaining.head?, table.expected state⟩)

/-- Whether a move has to look up an action: not if the next token stands for
no terminal. -/
def looksUp (c : Configuration σ κ ν) : Bool :=
  match c.remaining with
  | [] => true
  | token :: _ => (Token.terminal? token).isSome

/-- Runs from a configuration, with the moves recorded so far, the last one
first, and the number of actions that may still be looked up. -/
def runFrom (c : Configuration σ κ ν) (trace : List (Step σ ρ κ ν)) :
    Nat → Ending σ τ ν ρ κ
  | 0 =>
    if looksUp c then .outOfLookups
    else
      match table.move c with
      | .next _ => .outOfLookups
      | .halt verdict => .finished verdict (c.record (table.chosen c) :: trace).reverse
      | .fail fault => .failed fault
  | lookups + 1 =>
    match table.move c with
    | .next c' => runFrom c' (c.record (table.chosen c) :: trace) lookups
    | .halt verdict => .finished verdict (c.record (table.chosen c) :: trace).reverse
    | .fail fault => .failed fault

/-- Runs over `tokens`, looking up no more than `lookups` actions. -/
def run (tokens : List κ) (lookups : Nat) : Ending σ τ ν ρ κ :=
  table.runFrom (table.start tokens) [] lookups

/-- The configuration after a number of moves, if there are so many. -/
def after? (c : Configuration σ κ ν) : Nat → Option (Configuration σ κ ν)
  | 0 => some c
  | moves + 1 =>
    match table.move c with
    | .next c' => after? c' moves
    | _ => none

end LookupTable

end ShiftReduce
