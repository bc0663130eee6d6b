import ShiftReduce.Item.Basic

/-!
# Automata

The states of an automaton are item sets, numbered from the initial state `0`,
with edges to other states. An automaton that came about by merging the states
of another one knows which of its states each of those went into.
-/

namespace ShiftReduce

abbrev StateId := Nat

/-- The state in which a parse starts. -/
def initialState : StateId := 0

/-- A state: its items, and where each symbol leads. -/
structure State where
  items : ItemSet
  edges : List (Symbol × StateId)
  deriving DecidableEq

def State.edge? (state : State) (symbol : Symbol) : Option StateId := state.edges.lookup symbol

inductive Algorithm
  /-- Item sets are told apart by all of their items. -/
  | canonical
  /-- The canonical states with equal cores are merged. -/
  | merged
  deriving DecidableEq, Repr

structure Automaton where
  states : Array State
  /-- For a merged automaton, the state that each state merged went into. -/
  mergeMap? : Option (List StateId)
  deriving DecidableEq

namespace Automaton

variable (automaton : Automaton)

def size : Nat := automaton.states.size

def algorithm : Algorithm := if automaton.mergeMap?.isSome then .merged else .canonical

def edge? (state : StateId) (symbol : Symbol) : Option StateId :=
  (automaton.states[state]?).bind fun s => s.edge? symbol

/-- Where a sequence of symbols leads from a state, if it leads anywhere. -/
def walk? (state : StateId) : List Symbol → Option StateId
  | [] => some state
  | symbol :: rest => (automaton.edge? state symbol).bind fun next => walk? next rest

end Automaton

end ShiftReduce
