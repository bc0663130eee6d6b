import ShiftReduce.Automaton.Canonical

/-!
# Merged automata

The states of an automaton whose items have the same cores are merged into one
that holds all their items. Merged states are numbered by the first appearance
of their cores, and their edges lead to the state with the cores of `goto`.
Nothing is lost by this when the automaton is the grammar's own canonical one;
for another automaton there may be no such state.
-/

namespace ShiftReduce

inductive MergeError
  /-- An item has a rule that the grammar does not have. -/
  | unknownRule
  /-- No state has the cores that a symbol leads to from a merged state. -/
  | missingCore (state : StateId) (symbol : Symbol)
  deriving DecidableEq, Repr

namespace Automaton

variable (automaton : Automaton)

def stateCores : List (OrdSet Core) := automaton.states.toList.map fun state => state.items.cores

/-- The different cores of the states, by first appearance. -/
def distinctCores : List (OrdSet Core) := automaton.stateCores.eraseDups

/-- The items of all states with the given cores. -/
def mergedItems (cores : OrdSet Core) : ItemSet :=
  (automaton.states.toList.filter fun state => state.items.cores = cores).foldl
    (fun items state => items ∪ state.items) ∅

/-- The merged state to which a symbol leads, found by its cores. -/
def mergedTarget (g : Grammar) (F : FirstSets) (id : StateId) (items : ItemSet) (symbol : Symbol) :
    Except MergeError (Symbol × StateId) :=
  match automaton.distinctCores.idxOf? (g.goto F items symbol).cores with
  | some target => .ok (symbol, target)
  | none => .error (.missingCore id symbol)

def mergedState (g : Grammar) (F : FirstSets) (id : StateId) (items : ItemSet) :
    Except MergeError State :=
  if items.Known g then
    ((g.nextSymbols items).mapM (automaton.mergedTarget g F id items)).map fun edges =>
      ⟨items, edges⟩
  else .error .unknownRule

/-- The automaton with its states merged by cores. -/
def merge (g : Grammar) (F : FirstSets) : Except MergeError Automaton := do
  let states ← (automaton.distinctCores.map automaton.mergedItems).zipIdx.mapM
    fun (items, id) => automaton.mergedState g F id items
  let mergeMap := automaton.stateCores.map fun cores => automaton.distinctCores.idxOf cores
  return { states := states.toArray, mergeMap? := some mergeMap }

end Automaton

end ShiftReduce
