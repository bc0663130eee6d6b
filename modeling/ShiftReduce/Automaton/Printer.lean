import ShiftReduce.Automaton.Basic
import ShiftReduce.Item.Printer

/-!
# Automata in text
-/

namespace ShiftReduce

/-- The number of a state, in two digits at least. -/
def stateText (id : StateId) : String := if id < 10 then "0" ++ toString id else toString id

namespace Automaton

def mergeText (mergeMap : List StateId) (id : StateId) : String :=
  "## merged from:" ++ String.join ((mergeMap.zipIdx.filter fun entry => entry.1 = id).map
    fun entry => " " ++ stateText entry.2)

/-- One state: where it was merged from, its items and its edges. -/
def stateText? (g : Grammar) (mergeMap? : Option (List StateId)) (state : State) (id : StateId) :
    Option String := do
  let items ← state.items.text? g
  let edges ← state.edges.mapM fun (symbol, target) =>
    (g.symbolName? symbol).map fun name => "- " ++ name ++ " => " ++ stateText target
  let mergeLines := mergeMap?.toList.map fun mergeMap => mergeText mergeMap id
  return unlines (("#### State " ++ stateText id) :: mergeLines ++ ["## items"]) ++ items ++
    unlines ("## edges" :: edges)

/-- All states, with an empty line between them. -/
def text? (g : Grammar) (automaton : Automaton) : Option String :=
  (automaton.states.toList.zipIdx.mapM fun (entry : State × Nat) =>
    stateText? g automaton.mergeMap? entry.1 entry.2).map fun texts => "\n".intercalate texts

end Automaton

end ShiftReduce
