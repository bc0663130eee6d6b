import ShiftReduce.Automaton.Printer
import ShiftReduce.Table.Basic

/-!
# Parse tables in text
-/

namespace ShiftReduce

def TableAction.text? (g : Grammar) : TableAction → Option String
  | .shift target => some ("shift(" ++ stateText target ++ ")")
  | .reduce rule => do
    let rule ← g.rules[rule]?
    let text ← rule.text? g
    return "reduce(" ++ text ++ ")"
  | .accept => some "accept"

def ConflictKind.text : ConflictKind → String
  | .shiftReduce => "shift/reduce"
  | .reduceReduce => "reduce/reduce"

def Conflict.text? (g : Grammar) (conflict : Conflict) : Option String := do
  let terminal ← g.terminals[conflict.terminal]?
  let kept ← TableAction.text? g conflict.kept
  let other ← TableAction.text? g conflict.other
  return conflict.kind.text ++ " conflict in state " ++ stateText conflict.state ++ " on " ++
    terminal ++ ": " ++ kept ++ " vs " ++ other

def Row.text? (g : Grammar) (row : Row) (id : StateId) : Option String := do
  let actions ← row.actions.mapM fun (t, action) => do
    let terminal ← g.terminals[t]?
    let text ← TableAction.text? g action
    return "- " ++ terminal ++ " => " ++ text
  let gotos ← row.gotos.mapM fun (n, target) => do
    let nonterminal ← g.nonterminals[n]?
    return "- " ++ nonterminal ++ " => goto(" ++ stateText target ++ ")"
  return unlines (("#### State " ++ stateText id) :: "## actions" :: actions ++
    "## gotos" :: gotos)

/-- All rows, with an empty line between them, and the conflicts if there are
any. -/
def ParseTable.text? (g : Grammar) (table : ParseTable) : Option String := do
  let rows ← table.rows.toList.zipIdx.mapM fun (row, id) => row.text? g id
  let conflicts ← table.conflicts.mapM fun conflict => conflict.text? g
  return "\n".intercalate rows ++
    if conflicts.isEmpty then ""
    else unlines ("" :: "## conflicts" :: conflicts.map fun text => "- " ++ text)

def MergeError.message? (g : Grammar) : MergeError → Option String
  | .unknownRule => none
  | .missingCore state symbol => do
    let name ← g.symbolName? symbol
    return "no merged state has the core of the transition from state " ++ stateText state ++
      " on `" ++ name ++ "'"

def conflictCountText (conflicts : List Conflict) : String :=
  toString conflicts.length ++ " conflict(s) detected"

def BuildError.message? (g : Grammar) : BuildError → Option String
  | .unknownRule => none
  | .merge e => e.message? g
  | .conflicts found => some (conflictCountText found)

end ShiftReduce
