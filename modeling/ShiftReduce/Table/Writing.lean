import ShiftReduce.Table.Basic

/-!
# Writing a table in place

A table can be written cell by cell, in one pass over the states. Each state has its edges entered
first, as shifts and as targets, and its complete items after them. An action goes into its cell
if that is empty. If the cell has another action already, that one stays, and the two are put on
one list of conflicts for all states.
-/

namespace ShiftReduce

/-- A row that is being written, and the conflicts so far. -/
structure Sheet where
  row : Row
  conflicts : List Conflict

namespace Sheet

variable (id : StateId) (sheet : Sheet)

def writeAction (entry : Terminal × TableAction) : Sheet :=
  match sheet.row.actions.lookup entry.1 with
  | none => { sheet with row := { sheet.row with actions := sheet.row.actions ++ [entry] } }
  | some kept =>
    if kept = entry.2 then sheet
    else { sheet with conflicts := sheet.conflicts ++ [⟨id, entry.1, kept, entry.2⟩] }

/-- Enters a target. It takes the place of an earlier one for the same nonterminal. -/
def writeTarget (entry : Nonterminal × StateId) : Sheet :=
  let gotos :=
    if sheet.row.gotos.any fun earlier => earlier.1 = entry.1 then
      sheet.row.gotos.map fun earlier => if earlier.1 = entry.1 then entry else earlier
    else sheet.row.gotos ++ [entry]
  { sheet with row := { sheet.row with gotos := gotos } }

def writeEdge : Symbol × StateId → Sheet
  | (.terminal t, target) => sheet.writeAction id (t, .shift target)
  | (.nonterminal n, target) => sheet.writeTarget (n, target)

def writeItem (g : Grammar) (i : Item) : Sheet :=
  if i.core.isComplete g then
    sheet.writeAction id (i.lookahead, completion i.core.rule i.lookahead)
  else sheet

end Sheet

/-- Writes the row of a state, after the conflicts of the states before it. -/
def State.write (g : Grammar) (state : State) (id : StateId) (conflicts : List Conflict) : Sheet :=
  state.items.toList.foldl (fun sheet i => sheet.writeItem id g i)
    (state.edges.foldl (fun sheet edge => sheet.writeEdge id edge) ⟨⟨[], []⟩, conflicts⟩)

/-- The table of an automaton, written state by state. -/
def ParseTable.written (g : Grammar) (automaton : Automaton) : ParseTable :=
  let written := automaton.states.toList.zipIdx.foldl
    (fun table (state, id) =>
      let sheet := state.write g id table.2
      (table.1.push sheet.row, sheet.conflicts))
    ((#[], []) : Array Row × List Conflict)
  { rows := written.1
    conflicts := written.2
    productions := g.rules.map fun rule => (rule.left, rule.right.length) }

end ShiftReduce
