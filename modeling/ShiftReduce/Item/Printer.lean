import ShiftReduce.Grammar.Printer
import ShiftReduce.Item.Basic

/-!
# Items in text

The marker is written as a dot. It is left out where it would stand beyond the
end of the rule.
-/

namespace ShiftReduce

/-- The names of a right-hand side with the dot at its place. -/
def dotted (names : List String) (marker : Nat) : List String :=
  if marker ≤ names.length then names.take marker ++ "." :: names.drop marker else names

def Core.text? (g : Grammar) (core : Core) : Option String := do
  let rule ← g.rules[core.rule]?
  let left ← g.nonterminals[rule.left]?
  let right ← rule.right.mapM g.symbolName?
  return " ".intercalate (left :: "->" :: dotted right core.marker)

/-- An item set, one core with its lookaheads on each line. -/
def ItemSet.text? (g : Grammar) (s : ItemSet) : Option String := do
  let lines ← s.entries.mapM fun (entry : Core × OrdSet Terminal) => do
    let core ← entry.1.text? g
    let lookaheads ← g.terminalNames? entry.2.toList
    return "- " ++ core ++ "  [" ++ " ".intercalate lookaheads ++ "]"
  return unlines lines

end ShiftReduce
