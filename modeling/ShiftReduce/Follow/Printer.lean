import ShiftReduce.Follow
import ShiftReduce.Grammar.Printer

/-!
# FOLLOW sets in text
-/

namespace ShiftReduce

def followText? (g : Grammar) (follow : OrdSet Terminal) (n : Nonterminal) : Option String := do
  let name ← g.nonterminals[n]?
  let terminals ← g.terminalNames? follow.toList
  return "Follow(" ++ name ++ ") = \x7b " ++ ", ".intercalate terminals ++ " \x7d"

def FollowSets.text? (g : Grammar) (follow : FollowSets) : Option String :=
  (follow.sets.toList.zipIdx.mapM fun entry => followText? g entry.1 entry.2).map unlines

end ShiftReduce
