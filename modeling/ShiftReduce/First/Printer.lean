import ShiftReduce.First
import ShiftReduce.Grammar.Printer

/-!
# FIRST sets in text
-/

namespace ShiftReduce

def FirstSet.text? (g : Grammar) (first : FirstSet) (n : Nonterminal) : Option String := do
  let name ← g.nonterminals[n]?
  let terminals ← g.terminalNames? first.terminals.toList
  let members := terminals ++ if first.epsilon then [epsilonName] else []
  return "First(" ++ name ++ ") = \x7b " ++ ", ".intercalate members ++ " \x7d"

def FirstSets.text? (g : Grammar) (F : FirstSets) : Option String :=
  (F.sets.toList.zipIdx.mapM fun (entry : FirstSet × Nat) =>
    entry.1.text? g entry.2).map unlines

end ShiftReduce
