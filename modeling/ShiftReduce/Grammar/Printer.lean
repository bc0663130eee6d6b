import ShiftReduce.Grammar.Basic
import ShiftReduce.OrdSet.Basic

/-!
# Grammars in text

Texts are made of names. A text that would need the name of a symbol which the
grammar does not have is `none`.
-/

namespace ShiftReduce

/-- Each text on a line of its own. -/
def unlines (texts : List String) : String := String.join (texts.map (· ++ "\n"))

/-- A rule, its empty right-hand side written as `ε`. -/
def Rule.text? (g : Grammar) (rule : Rule) : Option String := do
  let left ← g.nonterminals[rule.left]?
  let right ← rule.right.mapM g.symbolName?
  return " ".intercalate (left :: "->" :: if right.isEmpty then [epsilonName] else right)

namespace Grammar

/-- A nonterminal, with a remark on the two special ones. -/
def nonterminalText (g : Grammar) (name : String) (n : Nonterminal) : String :=
  if n = g.start then name ++ " (start)"
  else if n = augmentedStart then name ++ " (augmented)"
  else name

def numberedRuleText? (g : Grammar) (rule : Rule) (r : RuleId) : Option String :=
  (rule.text? g).map fun text => toString r ++ ": " ++ text

/-- The whole grammar: terminals, nonterminals and rules in the order of their
numbers. -/
def text? (g : Grammar) : Option String := do
  let rules ← g.rules.toList.zipIdx.mapM fun entry => g.numberedRuleText? entry.1 entry.2
  return unlines <|
    "## terminals:" :: g.terminals.toList ++
    "" :: "## nonterminals:" ::
      g.nonterminals.toList.zipIdx.map (fun entry => g.nonterminalText entry.1 entry.2) ++
    "" :: "## rules:" :: rules

def terminalNames? (g : Grammar) (ts : List Terminal) : Option (List String) :=
  ts.mapM fun t => g.terminals[t]?

end Grammar

end ShiftReduce
