import ShiftReduce.Symbol
import ShiftReduce.Text.Blank

/-!
# Grammars

An augmented context-free grammar: the names of its symbols and its rules, each
at the position of its number. A grammar is well formed by its type: names are
distinct, those of declared symbols are words without a meaning of their own,
every rule uses declared symbols only, and the augmented start has the augmented
rule and occurs in no right-hand side.
-/

namespace ShiftReduce

def endMarkerName : String := "$"

/-- The text that stands for an empty right-hand side. -/
def epsilonName : String := "ε"

/-- Whether a name has a meaning of its own and cannot be declared. -/
def isReservedName (name : String) : Bool := name == endMarkerName || name == epsilonName

def isWord (name : String) : Bool := !name.isEmpty && !name.toList.any Text.isBlank

def UsableName (name : String) : Prop := isWord name = true ∧ isReservedName name = false

/-- An augmented context-free grammar. -/
structure Grammar where
  /-- The names of the terminals; the end marker comes first. -/
  terminals : Array String
  /-- The names of the nonterminals; the augmented start comes first. -/
  nonterminals : Array String
  /-- The rules; the augmented rule comes first. -/
  rules : Array Rule
  /-- The start symbol, which the augmented rule leads to. -/
  start : Nonterminal
  endMarker_first : terminals[endMarker]? = some endMarkerName
  names_distinct : (terminals.toList ++ nonterminals.toList).Nodup
  names_usable : ∀ name ∈ terminals.toList.tail ++ nonterminals.toList.tail, UsableName name
  augmentedRule_first : rules[augmentedRule]? = some ⟨augmentedStart, [.nonterminal start]⟩
  start_declared : (Symbol.nonterminal start).Declared terminals.size nonterminals.size
  rules_declared : ∀ r rule, r ≠ augmentedRule → rules[r]? = some rule →
    rule.Declared terminals.size nonterminals.size
  deriving DecidableEq

namespace Grammar

variable (g : Grammar)

/-! ## Names -/

def symbolName? : Symbol → Option String
  | .terminal t => g.terminals[t]?
  | .nonterminal n => g.nonterminals[n]?

/-- The terminal of a name. The end marker is not found by its name. -/
def terminalNamed? (name : String) : Option Terminal :=
  match g.terminals.findIdx? (· == name) with
  | some t => if t = endMarker then none else some t
  | none => none

/-- The nonterminal of a name, the augmented start included. -/
def nonterminalNamed? (name : String) : Option Nonterminal :=
  g.nonterminals.findIdx? (· == name)

/-! ## Rules -/

/-- The rules of a nonterminal, in the order of their declaration. -/
def rulesOf (n : Nonterminal) : List RuleId :=
  (List.range g.rules.size).filter fun r => (g.rules[r]?).any fun rule => rule.left = n

/-- Whether a rule has the given left-hand side and names on the right. -/
def spells (left : Nonterminal) (right : List String) (rule : Rule) : Bool :=
  rule.left = left && rule.right.map g.symbolName? = right.map some

/-- The first rule with the given names on both sides. -/
def ruleSpelled? (left : String) (right : List String) : Option RuleId :=
  (g.nonterminalNamed? left).bind fun n => g.rules.findIdx? (g.spells n right)

/-! ## Symbols of the rules -/

theorem mem_rulesOf {n : Nonterminal} {r : RuleId} :
    r ∈ g.rulesOf n ↔ ∃ rule, g.rules[r]? = some rule ∧ rule.left = n := by
  simp only [rulesOf, List.mem_filter, List.mem_range, Option.any_eq_true, decide_eq_true_iff]
  constructor
  · exact fun h => h.2
  · rintro ⟨rule, hr, hn⟩
    exact ⟨(Array.getElem?_eq_some_iff.1 hr).1, rule, hr, hn⟩

theorem declared_of_mem_right {r : RuleId} {rule : Rule} (hr : g.rules[r]? = some rule)
    {s : Symbol} (hs : s ∈ rule.right) :
    s.Declared g.terminals.size g.nonterminals.size := by
  by_cases h0 : r = augmentedRule
  · rw [h0, g.augmentedRule_first, Option.some_inj] at hr
    rw [← hr, List.mem_singleton] at hs
    exact hs ▸ g.start_declared
  · exact (g.rules_declared r rule h0 hr).2 s hs

theorem left_lt {r : RuleId} {rule : Rule} (hr : g.rules[r]? = some rule) :
    rule.left < g.nonterminals.size := by
  by_cases h0 : r = augmentedRule
  · rw [h0, g.augmentedRule_first, Option.some_inj] at hr
    rw [← hr]
    exact Nat.lt_trans g.start_declared.1 g.start_declared.2
  · exact (g.rules_declared r rule h0 hr).1.2

/-- No rule but the augmented one is a rule of the augmented start. -/
theorem left_pos {r : RuleId} {rule : Rule} (hr : g.rules[r]? = some rule)
    (h0 : r ≠ augmentedRule) : 0 < rule.left :=
  (g.rules_declared r rule h0 hr).1.1

theorem terminals_pos : 0 < g.terminals.size := by
  have := g.endMarker_first
  exact (Array.getElem?_eq_some_iff.1 this).1

end Grammar

end ShiftReduce
