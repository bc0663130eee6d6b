import ShiftReduce.Grammar.Declaration

/-!
# Ledgers of declarations

A draft as it is kept on the books: every symbol and every rule is a record that
stands under a key of sixteen bits and carries that key once more, and three
counters hold the keys to be given next. Terminal `0` and nonterminal `0` are on
the books from the beginning, the latter without a name until the end.

Nothing in a ledger says that keys count the records, that they do not repeat, or
that names differ. `Draft.ledger` is the ledger of a draft, where all of this is
so; every course of calls leads from the one of the empty draft to another such.
-/

namespace ShiftReduce

/-! ## Registers -/

/-- A number as it is kept. -/
abbrev Key := UInt16

structure Record (α : Type) where
  id : Key
  value : α
  deriving DecidableEq, Repr

/-- Records under their keys, in the order in which the keys came in. -/
abbrev Register (α : Type) := List (Key × Record α)

namespace Register

variable {α : Type}

/-- Puts a record under a key. A key that is there keeps its place, a new one
comes last. -/
def put (key : Key) (record : Record α) : Register α → Register α
  | [] => [(key, record)]
  | entry :: entries =>
    if entry.1 = key then (key, record) :: entries else entry :: put key record entries

def contains (entries : Register α) (key : Key) : Bool :=
  entries.any (·.1 == key)

/-- Puts all records of another register under their keys. -/
def extend (entries others : Register α) : Register α :=
  others.foldl (fun entries other => put other.1 other.2 entries) entries

/-- Values numbered from `first` on. -/
def numbered (first : Nat) : List α → Register α
  | [] => []
  | value :: values => (.ofNat first, ⟨.ofNat first, value⟩) :: numbered (first + 1) values

end Register

/-- The next key, unless there is none. -/
def Key.next? (key : Key) : Option Key :=
  if key = 65535 then none else some (key + 1)

/-! ## Symbols and rules by their keys -/

inductive SymbolKey
  | terminal (id : Key)
  | nonterminal (id : Key)
  deriving DecidableEq, Repr

structure KeyedRule where
  left : Key
  right : List SymbolKey
  deriving DecidableEq, Repr

def SymbolKey.symbol : SymbolKey → Symbol
  | .terminal t => .terminal t.toNat
  | .nonterminal n => .nonterminal n.toNat

def Symbol.key : Symbol → SymbolKey
  | .terminal t => .terminal (.ofNat t)
  | .nonterminal n => .nonterminal (.ofNat n)

def Rule.keyed (rule : Rule) : KeyedRule :=
  ⟨.ofNat rule.left, rule.right.map Symbol.key⟩

@[simp]
theorem SymbolKey.key_symbol (s : SymbolKey) : s.symbol.key = s := by
  cases s <;> simp [symbol, Symbol.key]

/-! ## Ledgers -/

structure Ledger where
  terminals : Register String
  nonterminals : Register String
  rules : Register KeyedRule
  start : Option Key
  nextTerminal : Key
  nextNonterminal : Key
  nextRule : Key

/-- A course of calls. What a call has written stays when it fails. -/
abbrev Bookkeeping := ExceptT DefinitionError (StateM Ledger)

namespace Ledger

/-- The ledger to begin with. -/
def opened : Ledger where
  terminals := [(0, ⟨0, endMarkerName⟩)]
  nonterminals := [(0, ⟨0, ""⟩)]
  rules := []
  start := none
  nextTerminal := 1
  nextNonterminal := 1
  nextRule := 1

def names (l : Ledger) : List String :=
  l.terminals.map (·.2.value) ++ l.nonterminals.map (·.2.value)

def require (condition : Bool) (fault : DefinitionError) : Bookkeeping Unit :=
  if condition then pure () else throw fault

def verifyName (name : String) : Bookkeeping Unit := do
  require (isWord name) (.malformedName name)
  require (!isReservedName name) (.reservedName name)
  require (!(← get).names.contains name) (.declaredName name)

/-- The key after the given one; the fault, if there is none. -/
def following (key : Key) (fault : DefinitionError) : Bookkeeping Key :=
  match key.next? with
  | some next => pure next
  | none => throw fault

/-- Whether a rule may use a symbol. -/
def knows (l : Ledger) : SymbolKey → Bool
  | .terminal t => t != 0 && l.terminals.contains t
  | .nonterminal n => n != 0 && l.nonterminals.contains n

def terminal (name : String) : Bookkeeping Key := do
  verifyName name
  let id := (← get).nextTerminal
  let next ← following id .tooManyTerminals
  modify fun l => { l with nextTerminal := next }
  modify fun l => { l with terminals := l.terminals.put id ⟨id, name⟩ }
  return id

def nonterminal (name : String) : Bookkeeping Key := do
  verifyName name
  let id := (← get).nextNonterminal
  let next ← following id .tooManyNonterminals
  modify fun l => { l with nextNonterminal := next }
  modify fun l => { l with nonterminals := l.nonterminals.put id ⟨id, name⟩ }
  return id

def rule (left : Key) (right : List SymbolKey) : Bookkeeping Key := do
  require ((← get).knows (.nonterminal left)) .unknownLeft
  require (right.all (← get).knows) .unknownRight
  let id := (← get).nextRule
  let next ← following id .tooManyRules
  modify fun l => { l with nextRule := next }
  modify fun l => { l with rules := l.rules.put id ⟨id, ⟨left, right⟩⟩ }
  return id

def startSymbol (n : Key) : Bookkeeping Unit := do
  require ((← get).knows (.nonterminal n)) .unknownStart
  modify fun l => { l with start := some n }

end Ledger

/-! ## Calls -/

inductive Call
  | terminal (name : String)
  | nonterminal (name : String)
  | rule (left : Key) (right : List SymbolKey)
  | start (n : Key)
  deriving DecidableEq, Repr

def Call.declaration : Call → Declaration
  | .terminal name => .terminal name
  | .nonterminal name => .nonterminal name
  | .rule left right => .rule left.toNat (right.map SymbolKey.symbol)
  | .start n => .start n.toNat

/-- Makes a call. The answer is the key of what has been declared. -/
def Call.make : Call → Bookkeeping (Option Key)
  | .terminal name => some <$> Ledger.terminal name
  | .nonterminal name => some <$> Ledger.nonterminal name
  | .rule left right => some <$> Ledger.rule left right
  | .start n => (fun _ => none) <$> Ledger.startSymbol n

/-- Makes calls in turn, whether or not the ones before have failed. -/
def Ledger.attempt (l : Ledger) :
    List Call → List (Except DefinitionError (Option Key)) × Ledger
  | [] => ([], l)
  | call :: calls =>
    let made := call.make l
    let others := made.2.attempt calls
    (made.1 :: others.1, others.2)

/-! ## The finished grammar -/

/-- A grammar as it is kept. -/
structure KeyedGrammar where
  terminals : Register String
  nonterminals : Register String
  rules : Register KeyedRule
  start : Key
  deriving DecidableEq, Repr

/-- The grammar that a ledger ends in. There is no answer if a record is looked up
that is not on the books. -/
def Ledger.finish? (l : Ledger) : Option (Except DefinitionError KeyedGrammar) :=
  match l.start.or (l.rules.head?.map (·.2.value.left)) with
  | none => some (.error .noRules)
  | some start =>
    if l.rules.isEmpty then some (.error .noRules)
    else do
      let declared ← l.nonterminals.lookup start
      let first ← l.nonterminals.lookup 0
      let augmented := { first with value := primed l.names declared.value }
      some (.ok {
        terminals := l.terminals
        nonterminals := l.nonterminals.put 0 augmented
        rules := Register.extend [(0, ⟨0, ⟨0, [.nonterminal start]⟩⟩)] l.rules
        start := start })

/-- The grammar as it is kept. -/
def Grammar.keyed (g : Grammar) : KeyedGrammar where
  terminals := .numbered 0 g.terminals.toList
  nonterminals := .numbered 0 g.nonterminals.toList
  rules := .numbered 0 (g.rules.toList.map Rule.keyed)
  start := .ofNat g.start

/-- The draft as it is kept. -/
def Draft.ledger (d : Draft) : Ledger where
  terminals := .numbered 0 (endMarkerName :: d.terminals.toList)
  nonterminals := .numbered 0 ("" :: d.nonterminals.toList)
  rules := .numbered 1 (d.rules.toList.map Rule.keyed)
  start := d.start.map UInt16.ofNat
  nextTerminal := .ofNat (d.terminals.size + 1)
  nextNonterminal := .ofNat (d.nonterminals.size + 1)
  nextRule := .ofNat (d.rules.size + 1)

end ShiftReduce
