import ShiftReduce.Machine.Basic

/-!
# Tables given by their entries

A table whose states, terminals, nonterminals and rules are numbers, written
down entry by entry. Where two entries are for the same place, the later one
counts.
-/

namespace ShiftReduce

def lookupLast? {α β : Type} [DecidableEq α] (entries : List (α × β)) (key : α) : Option β :=
  entries.reverse.lookup key

/-- A table as lists of its entries. -/
structure ListedTable where
  initial : Nat
  actions : List ((Nat × Option Nat) × Action Nat Nat)
  gotos : List ((Nat × Nat) × Nat)
  productions : List (Nat × Nat × Nat)
  expected : List (Nat × List (Option Nat))

def ListedTable.lookups (table : ListedTable) : LookupTable Nat Nat Nat Nat where
  initial := table.initial
  action state lookahead := lookupLast? table.actions (state, lookahead)
  goto state nonterminal := lookupLast? table.gotos (state, nonterminal)
  production rule := lookupLast? table.productions rule
  expected state := (lookupLast? table.expected state).getD []

/-- A token that is its terminal, or stands for none. -/
structure NumberToken where
  terminal? : Option Nat
  deriving DecidableEq, Repr

instance : Token NumberToken Nat := ⟨NumberToken.terminal?⟩

end ShiftReduce
