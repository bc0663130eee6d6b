import ShiftReduce.Item.Closure
import ShiftReduce.Item.TerminalSet
import ShiftReduce.OrdMap

/-!
# Item sets as they are kept

The items of a set that share a core are kept together: under each core stands the set of its
lookaheads. Nothing in this keeps a core from standing there without a lookahead, which would make
sets with the same items differ; it is up to each of the operations not to leave one behind.

`StoredItems.items` is the item set that is meant. The loop of the closure is taken turn by turn, as
in `Worklist`.
-/

namespace ShiftReduce

/-- An item by the key of its lookahead. -/
@[ext]
structure KeyedItem where
  core : Core
  lookahead : Key
  deriving DecidableEq, Repr

def KeyedItem.item (i : KeyedItem) : Item := ⟨i.core, i.lookahead.toNat⟩

def Item.keyed (i : Item) : KeyedItem := ⟨i.core, .ofNat i.lookahead⟩

structure StoredItems (β : Type) [BitSet β] where
  map : OrdMap Core (TerminalSet β)

namespace StoredItems

variable {β : Type} [BitSet β]

/-! ## Looking at a set -/

def entries (s : StoredItems β) : List (Core × TerminalSet β) := s.map.entries

def lookaheads? (s : StoredItems β) (core : Core) : Option (TerminalSet β) := s.map.find? core

def contains (s : StoredItems β) (i : KeyedItem) : Bool :=
  (s.lookaheads? i.core).any fun ts => ts.contains i.lookahead

instance : Membership KeyedItem (StoredItems β) := ⟨fun s i => s.contains i = true⟩

def isEmpty (s : StoredItems β) : Bool := s.entries.isEmpty

/-- The number of items. -/
def size (s : StoredItems β) : Nat := s.entries.foldl (fun n e => n + e.2.size) 0

def toList (s : StoredItems β) : List KeyedItem :=
  s.entries.flatMap fun e => e.2.toList.map fun t => ⟨e.1, t⟩

def cores (s : StoredItems β) : OrdSet Core := OrdSet.ofList (s.entries.map fun e => e.1)

def isSubset (s t : StoredItems β) : Bool :=
  s.entries.all fun e => (t.lookaheads? e.1).any fun ts => e.2.isSubset ts

/-- The item set that is kept. -/
def items (s : StoredItems β) : ItemSet := OrdSet.ofList (s.toList.map KeyedItem.item)

instance : BEq (StoredItems β) := ⟨fun s t => s.entries == t.entries⟩

/-- Sets are compared entry by entry, cores first. -/
instance : Ord (StoredItems β) :=
  ⟨fun s t => List.compareLex (compareLex (compareOn Prod.fst) (compareOn Prod.snd))
    s.entries t.entries⟩

def hashed (s : StoredItems β) : List HashWord :=
  .size s.entries.length :: s.entries.flatMap fun e =>
    .number e.1.rule :: .size e.1.marker :: e.2.hashed

/-! ## Changing a set -/

variable [LawfulBitSet β]

def empty : StoredItems β := ⟨.empty⟩

/-- The lookaheads under a core, which has none if it is not there. -/
def lookaheads (s : StoredItems β) (core : Core) : TerminalSet β :=
  (s.lookaheads? core).getD .empty

/-- Adds an item, and says whether it is new. -/
def insert (i : KeyedItem) (s : StoredItems β) : Bool × StoredItems β :=
  let inserted := (s.lookaheads i.core).insert i.lookahead
  (inserted.1, ⟨s.map.put i.core inserted.2⟩)

/-- Adds a core with several lookaheads, and says whether the set has grown. Without a lookahead
nothing is added. -/
def insertAll (core : Core) (ts : TerminalSet β) (s : StoredItems β) : Bool × StoredItems β :=
  if ts.isEmpty then (false, s)
  else
    let united := (s.lookaheads core).union ts
    (united.1, ⟨s.map.put core united.2⟩)

/-- Adds entries one after the other, and says whether any of them has made the set grow. -/
def insertEntries (entries : List (Core × TerminalSet β)) (s : StoredItems β) :
    Bool × StoredItems β :=
  entries.foldl
    (fun now e =>
      let later := now.2.insertAll e.1 e.2
      (now.1 || later.1, later.2))
    (false, s)

def unionLookaheads (s other : StoredItems β) : Bool × StoredItems β :=
  s.insertEntries other.entries

def ofItems (l : List KeyedItem) : StoredItems β := l.foldl (fun s i => (s.insert i).2) empty

/-! ## Closure and goto -/

/-- A set, and those of its items that are still to be expanded. -/
structure Search (β : Type) [BitSet β] where
  found : StoredItems β
  waiting : List KeyedItem

def search (s : StoredItems β) : Search β := ⟨s, s.toList⟩

/-- Adds an item, which has to wait if it is new. -/
def Search.add (search : Search β) (i : KeyedItem) : Search β :=
  let inserted := search.found.insert i
  ⟨inserted.2, if inserted.1 then search.waiting ++ [i] else search.waiting⟩

/-- The items that an item predicts directly. An item that does not fit the grammar predicts none. -/
def predicts (g : Grammar) (F : FirstSets) (i : KeyedItem) : List KeyedItem :=
  (g.predicts F i.item).map Item.keyed

def Search.turn? (g : Grammar) (F : FirstSets) (search : Search β) : Option (Search β) :=
  match search.waiting with
  | [] => none
  | i :: rest => some ((predicts g F i).foldl Search.add ⟨search.found, rest⟩)

/-- What so many turns lead to. -/
def Search.turns? (g : Grammar) (F : FirstSets) : Nat → Search β → Option (Search β)
  | 0, search => some search
  | n + 1, search => (search.turn? g F).bind (turns? g F n)

/-- Whether the loop of the closure ends with a set. -/
def ClosesTo (g : Grammar) (F : FirstSets) (s closed : StoredItems β) : Prop :=
  ∃ n, s.search.turns? g F n = some ⟨closed, []⟩

/-- The entries with the marker moved over a symbol. -/
def kernel (g : Grammar) (s : StoredItems β) (symbol : Symbol) : StoredItems β :=
  s.entries.foldl
    (fun kernel e =>
      if e.1.next g = some symbol then (kernel.insertAll e.1.advance e.2).2 else kernel)
    empty

/-- Whether `goto` ends with a set. An empty kernel is not closed. -/
def GoesTo (g : Grammar) (F : FirstSets) (s : StoredItems β) (symbol : Symbol)
    (target : StoredItems β) : Prop :=
  if (s.kernel g symbol).isEmpty then target = s.kernel g symbol
  else (s.kernel g symbol).ClosesTo g F target

/-! ## Merging -/

/-- Sets under their cores, in the order in which the cores came up. -/
abbrev Groups (β : Type) [BitSet β] := List (OrdSet Core × StoredItems β)

/-- Puts a set to the one with the same cores, or last if there is none. -/
def Groups.add : Groups β → StoredItems β → Groups β
  | [], s => [(s.cores, s)]
  | group :: groups, s =>
    if group.1 = s.cores then (group.1, (group.2.unionLookaheads s).2) :: groups
    else group :: Groups.add groups s

/-- The sets that sets are merged into. -/
def merged (states : List (StoredItems β)) : List (StoredItems β) :=
  (states.foldl Groups.add []).map fun group => group.2

end StoredItems

end ShiftReduce
