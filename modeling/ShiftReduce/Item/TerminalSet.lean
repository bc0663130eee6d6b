import ShiftReduce.Grammar.Ledger
import ShiftReduce.OrdSet.Basic

/-!
# Sets of terminals as they are kept

A set of terminals is kept in a set of bits, as the numbers of their keys. Sets of bits are left
open here: `BitSet` lists what is done with one and `LawfulBitSet` what is known of it. That a set
of bits is determined by its elements is not known, since it may have room for larger ones. So sets
of terminals are compared and hashed by their elements, in ascending order.

`TerminalSet.terminals` is the set of terminals that is meant.
-/

namespace ShiftReduce

/-! ## Sets of bits -/

class BitSet (β : Type) where
  empty : β
  contains : β → Nat → Bool
  /-- Adds a number, and says whether it is new. -/
  insert : Nat → β → Bool × β
  union : β → β → β
  isSubset : β → β → Bool
  isEmpty : β → Bool
  size : β → Nat
  toList : β → List Nat
  ofList : List Nat → β

/-- A set of bits is a finite set of numbers, listed in ascending order. -/
class LawfulBitSet (β : Type) [BitSet β] : Prop where
  increasing (b : β) : (BitSet.toList b).Pairwise (· < ·)
  contains_iff (b : β) (n : Nat) : BitSet.contains b n = true ↔ n ∈ BitSet.toList b
  toList_empty : BitSet.toList (BitSet.empty : β) = []
  mem_insert (b : β) (n m : Nat) :
    m ∈ BitSet.toList (BitSet.insert n b).2 ↔ m = n ∨ m ∈ BitSet.toList b
  insert_new_iff (b : β) (n : Nat) : (BitSet.insert n b).1 = true ↔ n ∉ BitSet.toList b
  mem_union (b c : β) (n : Nat) :
    n ∈ BitSet.toList (BitSet.union b c) ↔ n ∈ BitSet.toList b ∨ n ∈ BitSet.toList c
  isSubset_iff (b c : β) :
    BitSet.isSubset b c = true ↔ ∀ n ∈ BitSet.toList b, n ∈ BitSet.toList c
  isEmpty_iff (b : β) : BitSet.isEmpty b = true ↔ BitSet.toList b = []
  size_eq (b : β) : BitSet.size b = (BitSet.toList b).length
  mem_ofList (l : List Nat) (n : Nat) : n ∈ BitSet.toList (BitSet.ofList l : β) ↔ n ∈ l

/-! ## What is hashed -/

/-- What a hash is worked out from: numbers of symbols and rules, and sizes. -/
inductive HashWord
  | number (n : Nat)
  | size (n : Nat)
  deriving DecidableEq, Repr

/-- Whether two courses of words come to the same hash, however words are hashed. -/
def HashAlike (words words' : List HashWord) : Prop :=
  ∀ (σ : Type) (write : σ → HashWord → σ) (start : σ),
    words.foldl write start = words'.foldl write start

/-- One way to hash is to write down the words. -/
theorem hashAlike_iff {words words' : List HashWord} : HashAlike words words' ↔ words = words' := by
  refine ⟨fun h => ?_, fun h => ?_⟩
  · have hWritten : ∀ words start : List HashWord,
        words.foldl (fun written word => written ++ [word]) start = start ++ words := by
      intro words
      induction words with
      | nil => simp
      | cons word words ih => exact fun start => by rw [List.foldl_cons, ih]; simp
    have hSame := h (List HashWord) (fun written word => written ++ [word]) []
    rwa [hWritten, hWritten] at hSame
  · rw [h]
    exact fun _ _ _ => rfl

/-! ## Sets of terminals -/

/-- A set of bits in which only the numbers of keys are set. -/
structure TerminalSet (β : Type) [BitSet β] where
  bits : β
  bounded : ∀ n ∈ BitSet.toList bits, n < UInt16.size

namespace TerminalSet

variable {β : Type} [BitSet β]

/-- The elements in ascending order. The numbers are cut down to keys, which they are. -/
def toList (s : TerminalSet β) : List Key := (BitSet.toList s.bits).map UInt16.ofNat

/-- The set of terminals that is kept. -/
def terminals (s : TerminalSet β) : OrdSet Terminal := OrdSet.ofList (s.toList.map UInt16.toNat)

def contains (s : TerminalSet β) (t : Key) : Bool := BitSet.contains s.bits t.toNat

instance : Membership Key (TerminalSet β) := ⟨fun s t => s.contains t = true⟩

def isSubset (s t : TerminalSet β) : Bool := BitSet.isSubset s.bits t.bits

def isEmpty (s : TerminalSet β) : Bool := BitSet.isEmpty s.bits

def size (s : TerminalSet β) : Nat := BitSet.size s.bits

instance : BEq (TerminalSet β) := ⟨fun s t => s.toList == t.toList⟩

instance : Ord (TerminalSet β) := ⟨fun s t => compare s.toList t.toList⟩

def hashed (s : TerminalSet β) : List HashWord :=
  .size s.size :: s.toList.map fun t => .number t.toNat

variable [LawfulBitSet β]

def empty : TerminalSet β where
  bits := BitSet.empty
  bounded := by simp [LawfulBitSet.toList_empty]

/-- Adds an element, and says whether it is new. -/
def insert (t : Key) (s : TerminalSet β) : Bool × TerminalSet β :=
  ((BitSet.insert t.toNat s.bits).1,
    { bits := (BitSet.insert t.toNat s.bits).2
      bounded := by
        intro n hn
        rcases (LawfulBitSet.mem_insert _ _ _).mp hn with rfl | hn
        · exact t.toNat_lt
        · exact s.bounded n hn })

/-- Adds the elements of another set, and says whether the set has grown. -/
def union (s t : TerminalSet β) : Bool × TerminalSet β :=
  (BitSet.size (BitSet.union s.bits t.bits) != BitSet.size s.bits,
    { bits := BitSet.union s.bits t.bits
      bounded := by
        intro n hn
        rcases (LawfulBitSet.mem_union _ _ _).mp hn with hn | hn
        · exact s.bounded n hn
        · exact t.bounded n hn })

def ofList (l : List Key) : TerminalSet β where
  bits := BitSet.ofList (l.map UInt16.toNat)
  bounded := by
    intro n hn
    obtain ⟨t, _, rfl⟩ := List.mem_map.mp ((LawfulBitSet.mem_ofList _ _).mp hn)
    exact t.toNat_lt

/-- Adds elements one after the other. -/
def extend (s : TerminalSet β) (l : List Key) : TerminalSet β :=
  l.foldl (fun s t => (s.insert t).2) s

end TerminalSet

end ShiftReduce
