/-!
# Ranges of characters
-/

namespace ShiftReduce.Text

/-- The characters whose code points lie between two bounds, both included. -/
structure CharRange where
  first : Nat
  last : Nat

def CharRange.holds (r : CharRange) (c : Char) : Bool :=
  r.first ≤ c.toNat && c.toNat ≤ r.last

end ShiftReduce.Text
