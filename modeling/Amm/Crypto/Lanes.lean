/-!
Several values in one word. Value `k` has the bits from `128 k` up to `128 k + 128`, its lane. Words
are integers of unbounded width in two's complement, so a negative word has ones above its lanes.
-/

namespace Amm
namespace Lanes

def size : Int :=
  Int.pow 2 128

/-- The bits of the first number that the second one lacks. -/
def without (a b : Nat) : Nat :=
  a ^^^ (a &&& b)

def union : Int → Int → Int
  | .ofNat a, .ofNat b => .ofNat (a ||| b)
  | .ofNat a, .negSucc b => .negSucc (without b a)
  | .negSucc a, .ofNat b => .negSucc (without a b)
  | .negSucc a, .negSucc b => .negSucc (a &&& b)

/-- One word for all values. A value that does not fit its lane sets bits of the lanes above. -/
def pack (values : List Int) : Int :=
  values.foldr (fun value word => union (word * size) value) 0

/-- The values in the first lanes. -/
def unpack (word : Int) : (count : Nat) → List Int
  | 0 => []
  | count + 1 => word % size :: unpack (word / size) count

end Lanes
end Amm
