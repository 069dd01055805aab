import Amm.Failure

/-!
Integer iterations toward a fixed point, with a bounded number of steps.
-/

namespace Amm
namespace Newton

/-- Repeats a step until it says that the iteration may end at its value. After the last step the
iteration is refused for the given cause. -/
def run (next : Int → Priced (Int × Bool)) (cause : PoolError) : (steps : Nat) → Int → Priced Int
  | 0, _ => Priced.refuse cause
  | steps + 1, current => do
    let (value, ends) ← next current
    if ends then .ok value else run next cause steps value

/-- Repeats a step until two successive values are equal or neighbours. -/
def settle (next : Int → Priced Int) (cause : PoolError) (steps : Nat) (start : Int) : Priced Int :=
  run
    (fun current => do
      let value ← next current
      .ok (value, withinOne value current))
    cause steps start

end Newton
end Amm
