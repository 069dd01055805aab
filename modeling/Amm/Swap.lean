import Amm.Failure

/-!
What pools exchange with those who trade with them: a quote for a swap, and the update that a taken
quote makes to a pool.
-/

namespace Amm

/-- What the last join or exit of a composable pool left for the next one to measure growth from. -/
structure JoinExit where
  amplification : Int
  invariant : Int
  deriving DecidableEq, Repr

/-- All that is needed to apply a quoted swap. -/
structure Update where
  tokenIn : Address
  amountIn : Int
  tokenOut : Address
  amountOut : Int
  fee : Int
  joinExit : Option JoinExit
  deriving DecidableEq, Repr

structure Quote where
  amountOut : Int
  fee : Int
  feeToken : Address
  gas : Nat
  indexIn : Nat
  indexOut : Nat
  /-- Whether the indices count the underlying tokens. -/
  underlying : Bool
  update : Update
  deriving DecidableEq, Repr

/-- What a trader asks for: to sell an amount of one token for another. -/
structure Order where
  tokenIn : Address
  amountIn : Int
  tokenOut : Address
  deriving DecidableEq, Repr

/-- The quote of an amount out. A pool pays out something or refuses. -/
def Order.quote (order : Order) (amountOut fee : Int) (feeToken : Address) (gas : Nat)
    (indexIn indexOut : Nat) (underlying : Bool) (joinExit : Option JoinExit) : Priced Quote :=
  if 0 < amountOut then
    .ok ⟨amountOut, fee, feeToken, gas, indexIn, indexOut, underlying,
      ⟨order.tokenIn, order.amountIn, order.tokenOut, amountOut, fee, joinExit⟩⟩
  else Priced.refuse .insufficientOutput

/-- What a swap through a pool with a share token turns into. -/
inductive Route where
  | exchange (i j : Nat)
  | deposit (i : Nat)
  | withdraw (j : Nat)
  deriving DecidableEq, Repr

/-- The route between two tokens of a pool, one of which may be the share token. -/
def route (tokens : List Address) (shareToken tokenIn tokenOut : Address) : Priced Route :=
  match tokens.idxOf? tokenIn, tokens.idxOf? tokenOut with
  | some i, some j => .ok (.exchange i j)
  | some i, none => if tokenOut = shareToken then .ok (.deposit i) else Priced.refuse .tokenNotFound
  | none, some j => if tokenIn = shareToken then .ok (.withdraw j) else Priced.refuse .tokenNotFound
  | none, none => Priced.refuse .tokenNotFound

def singleAmount (n i : Nat) (amount : Int) : List Int :=
  (List.replicate n 0).set i amount

end Amm
