/-!
The kinds of pools and their written names.
-/

namespace Amm

inductive Kind where
  | plain
  | lending
  | metapool
  | pair
  | triple
  | composable
  | saddle
  | syncSwap
  deriving DecidableEq, Repr

namespace Kind

def all : List Kind :=
  [.plain, .lending, .metapool, .pair, .triple, .composable, .saddle, .syncSwap]

def name : Kind → String
  | .plain => "curve-base"
  | .lending => "curve-aave"
  | .metapool => "curve-meta"
  | .pair => "curve-two"
  | .triple => "curve-tricrypto"
  | .composable => "balancer-v2-composable-stable"
  | .saddle => "saddle"
  | .syncSwap => "syncswap-stable"

/-- The kind with exactly the given name. -/
def ofName? (text : String) : Option Kind :=
  all.find? fun kind => kind.name = text

/-- What is said of a name that belongs to no kind. -/
def unknownMessage : String :=
  "Matching variant not found"

end Kind
end Amm
