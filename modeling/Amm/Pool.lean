import Amm.Pool.Composable.Build
import Amm.Pool.Composable.JoinExit
import Amm.Pool.Crypto.Build
import Amm.Pool.Crypto.Exchange
import Amm.Pool.Crypto.Liquidity
import Amm.Pool.Metapool
import Amm.Pool.Saddle
import Amm.Pool.SyncSwap

/-!
Pools of every kind and what all of them offer: quotes for swaps, and swaps, deposits and
withdrawals of one token that answer with the new pool. An operation that fails has no new pool, so
the old one stays as it is.
-/

namespace Amm

inductive Pool where
  | plain (pool : PlainPool)
  | lending (pool : LendingPool)
  | metapool (pool : Metapool)
  | crypto (pool : CryptoPool)
  | composable (pool : ComposablePool)
  | saddle (pool : SaddlePool)
  | syncSwap (pool : SyncSwapPool)
  deriving DecidableEq, Repr

namespace Pool

/-- Builds the pool of a snapshot. A metapool finds its base pool among `bases`. -/
def ofSnapshot (bases : BasePools) (snapshot : Snapshot) : Priced Pool :=
  match snapshot.kind with
  | .plain => Pool.plain <$> PlainPool.ofSnapshot snapshot
  | .lending => Pool.lending <$> LendingPool.ofSnapshot snapshot
  | .metapool => Pool.metapool <$> Metapool.ofSnapshot bases snapshot
  | .pair => Pool.crypto <$> CryptoPool.ofSnapshot .pair snapshot
  | .triple => Pool.crypto <$> CryptoPool.ofSnapshot .triple snapshot
  | .composable => Pool.composable <$> ComposablePool.ofSnapshot snapshot
  | .saddle => Pool.saddle <$> SaddlePool.ofSnapshot snapshot
  | .syncSwap => Pool.syncSwap <$> SyncSwapPool.ofSnapshot snapshot

/-- Builds all pools that can be built, in the order of their snapshots. Base pools are found
wherever they stand in the list. -/
def ofSnapshots (snapshots : List Snapshot) : List Pool :=
  let bases := BasePools.ofSnapshots snapshots
  snapshots.filterMap fun snapshot => (ofSnapshot bases snapshot).toOption

def address : Pool → Address
  | .plain pool => pool.address
  | .lending pool => pool.address
  | .metapool pool => pool.address
  | .crypto pool => pool.address
  | .composable pool => pool.address
  | .saddle pool => pool.address
  | .syncSwap pool => pool.address

def kind : Pool → Kind
  | .plain _ => .plain
  | .lending _ => .lending
  | .metapool _ => .metapool
  | .crypto pool =>
    match pool.layout with
    | .pair => .pair
    | .triple => .triple
  | .composable _ => .composable
  | .saddle _ => .saddle
  | .syncSwap _ => .syncSwap

/-- The tokens in the order of their reserves. -/
def tokens : Pool → List Address
  | .plain pool => pool.tokens
  | .lending pool => pool.tokens
  | .metapool pool => pool.tokens
  | .crypto pool => pool.tokens
  | .composable pool => pool.tokens
  | .saddle pool => pool.tokens
  | .syncSwap pool => pool.tokens

def reserves : Pool → List Int
  | .plain pool => pool.holdings.reserves
  | .lending pool => pool.holdings.reserves
  | .metapool pool => pool.holdings.reserves
  | .crypto pool => pool.reserves
  | .composable pool => pool.reserves
  | .saddle pool => pool.holdings.reserves
  | .syncSwap pool => pool.reserves

def tokenIndex? (pool : Pool) (token : Address) : Option Nat :=
  pool.tokens.idxOf? token

/-- The quote for an order. The pool does not change. -/
def quote (pool : Pool) (order : Order) (now : Time) : Priced Quote :=
  match pool with
  | .plain pool => pool.quote order now
  | .lending pool => pool.quote order now
  | .metapool pool => pool.quote order now
  | .crypto pool => pool.quote order now
  | .composable pool => pool.quote order
  | .saddle pool => pool.quote order now
  | .syncSwap pool => pool.quote order

def apply (pool : Pool) (update : Update) (now : Time) : Priced Pool :=
  match pool with
  | .plain pool => Pool.plain <$> pool.apply update now
  | .lending pool => Pool.lending <$> pool.apply update
  | .metapool pool => Pool.metapool <$> pool.apply update now
  | .crypto pool => Pool.crypto <$> pool.apply update now
  | .composable pool => Pool.composable <$> pool.apply update
  | .saddle pool => Pool.saddle <$> pool.apply update now
  | .syncSwap pool => Pool.syncSwap <$> pool.apply update

def deposit (pool : Pool) (amounts : List Int) (now : Time) : Priced (Int × Pool) :=
  match pool with
  | .plain pool => Prod.map id Pool.plain <$> pool.deposit amounts now
  | .lending pool => Prod.map id Pool.lending <$> pool.deposit amounts now
  | .metapool pool => Prod.map id Pool.metapool <$> pool.deposit amounts now
  | .crypto pool => Prod.map id Pool.crypto <$> pool.deposit amounts now
  | .composable pool => Prod.map id Pool.composable <$> pool.deposit amounts
  | .saddle pool => Prod.map id Pool.saddle <$> pool.deposit amounts now
  | .syncSwap pool => Prod.map id Pool.syncSwap <$> pool.deposit amounts

def withdraw (pool : Pool) (shares : Int) (index : Nat) (now : Time) :
    Priced (Stable.Withdrawal × Pool) :=
  match pool with
  | .plain pool => Prod.map id Pool.plain <$> pool.withdraw shares index now
  | .lending pool => Prod.map id Pool.lending <$> pool.withdraw shares index now
  | .metapool pool => Prod.map id Pool.metapool <$> pool.withdraw shares index now
  | .crypto pool => Prod.map id Pool.crypto <$> pool.withdraw shares index now
  | .composable pool => Prod.map id Pool.composable <$> pool.withdraw shares index
  | .saddle pool => Prod.map id Pool.saddle <$> pool.withdraw shares index now
  | .syncSwap pool => Prod.map id Pool.syncSwap <$> pool.withdraw shares index

def virtualPrice (pool : Pool) (now : Time) : Priced Int :=
  match pool with
  | .plain pool => pool.virtualPrice now
  | .lending pool => pool.virtualPrice now
  | .metapool pool => pool.virtualPrice now
  | .crypto pool => pool.currentVirtualPrice
  | .composable pool => pool.virtualPrice
  | .saddle pool => pool.virtualPrice now
  | .syncSwap pool => pool.virtualPrice

end Pool
end Amm
