import Amm.Pool.Lending
import Amm.Pool.Plain

/-!
Base pools: the pools whose share token another pool may hold.
-/

namespace Amm

inductive BasePool where
  | plain (pool : PlainPool)
  | lending (pool : LendingPool)
  deriving DecidableEq, Repr

namespace BasePool

def ofSnapshot? (snapshot : Snapshot) : Option (Priced BasePool) :=
  match snapshot.kind with
  | .plain => some (BasePool.plain <$> PlainPool.ofSnapshot snapshot)
  | .lending => some (BasePool.lending <$> LendingPool.ofSnapshot snapshot)
  | _ => none

def address : BasePool → Address
  | .plain pool => pool.address
  | .lending pool => pool.address

def shareToken : BasePool → Address
  | .plain pool => pool.shareToken
  | .lending pool => pool.shareToken

def tokens : BasePool → List Address
  | .plain pool => pool.tokens
  | .lending pool => pool.tokens

def holdings : BasePool → Stable.Holdings
  | .plain pool => pool.holdings
  | .lending pool => pool.holdings

def virtualPrice (base : BasePool) (now : Time) : Priced Int :=
  match base with
  | .plain pool => pool.virtualPrice now
  | .lending pool => pool.virtualPrice now

/-- The shares for amounts; a pool of lent tokens prices them as a deposit in any case. -/
def sharesFor (base : BasePool) (amounts : List Int) (deposit : Bool) (now : Time) : Priced Int :=
  match base with
  | .plain pool => pool.sharesFor amounts deposit now
  | .lending pool => pool.sharesFor amounts now

def quoteExchange (base : BasePool) (i j : Nat) (dx : Int) (now : Time) : Priced (Int × Int) :=
  match base with
  | .plain pool => pool.quoteExchange i j dx now
  | .lending pool => pool.quoteExchange i j dx now

def withdrawalFor (base : BasePool) (shares : Int) (i : Nat) (now : Time) :
    Priced Stable.Withdrawal :=
  match base with
  | .plain pool => pool.withdrawalFor shares i now
  | .lending pool => pool.withdrawalFor shares i now

def deposit (base : BasePool) (amounts : List Int) (now : Time) : Priced (Int × BasePool) :=
  match base with
  | .plain pool => do
    let (minted, next) ← pool.deposit amounts now
    .ok (minted, .plain next)
  | .lending pool => do
    let (minted, next) ← pool.deposit amounts now
    .ok (minted, .lending next)

def withdraw (base : BasePool) (shares : Int) (i : Nat) (now : Time) :
    Priced (Stable.Withdrawal × BasePool) :=
  match base with
  | .plain pool => do
    let (withdrawal, next) ← pool.withdraw shares i now
    .ok (withdrawal, .plain next)
  | .lending pool => do
    let (withdrawal, next) ← pool.withdraw shares i now
    .ok (withdrawal, .lending next)

end BasePool

/-- The base pools at hand. -/
abbrev BasePools :=
  List (Address × BasePool)

namespace BasePools

/-- Adds a pool. Of two pools with one address the later one counts. -/
def insert (bases : BasePools) (base : BasePool) : BasePools :=
  (base.address, base) :: bases

def find? (bases : BasePools) (address : Address) : Option BasePool :=
  bases.lookup address

/-- The base pools among snapshots. A snapshot that does not build a pool adds none. -/
def ofSnapshots (snapshots : List Snapshot) : BasePools :=
  snapshots.foldl
    (fun bases snapshot =>
      match BasePool.ofSnapshot? snapshot with
      | some (.ok base) => bases.insert base
      | _ => bases)
    []

end BasePools
end Amm
