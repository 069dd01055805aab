import Amm.Main
import Amm.Proofs.Crypto.Withdrawal
import Amm.Proofs.Stable.Solvency
import Amm.Proofs.Stable.Solver
import Amm.Proofs.Stable.Swap
import Amm.Proofs.Crypto.Lanes
import Amm.Proofs.Crypto.Operation
import Amm.Proofs.Crypto.Repeg
import Amm.Proofs.Crypto.FirstCoin
import Amm.Proofs.Stable.Underlying
import Amm.Proofs.Crypto.Ramping
import Amm.Proofs.Composable.Moves
import Amm.Proofs.Composable.Supply
import Amm.Proofs.Equation
import Amm.Proofs.Stable.Accuracy
import Amm.Proofs.Stable.Completion
import Amm.Proofs.Stable.Retention
import Amm.Proofs.Composable.Surplus
import Amm.Proofs.Composable.RoundTrip
import Amm.Proofs.Crypto.Solvency
import Amm.Proofs.Booked
import Amm.Proofs.Composable.Rates
import Amm.Proofs.Composable.Passages
import Amm.Proofs.Crypto.Average
import Amm.Proofs.Crypto.KeptPrices
import Amm.Proofs.Stable.Shortage
import Amm.Proofs.Stable.RoundTrip
import Amm.Proofs.Agreement
import Amm.Proofs.Crypto.RampMark
import Amm.Proofs.Quoting.Lines
import Amm.Proofs.Aborts
import Amm.Proofs.Stable.Aborts
import Amm.Proofs.Stable.OffPeg
import Amm.Proofs.Calls
import Amm.Proofs.Crypto.Aborts
import Amm.Proofs.Crypto.Requests
import Amm.Proofs.Deposits
import Amm.Proofs.SyncSwap.Shares
import Amm.Proofs.Quoting.Independence
import Amm.Proofs.Market
import Amm.Proofs.Quadratic
import Amm.Proofs.ExactBalance
import Amm.Proofs.Stable.Root
import Amm.Proofs.Composable.Root
import Amm.Proofs.Stable.Withdrawal
import Amm.Proofs.Crypto.SquareRoot
import Amm.Proofs.Stable.Convergence
import Amm.Proofs.Composable.Ownership
import Amm.Proofs.Crypto.ScaleStep
import Amm.Proofs.Balanced
import Amm.Proofs.SplitMean
import Amm.Proofs.Stable.ProductTerm
import Amm.Proofs.Stable.SumBound
import Amm.Proofs.Stable.NextStep
import Amm.Proofs.Crypto.FeeRange
import Amm.Proofs.Crypto.CoinOrder
import Amm.Proofs.Ramp
import Amm.Proofs.Stable.CreditedSwap
import Amm.Proofs.SyncSwap.Payouts
import Amm.Proofs.Stable.DynamicFee
import Amm.Proofs.Composable.Fees
import Amm.Proofs.Stable.TokenIndices
import Amm.Proofs.Composable.Exemptions
import Amm.Proofs.Text.Amount
import Amm.Proofs.Composable.Directions
import Amm.Proofs.Enclosure
import Amm.Proofs.Composable.Lookups
