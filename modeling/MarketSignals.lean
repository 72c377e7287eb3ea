import MarketSignals.Alpha.Config
import MarketSignals.Alpha.Estimator
import MarketSignals.Batch.Columns
import MarketSignals.Batch.Reference
import MarketSignals.Batch.Run
import MarketSignals.Binning
import MarketSignals.ChiSquared
import MarketSignals.Decimal.Binary
import MarketSignals.Decimal.Digits
import MarketSignals.Decimal.Numeral
import MarketSignals.Divergence
import MarketSignals.Engine.Basic
import MarketSignals.Engine.Config
import MarketSignals.Error
import MarketSignals.Estimator
import MarketSignals.Garch.Estimator
import MarketSignals.Garch.Params
import MarketSignals.Histogram
import MarketSignals.Json.Codec
import MarketSignals.Json.Printer
import MarketSignals.Json.Reader
import MarketSignals.Json.Value
import MarketSignals.Main
import MarketSignals.Market.Event
import MarketSignals.OrderFlow.Book
import MarketSignals.OrderFlow.CompensatedSum
import MarketSignals.OrderFlow.Estimator
import MarketSignals.OrderFlow.Flow
import MarketSignals.Proofs.Alpha.Failure
import MarketSignals.Proofs.Alpha.Fields
import MarketSignals.Proofs.Alpha.Growth
import MarketSignals.Proofs.Alpha.Trades
import MarketSignals.Proofs.Alpha.WarmUp
import MarketSignals.Proofs.Batch.Cancellation
import MarketSignals.Proofs.Batch.Columns
import MarketSignals.Proofs.Batch.Packing
import MarketSignals.Proofs.Batch.Reference
import MarketSignals.Proofs.Batch.Rows
import MarketSignals.Proofs.Binning
import MarketSignals.Proofs.Binning.Order
import MarketSignals.Proofs.ChiSquared
import MarketSignals.Proofs.Decimal.Conversion
import MarketSignals.Proofs.Decimal.Layout
import MarketSignals.Proofs.Decimal.ReadBack
import MarketSignals.Proofs.Decimal.Rounding
import MarketSignals.Proofs.Decimal.Shortest
import MarketSignals.Proofs.Decimal.Words
import MarketSignals.Proofs.Divergence
import MarketSignals.Proofs.Divergence.Gibbs
import MarketSignals.Proofs.Engine.Loading
import MarketSignals.Proofs.Engine.Shutdown
import MarketSignals.Proofs.Exact
import MarketSignals.Proofs.Float.Arithmetic
import MarketSignals.Proofs.Float.Bounds
import MarketSignals.Proofs.Float.Infinite
import MarketSignals.Proofs.Float.Nearest
import MarketSignals.Proofs.Float.Negation
import MarketSignals.Proofs.Float.SquareRoot
import MarketSignals.Proofs.Float.Value
import MarketSignals.Proofs.Float.Whole
import MarketSignals.Proofs.Garch.Convergence
import MarketSignals.Proofs.Garch.Forecast
import MarketSignals.Proofs.Garch.Reach
import MarketSignals.Proofs.Garch.Recovery
import MarketSignals.Proofs.Garch.Ticks
import MarketSignals.Proofs.Garch.Variance
import MarketSignals.Proofs.Garch.Volatility
import MarketSignals.Proofs.Histogram
import MarketSignals.Proofs.Json.Data
import MarketSignals.Proofs.Json.Envelope
import MarketSignals.Proofs.Json.Laws
import MarketSignals.Proofs.Json.RoundTrip
import MarketSignals.Proofs.Json.Settings
import MarketSignals.Proofs.Json.Text
import MarketSignals.Proofs.OrderFlow.ClosedForm
import MarketSignals.Proofs.OrderFlow.Finite
import MarketSignals.Proofs.OrderFlow.Symmetry
import MarketSignals.Proofs.Outcome
import MarketSignals.Proofs.Regime.Bookkeeping
import MarketSignals.Proofs.Regime.History
import MarketSignals.Proofs.Regime.InStep
import MarketSignals.Proofs.Regime.Readings
import MarketSignals.Proofs.Regime.Reference
import MarketSignals.Proofs.Registry.Cell
import MarketSignals.Proofs.Registry.Changes
import MarketSignals.Proofs.Registry.Consistency
import MarketSignals.Proofs.Registry.Deletion
import MarketSignals.Proofs.Registry.Delivery
import MarketSignals.Proofs.Registry.Enrolment
import MarketSignals.Proofs.Registry.Failure
import MarketSignals.Proofs.Registry.Fields
import MarketSignals.Proofs.Registry.Generations
import MarketSignals.Proofs.Registry.Interruption
import MarketSignals.Proofs.Registry.Isolation
import MarketSignals.Proofs.Registry.LastOutput
import MarketSignals.Proofs.Registry.Lookup
import MarketSignals.Proofs.Registry.PanicIsolation
import MarketSignals.Proofs.Registry.Restart
import MarketSignals.Proofs.Registry.Run
import MarketSignals.Proofs.Registry.Sequence
import MarketSignals.Proofs.Registry.Tenure
import MarketSignals.Proofs.Registry.Turns
import MarketSignals.Proofs.Registry.WarmUp
import MarketSignals.Proofs.Registry.WellFormed
import MarketSignals.Proofs.Replay.Agreement
import MarketSignals.Proofs.Time
import MarketSignals.Regime.Config
import MarketSignals.Regime.Estimator
import MarketSignals.Regime.Window
import MarketSignals.Registry.Arena
import MarketSignals.Registry.Basic
import MarketSignals.Registry.Dispatch
import MarketSignals.Registry.Handle
import MarketSignals.Registry.Slot
import MarketSignals.Replay.Command
import MarketSignals.Replay.Files
import MarketSignals.Replay.Lines
import MarketSignals.Replay.Run
import MarketSignals.Response
import MarketSignals.Returns
import MarketSignals.Scalar
import MarketSignals.Scripted
import MarketSignals.Signal
import MarketSignals.Time
