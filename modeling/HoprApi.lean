import HoprApi.Chain.BatchOrder
import HoprApi.Chain.Builder
import HoprApi.Chain.DepositPool
import HoprApi.Chain.Selectors
import HoprApi.Graph.Acceptance
import HoprApi.Graph.AckRate
import HoprApi.Graph.Agreement
import HoprApi.Graph.Arithmetic
import HoprApi.Graph.Bounds
import HoprApi.Graph.Health
import HoprApi.Graph.Monotone
import HoprApi.Graph.Network
import HoprApi.Graph.Rejection
import HoprApi.Graph.Scores
import HoprApi.Graph.Shift
import HoprApi.Graph.Thresholds
import HoprApi.Lib.Parallel
import HoprApi.Node.ConcurrentOperations
import HoprApi.Node.Conservation
import HoprApi.Node.EventWaits
import HoprApi.Node.OperationOutcomes
import HoprApi.Node.Queries
import HoprApi.Node.Redeem
import HoprApi.Node.RedeemHistory
import HoprApi.Tickets.Ledger
import HoprApi.Tickets.Queues
import HoprApi.Tickets.Selection
