import PoolLedger.Apr
import PoolLedger.Ascending
import PoolLedger.Asset
import PoolLedger.Base64
import PoolLedger.Bucket
import PoolLedger.Candle
import PoolLedger.Config
import PoolLedger.Curated
import PoolLedger.Discovery
import PoolLedger.Distinct
import PoolLedger.Error
import PoolLedger.Event
import PoolLedger.Extraction
import PoolLedger.Instant
import PoolLedger.Json
import PoolLedger.Json.Number
import PoolLedger.Json.Reader
import PoolLedger.Json.Shape
import PoolLedger.Json.Token
import PoolLedger.Json.Writer
import PoolLedger.Log
import PoolLedger.Message
import PoolLedger.Node.Basic
import PoolLedger.Node.Contract
import PoolLedger.Node.Search
import PoolLedger.Pair
import PoolLedger.Price
import PoolLedger.Proofs.Answers
import PoolLedger.Proofs.Arithmetic
import PoolLedger.Proofs.Ascending
import PoolLedger.Proofs.Asking
import PoolLedger.Proofs.Assets
import PoolLedger.Proofs.Base64
import PoolLedger.Proofs.CandleTable
import PoolLedger.Proofs.Chain
import PoolLedger.Proofs.ChainOrder
import PoolLedger.Proofs.Coins
import PoolLedger.Proofs.Distinct
import PoolLedger.Proofs.Emitters
import PoolLedger.Proofs.Endings
import PoolLedger.Proofs.Executions
import PoolLedger.Proofs.Extraction
import PoolLedger.Proofs.Fee
import PoolLedger.Proofs.Filing
import PoolLedger.Proofs.Grammar
import PoolLedger.Proofs.Groups
import PoolLedger.Proofs.History
import PoolLedger.Proofs.Hops
import PoolLedger.Proofs.Identity
import PoolLedger.Proofs.Ingestion
import PoolLedger.Proofs.Interference
import PoolLedger.Proofs.Json.RoundTrip
import PoolLedger.Proofs.Keys
import PoolLedger.Proofs.LastReports
import PoolLedger.Proofs.Messages
import PoolLedger.Proofs.Movements
import PoolLedger.Proofs.Node.BlockTimes
import PoolLedger.Proofs.Node.Course
import PoolLedger.Proofs.Node.Fetching
import PoolLedger.Proofs.Node.Listing
import PoolLedger.Proofs.Node.Paging
import PoolLedger.Proofs.Node.Shortfall
import PoolLedger.Proofs.Node.Tiling
import PoolLedger.Proofs.Orderly
import PoolLedger.Proofs.Orientation
import PoolLedger.Proofs.Overflow
import PoolLedger.Proofs.Pass
import PoolLedger.Proofs.PoolQuestions
import PoolLedger.Proofs.PoolTable
import PoolLedger.Proofs.Redelivery
import PoolLedger.Proofs.Renewal
import PoolLedger.Proofs.Reordering
import PoolLedger.Proofs.Replay
import PoolLedger.Proofs.Reporting
import PoolLedger.Proofs.Rising
import PoolLedger.Proofs.RunningReserves
import PoolLedger.Proofs.Runs
import PoolLedger.Proofs.Seeds
import PoolLedger.Proofs.Segmentation
import PoolLedger.Proofs.Selectivity
import PoolLedger.Proofs.Series
import PoolLedger.Proofs.ShareRounding
import PoolLedger.Proofs.StableSort
import PoolLedger.Proofs.Store.Merge
import PoolLedger.Proofs.Store.Persist
import PoolLedger.Proofs.Store.Readable
import PoolLedger.Proofs.Store.Record
import PoolLedger.Proofs.Store.Retrieval
import PoolLedger.Proofs.Store.Table
import PoolLedger.Proofs.Store.Transaction
import PoolLedger.Proofs.Traverse
import PoolLedger.Proofs.Volumes
import PoolLedger.Proofs.Wire
import PoolLedger.Proofs.Yield
import PoolLedger.Proofs.YieldInputs
import PoolLedger.Proofs.YieldTable
import PoolLedger.Query
import PoolLedger.Ranged
import PoolLedger.Real.Basic
import PoolLedger.Real.Shortest
import PoolLedger.Reserves
import PoolLedger.Segment
import PoolLedger.Snapshot
import PoolLedger.SocketAddress
import PoolLedger.Store.Basic
import PoolLedger.Store.Reading
import PoolLedger.Store.Record
import PoolLedger.Store.Schema
import PoolLedger.Sync
import PoolLedger.Text.Blank
import PoolLedger.Text.Integer
import PoolLedger.Text.Quoted
import PoolLedger.Transaction
import PoolLedger.Web.Api
import PoolLedger.Web.Target
import PoolLedger.Wire
