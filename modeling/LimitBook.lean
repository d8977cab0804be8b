import LimitBook.Arena
import LimitBook.Book
import LimitBook.Book.Session
import LimitBook.Config
import LimitBook.Config.Address
import LimitBook.Config.Host
import LimitBook.Config.Setting
import LimitBook.Depth.Table
import LimitBook.Feed.Client
import LimitBook.Feed.Connection
import LimitBook.Feed.Frame
import LimitBook.Feed.Reconciler
import LimitBook.Feed.Request
import LimitBook.Feed.Timers
import LimitBook.Input.Issue
import LimitBook.Input.Numeric
import LimitBook.Input.Request
import LimitBook.Json
import LimitBook.Json.Printer
import LimitBook.Json.Reader
import LimitBook.Ladder
import LimitBook.Level
import LimitBook.Match
import LimitBook.Note
import LimitBook.Number.Binary
import LimitBook.Number.Digits
import LimitBook.Number.Format
import LimitBook.Number.Numeral
import LimitBook.Number.Power
import LimitBook.Order
import LimitBook.Proofs.Arena
import LimitBook.Proofs.Arena.Links
import LimitBook.Proofs.Arena.Run
import LimitBook.Proofs.Arena.Trade
import LimitBook.Proofs.Book.Abort
import LimitBook.Proofs.Book.Arrival
import LimitBook.Proofs.Book.Batch
import LimitBook.Proofs.Book.Call
import LimitBook.Proofs.Book.Cancel
import LimitBook.Proofs.Book.Conservation
import LimitBook.Proofs.Book.Counted
import LimitBook.Proofs.Book.Depth
import LimitBook.Proofs.Book.Effect
import LimitBook.Proofs.Book.Erasure
import LimitBook.Proofs.Book.Exchange
import LimitBook.Proofs.Book.Filed
import LimitBook.Proofs.Book.Fills
import LimitBook.Proofs.Book.Frame
import LimitBook.Proofs.Book.Header
import LimitBook.Proofs.Book.Journal
import LimitBook.Proofs.Book.Ledger
import LimitBook.Proofs.Book.Mirror
import LimitBook.Proofs.Book.Overwrite
import LimitBook.Proofs.Book.Priority
import LimitBook.Proofs.Book.Queue
import LimitBook.Proofs.Book.Reachable
import LimitBook.Proofs.Book.Reentry
import LimitBook.Proofs.Book.Run
import LimitBook.Proofs.Book.Settlement
import LimitBook.Proofs.Book.Sound
import LimitBook.Proofs.Book.Steps
import LimitBook.Proofs.Book.Submission
import LimitBook.Proofs.Book.Update
import LimitBook.Proofs.Book.Vacant
import LimitBook.Proofs.Config
import LimitBook.Proofs.Depth.Column
import LimitBook.Proofs.Feed.Amount
import LimitBook.Proofs.Feed.Client.Anchor
import LimitBook.Proofs.Feed.Client.Deed
import LimitBook.Proofs.Feed.Client.Resync
import LimitBook.Proofs.Feed.Client.Run
import LimitBook.Proofs.Feed.Client.Socket
import LimitBook.Proofs.Feed.Client.Speech
import LimitBook.Proofs.Feed.Client.Standing
import LimitBook.Proofs.Feed.Continuity
import LimitBook.Proofs.Feed.Effect
import LimitBook.Proofs.Feed.Frame
import LimitBook.Proofs.Feed.Intake
import LimitBook.Proofs.Feed.Journal
import LimitBook.Proofs.Feed.Mirror
import LimitBook.Proofs.Feed.Priority
import LimitBook.Proofs.Feed.Record
import LimitBook.Proofs.Feed.Request
import LimitBook.Proofs.Feed.Rejection
import LimitBook.Proofs.Feed.Residual
import LimitBook.Proofs.Feed.Tracker
import LimitBook.Proofs.Feed.Whole
import LimitBook.Proofs.Input.Id
import LimitBook.Proofs.Input.Range
import LimitBook.Proofs.Json.Grammar
import LimitBook.Proofs.Json.Number
import LimitBook.Proofs.Json.Numeral
import LimitBook.Proofs.Json.Printer
import LimitBook.Proofs.Json.Reader
import LimitBook.Proofs.Ladder
import LimitBook.Proofs.Ladder.Place
import LimitBook.Proofs.Ladder.Run
import LimitBook.Proofs.Ladder.Walk
import LimitBook.Proofs.Level
import LimitBook.Proofs.Match
import LimitBook.Proofs.Match.Greedy
import LimitBook.Proofs.Number.Decimal
import LimitBook.Proofs.Number.Order
import LimitBook.Proofs.Number.Shortest
import LimitBook.Proofs.Number.Size
import LimitBook.Proofs.Number.Value
import LimitBook.Proofs.Number.Width
import LimitBook.Proofs.Scalar
import LimitBook.Proofs.Scalar.Difference
import LimitBook.Proofs.Scalar.Double
import LimitBook.Proofs.Scalar.Rational
import LimitBook.Proofs.Scalar.Rounding
import LimitBook.Proofs.Server.Failure
import LimitBook.Proofs.Server.Hub
import LimitBook.Proofs.Server.Naming
import LimitBook.Proofs.Server.News
import LimitBook.Proofs.Server.Reply
import LimitBook.Proofs.Sweep
import LimitBook.Proofs.Sweep.Resolve
import LimitBook.Proofs.Sweep.Vacant
import LimitBook.Proofs.Sweep.Virtual
import LimitBook.Proofs.Text.Digits
import LimitBook.ReadyState
import LimitBook.Scalar
import LimitBook.Server.Hub
import LimitBook.Server.Request
import LimitBook.Server.Response
import LimitBook.Server.Target
import LimitBook.Sweep
import LimitBook.Text
import LimitBook.Text.Blank
import LimitBook.Text.Percent
import LimitBook.Text.Utf8
import LimitBook.Wire
