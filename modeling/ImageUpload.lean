import ImageUpload.App
import ImageUpload.Bytes.Base64
import ImageUpload.Bytes.Hex
import ImageUpload.Bytes.Overwrite
import ImageUpload.Bytes.Sparse
import ImageUpload.Config.Basic
import ImageUpload.Config.Text
import ImageUpload.Digest.Sha256
import ImageUpload.Disk.Basic
import ImageUpload.Disk.FileTree
import ImageUpload.Disk.OpenFile
import ImageUpload.Disk.Path
import ImageUpload.Disk.Step
import ImageUpload.Display
import ImageUpload.Json.Number
import ImageUpload.Json.Plain
import ImageUpload.Json.Quoted
import ImageUpload.Json.Reader
import ImageUpload.Json.Record
import ImageUpload.Json.Symbol
import ImageUpload.Json.Token
import ImageUpload.Json.Value
import ImageUpload.Json.Writer
import ImageUpload.Layout
import ImageUpload.Layout.Words
import ImageUpload.Main
import ImageUpload.Metadata.Basic
import ImageUpload.Metadata.Entry
import ImageUpload.Metadata.Map
import ImageUpload.Number.Binary
import ImageUpload.Number.FixedPlaces
import ImageUpload.Number.Natural
import ImageUpload.Number.Rounding
import ImageUpload.Number.Word
import ImageUpload.Plan
import ImageUpload.Pool.Basic
import ImageUpload.Pool.Request
import ImageUpload.Pool.Script
import ImageUpload.Pool.Timeline
import ImageUpload.Progress.Estimator
import ImageUpload.Progress.Record
import ImageUpload.Progress.Ring
import ImageUpload.Progress.Throughput
import ImageUpload.Progress.Ticker
import ImageUpload.Proofs.Base64
import ImageUpload.Proofs.Bytes
import ImageUpload.Proofs.Disk.FileTree
import ImageUpload.Proofs.Disk.Run
import ImageUpload.Proofs.Disk.Standing
import ImageUpload.Proofs.Disk.Undisturbed
import ImageUpload.Proofs.Failing
import ImageUpload.Proofs.Json.Document
import ImageUpload.Proofs.Json.Quoted
import ImageUpload.Proofs.Json.Token
import ImageUpload.Proofs.Layout
import ImageUpload.Proofs.Locate
import ImageUpload.Proofs.Metadata
import ImageUpload.Proofs.NonZero
import ImageUpload.Proofs.Partition
import ImageUpload.Proofs.Plan
import ImageUpload.Proofs.Pool.Account
import ImageUpload.Proofs.Pool.Action
import ImageUpload.Proofs.Pool.Alone
import ImageUpload.Proofs.Pool.Bounds
import ImageUpload.Proofs.Pool.Death
import ImageUpload.Proofs.Pool.Effort
import ImageUpload.Proofs.Pool.Fate
import ImageUpload.Proofs.Pool.Record
import ImageUpload.Proofs.Pool.Report
import ImageUpload.Proofs.Pool.Serial
import ImageUpload.Proofs.Pool.Staff
import ImageUpload.Proofs.Pool.TearDown
import ImageUpload.Proofs.Pool.Verdict
import ImageUpload.Proofs.Prepare
import ImageUpload.Proofs.Progress
import ImageUpload.Proofs.RangeSet.Canonical
import ImageUpload.Proofs.RangeSet.Carve
import ImageUpload.Proofs.RangeSet.Covers
import ImageUpload.Proofs.RangeSet.History
import ImageUpload.Proofs.RangeSet.InPlace
import ImageUpload.Proofs.RangeSet.Insert
import ImageUpload.Proofs.RangeSet.Length
import ImageUpload.Proofs.RangeSet.Text
import ImageUpload.Proofs.Reading
import ImageUpload.Proofs.Resume
import ImageUpload.Proofs.Retry
import ImageUpload.Proofs.Session.Abort
import ImageUpload.Proofs.Session.Attribution
import ImageUpload.Proofs.Session.Closing
import ImageUpload.Proofs.Session.Count
import ImageUpload.Proofs.Session.Delivery
import ImageUpload.Proofs.Session.Disturbed
import ImageUpload.Proofs.Session.Drive
import ImageUpload.Proofs.Session.Ending
import ImageUpload.Proofs.Session.Exact
import ImageUpload.Proofs.Session.Intact
import ImageUpload.Proofs.Session.Landing
import ImageUpload.Proofs.Session.Ledger
import ImageUpload.Proofs.Session.Loss
import ImageUpload.Proofs.Session.Phase
import ImageUpload.Proofs.Session.Script
import ImageUpload.Proofs.Session.Smooth
import ImageUpload.Proofs.Session.Step
import ImageUpload.Proofs.Session.Success
import ImageUpload.Proofs.Session.Work
import ImageUpload.Proofs.Store.Alike
import ImageUpload.Proofs.Store.Atomic
import ImageUpload.Proofs.Store.Claims
import ImageUpload.Proofs.Store.Directory
import ImageUpload.Proofs.Store.Disturbed
import ImageUpload.Proofs.Store.Listing
import ImageUpload.Proofs.Store.Memory
import ImageUpload.Proofs.Store.Object
import ImageUpload.Proofs.Store.Sidecar
import ImageUpload.Proofs.Store.Undisturbed
import ImageUpload.Proofs.Stream
import ImageUpload.Proofs.Sync
import ImageUpload.Proofs.Throughput
import ImageUpload.Proofs.Time.Date
import ImageUpload.Proofs.Time.Rfc3339
import ImageUpload.Proofs.Word
import ImageUpload.Range.Basic
import ImageUpload.Range.Text
import ImageUpload.RangeSet.Basic
import ImageUpload.RangeSet.Text
import ImageUpload.RangeSet.Words
import ImageUpload.Retry
import ImageUpload.Session.Basic
import ImageUpload.Session.Error
import ImageUpload.Session.Event
import ImageUpload.Session.Options
import ImageUpload.Session.Schedule
import ImageUpload.Session.Sync
import ImageUpload.Session.Upload
import ImageUpload.Source.Basic
import ImageUpload.Source.Digest
import ImageUpload.Source.Reading
import ImageUpload.Source.Stream
import ImageUpload.Store.Basic
import ImageUpload.Store.Directory
import ImageUpload.Store.Disturbed
import ImageUpload.Store.Error
import ImageUpload.Store.Memory
import ImageUpload.Store.Recorded
import ImageUpload.Store.Sidecar
import ImageUpload.Text.Blank
import ImageUpload.Text.Printable
import ImageUpload.Time.Date
import ImageUpload.Time.Duration
import ImageUpload.Time.Instant
import ImageUpload.Time.Rfc3339
import ImageUpload.Toml.Document
import ImageUpload.Toml.Quoted
import ImageUpload.Toml.Scalar
import ImageUpload.TransferError
