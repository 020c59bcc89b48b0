import ColumnStore.Attempt
import ColumnStore.Bytes.Basic
import ColumnStore.Bytes.Crc32
import ColumnStore.Bytes.Cursor
import ColumnStore.Bytes.Hex
import ColumnStore.Bytes.Utf8
import ColumnStore.Checkpoint.Manifest
import ColumnStore.Checkpoint.Metadata
import ColumnStore.Checkpoint.Store
import ColumnStore.Coding.Coder
import ColumnStore.Coding.Value
import ColumnStore.Compression.Codec
import ColumnStore.Compression.Lz4
import ColumnStore.Compression.Repeats
import ColumnStore.Compression.Scheme
import ColumnStore.Compression.Zstd
import ColumnStore.Database.Basic
import ColumnStore.Database.Checkpoint
import ColumnStore.Database.Commit
import ColumnStore.Database.Open
import ColumnStore.Database.Session
import ColumnStore.Decimal.Shortest
import ColumnStore.Disk.Blocks
import ColumnStore.Disk.Error
import ColumnStore.Disk.Files
import ColumnStore.Disk.Header
import ColumnStore.Failure
import ColumnStore.Ieee.Arithmetic
import ColumnStore.Ieee.Format
import ColumnStore.Ieee.Round
import ColumnStore.Log.Entry
import ColumnStore.Log.Error
import ColumnStore.Log.File
import ColumnStore.Log.Frame
import ColumnStore.Log.Replay
import ColumnStore.Number.Logarithm
import ColumnStore.Proofs.Attempts
import ColumnStore.Proofs.Checkpoint.Adopting
import ColumnStore.Proofs.Checkpoint.Files
import ColumnStore.Proofs.Checkpoint.Loading
import ColumnStore.Proofs.Checkpoint.Manifest
import ColumnStore.Proofs.Checkpoint.Metadata
import ColumnStore.Proofs.Checkpoint.Renumbering
import ColumnStore.Proofs.Checkpoint.Restoring
import ColumnStore.Proofs.Checkpoint.Writing
import ColumnStore.Proofs.Coding.Canonical
import ColumnStore.Proofs.Coding.ReadsBack
import ColumnStore.Proofs.Column.Appending
import ColumnStore.Proofs.Column.Bounds
import ColumnStore.Proofs.Column.Cutting
import ColumnStore.Proofs.Column.Growth
import ColumnStore.Proofs.Column.Refinement
import ColumnStore.Proofs.Column.Scanning
import ColumnStore.Proofs.Column.Segments
import ColumnStore.Proofs.Column.Values
import ColumnStore.Proofs.Database.Acting
import ColumnStore.Proofs.Database.Changes
import ColumnStore.Proofs.Database.Checkpointing
import ColumnStore.Proofs.Database.Chronicle
import ColumnStore.Proofs.Database.Commits
import ColumnStore.Proofs.Database.Committing
import ColumnStore.Proofs.Database.Conflicts
import ColumnStore.Proofs.Database.Contents
import ColumnStore.Proofs.Database.CrashSafety
import ColumnStore.Proofs.Database.Effects
import ColumnStore.Proofs.Database.Erasing
import ColumnStore.Proofs.Database.Following
import ColumnStore.Proofs.Database.Formed
import ColumnStore.Proofs.Database.Growing
import ColumnStore.Proofs.Database.Guarding
import ColumnStore.Proofs.Database.Halting
import ColumnStore.Proofs.Database.Histories
import ColumnStore.Proofs.Database.Installing
import ColumnStore.Proofs.Database.Isolation
import ColumnStore.Proofs.Database.Ledger
import ColumnStore.Proofs.Database.Minding
import ColumnStore.Proofs.Database.Mirroring
import ColumnStore.Proofs.Database.Mirrors
import ColumnStore.Proofs.Database.Naming
import ColumnStore.Proofs.Database.Opening
import ColumnStore.Proofs.Database.Reading
import ColumnStore.Proofs.Database.Recalling
import ColumnStore.Proofs.Database.Recovery
import ColumnStore.Proofs.Database.Refusals
import ColumnStore.Proofs.Database.Reopening
import ColumnStore.Proofs.Database.Replaying
import ColumnStore.Proofs.Database.Reviving
import ColumnStore.Proofs.Database.Rollback
import ColumnStore.Proofs.Database.RoundTrip
import ColumnStore.Proofs.Database.Runs
import ColumnStore.Proofs.Database.Schema
import ColumnStore.Proofs.Database.Settled
import ColumnStore.Proofs.Database.Soundness
import ColumnStore.Proofs.Database.Stability
import ColumnStore.Proofs.Database.Steady
import ColumnStore.Proofs.Database.System
import ColumnStore.Proofs.Database.Telling
import ColumnStore.Proofs.Database.Traces
import ColumnStore.Proofs.Database.Weathering
import ColumnStore.Proofs.Database.Writing
import ColumnStore.Proofs.Disk.Blocks
import ColumnStore.Proofs.Disk.Changes
import ColumnStore.Proofs.Disk.Names
import ColumnStore.Proofs.Disk.Paths
import ColumnStore.Proofs.Disk.Payloads
import ColumnStore.Proofs.Disk.Writing
import ColumnStore.Proofs.Log.Cuts
import ColumnStore.Proofs.Log.Files
import ColumnStore.Proofs.Log.Frames
import ColumnStore.Proofs.Log.Groups
import ColumnStore.Proofs.Log.Playing
import ColumnStore.Proofs.Overlay.Chains
import ColumnStore.Proofs.Row.Appending
import ColumnStore.Proofs.Row.Legible
import ColumnStore.Proofs.Row.Matching
import ColumnStore.Proofs.Row.Packed
import ColumnStore.Proofs.Row.Partition
import ColumnStore.Proofs.Segment.Bounds
import ColumnStore.Proofs.Segment.Decoding
import ColumnStore.Proofs.Segment.Lengths
import ColumnStore.Proofs.Segment.Merging
import ColumnStore.Proofs.Segment.RoundTrip
import ColumnStore.Proofs.Storage.Bare
import ColumnStore.Proofs.Storage.Honesty
import ColumnStore.Proofs.Storage.Stored
import ColumnStore.Proofs.Table.Appending
import ColumnStore.Proofs.Table.Carrying
import ColumnStore.Proofs.Table.Copying
import ColumnStore.Proofs.Table.Filtering
import ColumnStore.Proofs.Table.Loading
import ColumnStore.Proofs.Table.Materializing
import ColumnStore.Proofs.Table.Reachable
import ColumnStore.Proofs.Table.Scanning
import ColumnStore.Proofs.Table.Settling
import ColumnStore.Proofs.Table.Shape
import ColumnStore.Proofs.Table.Stamps
import ColumnStore.Proofs.Table.Updates
import ColumnStore.Proofs.Table.Views
import ColumnStore.Proofs.Transaction.Locals
import ColumnStore.Proofs.Transaction.Ownership
import ColumnStore.Proofs.Value.Casts
import ColumnStore.Proofs.Value.Ordering
import ColumnStore.Proofs.Value.Sameness
import ColumnStore.Proofs.Vector.Cells
import ColumnStore.Proofs.Vector.Chunks
import ColumnStore.Proofs.Vector.Nested
import ColumnStore.Proofs.Vector.Reuse
import ColumnStore.Proofs.Vector.Rows
import ColumnStore.Proofs.Vector.Shrinking
import ColumnStore.Proofs.Vector.Slices
import ColumnStore.Proofs.Vector.Slots
import ColumnStore.Row.Comparison
import ColumnStore.Row.Error
import ColumnStore.Row.Layout
import ColumnStore.Row.Matcher
import ColumnStore.Row.Packed
import ColumnStore.Segment.Basic
import ColumnStore.Segment.Column
import ColumnStore.Segment.Header
import ColumnStore.Segment.Image
import ColumnStore.Segment.Overlay
import ColumnStore.Segment.Sketch
import ColumnStore.Segment.Statistics
import ColumnStore.Settings.Basic
import ColumnStore.Settings.Tree
import ColumnStore.Storage.Error
import ColumnStore.Storage.Reading
import ColumnStore.Table.Basic
import ColumnStore.Table.Catalog
import ColumnStore.Table.Filter
import ColumnStore.Table.LocalRows
import ColumnStore.Table.Scan
import ColumnStore.Text.Blank
import ColumnStore.Text.Hex
import ColumnStore.Text.Integer
import ColumnStore.Text.Json
import ColumnStore.Text.JsonNumber
import ColumnStore.Text.Quoted
import ColumnStore.Text.Unseen
import ColumnStore.Transaction.Basic
import ColumnStore.Transaction.Error
import ColumnStore.Transaction.Undo
import ColumnStore.Value.Binary
import ColumnStore.Value.Cast
import ColumnStore.Value.Order
import ColumnStore.Value.Scalar
import ColumnStore.Value.Type
import ColumnStore.Vector.Basic
import ColumnStore.Vector.Chunk
import ColumnStore.Vector.Error
import ColumnStore.Vector.Selection
import ColumnStore.Vector.Validity
import ColumnStore.Version.Rows
import ColumnStore.Version.Snapshot
