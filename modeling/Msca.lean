import Msca.Base.Checked
import Msca.Base.Bytes
import Msca.Base.Writes
import Msca.Fs
import Msca.Base.KeySet
import Msca.Error
import Msca.Prim
import Msca.Sector
import Msca.Serialize
import Msca.Item
import Msca.Manifest
import Msca.Accumulate
import Msca.Unfold
import Msca.Read
import Msca.Image
import Msca.Base.Run
import Msca.Base.Xxh3
import Msca.Base.Codec
import Msca.Decode
import Msca.RoundTrip
import Msca.Nested
import Msca.Composite
import Msca.Describe
import Msca.Segment
import Msca.Reference
import Msca.Register
import Msca.Layout
import Msca.Journal
import Msca.Base.Effect
import Msca.Stream
import Msca.File
import Msca.Dataset
import Msca.OnDisk
import Msca.Session
import Msca.History
import Msca.Coordinate
import Msca.Source
import Msca.ReadBack
import Msca.Walk
import Msca.Adapter
import Msca.Combine
import Msca.Window
import Msca.Base.Extreme
import Msca.Compaction
import Msca.Statistics
import Msca.Lossless
import Msca.Base.Numbering
import Msca.Intern
import Msca.GetOrInsert
import Msca.Base.Chunks
import Msca.Reader
import Msca.Foreign
import Msca.Base.Polling
import Msca.Drain
import Msca.Isolation
import Msca.Identity
import Msca.Region
import Msca.Extremes
import Msca.Unbounded
import Msca.Failure
import Msca.Crash
import Msca.Mapped
import Msca.Base.Retain
import Msca.Chain
import Msca.Unwrap
import Msca.Select
import Msca.Table
import Msca.Base.Growth
import Msca.Snapshot
import Msca.Base.Allotment
import Msca.Tiling
import Msca.Malformed
import Msca.Base.Catalog
import Msca.Store
import Msca.Progress
import Msca.Skipped
import Msca.Lasting
import Msca.Collapse
import Msca.Records
import Msca.Join
