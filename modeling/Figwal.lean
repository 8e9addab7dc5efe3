import Figwal.Lib.Numbered
import Figwal.Lib.Outcome
import Figwal.Lib.Runs
import Figwal.Lib.Splice
import Figwal.Lib.Assoc
import Figwal.Lib.Family
import Figwal.Lib.Branches
import Figwal.Disk.Segment
import Figwal.Disk.Log
import Figwal.Disk.Numbering
import Figwal.Disk.Writing
import Figwal.Disk.Open
import Figwal.Disk.History
import Figwal.Disk.World
import Figwal.Disk.Scan
import Figwal.Disk.Frame
import Figwal.Disk.Fork
import Figwal.Disk.ForkParts
import Figwal.Disk.ForkHistory
import Figwal.Disk.ForkRuns
import Figwal.Xwal.Cell
import Figwal.Xwal.Index
import Figwal.Xwal.Trunks
import Figwal.Xwal.Operations
import Figwal.Xwal.Shown
import Figwal.Xwal.Flushing
import Figwal.Xwal.Bases
import Figwal.Xwal.Proper
import Figwal.Xwal.Forks
import Figwal.Xwal.ForkOps
import Figwal.Xwal.Removal
import Figwal.Xwal.Watermarked
import Figwal.Xwal.Channels
import Figwal.Xwal.Founding
import Figwal.Xwal.Isolation
import Figwal.Disk.Persist
import Figwal.Disk.Room
import Figwal.Log.Buffer
import Figwal.Log.Refinement
import Figwal.Log.Reading
import Figwal.Log.Runs
import Figwal.Log.Flushable
import Figwal.Lib.Decimal
import Figwal.Lib.Json
import Figwal.Lib.JsonCanon
import Figwal.Lib.JsonNesting
import Figwal.Lib.JsonStrings
import Figwal.Lib.Base64
import Figwal.Lib.Framing
import Figwal.Codec.Jsonl
import Figwal.Codec.Frames
import Figwal.Codec.Cache
import Figwal.Codec.Segments
import Figwal.Xwal.FrameScan
import Figwal.Xwal.FrameRoundTrip
import Figwal.Disk.ScanReverse
import Figwal.Disk.Truncation
import Figwal.Disk.Frozen
import Figwal.Xwal.TrunkIds
import Figwal.Xwal.Layout
import Figwal.Xwal.ChannelRefusal
import Figwal.Xwal.ChannelCrash
import Figwal.Xwal.Replacement
import Figwal.Disk.Pool
import Figwal.Xwal.Rename
import Figwal.Log.Snapshot
import Figwal.Disk.Retry
import Figwal.Xwal.Lookup
import Figwal.Xwal.Ownership
import Figwal.Xwal.Cursor
import Figwal.Codec.Lines
import Figwal.Codec.Agreement
import Figwal.Codec.Recovery
import Figwal.Xwal.LiveTrunks
import Figwal.Xwal.Lineage
import Figwal.Lib.Ledger
import Figwal.Forest.Cache
import Figwal.Forest.Eviction
import Figwal.Forest.Steps
import Figwal.Forest.Meter
import Figwal.Forest.Enforcement
import Figwal.Forest.Recency
import Figwal.Forest.Lineages
import Figwal.Xwal.MapPatch
import Figwal.Xwal.Repair
import Figwal.Xwal.Flusher
