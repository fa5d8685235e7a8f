import TraceFileSystem.Lib.Journal
import TraceFileSystem.Lib.LittleEndian
import TraceFileSystem.Lib.ByteStore
import TraceFileSystem.Lib.Machine
import TraceFileSystem.Lib.Traces
import TraceFileSystem.Lib.Programs
import TraceFileSystem.Lib.DentryCache
import TraceFileSystem.Lib.StackedCaches
import TraceFileSystem.Lib.Errno
import TraceFileSystem.Lib.Numerals
import TraceFileSystem.Lib.Formats
import TraceFileSystem.Lib.InodeAttributes
import TraceFileSystem.Lib.Namespace
import TraceFileSystem.Lib.NamespaceCalls
import TraceFileSystem.Lib.OpenFlags
import TraceFileSystem.Lib.Dentries
import TraceFileSystem.Lib.Counterparts
import TraceFileSystem.Lib.Volume
import TraceFileSystem.Lib.RegularFiles
import TraceFileSystem.Record.Layout
import TraceFileSystem.Record.FillRecord
import TraceFileSystem.Record.AppendRecord
import TraceFileSystem.Treplay.Machine
import TraceFileSystem.Treplay.Framing
import TraceFileSystem.Treplay.Chunks
import TraceFileSystem.Treplay.OneChunk
import TraceFileSystem.Treplay.Actions
import TraceFileSystem.Log.FailedWrites
import TraceFileSystem.Log.WriteSizes
import TraceFileSystem.Log.LargeWrites
import TraceFileSystem.Log.Staging
import TraceFileSystem.Ops.TracedOps
import TraceFileSystem.Ops.WritePaths
import TraceFileSystem.Ops.ShortWrites
import TraceFileSystem.Ops.Pages
import TraceFileSystem.Ops.LongPaths
import TraceFileSystem.System.Machine
import TraceFileSystem.System.Consistency
import TraceFileSystem.System.Termination
import TraceFileSystem.System.Exactness
import TraceFileSystem.System.Headers
import TraceFileSystem.System.Identifiers
import TraceFileSystem.Replay.Paths
import TraceFileSystem.Replay.Tree
import TraceFileSystem.Replay.Contents
import TraceFileSystem.Replay.FailedRecords
import TraceFileSystem.Replay.Calls
import TraceFileSystem.Replay.Strict
import TraceFileSystem.Replay.ExitStatus
import TraceFileSystem.Replay.Options
import TraceFileSystem.Replay.Buffers
import TraceFileSystem.Replay.OpenFiles
import TraceFileSystem.Replay.Report
import TraceFileSystem.Replay.Retrace
import TraceFileSystem.Replay.Lockstep
import TraceFileSystem.Concurrency.Interleaving
import TraceFileSystem.Concurrency.Order
import TraceFileSystem.Concurrency.Progress
import TraceFileSystem.Concurrency.Frozen
import TraceFileSystem.Concurrency.SameDirectory
import TraceFileSystem.Concurrency.NewDirectories
import TraceFileSystem.Concurrency.LiveLog
import TraceFileSystem.Cache.InodeCache
import TraceFileSystem.Cache.UniqueInodes
import TraceFileSystem.Cache.References
import TraceFileSystem.Stack.LowerPaths
import TraceFileSystem.Stack.Balance
import TraceFileSystem.Stack.Trees
import TraceFileSystem.Stack.Congruence
import TraceFileSystem.Stack.Attributes
import TraceFileSystem.Stack.ParentAttributes
import TraceFileSystem.Mount.ReadSuper
import TraceFileSystem.Mount.Outcomes
import TraceFileSystem.Mount.Lifecycle
import TraceFileSystem.Files.Symlinks
import TraceFileSystem.Files.Positions
import TraceFileSystem.Files.Sizes
import TraceFileSystem.Files.PassThrough
import TraceFileSystem.Files.Transparency
import TraceFileSystem.Files.Handles
import TraceFileSystem.Files.HandleLifetimes
import TraceFileSystem.Ctl.Ioctl
import TraceFileSystem.Ctl.Trctl
import TraceFileSystem.System.Sessions
