import RecordSort.Record.Format
import RecordSort.Record.Order
import RecordSort.Stream.Error
import RecordSort.Stream.Source
import RecordSort.Stream.Sink
import RecordSort.Record.Reader
import RecordSort.Record.Feed
import RecordSort.Record.Writer
import RecordSort.Merge.MinHeap
import RecordSort.Merge.Merger
import RecordSort.Chunk.Store
import RecordSort.Chunk.Fill
import RecordSort.Chunk.Memory
import RecordSort.Chunk.Completed
import RecordSort.Chunk.Sorter
import RecordSort.Sort.Error
import RecordSort.Sort.Sorter
import RecordSort.Files.Path
import RecordSort.Files.Tree
import RecordSort.Files.Temporary
import RecordSort.Files.Chunk
import RecordSort.Merge.Scan
import RecordSort.Merge.HeapCalls
import RecordSort.Sort.Schedule
import RecordSort.Proofs.Merge.HeapOrder
import RecordSort.Proofs.Merge.PriorityQueue
import RecordSort.Proofs.Record.StableSort
import RecordSort.Proofs.Merge.ReadyHeads
import RecordSort.Proofs.Merge.Scanning
import RecordSort.Proofs.Merge.SortedMerge
import RecordSort.Proofs.Stream.Transfers
import RecordSort.Proofs.Stream.Offers
import RecordSort.Proofs.Record.Reading
import RecordSort.Proofs.Record.Writing
import RecordSort.Proofs.Chunk.MemoryFrames
import RecordSort.Proofs.Chunk.Filling
import RecordSort.Proofs.Chunk.LastCompleted
import RecordSort.Proofs.Sort.Progress
import RecordSort.Proofs.Sort.InPlace
import RecordSort.Proofs.Sort.WholeSort
import RecordSort.Proofs.Sort.Alone
import RecordSort.Proofs.Sort.Failures
import RecordSort.Proofs.Record.PlainDecoder
import RecordSort.Proofs.Chunk.WholeLoads
import RecordSort.Proofs.Record.RoundTrip
import RecordSort.Proofs.Record.Accounting
import RecordSort.Proofs.Record.RequestBound
import RecordSort.Proofs.Record.ResumedSearch
import RecordSort.Proofs.Record.LazyReading
import RecordSort.Proofs.Merge.LeftBehind
import RecordSort.Proofs.Merge.Tallies
import RecordSort.Proofs.Merge.LazyAsking
import RecordSort.Proofs.Merge.ManyPasses
import RecordSort.Proofs.Sort.Repeat
import RecordSort.Proofs.Sort.AnySchedule
import RecordSort.Proofs.Record.ErrorsAhead
import RecordSort.Proofs.Chunk.AllOrNothing
import RecordSort.Proofs.Record.Unread
import RecordSort.Proofs.Merge.BrokenOff
import RecordSort.Proofs.Sort.SortedChunks
import RecordSort.Proofs.Sort.MergeFailures
import RecordSort.Files.Outright
import RecordSort.Proofs.Files.Ways
import RecordSort.Proofs.Files.Changes
import RecordSort.Proofs.Files.Staging
import RecordSort.Proofs.Files.Replacing
import RecordSort.Proofs.Files.Texts
import RecordSort.Proofs.Files.Named
import RecordSort.Proofs.Files.SideBySide
import RecordSort.Proofs.Files.Interchange
