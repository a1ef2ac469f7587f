import DimosViewer.Path.RoundTrip
import DimosViewer.Path.Filter
import DimosViewer.Store.Run
import DimosViewer.Store.Slots
import DimosViewer.Chunk.Laws
import DimosViewer.Chunk.MergeLaws
import DimosViewer.Chunk.SplitLaws
import DimosViewer.Reach
import DimosViewer.Store.RemovalLaws
import DimosViewer.Store.WriteLaws
import DimosViewer.Store.Steps
import DimosViewer.Store.Traces
import DimosViewer.Store.Replay
import DimosViewer.Store.Bookkeeping
import DimosViewer.Path.FilterLaws
import DimosViewer.IntegerEncodings
import DimosViewer.Rrd.FooterSafety
import DimosViewer.Rrd.Frames
import DimosViewer.Incremental
import DimosViewer.Rrd.Decoder
import DimosViewer.Rrd.DecoderLaws
import DimosViewer.Rrd.Arrival
import DimosViewer.Rrd.Manifest
import DimosViewer.Rrd.ManifestCheck
import DimosViewer.Rrd.ManifestCheckLaws
import DimosViewer.Rrd.Encoder
import DimosViewer.Rrd.FrameLaws
import DimosViewer.Rrd.Concatenation
import DimosViewer.Batcher.Rows
import DimosViewer.Batcher.RowsLaws
import DimosViewer.Batcher.ChunkLaws
import DimosViewer.Batcher.Thread
import DimosViewer.Batcher.Lossless
import DimosViewer.Batcher.Documented
import DimosViewer.Query.Units
import DimosViewer.Query.Cache
import DimosViewer.Query.RangeLaws
import DimosViewer.Query.RangeRuns
import DimosViewer.Interaction.Ws
import DimosViewer.Interaction.Keyboard
import DimosViewer.Interaction.Delivery
import DimosViewer.Interaction.Halting
import DimosViewer.EntityDb.MergedRanges
import DimosViewer.EntityDb.ManifestIndex
import DimosViewer.EntityDb.LoadedLaws
import DimosViewer.EntityDb.LoadedRuns
import DimosViewer.EntityDb.LoadedTimes
import DimosViewer.Transforms.Ancestry
import DimosViewer.Transforms.ForestLaws
import DimosViewer.Transforms.WellFormed
import DimosViewer.SortedRangeMap
import DimosViewer.EntityDb.ChunkPrioritizer
import DimosViewer.EntityDb.PriorityStages
import DimosViewer.EntityDb.PriorityOrder
import DimosViewer.EntityDb.ChunkFetcher
import DimosViewer.EntityDb.PrefetchLaws
import DimosViewer.EntityDb.PrefetchRuns
import DimosViewer.Chunk.Rows
import DimosViewer.Server.InMemoryStore
import DimosViewer.Server.CatalogLaws
import DimosViewer.Quota.BroadcastChannel
import DimosViewer.Quota.Wakeups
import DimosViewer.Quota.Lossless
import DimosViewer.Grpc.MessageProxy
import DimosViewer.Grpc.Playback
import DimosViewer.Datafusion.FilterMeaning
import DimosViewer.Datafusion.PushdownLaws
import DimosViewer.Datafusion.ComparisonLaws
import DimosViewer.Datafusion.PushdownPlan
import DimosViewer.Datafusion.PushdownAnswers
import DimosViewer.MaterializedView
import DimosViewer.Server.ChunkIndex
import DimosViewer.Server.DatasetLayers
import DimosViewer.Server.ChunkIndexLaws
import DimosViewer.Server.MirrorLaws
import DimosViewer.IntervalMap
import DimosViewer.Video.StableIndexDeque
import DimosViewer.Video.Samples
import DimosViewer.Video.LookupLaws
import DimosViewer.Rvl.Codec
import DimosViewer.Rvl.Format
import DimosViewer.Rvl.Bits
import DimosViewer.Rvl.DecoderLaws
import DimosViewer.Rvl.Soundness
import DimosViewer.Rvl.Written
import DimosViewer.Rvl.RoundTrip
import DimosViewer.DecimalText
import DimosViewer.Format.Duration
import DimosViewer.Format.DurationReading
import DimosViewer.Format.DurationText
import DimosViewer.Format.DurationLaws
import DimosViewer.Quota.Sync
import DimosViewer.Quota.SyncLaws
import DimosViewer.Datafusion.MergedRequests
import DimosViewer.BookkeepingBTreeMap
import DimosViewer.Grpc.HistoryLimit
import DimosViewer.Video.Nalu
import DimosViewer.Video.NaluLaws
import DimosViewer.Lenses.ListArray
import DimosViewer.Lenses.Reshape
import DimosViewer.Lenses.ReshapeLaws
import DimosViewer.Interaction.EmergencyStop
import DimosViewer.Selector.Lexer
import DimosViewer.Selector.Parser
import DimosViewer.Selector.Grammar
import DimosViewer.Selector.ParserLaws
import DimosViewer.Selector.LexerLaws
import DimosViewer.Selector.RoundTrip
import DimosViewer.Path.FilterEvaluation
import DimosViewer.Path.FilterInclusion
import DimosViewer.Datafusion.BatchCoalescer
import DimosViewer.Datafusion.CoalescerLaws
import DimosViewer.NeighborSearch
import DimosViewer.Store.NextTime
import DimosViewer.TimePanel.TimeControl
import DimosViewer.CyclicSteps
import DimosViewer.TimePanel.Stepping
import DimosViewer.TimePanel.Commands
import DimosViewer.TimePanel.Scrubbing
import DimosViewer.EscapedSplit
import DimosViewer.Path.DataPath
import DimosViewer.Uri.Fragment
import DimosViewer.Uri.FragmentLaws
import DimosViewer.Store.SplitThickThin
import DimosViewer.EntityDb.SortedTemporalChunks
import DimosViewer.EntityDb.SortedTemporalLaws
import DimosViewer.EntityDb.CollapsedTimeRanges
import DimosViewer.EntityDb.Segmentation
import DimosViewer.Path.DataPathGrammar
import DimosViewer.Transforms.Forest
import DimosViewer.Transforms.FromToLaws
import DimosViewer.Path.ShortNames
import DimosViewer.Path.ShortNamesLaws
import DimosViewer.Path.FilterSaving
import DimosViewer.Path.FilterSavingLaws
import DimosViewer.Query.RangeZip
import DimosViewer.Query.LatestLaws
import DimosViewer.Query.RangeFilter
import DimosViewer.Store.RangeLookup
import DimosViewer.Store.GcLatest
import DimosViewer.Store.IndexKeys
import DimosViewer.Store.TimeBounds
import DimosViewer.Store.CoveredKeys
import DimosViewer.Store.SparedBounds
import DimosViewer.CanonicalMemo
import DimosViewer.Query.LatestCache
import DimosViewer.Query.LatestCacheLaws
import DimosViewer.MapM
import DimosViewer.Query.Handle
import DimosViewer.Query.NextRow
import DimosViewer.Query.RandomAccess
import DimosViewer.Chunk.Lossless
import DimosViewer.Chunk.RowIdRange
import DimosViewer.Store.GcDistance
import DimosViewer.Chunk.Derive
import DimosViewer.Chunk.DeriveLaws
import DimosViewer.Chunk.SplitRows
import DimosViewer.Store.SplitRounds
import DimosViewer.DerivationForest
import DimosViewer.Store.LineageForest
import DimosViewer.Store.RowLog
import DimosViewer.Query.StoredRows
import DimosViewer.Query.LoggedRows
import DimosViewer.Query.LatestRows
import DimosViewer.Query.Invalidation
import DimosViewer.Query.LatestRuns
