import CMVBT.KeyInterval
import CMVBT.LastMatch
import CMVBT.Halving
import CMVBT.FenceTiling
import CMVBT.VersionedLog
import CMVBT.PageModel
import CMVBT.FrugalList
import CMVBT.CommitClock
import CMVBT.Tracker
import CMVBT.Tree
import CMVBT.BlockSupply
import CMVBT.WritePath
import CMVBT.Reference
import CMVBT.ReadPath
import CMVBT.DirectoryHistory
import CMVBT.LeafHistory
import CMVBT.TreeInvariant
import CMVBT.PageRewrite
import CMVBT.NewPages
import CMVBT.Reorganization
import CMVBT.ParentRewrite
import CMVBT.ChildRepair
import CMVBT.RootRewrite
import CMVBT.Descent
import CMVBT.LeafWrite
import CMVBT.WriteOperations
import CMVBT.FreshTree
import CMVBT.SnapshotRead
import CMVBT.TreeShape
import CMVBT.RangeScan
import CMVBT.PinnedSnapshot
import CMVBT.Interleaving
import CMVBT.ClockProtocol
import CMVBT.ReclaimSafety
import CMVBT.Watermark
import CMVBT.SnapshotStability
import CMVBT.OptimisticLatch
import CMVBT.KeyWindow
import CMVBT.CommitNotification
import CMVBT.OrderedMap
import CMVBT.RootIndex
import CMVBT.VersionChain
import CMVBT.ChainRefinement
import CMVBT.ActivityPool
import CMVBT.ReaderBalance
import CMVBT.InPlaceUpdate
import CMVBT.ReaderHistory
import CMVBT.InPlaceRefinement
import CMVBT.RandomOperations
import CMVBT.PackedCounters
import CMVBT.Graveyard
import CMVBT.SeparatorRow
import CMVBT.BaselinePages
import CMVBT.BaselineTree
import CMVBT.BaselineInvariant
import CMVBT.BaselineDescent
import CMVBT.BaselineWrites
import CMVBT.BaselineScan
import CMVBT.DescentTrace
import CMVBT.RootHeight
import CMVBT.VersionSplit
import CMVBT.PageContent
import CMVBT.MergeContent
import CMVBT.ScanRounds
import CMVBT.ScanOrder
import CMVBT.ScanTermination
import CMVBT.RandomDescent
import CMVBT.RandomTermination
import CMVBT.RandomRefinement
import CMVBT.AffineRange
import CMVBT.WordPermutation
import CMVBT.PaperWorkload
import CMVBT.Coupling
import CMVBT.ClockFrame
import CMVBT.TransactionDispatch
import CMVBT.ReaderSnapshot
import CMVBT.ScanWindow
import CMVBT.BTreeIndex
import CMVBT.BaselineContents
import CMVBT.PointLookup
import CMVBT.BaselineStates
import CMVBT.EagerScan
import CMVBT.UnderflowCorrection
import CMVBT.FragmentRepair
import CMVBT.WeaverTree
import CMVBT.WeaverSearch
import CMVBT.LeafHalves
import CMVBT.WeaverTermination
import CMVBT.WeaverLinks
import CMVBT.WeaverScan
import CMVBT.ByteRecords
import CMVBT.WorkloadFile
import CMVBT.VersionIteration
import CMVBT.CommitSlots
import CMVBT.ScrambledRanks
import CMVBT.LatencyHistogram
import CMVBT.RecordedHeight
import CMVBT.SliceCuts
import CMVBT.EagerRead
import CMVBT.GrowingLog
import CMVBT.PageStores
import CMVBT.LatchFreeRead
import CMVBT.ReadAtomicity
import CMVBT.ConcurrentReads
import CMVBT.WaitFreeReads
import CMVBT.OnlineWorkload
import CMVBT.OnlineRuns
import CMVBT.BaselineLatch
import CMVBT.BlobRecords
