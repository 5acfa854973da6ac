import Mbench.SortSpeed.QsortAvx2Spec
import Mbench.SortSpeed.MyQsort
import Mbench.SortSpeed.QsRecsv
import Mbench.SortSpeed.Agreement
import Mbench.SortSpeed.Benchmarks
import Mbench.Library.Buckets
import Mbench.SortSpeed.RadixSort
import Mbench.SortSpeed.RadixSortSpec
import Mbench.LatencyRing.SetupRnd
import Mbench.LatencyRing.History
import Mbench.LatencyRing.SetupRndSpec
import Mbench.LatencyRing.ZeroMarker
import Mbench.LatencyRing.BaseMarker
import Mbench.CoreLat.CasLock
import Mbench.CoreLat.NoLock
import Mbench.Library.CText
import Mbench.Library.Decimals
import Mbench.Zoneinfo.CoreProcess
import Mbench.Zoneinfo.LineMachine
import Mbench.Zoneinfo.Mixing
import Mbench.Zoneinfo.Complete
import Mbench.LatencyRing.Runs
import Mbench.LatencyRing.BaseCount
import Mbench.LatencyRing.MarkerAgreement
import Mbench.LatencyRing.Progress
import Mbench.LatencyRing.ParallelChase
import Mbench.DetectAlive.DoConnect
import Mbench.DetectAlive.Worker
import Mbench.DetectAlive.Accounts
import Mbench.DetectAlive.Window
import Mbench.DetectAlive.OctetCarry
import Mbench.DetectAlive.Addresses
import Mbench.DetectAlive.LeftOpen
import Mbench.Library.Isolation
import Mbench.LatencyRing.ParallelTest
import Mbench.LatencyRing.ParallelIsolation
import Mbench.LatencyRing.MemLatMain
import Mbench.LatencyRing.CacheMissMain
import Mbench.LatencyRing.CheckerMain
import Mbench.CoreLat.ResultParser
import Mbench.CoreLat.ResultCells
import Mbench.CoreLat.ResultStatistics
import Mbench.CoreLat.RaggedFiles
import Mbench.CoreLat.MissingFiles
import Mbench.Library.TwoScans
import Mbench.SortSpeed.PartitionSlices
import Mbench.SortSpeed.ImprovedV1
import Mbench.LatencyRing.MeasureLoops
import Mbench.LatencyRing.ReadWalk
import Mbench.LatencyRing.FillWalk
import Mbench.LatencyRing.FreqLat
import Mbench.SortSpeed.RadixSortArguments
import Mbench.Library.Recording
import Mbench.SortSpeed.QsortAvx2Accesses
import Mbench.SortSpeed.QsortAvx2Median
import Mbench.SortSpeed.IppSortDemo
import Mbench.TlbShootDown.Parse
import Mbench.TlbShootDown.Sums
import Mbench.Library.Overruns
import Mbench.SortSpeed.MeasurePovit1
import Mbench.SortSpeed.MeasurePovit2
import Mbench.SortSpeed.Measure
import Mbench.SortSpeed.Hexdump
import Mbench.Zoneinfo.StartPfn
import Mbench.SortSpeed.QsRecsvDebug
import Mbench.SortSpeed.ScalarPartition
import Mbench.SortSpeed.ScatterPass
import Mbench.CoreLat.Completion
import Mbench.CycleCounting.Counting
import Mbench.CycleCounting.Shutdown
import Mbench.Library.ParallelFor
import Mbench.Stream.Kernels
import Mbench.Stream.Check
import Mbench.Stream.Timing
import Mbench.Library.SharedInvariant
import Mbench.Library.ForkJoin
import Mbench.LatencyRing.SharedRing
import Mbench.LatencyRing.MemLatEnding
import Mbench.CoreLat.Logs
import Mbench.CoreLat.Report
import Mbench.DetectAlive.Ending
import Mbench.DetectAlive.Coverage
import Mbench.PageFault.Touching
import Mbench.PageFault.Joining
