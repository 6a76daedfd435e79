import Backd.Library.Endings
import Backd.Library.Runs
import Backd.Library.Splice
import Backd.Library.PostOrder
import Backd.Library.TreeAddress
import Backd.Library.Outline
import Backd.Library.SlashPath
import Backd.Library.Numeral
import Backd.Library.StraightLine
import Backd.Size
import Backd.ArrayState
import Backd.ArrayLogic
import Backd.ArrayFrame
import Backd.ArrayOps
import Backd.ArraySpec
import Backd.ArrayRemove
import Backd.ArrayCreate
import Backd.ArrayRuns
import Backd.ArrayGrowth
import Backd.ArrayDestroy
import Backd.ArrayPositions
import Backd.ArrayPull
import Backd.ArrayBounds
import Backd.ArrayRoom
import Backd.ArraySlim
import Backd.ArrayPool
import Backd.ArrayHeap
import Backd.ArrayFilter
import Backd.Records
import Backd.RecordArrays
import Backd.CString
import Backd.FsTarget
import Backd.EventTrack
import Backd.EventHistory
import Backd.CurPath
import Backd.Observe
import Backd.Snapshot
import Backd.SamePath
import Backd.FsDelete
import Backd.ObserveScript
import Backd.Overflow
import Backd.Watch
import Backd.Histories
import Backd.EventPaths
import Backd.Reports
import Backd.HistoryLimits
import Backd.StringF
import Backd.StringRender
import Backd.Dynstr
import Backd.DynstrRuns
import Backd.DynstrText
import Backd.DynstrEdits
import Backd.Atoi
import Backd.AtoiNumeral
import Backd.AtoiPrinted
import Backd.Args
import Backd.Uint32Parse
import Backd.CronParse
import Backd.CronMarks
import Backd.CronMeaning
import Backd.CronPrinted
import Backd.Main
import Backd.MainRun
import Backd.Service
import Backd.Operands
import Backd.OptionScan
import Backd.FsPrint
import Backd.ServiceEnd
import Backd.Skeleton
import Backd.ServiceRounds
import Backd.Daemon
import Backd.ListingRead
import Backd.PerfCalls
import Backd.PerfReport
import Backd.FdRead
