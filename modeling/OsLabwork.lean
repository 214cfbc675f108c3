import OsLabwork.Library.QuotaCutting
import OsLabwork.Library.Traversals
import OsLabwork.Library.CText
import OsLabwork.Library.Sorting
import OsLabwork.Library.Schedules
import OsLabwork.Library.Exclusion
import OsLabwork.Library.Interleaving
import OsLabwork.Library.Splitting
import OsLabwork.Library.KeyGroups
import OsLabwork.Library.PrefixMatching
import OsLabwork.Library.RunLength
import OsLabwork.Library.Streams
import OsLabwork.Library.Words
import OsLabwork.Library.CMemory
import OsLabwork.Library.BufferedInput
import OsLabwork.Library.LinkedNodes
import OsLabwork.MapReduce.ArrayList
import OsLabwork.MapReduce.FileAllocation
import OsLabwork.MapReduce.MultiMap
import OsLabwork.MapReduce.EmitProtocol
import OsLabwork.MapReduce.ReducePhase
import OsLabwork.MapReduce.ValueIterator
import OsLabwork.MapReduce.EndToEnd
import OsLabwork.Utilities.SeuZip
import OsLabwork.Utilities.SeuUnzip
import OsLabwork.Utilities.RoundTrip
import OsLabwork.Shell.Commands
import OsLabwork.Shell.Parsing
import OsLabwork.Shell.InPlace
import OsLabwork.Shell.Grammar
import OsLabwork.Shell.Children
import OsLabwork.Shell.MainLoop
import OsLabwork.Shell.BatchFile
import OsLabwork.Shell.SearchPath
import OsLabwork.Kernel.ReadCount
import OsLabwork.Kernel.Locking
import OsLabwork.Kernel.Counting
import OsLabwork.Shell.LinkedLists
import OsLabwork.Shell.Segments
import OsLabwork.Shell.CandidateBuffer
import OsLabwork.Shell.PathList
import OsLabwork.Shell.LineBounds
import OsLabwork.Library.OpenFiles
import OsLabwork.Shell.Redirection
import OsLabwork.MapReduce.ClientSafety
import OsLabwork.MapReduce.MapperProgress
import OsLabwork.MapReduce.Tokens
import OsLabwork.MapReduce.WordCount
import OsLabwork.MapReduce.Allocation
import OsLabwork.Library.LineReading
import OsLabwork.MapReduce.ArrayListSizes
import OsLabwork.Utilities.LoopIndex
import OsLabwork.Utilities.SeuCat
import OsLabwork.Utilities.SeuGrep
import OsLabwork.Shell.BuiltIns
import OsLabwork.Shell.ErrorMessages
import OsLabwork.Shell.Padding
import OsLabwork.Kernel.ReportedCount
import OsLabwork.Kernel.SleepWakeup
import OsLabwork.Kernel.Pipe
import OsLabwork.Library.Transactions
import OsLabwork.Kernel.Log
import OsLabwork.Kernel.LogRecovery
import OsLabwork.Kernel.LogAdmission
import OsLabwork.Kernel.FileTable
import OsLabwork.Kernel.FileReferences
import OsLabwork.Kernel.FileSafety
import OsLabwork.Kernel.Inodes
import OsLabwork.Kernel.BlockOwnership
import OsLabwork.Kernel.FileContents
import OsLabwork.Kernel.Truncation
import OsLabwork.Kernel.FileStore
import OsLabwork.Kernel.FileCalls
import OsLabwork.Kernel.LogSections
