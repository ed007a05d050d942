import Waverous.Lib.Runs
import Waverous.Lib.TwoSpeed
import Waverous.Lib.Reads
import Waverous.Structures
import Waverous.Tasks
import Waverous.TasksProofs
import Waverous.TaskStepProofs
import Waverous.TaskPlacementProofs
import Waverous.TaskQueues
import Waverous.ActivStack
import Waverous.ActivStackProofs
import Waverous.Lib.RefHeap
import Waverous.Lists
import Waverous.ListsProofs
import Waverous.Db
import Waverous.DbProperties
import Waverous.DbOps
import Waverous.DbWalks
import Waverous.DbDescend
import Waverous.DbLayout
import Waverous.DbWellFormed
import Waverous.DbFind
import Waverous.DbEdits
import Waverous.DbChparent
import Waverous.DbObjects
import Waverous.DbRecycle
import Waverous.DbRenumber
import Waverous.DbRequests
import Waverous.DbFrame
import Waverous.DbRenaming
import Waverous.DbPlayers
import Waverous.DbHierarchy
import Waverous.DbIdentity
import Waverous.DbVerbs
import Waverous.DbVerbCache
import Waverous.DbVerbOps
import Waverous.DbErrors
import Waverous.DbValidate
import Waverous.TaskAccounts
import Waverous.TaskWakeups
import Waverous.Lib.TailedList
import Waverous.InputQueue
import Waverous.InputQueueProofs
import Waverous.InputQueueRuns
import Waverous.ActivStackHandlers
import Waverous.ActivStackRun
import Waverous.ActivStackResult
import Waverous.Streams
import Waverous.Strings
import Waverous.DbIo
import Waverous.DbScanf
import Waverous.DbFile
import Waverous.BiFuncData
import Waverous.Program
import Waverous.Ast
import Waverous.Grammar
import Waverous.Parser
import Waverous.CodeGen
import Waverous.Lib.Moves
import Waverous.Lib.Links
import Waverous.AstValid
import Waverous.VmFile
import Waverous.OneLine
import Waverous.NetworkInput
import Waverous.NetworkOutput
import Waverous.CodeGenProofs
import Waverous.CodeLabels
import Waverous.CodeVector
import Waverous.CodeParts
import Waverous.ParserProofs
import Waverous.Numbers
import Waverous.Execute
import Waverous.VerbNames
import Waverous.Lib.Blocks
import Waverous.Ranges
import Waverous.TaskWaiting
import Waverous.Run
import Waverous.ForRange
import Waverous.StrSearch
import Waverous.Binary
import Waverous.Words
import Waverous.Prepositions
import Waverous.Matching
import Waverous.Commands
import Waverous.PatternCache
import Waverous.Substitute
import Waverous.Lexer
import Waverous.LexerLines
import Waverous.Disassemble
import Waverous.CodeLayout
import Waverous.CodeInsns
import Waverous.CodeDepth
import Waverous.OneFormat
import Waverous.ReduceRef
import Waverous.FilePaths
import Waverous.FileHandles
import Waverous.FileReads
import Waverous.Hashing
import Waverous.Lib.Chains
import Waverous.StrIntern
import Waverous.Lib.Machines
import Waverous.Operators
import Waverous.Machine
import Waverous.Evaluator
import Waverous.CodeStands
import Waverous.CodeChains
import Waverous.CodePlaces
import Waverous.CodeForward
import Waverous.Ordinary
import Waverous.Landing
import Waverous.CodeRuns
import Waverous.TargetRuns
import Waverous.ScatterRuns
import Waverous.HandlerRuns
import Waverous.ExprRuns
import Waverous.FlowRuns
import Waverous.LoopRuns
import Waverous.TryRuns
import Waverous.StmtRuns
import Waverous.ProgramRuns
import Waverous.Assigned
