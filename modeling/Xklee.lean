import Xklee.Data.APInt
import Xklee.Expr.Syntax
import Xklee.Expr.Semantics
import Xklee.Expr.Create
import Xklee.Expr.CreateSound
import Xklee.Expr.RebuildSound
import Xklee.Expr.CreateRec
import Xklee.Data.Run
import Xklee.Data.Stdio
import Xklee.Basic.KTest
import Xklee.Data.ForkLog
import Xklee.Solver.CachingSolver
import Xklee.Data.Worklist
import Xklee.Expr.Reads
import Xklee.Solver.IndependentSolver
import Xklee.Expr.Evaluator
import Xklee.Solver.Assignment
import Xklee.Data.MapOfSets
import Xklee.Solver.CexCachingSolver
import Xklee.Solver.IncompleteSolver
import Xklee.Expr.Weight
import Xklee.Expr.ReplaceVisitor
import Xklee.Expr.Constraints
import Xklee.Core.TimingSolver
import Xklee.Core.SeedInfo
import Xklee.Core.Fork
import Xklee.Core.ForkSeeds
import Xklee.Core.ObjectState
import Xklee.Core.ObjectStateSound
import Xklee.Core.ObjectStateRun
import Xklee.Expr.Canonical
import Xklee.Support.TreeStream
import Xklee.Data.KeyedList
import Xklee.ADT.ImmutableTree
import Xklee.ADT.ImmutableMap
import Xklee.Core.AddressSpace
import Xklee.Core.PTree
import Xklee.Core.ProcessTree
import Xklee.Core.StateMerge
import Xklee.Core.ForkOutcome
import Xklee.Core.PathRecord
import Xklee.Core.PathReplay
import Xklee.ADT.DiscretePDF
import Xklee.ADT.PDFTree
import Xklee.ADT.PDFRotate
import Xklee.ADT.PDFInsert
import Xklee.Core.Searcher
import Xklee.Core.IterativeDeepening
import Xklee.Core.ExecutorRun
import Xklee.Core.MergingSearcher
import Xklee.Core.SymbolicSolution
import Xklee.Data.SMTLIB
import Xklee.Expr.SMTLIBPrinter
import Xklee.Expr.SMTLIBDeclarations
import Xklee.Expr.Contents
import Xklee.Expr.SMTLIBSound
import Xklee.Expr.SMTLIBMeaning
import Xklee.Core.Alloc
import Xklee.Core.MemoryOperation
import Xklee.Core.MemoryOperationSound
import Xklee.Core.MemoryPartition
import Xklee.Core.MemoryExploration
import Xklee.Core.Resolution
import Xklee.Core.BoundsCheck
import Xklee.Core.ImpliedValue
import Xklee.Core.Branch
import Xklee.Core.BranchSound
import Xklee.Core.Switch
import Xklee.Data.ByteFile
import Xklee.POSIX.SymbolicFile
import Xklee.Core.BumpMergingSearcher
import Xklee.Data.ParallelMove
import Xklee.Data.Partial
import Xklee.Module.PhiCleaner
import Xklee.Core.PhiExecution
import Xklee.Solver.ConstantDivision
import Xklee.Data.SMTTerm
import Xklee.Solver.STPBuilder
import Xklee.Solver.ShiftTerms
import Xklee.Solver.DivisionTerms
import Xklee.Data.Memo
import Xklee.Expr.ExprVisitor
import Xklee.Expr.CanonicalForm
import Xklee.Solver.AssignmentEvaluator
import Xklee.Data.BinarySearch
import Xklee.Solver.Range
import Xklee.Data.HiddenState
import Xklee.Data.TreeOrder
import Xklee.Expr.Compare
import Xklee.Core.SeedPatch
import Xklee.Core.ConcolicSearcher
import Xklee.Data.BitOrder
import Xklee.Solver.RangeEvaluator
import Xklee.ADT.MapOfSets
import Xklee.Solver.CachingSolverRun
import Xklee.Solver.HostArithmetic
import Xklee.ADT.PDFMap
import Xklee.ADT.TreePosition
import Xklee.Basic.KTestMemory
import Xklee.Expr.Lexer
import Xklee.Expr.ParseNumber
import Xklee.Expr.SMTLIBConstants
import Xklee.Data.Buffer
import Xklee.Data.WordSet
import Xklee.POSIX.CreateCpFile
import Xklee.POSIX.FileTable
import Xklee.POSIX.Getdents
import Xklee.POSIX.GetdentsRun
import Xklee.POSIX.InitEnv
import Xklee.POSIX.InitEnvBounds
import Xklee.POSIX.InitEnvRun
import Xklee.POSIX.Select
import Xklee.POSIX.SelectMeets
import Xklee.POSIX.DescriptorTable
import Xklee.POSIX.OpenAccess
import Xklee.POSIX.OpenFile
import Xklee.POSIX.OpenRun
import Xklee.Core.AllocParts
import Xklee.Core.AllocSize
import Xklee.Core.FreeRealloc
import Xklee.Core.IndirectCall
import Xklee.Core.CallPathManager
import Xklee.Core.CallPathSummary
import Xklee.Core.Varargs
import Xklee.Data.Alignment
import Xklee.Data.ForestSum
import Xklee.Module.IntrinsicCleaner
import Xklee.Solver.RangeOperations
import Xklee.Core.AggregateValue
import Xklee.Core.FrameDistance
import Xklee.Core.GetElementPtr
import Xklee.Core.ReachableUncovered
import Xklee.Module.LowerSwitch
import Xklee.Core.SearcherRun
import Xklee.Solver.SolverChain
