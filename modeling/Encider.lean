import Encider.Lib.Rose
import Encider.Lib.Climb
import Encider.Lib.Fold
import Encider.Expr.Syntax
import Encider.Expr.Value
import Encider.Expr.Create
import Encider.Expr.Meaning
import Encider.Expr.Equality
import Encider.Expr.Constraint
import Encider.Expr.Hash
import Encider.Resource.Node
import Encider.Resource.Propagate
import Encider.Resource.Merge
import Encider.Resource.Visit
import Encider.Resource.Ranges
import Encider.Resource.Terminated
import Encider.Resource.Blocks
import Encider.Resource.Records
import Encider.Resource.Leakage
import Encider.Exec.Branch
import Encider.Exec.LastCondition
import Encider.Exec.LoopBound
import Encider.Lib.Own
import Encider.State.ProgModel
import Encider.State.Operations
import Encider.State.Local
import Encider.State.Copy
import Encider.Lib.Graft
import Encider.Run.Step
import Encider.Run.Accounting
import Encider.Label.Region
import Encider.Label.Symbolic
import Encider.Label.Memory
import Encider.Thread.Schedule
import Encider.State.LifeCycle
import Encider.Exec.Pausing
import Encider.Expr.Arithmetic
import Encider.Lib.Parts
import Encider.Exec.Fork
import Encider.Exec.Resolve
import Encider.Exec.Memory
import Encider.Api.Handle
import Encider.Api.Returns
import Encider.Api.Interpret
import Encider.Api.Progress
import Encider.Lib.Nest
import Encider.Api.Completion
import Encider.Flow.Context
import Encider.Flow.OwnPath
import Encider.Run.Paths
import Encider.Run.Analysis
import Encider.Solver.ArrayNames
import Encider.Solver.Caching
import Encider.Solver.IndependentSolver
import Encider.Expr.Constructors
import Encider.Exec.Switch
import Encider.Exec.Free
import Encider.Expr.Weight
import Encider.Expr.Manager
import Encider.Object.Run
import Encider.Adt.MapOfSets
import Encider.Adt.TreeVersions
import Encider.Object.AddressSpace
import Encider.Lib.Reader
import Encider.File.KTest
import Encider.File.TreeStream
import Encider.File.StreamRecords
import Encider.File.StreamRun
import Encider.Memory.Deterministic
import Encider.Resource.CodeCache
import Encider.Label.InRegion
import Encider.Label.Arguments
import Encider.Search.Searcher
import Encider.Search.Ledger
import Encider.Search.Layers
import Encider.Search.Session
import Encider.Search.UserSearcher
import Encider.Memory.Embedding
import Encider.Memory.EmbeddingChain
import Encider.Memory.EmbeddingRequests
import Encider.Memory.EmbeddingServed
import Encider.Lib.RoseOrder
import Encider.Expr.Shared
import Encider.Expr.Compare
import Encider.Expr.CompareOrder
import Encider.Lib.Smt
import Encider.Smtlib.Print
import Encider.Smtlib.Reading
import Encider.Smtlib.Prints
import Encider.Smtlib.Sorts
import Encider.Smtlib.Values
import Encider.Smtlib.Script
import Encider.Smtlib.Coverage
import Encider.Smtlib.Asserted
import Encider.Smtlib.Bindings
import Encider.Smtlib.Asserts
import Encider.Smtlib.Declarations
import Encider.Smtlib.Faithful
import Encider.Lib.Ordered
import Encider.Flow.Order
import Encider.Flow.Summary
import Encider.Flow.Interval
import Encider.Flow.Slice
import Encider.Flow.Partition
import Encider.Flow.Update
import Encider.Flow.Exact
import Encider.Lib.CInt
import Encider.Label.Coalesce
import Encider.Label.Shift
import Encider.Label.Clear
import Encider.State.ReturnDecision
import Encider.Label.Extract
import Encider.Label.FlowRules
import Encider.Label.SensitiveFlow
import Encider.Api.SideEffect
import Encider.Api.Assignment
import Encider.Lib.BitPrefix
import Encider.Lib.SingleBit
import Encider.Solver.BitBounds
import Encider.Solver.ConstantDivision
import Encider.Lib.Stp
import Encider.Solver.StpBuilder
import Encider.Lib.Reciprocal
import Encider.Solver.DivisionConstants
import Encider.Solver.StpDivision
import Encider.Label.FreshNames
import Encider.Lib.Traced
import Encider.File.KTestLoad
import Encider.Lib.Guarded
import Encider.Expr.Evaluator
import Encider.Expr.Evaluates
import Encider.Solver.ImpliedValue
import Encider.Solver.ImpliedReads
import Encider.Exec.SeedInfo
import Encider.Exec.PatchSeed
import Encider.Expr.Over
import Encider.Label.Rename
import Encider.Solver.ValueRange
import Encider.Solver.RangeEvaluator
import Encider.Expr.PartialEvaluation
import Encider.Solver.CexCaching
import Encider.Solver.CexRun
import Encider.Lib.Zipper
import Encider.Lib.Refines
import Encider.Adt.DiscretePDF
import Encider.Adt.PdfItems
import Encider.Adt.PdfRun
import Encider.Adt.PdfChoose
import Encider.Search.Weighted
import Encider.Search.RandomPath
import Encider.Lib.Z3
import Encider.Solver.Z3Terms
import Encider.Solver.Z3Builder
import Encider.Solver.Z3Caches
import Encider.Solver.Z3Operations
import Encider.Solver.Z3Constructs
import Encider.Solver.Z3Solver
import Encider.Solver.Z3SolverRun
