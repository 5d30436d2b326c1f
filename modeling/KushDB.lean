import KushDB.Library.Odometer
import KushDB.Library.Loops
import KushDB.Library.Progress
import KushDB.Library.Budget
import KushDB.Skinner.Levels
import KushDB.Skinner.TableLoop
import KushDB.Skinner.LoopTrace
import KushDB.Skinner.Flags
import KushDB.Skinner.Permutable
import KushDB.Skinner.Recompiling
import KushDB.Skinner.Environment
import KushDB.Skinner.Episode
import KushDB.Skinner.Record
import KushDB.Skinner.Correctness
import KushDB.Skinner.Advance
import KushDB.Skinner.Termination
import KushDB.Skinner.Uct
import KushDB.Skinner.UctOrders
import KushDB.Skinner.UctTree
import KushDB.Execution.SplitPipeline
import KushDB.GroupBy.AggregateHashTable
import KushDB.GroupBy.ExactlyOnce
import KushDB.Library.Regex
import KushDB.Planner.Like
import KushDB.Planner.LikeCorrectness
import KushDB.Library.Lanes
import KushDB.Library.While
import KushDB.Plan.Expression
import KushDB.Scan.SimdScan
import KushDB.Scan.SimdRows
import KushDB.Scan.SimdLoops
import KushDB.Scan.SimdPipeline
import KushDB.Plan.Evaluate
import KushDB.Planner.Statement
import KushDB.Planner.Select
import KushDB.Planner.Predicates
import KushDB.Planner.Where
import KushDB.Planner.WhereCorrectness
import KushDB.Planner.SkinnerQuery
import KushDB.Compile.ExpressionTranslator
import KushDB.Compile.ThreeValuedLogic
import KushDB.Compile.NullPropagation
import KushDB.Compile.KeyType
import KushDB.Join.HashJoin
import KushDB.GroupBy.HashDirectory
import KushDB.GroupBy.DirectoryInvariant
import KushDB.Library.Grouping
import KushDB.GroupBy.UpdateOrInsert
import KushDB.ColumnIndex.MemoryColumnIndex
import KushDB.ColumnIndex.MemoryInsert
import KushDB.Enum.Loader
import KushDB.Enum.Serialize
import KushDB.Enum.Entries
import KushDB.Enum.RoundTrip
import KushDB.ColumnIndex.EntryFormat
import KushDB.ColumnIndex.Serialize
import KushDB.ColumnIndex.Groups
import KushDB.ColumnIndex.Slots
import KushDB.ColumnIndex.Lookup
import KushDB.ColumnIndex.RoundTrip
import KushDB.TupleIdxTable.Children
import KushDB.TupleIdxTable.Growth
import KushDB.TupleIdxTable.Insert
import KushDB.TupleIdxTable.Iterate
import KushDB.TupleIdxTable.OrderedSet
import KushDB.Library.Selection
import KushDB.Planner.Operator
import KushDB.Planner.OperatorRows
import KushDB.Planner.EarlyProjection
import KushDB.Planner.PlannedInputs
import KushDB.Planner.ScanSelect
import KushDB.Planner.Rewriting
import KushDB.Planner.SourceRows
import KushDB.Skinner.LastCompleted
import KushDB.Skinner.Rewards
import KushDB.ColumnIndex.Intersection
import KushDB.ColumnIndex.Batches
import KushDB.ColumnIndex.ExactIntersection
import KushDB.Khir.Instruction
import KushDB.Library.Liveness
import KushDB.Skinner.BucketList
import KushDB.Khir.Function
import KushDB.Khir.ReadWrite
import KushDB.Khir.LiveIntervals
import KushDB.Khir.LivenessSound
import KushDB.Khir.LinearScan
import KushDB.Library.RegisterPool
import KushDB.Khir.LinearScanPools
import KushDB.Khir.LinearScanRun
import KushDB.Khir.LivePrecise
import KushDB.Khir.CallArgLiveness
import KushDB.Khir.FixedIntervals
import KushDB.Khir.ParameterIntervals
import KushDB.Khir.Reservations
import KushDB.Khir.IntervalSchedule
import KushDB.Khir.AllocationSafety
import KushDB.Khir.Emitter
import KushDB.Khir.EmittedReads
import KushDB.Khir.PendingArguments
import KushDB.Khir.EmitterLiveness
import KushDB.Compile.Nullability
import KushDB.Library.WeakOrder
import KushDB.Compile.LessThan
import KushDB.Compile.Aggregator
import KushDB.Compile.AggregateCorrectness
import KushDB.Compile.AggregateOperator
import KushDB.Execution.ChunkRanges
import KushDB.Library.Calendar
import KushDB.Runtime.DateConversion
import KushDB.Execution.PipelineGraph
import KushDB.Runtime.TextColumn
import KushDB.Execution.PipelineOrder
import KushDB.Runtime.MergeSort
import KushDB.Compile.OrderBy
import KushDB.Compile.SortedRows
import KushDB.Util.CsvRoundTrip
import KushDB.Khir.OperandMoves
import KushDB.Khir.CallArguments
import KushDB.Khir.CallMoves
import KushDB.Khir.ArgumentPassing
import KushDB.Library.Dominance
import KushDB.Library.PostOrder
import KushDB.Library.Fingers
import KushDB.Khir.DominatorTree
import KushDB.Khir.DominatorPasses
import KushDB.Util.UnionFind
