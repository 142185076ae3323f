import Pineapple.SchedulerSafe
import Pineapple.FailedApply
import Pineapple.BuildInput
import Pineapple.StorageRuns
import Pineapple.InputView
import Pineapple.EngineReads
import Pineapple.GoServer
import Pineapple.GoManagerSafe
import Pineapple.GoLoad
import Pineapple.CppServerSafe
import Pineapple.HttpServe
import Pineapple.RedisPool
import Pineapple.JsonWriter
import Pineapple.CppManagerSafe
import Pineapple.OutputCovered
import Pineapple.RunCounts
import Pineapple.TemplateMarkers
import Pineapple.TemplateNumber
import Pineapple.SharedMutex
import Pineapple.RedisWrite
import Pineapple.SsrfDial
import Pineapple.Containment
import Pineapple.JavaQuiet
import Pineapple.JavaPool
import Pineapple.JavaLifetime
import Pineapple.TopologicalSort
import Pineapple.Expansion
import Pineapple.DagReduce
import Pineapple.AppleFlow
import Pineapple.AppleCompile
import Pineapple.AppleBuilt
import Pineapple.AppleTraverse
import Pineapple.AppleWrites
import Pineapple.AppleDeadCode
import Pineapple.AppleEmit
import Pineapple.AppleOrder
import Pineapple.AppleConfig
import Pineapple.AppleLoad
import Pineapple.RunAhead
import Pineapple.AppleCoverage
import Pineapple.RedisCodec
import Pineapple.NumberRendering
import Pineapple.LookupKey
import Pineapple.Pagination
import Pineapple.ValueRendering
import Pineapple.Lib.StableSort
import Pineapple.StorageKinds
import Pineapple.Render
import Pineapple.RenderText
import Pineapple.Reorder
import Pineapple.GoColumns
import Pineapple.GoColumnFrame
import Pineapple.ColumnStorage
import Pineapple.ItemReads
import Pineapple.Lib.Repeats
import Pineapple.JsonEquality
import Pineapple.GoMarshal
import Pineapple.Dedup
import Pineapple.Lib.LineReader
import Pineapple.Lib.LowerBound
import Pineapple.Lib.Marker
import Pineapple.FlatMap
import Pineapple.LuaBridge
import Pineapple.LuaStack
import Pineapple.LuaPool
import Pineapple.ConnectionPool
import Pineapple.Metrics
import Pineapple.Snapshots
import Pineapple.JavaRedisKey
import Pineapple.JavaCompare
import Pineapple.NonFiniteScan
import Pineapple.RedisExpiry
import Pineapple.RedisMetrics
import Pineapple.JavaLuaPool
import Pineapple.JavaCounts
import Pineapple.Warnings
import Pineapple.DebugRuns
import Pineapple.RecycledOutputs
import Pineapple.Lib.RoundingOrder
import Pineapple.JavaMarshal
import Pineapple.DataParallel
import Pineapple.SequentialRun
import Pineapple.ThreadPool
import Pineapple.CancelTree
import Pineapple.Arena
