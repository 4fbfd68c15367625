import HelixDb.OperationQueue.Size
import HelixDb.Property.EqualityIndexValue
import HelixDb.IdAllocator.Watermark
import HelixDb.Backlog.NextTarget
import HelixDb.Backlog.Reconciliation
import HelixDb.Keys.Isolation
import HelixDb.Planner.SetRewrite
import HelixDb.Planner.Prune
import HelixDb.GraphAlgorithms.Construction
import HelixDb.GraphAlgorithms.ShortestPath
import HelixDb.Relational.Paging
import HelixDb.Property.MachineNumber
import HelixDb.MergeOperator.Validation
import HelixDb.MergeOperator.Counter
import HelixDb.Relational.Range
import HelixDb.Property.TotalOrder
import HelixDb.OperationQueue.Latest
import HelixDb.Lifecycle.Watermarks
