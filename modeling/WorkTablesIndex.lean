import WorkTablesIndex.Library.SortedMap
import WorkTablesIndex.Library.Slice
import WorkTablesIndex.Library.Routing
import WorkTablesIndex.Library.Reference
import WorkTablesIndex.Library.Fenwick
import WorkTablesIndex.Library.Lex
import WorkTablesIndex.Library.GatedLocks
import WorkTablesIndex.Library.Lineage
import WorkTablesIndex.Library.Join
import WorkTablesIndex.Library.Linearizability
import WorkTablesIndex.Library.Confined
import WorkTablesIndex.Library.GracePeriod
import WorkTablesIndex.Node
import WorkTablesIndex.NodeLaws
import WorkTablesIndex.NodeSearch
import WorkTablesIndex.NodeSearchLaws
import WorkTablesIndex.PublishedIndex
import WorkTablesIndex.PublishedIndexLaws
import WorkTablesIndex.PublishedRefinement
import WorkTablesIndex.Topology
import WorkTablesIndex.Publication
import WorkTablesIndex.Change
import WorkTablesIndex.Operation
import WorkTablesIndex.OperationLaws
import WorkTablesIndex.PublicationRuns
import WorkTablesIndex.Set
import WorkTablesIndex.Layout
import WorkTablesIndex.Sections
import WorkTablesIndex.RangeRemoval
import WorkTablesIndex.Concurrent
import WorkTablesIndex.Steps
import WorkTablesIndex.Boundaries
import WorkTablesIndex.SplitEvents
import WorkTablesIndex.Calls
import WorkTablesIndex.Map
import WorkTablesIndex.Refinement
import WorkTablesIndex.Persisted
import WorkTablesIndex.Replay
import WorkTablesIndex.Reachability
import WorkTablesIndex.CheckedInsert
import WorkTablesIndex.Replacement
import WorkTablesIndex.Iter
import WorkTablesIndex.Scan
import WorkTablesIndex.IterLaws
import WorkTablesIndex.ScanTermination
import WorkTablesIndex.Landing
import WorkTablesIndex.FusedIter
import WorkTablesIndex.QuietIter
import WorkTablesIndex.WeakConsistency
import WorkTablesIndex.Partition
import WorkTablesIndex.Visibility
import WorkTablesIndex.PointRead
import WorkTablesIndex.Reclamation
import WorkTablesIndex.GuardSessions
import WorkTablesIndex.AtomicStore
import WorkTablesIndex.Linearization
import WorkTablesIndex.PresentNodes
import WorkTablesIndex.Drawing
import WorkTablesIndex.DrawingLaws
import WorkTablesIndex.EventIds
import WorkTablesIndex.EventClaims
import WorkTablesIndex.ConcurrentReplay
import WorkTablesIndex.DrawnReplay
import WorkTablesIndex.Transparency
import WorkTablesIndex.Progress
import WorkTablesIndex.Occupancy
import WorkTablesIndex.Sweeps
import WorkTablesIndex.OptimisticLookup
import WorkTablesIndex.Recovery
import WorkTablesIndex.Range
import WorkTablesIndex.RangeLaws
import WorkTablesIndex.RangeExact
import WorkTablesIndex.RangeBounds
import WorkTablesIndex.RangeRemovalExact
import WorkTablesIndex.RangeSections
import WorkTablesIndex.SectionScans
import WorkTablesIndex.GroupedRouting
import WorkTablesIndex.MultiMap
import WorkTablesIndex.MultiMapRefinement
import WorkTablesIndex.MultiMapRange
import WorkTablesIndex.KeyLookups
import WorkTablesIndex.LockOrder
import WorkTablesIndex.Checkpoint
import WorkTablesIndex.CheckpointCapacity
import WorkTablesIndex.Indexset.Set
import WorkTablesIndex.Indexset.SetLaws
import WorkTablesIndex.Indexset.SetPositions
import WorkTablesIndex.Indexset.SortedList
import WorkTablesIndex.Indexset.SetRefinement
import WorkTablesIndex.Indexset.Map
import WorkTablesIndex.Indexset.MapLaws
import WorkTablesIndex.Indexset.MapRefinement
import WorkTablesIndex.Indexset.Equality
import WorkTablesIndex.Indexset.Layouts
import WorkTablesIndex.Indexset.Mutations
import WorkTablesIndex.Indexset.NodeCapacity
import WorkTablesIndex.Indexset.NodeSizeOne
import WorkTablesIndex.Indexset.Iter
import WorkTablesIndex.Indexset.Cursor
import WorkTablesIndex.Indexset.IterLaws
import WorkTablesIndex.Indexset.OrderStatistics
import WorkTablesIndex.Indexset.SetAlgebra
import WorkTablesIndex.Indexset.SetAlgebraLaws
import WorkTablesIndex.Indexset.PositionalRanges
import WorkTablesIndex.Indexset.RangeLaws
import WorkTablesIndex.Indexset.CursorLaws
import WorkTablesIndex.Indexset.IterMut
import WorkTablesIndex.Indexset.IterMutLaws
import WorkTablesIndex.Indexset.RangeMutLaws
