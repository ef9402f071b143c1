import JmemHeap.Config
import JmemHeap.Context
import JmemHeap.Alloc
import JmemHeap.Free
import JmemHeap.GcAlloc
import JmemHeap.Run
import JmemHeap.Invariant
import JmemHeap.Accounting
import JmemHeap.Limit
import JmemHeap.Counters
import JmemHeap.Regions
import JmemHeap.FreeList
import JmemHeap.Surgery
import JmemHeap.Shape
import JmemHeap.Segments
import JmemHeap.Ladder
import JmemHeap.Occupancy
import JmemHeap.Layout
import JmemHeap.Walks
import JmemHeap.Paths
import JmemHeap.FirstFit
import JmemHeap.Statistics
import JmemHeap.Progress
