import SmallObject.RangeMap.Overlap
import SmallObject.RangeMap.Restore
import SmallObject.RangeMap.Zigzag
import SmallObject.RangeMap.Record
import SmallObject.RangeMap.Overflow
import SmallObject.Chunk.Runs
import SmallObject.Arena.Runs
import SmallObject.Arena.Intact
import SmallObject.Pool.Alone
import SmallObject.Pool.Reserve
import SmallObject.ObjectAllocator.Malloc
import SmallObject.ObjectAllocator.Instance
import SmallObject.LockFreeList.Links
import SmallObject.LockFreeList.Erase
import SmallObject.Arena.Solo
import SmallObject.Object
import SmallObject.RangeMap.Synchronized
import SmallObject.Pool.Separation
import SmallObject.Pool.Peak
import SmallObject.Pool.Teardown
import SmallObject.Pool.Leaks
import SmallObject.Pool.Exit
import SmallObject.LockFreeList.Progress
import SmallObject.LockFreeList.Teardown
import SmallObject.Pool.Progress
import SmallObject.ObjectAllocator.Release
