import JmemHeap.Alloc

/-!
# Freeing a block

`jmem_heap_free_block_internal` walks the address-ordered free list to the last region
below the block, starting from the skip pointer when the block lies above it, and links the
block in after that region, merging it with its neighbours when they touch. The neighbour
tests compare host pointers (`jmem_heap_get_region_end`), the walk compares compressed
offsets. On the system-allocator backend the block goes back to `free` and only the counters
change.
-/

namespace JmemHeap

section

variable (cfg : Config)

/-- The accounting of a released block of `size` bytes, mirroring `Counters.recordAlloc`. -/
def Counters.recordFree (size : Nat) (isSmallObject : Bool) (c : Counters) : Counters :=
  let c := { c with
    blocksSize := c.blocksSize - size
    allocatedBlocksCount := c.allocatedBlocksCount - 1 }
  if cfg.backend.isDynamicEmul && !(cfg.backend.slab && isSmallObject) then
    { c with
      allocatedHeapSize := c.allocatedHeapSize - size
      systemAllocatorMetadataSize := c.systemAllocatorMetadataSize - cfg.metadataSize }
  else c

/-- `JMEM_HEAP_STAT_FREE_ITER ()`, `k` times. -/
def Heap.statFreeIter (k : Nat) (s : Heap) : Heap :=
  s.stat cfg fun st ↦ { st with freeIterCount := st.freeIterCount + k }

/-- The walk `while (prev_p->next_offset < block_offset) prev_p = JMEM_DECOMPRESS_POINTER_INTERNAL
(prev_p->next_offset);` from `prevP`, with the number of rounds taken. -/
def freeWalk (s : Heap) (blockOffset : Nat) : (fuel prevP rounds : Nat) → Option (Nat × Nat)
  | 0, _, _ => none
  | fuel + 1, prevP, rounds =>
    if s.nextOffset prevP < blockOffset then
      freeWalk s blockOffset fuel (jmemDecompressPointerInternal cfg s (s.nextOffset prevP)) (rounds + 1)
    else some (prevP, rounds)

/-- `while (jmem_heap_blocks_size + CONFIG_MEM_HEAP_DESIRED_LIMIT <= jmem_heap_limit)
jmem_heap_limit -= CONFIG_MEM_HEAP_DESIRED_LIMIT;`, for at most `rounds` rounds. -/
def lowerHeapLimit (blocksSize : Nat) : (rounds heapLimit : Nat) → Nat
  | 0, heapLimit => heapLimit
  | rounds + 1, heapLimit =>
    if blocksSize + cfg.desiredLimit ≤ heapLimit then
      lowerHeapLimit blocksSize rounds (heapLimit - cfg.desiredLimit)
    else heapLimit

/-- The system-allocator branch of `jmem_heap_free_block_internal`: `free (ptr)` and the
`size_t` counters, by the size the caller passes. -/
def systemFree (size : Nat) (s : Heap) : Heap :=
  let alignedSize :=
    cfg.roundUp cfg.systemAlignBytes ((size + cfg.metadataSize) % 2 ^ cfg.sizeBits)
  { s with counters := { s.counters with
    blocksSize := (s.counters.blocksSize + 2 ^ cfg.sizeBits - size % 2 ^ cfg.sizeBits)
      % 2 ^ cfg.sizeBits
    allocatedHeapSize := (s.counters.allocatedHeapSize + 2 ^ cfg.sizeBits - alignedSize)
      % 2 ^ cfg.sizeBits
    systemAllocatorMetadataSize := (s.counters.systemAllocatorMetadataSize + 2 ^ cfg.sizeBits
      - cfg.metadataSize % 2 ^ cfg.sizeBits) % 2 ^ cfg.sizeBits
    allocatedBlocksCount := (s.counters.allocatedBlocksCount + 2 ^ cfg.sizeBits - 1)
      % 2 ^ cfg.sizeBits } }

/-- "Update prev." of `jmem_heap_free_block_internal`: the block at `blockP` is merged into
`prevP` when that region ends where the block starts, and linked after it otherwise. Returns
the header that now holds the block. -/
def freeUpdatePrev (prevP blockP blockOffset alignedSize : Nat) (s : Heap) : Nat × Heap :=
  if jmemHeapGetRegionEnd s prevP = blockP then
    (prevP, s.setSize prevP (u32 (s.size prevP + u32 alignedSize)))
  else (blockP, (s.setSize blockP (u32 alignedSize)).setNext prevP blockOffset)

/-- "Update next.": the region at `blockP` absorbs the region `nextP`, linked as `nextCp`,
when it ends where that one starts, and links to it otherwise. -/
def freeUpdateNext (blockP nextCp nextP : Nat) (s : Heap) : Heap :=
  if jmemHeapGetRegionEnd s blockP = nextP then
    let s := s.setSize blockP (u32 (s.size blockP + s.size nextP))
    s.setNext blockP (s.nextOffset nextP)
  else s.setNext blockP nextCp

/-- The link and the two merges of `jmem_heap_free_block_internal` once the walk has stopped
at the block's predecessor `prevP`. The neighbour tests compare host pointers
(`jmem_heap_get_region_end`). The skip pointer is left at `prevP`. -/
def freeLink (prevP blockP blockOffset alignedSize : Nat) (s : Heap) : Heap :=
  let nextCp := s.nextOffset prevP
  let nextP := jmemDecompressPointerInternal cfg s nextCp
  let r := freeUpdatePrev prevP blockP blockOffset alignedSize s
  { freeUpdateNext r.1 nextCp nextP r.2 with skip := prevP }

/-- The list part of `jmem_heap_free_block_internal` for the block at `blockP`, whose offset
is `blockOffset`: the walk to its predecessor, from the skip pointer when the block lies
above it and from `first` otherwise, then `freeLink`. -/
def freeInsert (blockP blockOffset alignedSize : Nat) (s : Heap) : Option Heap := do
  let isSkipOk := if cfg.backend = .segmented then
      decide (blockOffset > jmemCompressPointerInternal cfg s s.skip)
    else decide (blockP > s.skip)
  let prevP := if isSkipOk then s.skip else cfg.firstAddr
  let s := if isSkipOk then s.stat cfg fun st ↦ { st with skipCount := st.skipCount + 1 }
    else s.stat cfg fun st ↦ { st with nonskipCount := st.nonskipCount + 1 }
  let (prevP, rounds) ← freeWalk cfg s blockOffset loopBound prevP 0
  pure (freeLink cfg prevP blockP blockOffset alignedSize (s.statFreeIter cfg rounds))

/-- `jmem_heap_free_block_internal`. The limit loop runs at most `jmem_heap_limit + 1` rounds,
since each round lowers the limit by at least one. -/
def jmemHeapFreeBlockInternal (ptr size : Nat) (isSmallObject : Bool) (s : Heap) :
    Option Heap :=
  if cfg.backend = .system then some (systemFree cfg size s)
  else do
    let s := s.statFreeIter cfg 1
    let blockOffset := jmemCompressPointerInternal cfg s ptr
    let alignedSize := cfg.alignUp size
    let s ← freeInsert cfg ptr blockOffset alignedSize s
    let s ← s.updateOccupancy cfg false blockOffset alignedSize
    let s := { s with counters := s.counters.recordFree cfg alignedSize isSmallObject }
    let s := { s with
      counters.heapLimit := lowerHeapLimit cfg s.counters.blocksSize (s.counters.heapLimit + 1)
        s.counters.heapLimit }
    pure (s.stat cfg (jmemHeapStatFree cfg size))

end

end JmemHeap
