import JmemHeap.Context

/-!
# Allocation paths

`jmem_heap_alloc_block_internal` rounds the request to whole granules and takes the fast
path for a one-granule request when the free list is not empty, the slow first-fit walk
otherwise; afterwards it raises the soft limit above the live byte count. On the
system-allocator backend it hands the request to `malloc` instead.

The `while` loops of the source are bounded by `loopBound` rounds. Each loop's state fits
in 64 bits, so a loop still running after that many rounds has revisited a state and runs
for ever; the model reports this as `none`, and never otherwise.
-/

namespace JmemHeap

/-- More rounds than any loop of `jmem-heap.c` has states. -/
def loopBound : Nat := 2 ^ 64

/-- A value stored in a `uint32_t`. -/
def u32 (x : Nat) : Nat := x % 2 ^ 32

/-- `a - b` in `uint32_t`. -/
def u32Sub (a b : Nat) : Nat := (a % 2 ^ 32 + 2 ^ 32 - b % 2 ^ 32) % 2 ^ 32

/-- A conversion to `int`: the low 32 bits, read in two's complement. -/
def toInt (x : Nat) : Int := if x % 2 ^ 32 < 2 ^ 31 then (x % 2 ^ 32 : Nat) else (x % 2 ^ 32 : Nat) - 2 ^ 32

/-- `occupied_size += n` (`add`) or `occupied_size -= n` on the `uint32_t` field of a segment
header. -/
def occupiedUpdate (add : Bool) (occupied n : Nat) : Nat :=
  if add then u32 (occupied + n) else u32Sub occupied n

section

variable (cfg : Config)

/-- The accounting both allocation paths do for a new block of `size` bytes:
`jmem_heap_blocks_size`, `jmem_heap_allocated_blocks_count`, and on the dynamic-emulation
backend `jmem_allocated_heap_size` and `jmem_system_allocator_metadata_size`, which `DE_SLAB`
leaves alone for a small block. -/
def Counters.recordAlloc (size : Nat) (isSmallBlock : Bool) (c : Counters) : Counters :=
  let c := { c with
    blocksSize := c.blocksSize + size
    allocatedBlocksCount := c.allocatedBlocksCount + 1 }
  if cfg.backend.isDynamicEmul && !(cfg.backend.slab && isSmallBlock) then
    { c with
      allocatedHeapSize := c.allocatedHeapSize + size
      systemAllocatorMetadataSize := c.systemAllocatorMetadataSize + cfg.metadataSize }
  else c

/-- `Counters.recordAlloc` on the heap's counters. -/
def Heap.recordAlloc (size : Nat) (isSmallBlock : Bool) (s : Heap) : Heap :=
  { s with counters := s.counters.recordAlloc cfg size isSmallBlock }

/-- `JMEM_HEAP_STAT_ALLOC_ITER ()`, `k` times. -/
def Heap.statAllocIter (k : Nat) (s : Heap) : Heap :=
  s.stat cfg fun st ↦ { st with allocIterCount := st.allocIterCount + k }

/-- `jmem_heap_alloc_block_internal_fast`: takes the first granule of the first free region. -/
def jmemHeapAllocBlockInternalFast (isSmallBlock : Bool) (s : Heap) : Nat × Heap :=
  let dataSpaceP := jmemDecompressPointerInternal cfg s (s.nextOffset cfg.firstAddr)
  let s := s.recordAlloc cfg cfg.alignment isSmallBlock
  let blockOffset := s.nextOffset cfg.firstAddr
  let s := if cfg.backend = .segmented then
      let sidx := blockOffset / cfg.segmentSize
      s.setOccupied sidx (occupiedUpdate true (s.occupied sidx) cfg.alignment)
    else s
  let s := s.statAllocIter cfg 1
  let s := if s.size dataSpaceP = cfg.alignment then
      s.setNext cfg.firstAddr (s.nextOffset dataSpaceP)
    else
      let remainingOffset := u32 (blockOffset + cfg.alignment)
      let remainingP := jmemDecompressPointerInternal cfg s remainingOffset
      let s := s.setSize remainingP (u32Sub (s.size dataSpaceP) cfg.alignment)
      let s := s.setNext remainingP (s.nextOffset dataSpaceP)
      s.setNext cfg.firstAddr remainingOffset
  let s := if dataSpaceP = s.skip then
      { s with skip := jmemDecompressPointerInternal cfg s (s.nextOffset cfg.firstAddr) }
    else s
  (dataSpaceP, s)

/-- Where the walk of `jmem_heap_alloc_block_internal_slow` stops. -/
inductive SlowSearch where
  /-- At the region with offset `currentOffset`, linked from the header at `prevP`. -/
  | found (prevP currentOffset : Nat)
  /-- At `JMEM_HEAP_END_OF_LIST`. -/
  | exhausted
  deriving DecidableEq, Repr

/-- The loop of `jmem_heap_alloc_block_internal_slow` up to its `break`: from the header at
`prevP` and the offset `currentOffset` it links to, the first region of at least
`requiredSize` bytes, with the number of regions visited. -/
def slowSearch (requiredSize : Nat) (s : Heap) :
    (fuel prevP currentOffset visited : Nat) → Option (SlowSearch × Nat)
  | 0, _, _, _ => none
  | fuel + 1, prevP, currentOffset, visited =>
    if currentOffset = cfg.endOfList then some (.exhausted, visited)
    else
      let currentP := jmemDecompressPointerInternal cfg s currentOffset
      if s.size currentP ≥ requiredSize then some (.found prevP currentOffset, visited + 1)
      else slowSearch requiredSize s fuel currentP (s.nextOffset currentP) (visited + 1)

/-- The segment-occupancy loop of `jmem_heap_alloc_block_internal_slow`
(`occupied_size += size_to_alloc_in_segment`, `add`) and its copy in
`jmem_heap_free_block_internal` (`occupied_size -= size_to_free_in_segment`): the block is
cut at segment ends, with end-inclusive offsets, and each piece is charged to its segment. -/
def occupancyLoop (add : Bool) (blockEndOffset : Nat) :
    (fuel : Nat) → (sizeLeft : Int) → (fragmentStartOffset : Nat) → Heap → Option Heap
  | 0, sizeLeft, _, s => if 0 < sizeLeft then none else some s
  | fuel + 1, sizeLeft, fragmentStartOffset, s =>
    if 0 < sizeLeft then
      let sidx := fragmentStartOffset / cfg.segmentSize
      let segmentEndOffset := u32Sub ((sidx + 1) * cfg.segmentSize) cfg.alignment
      let fragmentEndOffset :=
        if blockEndOffset < segmentEndOffset then blockEndOffset else segmentEndOffset
      let sizeInSegment := u32 (u32Sub fragmentEndOffset fragmentStartOffset + cfg.alignment)
      let s := s.setOccupied sidx (occupiedUpdate add (s.occupied sidx) sizeInSegment)
      occupancyLoop add blockEndOffset fuel (sizeLeft - toInt sizeInSegment)
        (u32 (fragmentEndOffset + cfg.alignment)) s
    else some s

/-- The occupancy update for the block of `size` bytes at offset `blockStartOffset`, which
only the segmented backend makes (`#ifdef JMEM_SEGMENTED_HEAP`), as the source sets the loop
up: `size_to_alloc = (int) size` and
`block_end_offset = block_start_offset + (uint32_t) size_to_alloc - JMEM_ALIGNMENT`. -/
def Heap.updateOccupancy (add : Bool) (blockStartOffset size : Nat) (s : Heap) : Option Heap :=
  if cfg.backend = .segmented then
    occupancyLoop cfg add (u32Sub (blockStartOffset + size) cfg.alignment) loopBound (toInt size)
      blockStartOffset s
  else some s

/-- The slow path once its walk has stopped at the region at `currentOffset`, linked from the
header at `prevP`: the block is carved from the region's start, the rest of the region, if
any, takes its place on the list, and the skip pointer is left at `prevP`. -/
def slowAllocAt (requiredSize : Nat) (isSmallBlock : Bool) (prevP currentOffset : Nat)
    (s : Heap) : Option (Nat × Heap) := do
  let currentP := jmemDecompressPointerInternal cfg s currentOffset
  let nextOffset := s.nextOffset currentP
  let s := s.recordAlloc cfg requiredSize isSmallBlock
  let s ← s.updateOccupancy cfg true currentOffset requiredSize
  let s := if s.size currentP > requiredSize then
      let remainingP := currentP + requiredSize
      let s := s.setSize remainingP (u32Sub (s.size currentP) requiredSize)
      let s := s.setNext remainingP nextOffset
      s.setNext prevP (if cfg.backend = .segmented then u32 (currentOffset + requiredSize)
        else jmemCompressPointerInternal cfg s remainingP)
    else s.setNext prevP nextOffset
  pure (currentP, { s with skip := prevP })

/-- `jmem_heap_alloc_block_internal_slow`: first fit from `first`. Returns `0` (`NULL`) when
no region is large enough. -/
def jmemHeapAllocBlockInternalSlow (requiredSize : Nat) (isSmallBlock : Bool) (s : Heap) :
    Option (Nat × Heap) := do
  let (r, visited) ← slowSearch cfg requiredSize s loopBound cfg.firstAddr
    (s.nextOffset cfg.firstAddr) 0
  let s := s.statAllocIter cfg visited
  match r with
  | .exhausted => pure (0, s)
  | .found prevP currentOffset => slowAllocAt cfg requiredSize isSmallBlock prevP currentOffset s

/-- `jmem_heap_alloc_block_internal_dynamic_real`: the block comes from `malloc`, and the
`size_t` counters grow whether or not `malloc` returned `NULL`. -/
def jmemHeapAllocBlockInternalDynamicReal (env : Env) (size : Nat) (s : Heap) : Nat × Heap :=
  let dataSpaceP := env.malloc s size
  let alignedSize :=
    cfg.roundUp cfg.systemAlignBytes ((size + cfg.metadataSize) % 2 ^ cfg.sizeBits)
  (dataSpaceP, { s with counters := { s.counters with
    blocksSize := (s.counters.blocksSize + size) % 2 ^ cfg.sizeBits
    allocatedHeapSize := (s.counters.allocatedHeapSize + alignedSize) % 2 ^ cfg.sizeBits
    systemAllocatorMetadataSize :=
      (s.counters.systemAllocatorMetadataSize + cfg.metadataSize) % 2 ^ cfg.sizeBits
    allocatedBlocksCount := (s.counters.allocatedBlocksCount + 1) % 2 ^ cfg.sizeBits } })

/-- `while (jmem_heap_blocks_size >= jmem_heap_limit)
jmem_heap_limit += CONFIG_MEM_HEAP_DESIRED_LIMIT;`, for at most `rounds` rounds. -/
def raiseHeapLimit (blocksSize : Nat) : (rounds heapLimit : Nat) → Nat
  | 0, heapLimit => heapLimit
  | rounds + 1, heapLimit =>
    if blocksSize ≥ heapLimit then raiseHeapLimit blocksSize rounds (heapLimit + cfg.desiredLimit)
    else heapLimit

/-- The path `jmem_heap_alloc_block_internal` takes for `requiredSize` bytes: the fast path
for one granule when the free list is not empty, the slow path otherwise. -/
def allocFastOrSlow (requiredSize : Nat) (isSmallBlock : Bool) (s : Heap) : Option (Nat × Heap) :=
  if requiredSize = cfg.alignment ∧ s.nextOffset cfg.firstAddr ≠ cfg.endOfList then
    some (jmemHeapAllocBlockInternalFast cfg isSmallBlock s)
  else jmemHeapAllocBlockInternalSlow cfg requiredSize isSmallBlock s

/-- `jmem_heap_alloc_block_internal`. The limit loop runs at most `blocks_size + 1` rounds,
since each round raises the limit by at least one. -/
def jmemHeapAllocBlockInternal (env : Env) (size : Nat) (isSmallBlock : Bool) (s : Heap) :
    Option (Nat × Heap) :=
  if cfg.backend = .system then some (jmemHeapAllocBlockInternalDynamicReal cfg env size s)
  else do
    let requiredSize := cfg.alignUp size
    let (dataSpaceP, s) ← allocFastOrSlow cfg requiredSize isSmallBlock s
    let s := { s with
      counters.heapLimit := raiseHeapLimit cfg s.counters.blocksSize (s.counters.blocksSize + 1)
        s.counters.heapLimit }
    if dataSpaceP = 0 then pure (0, s)
    else pure (dataSpaceP, s.stat cfg (jmemHeapStatAlloc cfg size))

end

end JmemHeap
