import JmemHeap.Config

/-!
# The allocator's state

The allocator keeps its state in the engine context (`JERRY_CONTEXT`) and in the heap
context (`JERRY_HEAP_CONTEXT`): the sentinel `first`, the skip pointer, the byte and block
counters, the soft limit, the segment table and the statistics block. Its free list lives in
memory: every free region starts with a `jmem_heap_free_t` header, and `first` is such a
header too. `Heap` keeps the two header fields of every host address as two maps, so that
a write of one field (`p->size = …`, `p->next_offset = …`) is one update, as in the source.

What the allocator calls out to is `Env`: the engine's collector, which the allocator runs
through `jmem_run_free_unused_memory_callbacks`, and the platform `malloc`.

The `size_t` counters of the system allocator, to which a call adds or from which it takes
the caller's own size, and the statistics counters, are kept modulo `2 ^ sizeBits`, as the
source computes them: their wrap-around is observable. On the heap backends a call adds to
`jmem_heap_blocks_size` and its companions at most the `uint32_t` size of a free region, and
frees take away what the block's allocation added; these counters are natural numbers, which
part from the source's only after some `2 ^ (sizeBits - 32)` calls.
-/

namespace JmemHeap

/-- `jmem_free_unused_memory_severity_t`. -/
inductive Severity where
  | low
  | high
  deriving DecidableEq, Repr

/-- A block the engine holds: the pointer it received, the size it asked for and whether it
was allocated as a small object. It frees the block with the same size and kind. -/
structure Block where
  ptr : Nat
  size : Nat
  small : Bool
  deriving DecidableEq, Repr

/-- The fields of `jmem_heap_stats_t` that `jmem-heap.c` maintains. -/
structure Stats where
  size : Nat
  allocatedBytes : Nat
  peakAllocatedBytes : Nat
  wasteBytes : Nat
  peakWasteBytes : Nat
  allocCount : Nat
  freeCount : Nat
  skipCount : Nat
  nonskipCount : Nat
  allocIterCount : Nat
  freeIterCount : Nat
  deriving DecidableEq, Repr

/-- The zero-initialised statistics block. -/
def Stats.zero : Stats := ⟨0, 0, 0, 0, 0, 0, 0, 0, 0, 0, 0⟩

/-- The allocator's counters in `JERRY_CONTEXT`. -/
structure Counters where
  /-- `jmem_heap_blocks_size`. -/
  blocksSize : Nat
  /-- `jmem_heap_allocated_blocks_count`. -/
  allocatedBlocksCount : Nat
  /-- `jmem_allocated_heap_size`. -/
  allocatedHeapSize : Nat
  /-- `jmem_system_allocator_metadata_size`. -/
  systemAllocatorMetadataSize : Nat
  /-- `jmem_heap_limit`. -/
  heapLimit : Nat
  deriving DecidableEq, Repr

/-- The allocator's part of `JERRY_CONTEXT` and `JERRY_HEAP_CONTEXT`, with the headers in
memory. -/
structure Heap where
  /-- `p->size` of the `jmem_heap_free_t` header at host address `p`. -/
  size : Nat → Nat
  /-- `p->next_offset` of the header at host address `p`. -/
  nextOffset : Nat → Nat
  /-- `jmem_heap_list_skip_p`. -/
  skip : Nat
  counters : Counters
  /-- Segmented backend: `JERRY_HEAP_CONTEXT (area[i])`, the host base of segment `i`. -/
  area : Nat → Nat
  /-- Segmented backend: whether segment `i` is attached to backing memory. -/
  allocated : Nat → Bool
  /-- Segmented backend: `JERRY_HEAP_CONTEXT (segments[i]).occupied_size`. -/
  occupied : Nat → Nat
  /-- `jmem_heap_stats`. -/
  stats : Stats

/-- The context before `jmem_heap_init`: zero-initialised, with whatever the memory holds. -/
def Heap.zero (size nextOffset : Nat → Nat) : Heap :=
  ⟨size, nextOffset, 0, ⟨0, 0, 0, 0, 0⟩, fun _ ↦ 0, fun _ ↦ false, fun _ ↦ 0, Stats.zero⟩

/-- What the allocator calls out to and cannot see into. -/
structure Env where
  /-- `jmem_run_free_unused_memory_callbacks (severity)`: the blocks the engine's collector
  releases, given the heap and the blocks the engine holds. -/
  collect : Severity → Heap → List Block → List Block
  /-- The platform `malloc`: the host address it returns for a request of the given size,
  `0` standing for `NULL`. -/
  malloc : Heap → Nat → Nat

/-- An environment whose collector releases nothing and whose `malloc` always returns `p`. -/
def Env.mallocAt (p : Nat) : Env := ⟨fun _ _ _ ↦ [], fun _ _ ↦ p⟩

/-- An environment whose collector releases nothing and whose `malloc` always fails. -/
def Env.quiet : Env := Env.mallocAt 0

namespace Heap

variable (s : Heap)

/-- `p->size = n`. -/
def setSize (p n : Nat) : Heap := { s with size := fun q ↦ if q = p then n else s.size q }

/-- `p->next_offset = o`. -/
def setNext (p o : Nat) : Heap :=
  { s with nextOffset := fun q ↦ if q = p then o else s.nextOffset q }

/-- `JERRY_HEAP_CONTEXT (segments[i]).occupied_size = n`. -/
def setOccupied (i n : Nat) : Heap :=
  { s with occupied := fun j ↦ if j = i then n else s.occupied j }

end Heap

/-! ## Statistics (`JMEM_STATS`) -/

section Stats

variable (cfg : Config)

/-- `jmem_heap_stat_alloc`: accounts a block requested with `size` bytes. -/
def jmemHeapStatAlloc (size : Nat) (st : Stats) : Stats :=
  let alignedSize := cfg.alignUp size
  let wasteBytes := (alignedSize + 2 ^ cfg.sizeBits - size % 2 ^ cfg.sizeBits) % 2 ^ cfg.sizeBits
  let st := { st with
    allocatedBytes := (st.allocatedBytes + alignedSize) % 2 ^ cfg.sizeBits
    wasteBytes := (st.wasteBytes + wasteBytes) % 2 ^ cfg.sizeBits
    allocCount := st.allocCount + 1 }
  let st := if st.allocatedBytes > st.peakAllocatedBytes then
    { st with peakAllocatedBytes := st.allocatedBytes } else st
  if st.wasteBytes > st.peakWasteBytes then { st with peakWasteBytes := st.wasteBytes } else st

/-- `jmem_heap_stat_free`: accounts the release of a block of `size` bytes. -/
def jmemHeapStatFree (size : Nat) (st : Stats) : Stats :=
  let alignedSize := cfg.alignUp size
  let wasteBytes := (alignedSize + 2 ^ cfg.sizeBits - size % 2 ^ cfg.sizeBits) % 2 ^ cfg.sizeBits
  { st with
    freeCount := st.freeCount + 1
    allocatedBytes := (st.allocatedBytes + 2 ^ cfg.sizeBits - alignedSize) % 2 ^ cfg.sizeBits
    wasteBytes := (st.wasteBytes + 2 ^ cfg.sizeBits - wasteBytes) % 2 ^ cfg.sizeBits }

/-- A statistics update behind one of the `JMEM_HEAP_STAT_*` macros: applied only when
`JMEM_STATS` is defined. -/
def Heap.stat (f : Stats → Stats) (s : Heap) : Heap :=
  if cfg.stats then { s with stats := f s.stats } else s

end Stats

/-! ## Compressed pointers -/

section Pointers

variable (cfg : Config)

/-- `static_compress_pointer_internal`: `(uint32_t) (p) - (uint32_t) (JERRY_HEAP_CONTEXT (area))`. -/
def staticCompressPointerInternal (p : Nat) : Nat :=
  (p % 2 ^ 32 + 2 ^ 32 - cfg.areaBase % 2 ^ 32) % 2 ^ 32

/-- `static_decompress_pointer_internal`: `JERRY_HEAP_CONTEXT (area) + (cp)`, a sum that does
not wrap on the builds modelled (`Config.areaBase_add_le`). -/
def staticDecompressPointerInternal (cp : Nat) : Nat := cfg.areaBase + cp

/-- Modelled from the spec (the segmented pointer codec of `jmem-heap-segmented.h` is not in
the source): a compressed offset names segment `cp / SEG_SEGMENT_SIZE`, whose base
`JERRY_HEAP_CONTEXT (area[sidx])` it is added to. -/
def segmentedDecompressPointer (s : Heap) (cp : Nat) : Nat :=
  s.area (cp / cfg.segmentSize) + cp % cfg.segmentSize

/-- Modelled from the spec: the offset of a host pointer is found from the attached segment
that holds it; a pointer in no attached segment (such as `&first`) compresses to `0`. -/
def segmentedCompressPointer (s : Heap) (p : Nat) : Nat :=
  match (List.range cfg.numSegments).find?
      (fun i ↦ s.allocated i && decide (s.area i ≤ p) && decide (p < s.area i + cfg.segmentSize)) with
  | some i => i * cfg.segmentSize + (p - s.area i)
  | none => 0

/-- `JMEM_COMPRESS_POINTER_INTERNAL`. -/
def jmemCompressPointerInternal (s : Heap) (p : Nat) : Nat :=
  if cfg.backend = .segmented then segmentedCompressPointer cfg s p
  else staticCompressPointerInternal cfg p

/-- `JMEM_DECOMPRESS_POINTER_INTERNAL`. -/
def jmemDecompressPointerInternal (s : Heap) (cp : Nat) : Nat :=
  if cfg.backend = .segmented then segmentedDecompressPointer cfg s cp
  else staticDecompressPointerInternal cfg cp

/-- `jmem_heap_get_region_end`: `(uint8_t *) curr_p + curr_p->size`. -/
def jmemHeapGetRegionEnd (s : Heap) (currP : Nat) : Nat := currP + s.size currP

theorem decompress_of_ne_segmented {s : Heap} (h : cfg.backend ≠ .segmented) (cp : Nat) :
    jmemDecompressPointerInternal cfg s cp = cfg.areaBase + cp := by
  simp [jmemDecompressPointerInternal, h, staticDecompressPointerInternal]

/-- On a contiguous backend every `uint32_t` offset decompresses to an address the host can
represent, so `area + cp` is the sum the host computes. -/
theorem decompress_lt_of_ne_segmented {s : Heap} (h : cfg.backend ≠ .segmented) {cp : Nat}
    (hcp : cp < 2 ^ 32) : jmemDecompressPointerInternal cfg s cp < 2 ^ cfg.sizeBits := by
  have := cfg.areaBase_add_le h
  rw [decompress_of_ne_segmented cfg h]
  omega

/-- On a contiguous backend compression undoes decompression on every `uint32_t` offset. -/
theorem compress_of_ne_segmented {s : Heap} (h : cfg.backend ≠ .segmented) {o : Nat}
    (ho : o < 2 ^ 32) : jmemCompressPointerInternal cfg s (cfg.areaBase + o) = o := by
  simp only [jmemCompressPointerInternal, h, if_false, staticCompressPointerInternal]
  omega

end Pointers

/-! ## Initialisation -/

section Init

variable (cfg : Config) (env : Env)

/-- Modelled from the spec: `init_segmented_heap` (in `jmem-heap-segmented.c`, not in the
source) attaches segment 0, the initial segment group, to backing memory from the platform. -/
def initSegmentedHeap (s : Heap) : Heap :=
  { s with
    area := fun i ↦ if i = 0 then env.malloc s cfg.segmentSize else s.area i
    allocated := fun i ↦ i = 0 || s.allocated i }

/-- `jmem_heap_init_first_free_region`: one free region over the whole area (segment 0 less
its first granule on the segmented backend), linked from `first`; the skip pointer starts
at `first`. -/
def jmemHeapInitFirstFreeRegion (s : Heap) : Heap :=
  let regionP := if cfg.backend = .segmented then s.area 0 + cfg.alignment else cfg.areaBase
  let s := s.setSize regionP
    (if cfg.backend = .segmented then cfg.segmentSize - cfg.alignment else cfg.areaSize)
  let s := s.setNext regionP cfg.endOfList
  let s := s.setSize cfg.firstAddr 0
  let s := s.setNext cfg.firstAddr (jmemCompressPointerInternal cfg s regionP)
  { s with skip := cfg.firstAddr }

/-- `jmem_heap_init_size_metrics`: the static backend counts its whole reservation. -/
def jmemHeapInitSizeMetrics (s : Heap) : Heap :=
  if cfg.backend = .static then { s with counters.allocatedHeapSize := cfg.heapSize } else s

/-- `jmem_heap_stat_init`. -/
def jmemHeapStatInit (st : Stats) : Stats := { st with size := cfg.areaSize }

/-- `jmem_heap_init`. On the system-allocator backend only the statistics are touched. -/
def jmemHeapInit (s : Heap) : Heap :=
  let s := if cfg.backend = .system then s else
    let s := if cfg.backend = .segmented then initSegmentedHeap cfg env s else s
    let s := { s with counters.heapLimit := cfg.desiredLimit }
    jmemHeapInitSizeMetrics cfg (jmemHeapInitFirstFreeRegion cfg s)
  s.stat cfg (jmemHeapStatInit cfg)

end Init

end JmemHeap
