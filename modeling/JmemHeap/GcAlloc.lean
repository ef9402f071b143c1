import JmemHeap.Free

/-!
# Allocation with garbage collection

`jmem_heap_gc_and_alloc_block` rounds the request, runs the collector first when the
projected size passes the soft limit, and tries the allocation. When the attempt fails, the
segmented backend first attaches a new segment group and retries; then the collector runs
at `LOW` and `HIGH` severity with a retry after each, and the segmented backend tries a
segment group once more. If everything fails the call returns `NULL` or ends the engine
with `ERR_OUT_OF_MEMORY`, as its caller asked.

The collector belongs to the engine, so the calls here act on an `Engine`: the heap together
with the blocks the engine holds, which the collector may release. Each outcome carries the
sequence of calls the allocator made (`Event`), which is what a caller can observe of the
ladder.

`alloc_a_segment_group` is not in the source; it is modelled from the spec here.
-/

namespace JmemHeap

/-- The engine around the allocator: the heap, and the blocks the engine holds. -/
structure Engine where
  heap : Heap
  live : List Block

/-- A call `jmem_heap_gc_and_alloc_block` makes. -/
inductive Event where
  /-- `jmem_run_free_unused_memory_callbacks (severity)`. -/
  | callbacks (severity : Severity)
  /-- `jmem_heap_alloc_block_internal`, with the pointer it returned. -/
  | attempt (result : Nat)
  /-- `alloc_a_segment_group`, with the pointer it returned. -/
  | segmentGroup (result : Nat)
  deriving DecidableEq, Repr

/-- How `jmem_heap_gc_and_alloc_block` ends. -/
inductive Outcome where
  /-- It returns the pointer `p` (`0` is `NULL`). -/
  | returned (p : Nat) (e : Engine) (trace : List Event)
  /-- It calls `jerry_fatal (ERR_OUT_OF_MEMORY)`. -/
  | fatal (trace : List Event)

/-- The calls `jmem_heap_gc_and_alloc_block` made, whichever way it ended. -/
def Outcome.trace : Outcome → List Event
  | .returned _ _ tr => tr
  | .fatal tr => tr

section

variable (cfg : Config) (env : Env)

/-- The collector releases `blocks` one after another, each through
`jmem_heap_free_block_internal` with its size and kind. -/
def freeAll : List Block → Engine → Option Engine
  | [], e => some e
  | b :: bs, e => (jmemHeapFreeBlockInternal cfg b.ptr b.size b.small e.heap).bind
      fun h ↦ freeAll bs ⟨h, e.live.erase b⟩

/-- `jmem_run_free_unused_memory_callbacks (severity)`. -/
def jmemRunFreeUnusedMemoryCallbacks (severity : Severity) (e : Engine) : Option Engine :=
  freeAll cfg (env.collect severity e.heap e.live) e

/-- One `BLOCK ALLOC` of the ladder: `jmem_heap_alloc_block_internal` on the engine's heap. -/
def blockAlloc (size : Nat) (isSmallBlock : Bool) (e : Engine) : Option (Nat × Engine) :=
  (jmemHeapAllocBlockInternal cfg env size isSmallBlock e.heap).map
    fun r ↦ (r.1, { e with heap := r.2 })

/-! ## Segment groups -/

/-- Modelled from the spec: the first run of `count` detached segments. -/
def freeSegmentRun (count : Nat) (s : Heap) : Option Nat :=
  (List.range cfg.numSegments).find? fun i ↦
    decide (i + count ≤ cfg.numSegments) && (List.range count).all fun j ↦ !s.allocated (i + j)

/-- Modelled from the spec: segments `i … i + count - 1` are attached to the backing memory
at `base`, one after another, with nothing occupied. -/
def Heap.attachSegments (i count base : Nat) (s : Heap) : Heap :=
  let inGroup := fun j ↦ decide (i ≤ j) && decide (j < i + count)
  { s with
    area := fun j ↦ if inGroup j then base + (j - i) * cfg.segmentSize else s.area j
    allocated := fun j ↦ inGroup j || s.allocated j
    occupied := fun j ↦ if inGroup j then 0 else s.occupied j }

/-- Modelled from the spec: the new region of `len` bytes at offset `start` is merged into the
last region below it, `prevP`, when that one ends where it starts in offsets, and linked after
`prevP` otherwise. Returns the header that now holds the new region. -/
def spliceUpdatePrev (prevP start len : Nat) (s : Heap) : Nat × Heap :=
  if prevP ≠ cfg.firstAddr ∧ jmemCompressPointerInternal cfg s prevP + s.size prevP = start then
    (prevP, s.setSize prevP (s.size prevP + len))
  else
    let regionP := jmemDecompressPointerInternal cfg s start
    (regionP, (s.setSize regionP len).setNext prevP start)

/-- Modelled from the spec: the region at `headP` absorbs the region linked as `nextCp` when it
ends where that one starts in offsets, and links to it otherwise. -/
def spliceUpdateNext (headP nextCp : Nat) (s : Heap) : Heap :=
  if jmemCompressPointerInternal cfg s headP + s.size headP = nextCp then
    let nextP := jmemDecompressPointerInternal cfg s nextCp
    (s.setSize headP (s.size headP + s.size nextP)).setNext headP (s.nextOffset nextP)
  else s.setNext headP nextCp

/-- Modelled from the spec: the new region of `len` bytes at offset `start` is linked after
the last region below it, and merged with a neighbour whose offsets touch it. -/
def spliceFreeRegion (start len : Nat) (s : Heap) : Option Heap := do
  let (prevP, _) ← freeWalk cfg s start loopBound cfg.firstAddr 0
  let r := spliceUpdatePrev cfg prevP start len s
  pure { spliceUpdateNext cfg r.1 (s.nextOffset prevP) r.2 with skip := prevP }

/-- Modelled from the spec (`alloc_a_segment_group` is in `jmem-heap-segmented.c`, not in the
source): "acquires one or more adjacent segments sufficient to cover need: it obtains backing
memory, marks those segments allocated, and splices the newly created free region(s) into the
free list in the correct sorted position with coalescing". Returns the group's base, or `0`
when no run of segments is free or `malloc` fails. -/
def allocASegmentGroup (size : Nat) (s : Heap) : Option (Nat × Heap) :=
  let count := max 1 ((size + cfg.segmentSize - 1) / cfg.segmentSize)
  match freeSegmentRun cfg count s with
  | none => some (0, s)
  | some i =>
    let base := env.malloc s (count * cfg.segmentSize)
    if base = 0 then some (0, s)
    else (spliceFreeRegion cfg (i * cfg.segmentSize) (count * cfg.segmentSize)
      (s.attachSegments cfg i count base)).map (base, ·)

/-- `if (alloc_a_segment_group (size) != NULL) { data_space_p = BLOCK ALLOC; return
data_space_p; }`, which the segmented backend runs before and after the collector; the
retried pointer is returned unchecked. `orElse` goes on when no group is attached. -/
def trySegmentGroup (size : Nat) (isSmallBlock : Bool) (e : Engine) (tr : List Event)
    (orElse : Engine → List Event → Option Outcome) : Option Outcome := do
  let (g, h) ← allocASegmentGroup cfg env size e.heap
  if g = 0 then orElse { e with heap := h } (tr ++ [.segmentGroup 0])
  else
    let (p, e) ← blockAlloc cfg env size isSmallBlock { e with heap := h }
    pure (.returned p e (tr ++ [.segmentGroup g, .attempt p]))

/-! ## The ladder -/

/-- The projected size compared with the limit: live bytes on the static and segmented
backends, the heap size otherwise, where `DE_SLAB` does not count a small block. -/
def allocatedSize (s : Heap) (size : Nat) (isSmallBlock : Bool) : Nat :=
  if cfg.backend = .static ∨ cfg.backend = .segmented then
    (s.counters.blocksSize + size) % 2 ^ cfg.sizeBits
  else if cfg.backend.slab && isSmallBlock then
    ((s.counters.allocatedHeapSize + size) % 2 ^ cfg.sizeBits + 2 ^ cfg.sizeBits - size % 2 ^ cfg.sizeBits)
      % 2 ^ cfg.sizeBits
  else (s.counters.allocatedHeapSize + size) % 2 ^ cfg.sizeBits

/-- The test that runs the collector before the first attempt: against `JMEM_HEAP_SIZE`
under `JMEM_LAZY_GC`, against `jmem_heap_limit` otherwise. -/
def expectedOverSize (s : Heap) (size : Nat) (isSmallBlock : Bool) : Bool :=
  if cfg.lazyGc then decide (allocatedSize cfg s size isSmallBlock > cfg.heapSize)
  else decide (allocatedSize cfg s size isSmallBlock > s.counters.heapLimit)

/-- The end of `jmem_heap_gc_and_alloc_block` once the severity loop has failed with
`data_space_p = p`: a last segment group on the segmented backend, then `NULL` or
`jerry_fatal (ERR_OUT_OF_MEMORY)`. -/
def gcAllocAfterCallbacks (size : Nat) (retNullOnError isSmallBlock : Bool) (p : Nat)
    (e : Engine) (tr : List Event) : Option Outcome :=
  let outOfMemory := fun (e : Engine) (tr : List Event) ↦
    some (if retNullOnError then Outcome.returned p e tr else .fatal tr)
  if cfg.backend = .segmented then trySegmentGroup cfg env size isSmallBlock e tr outOfMemory
  else outOfMemory e tr

/-- `for (severity = LOW; severity <= HIGH; severity++)`: run the collector, retry, and stop
at the first success. -/
def gcAllocSeverityLoop (size : Nat) (retNullOnError isSmallBlock : Bool) :
    List Severity → Nat → Engine → List Event → Option Outcome
  | [], p, e, tr => gcAllocAfterCallbacks cfg env size retNullOnError isSmallBlock p e tr
  | severity :: rest, _, e, tr => do
    let e ← jmemRunFreeUnusedMemoryCallbacks cfg env severity e
    let (p, e) ← blockAlloc cfg env size isSmallBlock e
    let tr := tr ++ [.callbacks severity, .attempt p]
    if p ≠ 0 then pure (.returned p e tr)
    else gcAllocSeverityLoop size retNullOnError isSmallBlock rest p e tr

/-- "GC 0: before each alloc": under `JMEM_GC_BEFORE_EACH_ALLOC` the collector runs at `HIGH`
severity before every allocation. -/
def gcBeforeEach (e : Engine) : Option (Engine × List Event) :=
  if cfg.gcBeforeEachAlloc then
    (jmemRunFreeUnusedMemoryCallbacks cfg env .high e).map (·, [Event.callbacks .high])
  else some (e, [])

/-- "GC 1: expected over-size": the collector runs at `LOW` severity when the projected size
is over the limit. -/
def gcExpectedOverSize (size : Nat) (isSmallBlock : Bool) (e : Engine) (tr : List Event) :
    Option (Engine × List Event) :=
  if expectedOverSize cfg e.heap size isSmallBlock then
    (jmemRunFreeUnusedMemoryCallbacks cfg env .low e).map (·, tr ++ [Event.callbacks .low])
  else some (e, tr)

/-- `jmem_heap_gc_and_alloc_block`. -/
def jmemHeapGcAndAllocBlock (requiredSize : Nat) (retNullOnError isSmallBlock : Bool)
    (e : Engine) : Option Outcome :=
  if requiredSize = 0 then some (.returned 0 e [])
  else do
    let size := cfg.alignUp requiredSize
    let (e, tr) ← gcBeforeEach cfg env e
    let (e, tr) ← gcExpectedOverSize cfg env size isSmallBlock e tr
    let (p, e) ← blockAlloc cfg env size isSmallBlock e
    let tr := tr ++ [.attempt p]
    if p ≠ 0 then pure (.returned p e tr)
    else
      let loop := gcAllocSeverityLoop cfg env size retNullOnError isSmallBlock [.low, .high]
      if cfg.backend = .segmented then trySegmentGroup cfg env size isSmallBlock e tr (loop p)
      else loop p e tr

/-! ## The public entry points -/

/-- `jmem_heap_alloc_block`: ends the engine when memory runs out. -/
def jmemHeapAllocBlock (size : Nat) (e : Engine) : Option Outcome :=
  jmemHeapGcAndAllocBlock cfg env size false false e

/-- `jmem_heap_alloc_block_null_on_error`. -/
def jmemHeapAllocBlockNullOnError (size : Nat) (e : Engine) : Option Outcome :=
  jmemHeapGcAndAllocBlock cfg env size true false e

/-- `jmem_heap_alloc_block_small_object`. -/
def jmemHeapAllocBlockSmallObject (size : Nat) (e : Engine) : Option Outcome :=
  jmemHeapGcAndAllocBlock cfg env size false true e

/-- `jmem_heap_free_block`. -/
def jmemHeapFreeBlock (ptr size : Nat) (s : Heap) : Option Heap :=
  jmemHeapFreeBlockInternal cfg ptr size false s

/-- `jmem_heap_free_block_small_object`. -/
def jmemHeapFreeBlockSmallObject (ptr size : Nat) (s : Heap) : Option Heap :=
  jmemHeapFreeBlockInternal cfg ptr size true s

end

end JmemHeap
