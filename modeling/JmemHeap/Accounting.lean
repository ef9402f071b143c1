import JmemHeap.Invariant

/-!
# What each call does to the counters

The counters of `jmem-heap.c` change at a few places only: the accounting of a new or
released block, the two limit loops, and the system-allocator branches. The free-list
surgery, the occupancy loops, the segment groups and the statistics leave them alone. This
file says once, per function, how a call changes `Heap.counters`; the accounting invariants
are derived from these lemmas alone.
-/

namespace JmemHeap

section Record

variable (cfg : Config) (c : Counters) (n : Nat) (small : Bool)

@[simp] theorem recordAlloc_blocksSize : (c.recordAlloc cfg n small).blocksSize = c.blocksSize + n := by
  unfold Counters.recordAlloc; split <;> rfl

@[simp] theorem recordAlloc_allocatedBlocksCount :
    (c.recordAlloc cfg n small).allocatedBlocksCount = c.allocatedBlocksCount + 1 := by
  unfold Counters.recordAlloc; split <;> rfl

@[simp] theorem recordAlloc_allocatedHeapSize :
    (c.recordAlloc cfg n small).allocatedHeapSize = c.allocatedHeapSize +
      if cfg.backend.isDynamicEmul && !(cfg.backend.slab && small) then n else 0 := by
  unfold Counters.recordAlloc; split <;> simp_all

@[simp] theorem recordAlloc_systemAllocatorMetadataSize :
    (c.recordAlloc cfg n small).systemAllocatorMetadataSize = c.systemAllocatorMetadataSize +
      if cfg.backend.isDynamicEmul && !(cfg.backend.slab && small) then cfg.metadataSize else 0 := by
  unfold Counters.recordAlloc; split <;> simp_all

@[simp] theorem recordAlloc_heapLimit : (c.recordAlloc cfg n small).heapLimit = c.heapLimit := by
  unfold Counters.recordAlloc; split <;> rfl

@[simp] theorem recordFree_blocksSize : (c.recordFree cfg n small).blocksSize = c.blocksSize - n := by
  unfold Counters.recordFree; split <;> rfl

@[simp] theorem recordFree_allocatedBlocksCount :
    (c.recordFree cfg n small).allocatedBlocksCount = c.allocatedBlocksCount - 1 := by
  unfold Counters.recordFree; split <;> rfl

@[simp] theorem recordFree_allocatedHeapSize :
    (c.recordFree cfg n small).allocatedHeapSize = c.allocatedHeapSize -
      if cfg.backend.isDynamicEmul && !(cfg.backend.slab && small) then n else 0 := by
  unfold Counters.recordFree; split <;> simp_all

@[simp] theorem recordFree_systemAllocatorMetadataSize :
    (c.recordFree cfg n small).systemAllocatorMetadataSize = c.systemAllocatorMetadataSize -
      if cfg.backend.isDynamicEmul && !(cfg.backend.slab && small) then cfg.metadataSize else 0 := by
  unfold Counters.recordFree; split <;> simp_all

@[simp] theorem recordFree_heapLimit : (c.recordFree cfg n small).heapLimit = c.heapLimit := by
  unfold Counters.recordFree; split <;> rfl

end Record

section Frame

variable (cfg : Config) (s : Heap)

@[simp] theorem counters_setSize (p n : Nat) : (s.setSize p n).counters = s.counters := rfl

@[simp] theorem counters_setNext (p o : Nat) : (s.setNext p o).counters = s.counters := rfl

@[simp] theorem counters_setOccupied (i n : Nat) : (s.setOccupied i n).counters = s.counters :=
  rfl

@[simp] theorem counters_stat (f : Stats → Stats) : (s.stat cfg f).counters = s.counters := by
  unfold Heap.stat; split <;> rfl

@[simp] theorem counters_statAllocIter (k : Nat) : (s.statAllocIter cfg k).counters = s.counters :=
  counters_stat cfg s _

@[simp] theorem counters_statFreeIter (k : Nat) : (s.statFreeIter cfg k).counters = s.counters :=
  counters_stat cfg s _

@[simp] theorem counters_recordAlloc (n : Nat) (small : Bool) :
    (s.recordAlloc cfg n small).counters = s.counters.recordAlloc cfg n small := rfl

@[simp] theorem area_stat (f : Stats → Stats) : (s.stat cfg f).area = s.area := by
  unfold Heap.stat; split <;> rfl

@[simp] theorem area_statAllocIter (k : Nat) : (s.statAllocIter cfg k).area = s.area :=
  area_stat cfg s _

/-- Decompression reads the segment table only. -/
theorem decompress_congr {s t : Heap} (h : s.area = t.area) (o : Nat) :
    jmemDecompressPointerInternal cfg s o = jmemDecompressPointerInternal cfg t o := by
  simp only [jmemDecompressPointerInternal, segmentedDecompressPointer, h]

end Frame

/-! ## The occupancy loop changes the occupancy only -/

section Occupancy

variable {cfg : Config}

theorem occupancyLoop_eq {add : Bool} {blockEndOffset : Nat} :
    ∀ {fuel : Nat} {sizeLeft : Int} {fragmentStartOffset : Nat} {s s' : Heap},
      occupancyLoop cfg add blockEndOffset fuel sizeLeft fragmentStartOffset s = some s' →
        s' = { s with occupied := s'.occupied }
  | 0, _, _, _, _, h => by
    simp only [occupancyLoop] at h
    split at h
    · cases h
    · cases h; rfl
  | fuel + 1, _, _, s, _, h => by
    simp only [occupancyLoop] at h
    split at h
    · rw [occupancyLoop_eq h]; rfl
    · cases h; rfl

theorem updateOccupancy_eq {s s' : Heap}
    (h : s.updateOccupancy cfg add blockStartOffset size = some s') :
    s' = { s with occupied := s'.occupied } := by
  unfold Heap.updateOccupancy at h
  split at h
  · exact occupancyLoop_eq h
  · cases h; rfl

theorem counters_updateOccupancy {s s' : Heap}
    (h : s.updateOccupancy cfg add blockStartOffset size = some s') : s'.counters = s.counters := by
  rw [updateOccupancy_eq h]

end Occupancy

/-! ## Allocation -/

section Alloc

variable {cfg : Config} {env : Env}

theorem counters_alloc_fast (small : Bool) (s : Heap) :
    (jmemHeapAllocBlockInternalFast cfg small s).2.counters =
      s.counters.recordAlloc cfg cfg.alignment small := by
  unfold jmemHeapAllocBlockInternalFast
  dsimp only
  split <;> split <;> split <;> simp

theorem counters_slowAllocAt {s s' : Heap}
    (h : slowAllocAt cfg requiredSize small prevP currentOffset s = some (p, s')) :
    s'.counters = s.counters.recordAlloc cfg requiredSize small ∧
      p = jmemDecompressPointerInternal cfg s currentOffset := by
  simp only [slowAllocAt, bind, pure, Option.bind_eq_some, Option.some.injEq] at h
  obtain ⟨s₁, hs₁, rfl, rfl⟩ := h
  have := counters_updateOccupancy hs₁
  refine ⟨?_, rfl⟩
  split <;> simp_all

/-- Either no region is taken, the pointer is `NULL` and the counters stay, or a block of
`requiredSize` bytes is accounted at the host address of some offset. -/
def AllocCounters (cfg : Config) (requiredSize : Nat) (small : Bool) (s : Heap) (p : Nat)
    (c : Counters) : Prop :=
  (p = 0 ∧ c = s.counters) ∨
    (c = s.counters.recordAlloc cfg requiredSize small ∧
      ∃ o, p = jmemDecompressPointerInternal cfg s o)

theorem AllocCounters.heapLimit_eq {c : Counters} (h : AllocCounters cfg n small s p c) :
    c.heapLimit = s.counters.heapLimit := by
  rcases h with ⟨-, rfl⟩ | ⟨rfl, -⟩ <;> simp

theorem AllocCounters.blocksSize_ge {c : Counters} (h : AllocCounters cfg n small s p c) :
    s.counters.blocksSize ≤ c.blocksSize := by
  rcases h with ⟨-, rfl⟩ | ⟨rfl, -⟩ <;> simp

theorem counters_alloc_slow {s s' : Heap}
    (h : jmemHeapAllocBlockInternalSlow cfg requiredSize small s = some (p, s')) :
    AllocCounters cfg requiredSize small s p s'.counters := by
  simp only [jmemHeapAllocBlockInternalSlow, bind, pure, Option.bind_eq_some,
    Option.some.injEq] at h
  obtain ⟨⟨r, visited⟩, -, h⟩ := h
  cases r with
  | exhausted =>
    cases h
    exact .inl ⟨rfl, by simp⟩
  | found prevP currentOffset =>
    obtain ⟨hc, rfl⟩ := counters_slowAllocAt h
    exact .inr ⟨by simpa using hc, currentOffset, decompress_congr cfg (by simp) _⟩

theorem counters_allocFastOrSlow {s s' : Heap}
    (h : allocFastOrSlow cfg requiredSize small s = some (p, s')) :
    AllocCounters cfg requiredSize small s p s'.counters := by
  unfold allocFastOrSlow at h
  split at h
  · rename_i hfast
    obtain ⟨hp, hs'⟩ := Prod.ext_iff.mp (Option.some.inj h).symm
    dsimp only at hp hs'
    subst hp hs'
    rw [hfast.1, counters_alloc_fast]
    exact .inr ⟨rfl, _, rfl⟩
  · exact counters_alloc_slow h

/-- `jmem_heap_alloc_block_internal` off the system allocator: the accounting of the path
taken, then the limit loop. -/
theorem counters_alloc_internal (hsys : cfg.backend ≠ .system) {s s' : Heap}
    (h : jmemHeapAllocBlockInternal cfg env size small s = some (p, s')) :
    ∃ c, AllocCounters cfg (cfg.alignUp size) small s p c ∧
      s'.counters = { c with heapLimit := raiseHeapLimit cfg c.blocksSize (c.blocksSize + 1) c.heapLimit } := by
  simp only [jmemHeapAllocBlockInternal, hsys, if_false, bind, pure, Option.bind_eq_some] at h
  obtain ⟨⟨q, s₁⟩, h₁, h⟩ := h
  refine ⟨s₁.counters, ?_, ?_⟩
  · split at h <;> cases h
    · rename_i hq; subst hq; exact counters_allocFastOrSlow h₁
    · exact counters_allocFastOrSlow h₁
  · split at h <;> cases h <;> simp

/-- `jmem_heap_alloc_block_internal` on the system allocator. -/
theorem alloc_internal_system (hsys : cfg.backend = .system) {s s' : Heap}
    (h : jmemHeapAllocBlockInternal cfg env size small s = some (p, s')) :
    (p, s') = jmemHeapAllocBlockInternalDynamicReal cfg env size s := by
  simpa [jmemHeapAllocBlockInternal, hsys] using h.symm

end Alloc

/-! ## Free and segment groups -/

section Free

variable {cfg : Config} {env : Env}

@[simp] theorem counters_freeLink (s : Heap) :
    (freeLink cfg prevP blockP blockOffset alignedSize s).counters = s.counters := by
  simp only [freeLink, freeUpdatePrev, freeUpdateNext]
  split <;> split <;> simp

theorem counters_freeInsert {s s' : Heap}
    (h : freeInsert cfg blockP blockOffset alignedSize s = some s') : s'.counters = s.counters := by
  simp only [freeInsert, bind, pure, Option.bind_eq_some, Option.some.injEq] at h
  obtain ⟨⟨prevP, rounds⟩, -, rfl⟩ := h
  rw [counters_freeLink, counters_statFreeIter]
  split <;> split <;> simp

/-- `jmem_heap_free_block_internal` off the system allocator: the accounting of the released
block, then the limit loop. -/
theorem counters_free_internal (hsys : cfg.backend ≠ .system) {s s' : Heap}
    (h : jmemHeapFreeBlockInternal cfg ptr size small s = some s') :
    s'.counters =
      let c := s.counters.recordFree cfg (cfg.alignUp size) small
      { c with heapLimit := lowerHeapLimit cfg c.blocksSize (c.heapLimit + 1) c.heapLimit } := by
  simp only [jmemHeapFreeBlockInternal, hsys, if_false, bind, pure, Option.bind_eq_some,
    Option.some.injEq] at h
  obtain ⟨s₁, h₁, s₂, h₂, rfl⟩ := h
  simp [counters_freeInsert h₁, counters_updateOccupancy h₂]

theorem free_internal_system (hsys : cfg.backend = .system) {s s' : Heap}
    (h : jmemHeapFreeBlockInternal cfg ptr size small s = some s') : s' = systemFree cfg size s := by
  simpa [jmemHeapFreeBlockInternal, hsys] using h.symm

theorem counters_spliceFreeRegion {s s' : Heap} (h : spliceFreeRegion cfg start len s = some s') :
    s'.counters = s.counters := by
  simp only [spliceFreeRegion, bind, pure, Option.bind_eq_some, Option.some.injEq] at h
  obtain ⟨⟨prevP, rounds⟩, -, rfl⟩ := h
  simp only [spliceUpdatePrev, spliceUpdateNext]
  split <;> split <;> simp

theorem counters_allocASegmentGroup {s s' : Heap}
    (h : allocASegmentGroup cfg env size s = some (g, s')) : s'.counters = s.counters := by
  unfold allocASegmentGroup at h
  dsimp only at h
  split at h
  · cases h; rfl
  · split at h
    · cases h; rfl
    · obtain ⟨s₁, h₁, he⟩ := Option.map_eq_some'.mp h
      cases he
      exact (counters_spliceFreeRegion h₁).trans rfl

end Free

/-- `jmem_heap_init` off the system allocator sets the limit to one step and, on the static
backend, counts the whole reservation in `jmem_allocated_heap_size`. -/
theorem counters_jmemHeapInit (cfg : Config) (env : Env) (s : Heap) :
    (jmemHeapInit cfg env s).counters = if cfg.backend = .system then s.counters else
      { s.counters with
        heapLimit := cfg.desiredLimit
        allocatedHeapSize :=
          if cfg.backend = .static then cfg.heapSize else s.counters.allocatedHeapSize } := by
  unfold jmemHeapInit jmemHeapInitSizeMetrics jmemHeapInitFirstFreeRegion
  by_cases hsys : cfg.backend = .system
  · simp [hsys]
  · by_cases hst : cfg.backend = .static <;> by_cases hseg : cfg.backend = .segmented <;>
      simp_all [initSegmentedHeap]

end JmemHeap
