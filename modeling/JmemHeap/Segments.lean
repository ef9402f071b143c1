import JmemHeap.FreeList

/-!
# The segmented backend

On the segmented backend (`JMEM_SEGMENTED_HEAP`) the offsets of the free list are logical:
offset `o` lies in segment `o / SEG_SEGMENT_SIZE`, whose backing memory the platform `malloc`
granted at a host address of its choosing. The walks of `jmem-heap.c` compare offsets, but the
neighbour tests of `jmem_heap_free_block_internal` (`jmem_heap_get_region_end`) and the header
of the slow path's residual region are computed on host pointers. Inside one segment the two
agree (`segmentedDecompress_add`, `regionEnd_iff_of_same_segment`). Across segments they need
not: when the memory of one segment happens to follow another's in the host, a freed block is
merged into a region of a segment it is not next to, and the runs after the codec lemmas end
with a segment charged twice its size.

Only `jmem_heap_init` and `alloc_a_segment_group` write the segment table. In every reachable
state segments `0 … m - 1` are attached, each to nonzero memory, and no other
(`SegmentTable`), as long as the platform grants the initial segment; off the segmented
backend no segment is ever marked (`allocated_of_ne_segmented`).
-/

namespace JmemHeap

/-! ## The codec inside one segment -/

section Codec

variable {cfg : Config} {s : Heap}

/-- Inside one segment, moving an offset moves its host address by as much: decompression adds
the segment's base to the offset within the segment. -/
theorem segmentedDecompress_add {o k : Nat}
    (hk : (o + k) / cfg.segmentSize = o / cfg.segmentSize) :
    segmentedDecompressPointer cfg s (o + k) = segmentedDecompressPointer cfg s o + k := by
  have h₁ := Nat.div_add_mod (o + k) cfg.segmentSize
  have h₂ := Nat.div_add_mod o cfg.segmentSize
  rw [hk] at h₁
  unfold segmentedDecompressPointer
  rw [hk]
  omega

/-- For two offsets in one segment, the end of the region at the first (by
`jmem_heap_get_region_end`) is the header of the second exactly when the offsets touch: there
the host test of `jmem_heap_free_block_internal` is the offset test. -/
theorem regionEnd_iff_of_same_segment (hseg : cfg.backend = .segmented) {a b : Nat}
    (hab : a / cfg.segmentSize = b / cfg.segmentSize) :
    jmemHeapGetRegionEnd s (jmemDecompressPointerInternal cfg s a) =
        jmemDecompressPointerInternal cfg s b ↔
      a + s.size (jmemDecompressPointerInternal cfg s a) = b := by
  have h₁ := Nat.div_add_mod a cfg.segmentSize
  have h₂ := Nat.div_add_mod b cfg.segmentSize
  rw [hab] at h₁
  simp only [jmemHeapGetRegionEnd, jmemDecompressPointerInternal, hseg, if_true,
    segmentedDecompressPointer, hab]
  omega

end Codec

/-! ## Two segments adjacent in the host -/

section Runs

/-- A platform `malloc` for the small segmented build: the initial segment at `4096`, the next
group at `8192`, and the one after that at `4128`, where the initial segment's memory ends.
The three memories do not overlap. -/
def Env.interleaved : Env :=
  ⟨fun _ _ _ ↦ [], fun s _ ↦ if s.allocated 0 then (if s.allocated 1 then 4128 else 8192) else 4096⟩

/-- On the small segmented build, blocks of 24, 32 and 32 bytes take the offsets 8, 32 and 64
in segments 0, 1 and 2; once the first is freed, the free list is the region of 24 bytes at
offset 8, at host address 4104, which is what the offsets say. Segment 2's memory starts at
4128 = 4104 + 24, so the host test of the free path holds for the block at offset 64 though
the offsets do not touch (8 + 24 ≠ 64): freeing that block merges it into the region at
offset 8, which then covers the offsets [8, 64) of the live block at offset 32. -/
theorem regionEnd_joins_segments :
    ∃ e, Reachable (Config.small .segmented) Env.interleaved e ∧
      e.live = [⟨8192, 32, false⟩, ⟨4128, 32, false⟩] ∧
      (List.range 4).map e.heap.allocated = [true, true, true, false] ∧
      e.heap.nextOffset 4088 = 8 ∧ e.heap.size 4104 = 24 ∧ e.heap.nextOffset 4104 = 2 ^ 32 - 1 ∧
      jmemDecompressPointerInternal (Config.small .segmented) e.heap 8 = 4104 ∧
      jmemDecompressPointerInternal (Config.small .segmented) e.heap 32 = 8192 ∧
      jmemDecompressPointerInternal (Config.small .segmented) e.heap 64 = 4128 ∧
      jmemHeapGetRegionEnd e.heap 4104 = 4128 ∧ 8 + e.heap.size 4104 ≠ 64 ∧
      (jmemHeapFreeBlockInternal (Config.small .segmented) 4128 32 false e.heap).map
        (fun h ↦ (h.nextOffset 4088, h.size 4104, h.nextOffset 4104)) = some (8, 56, 2 ^ 32 - 1) := by
  obtain ⟨e, he, hv⟩ := exists_reachable_of_run _ _ (show
    (run (Config.small .segmented) Env.interleaved
      (Engine.initial (Config.small .segmented) Env.interleaved (fun _ ↦ 0) (fun _ ↦ 0))
      [.allocBlock 24, .allocBlock 32, .allocBlock 32, .free ⟨4104, 24, false⟩]).map
      (fun e ↦ decide (e.live = [⟨8192, 32, false⟩, ⟨4128, 32, false⟩] ∧
        (List.range 4).map e.heap.allocated = [true, true, true, false] ∧
        e.heap.nextOffset 4088 = 8 ∧ e.heap.size 4104 = 24 ∧
        e.heap.nextOffset 4104 = 2 ^ 32 - 1 ∧
        jmemDecompressPointerInternal (Config.small .segmented) e.heap 8 = 4104 ∧
        jmemDecompressPointerInternal (Config.small .segmented) e.heap 32 = 8192 ∧
        jmemDecompressPointerInternal (Config.small .segmented) e.heap 64 = 4128 ∧
        jmemHeapGetRegionEnd e.heap 4104 = 4128 ∧ 8 + e.heap.size 4104 ≠ 64 ∧
        (jmemHeapFreeBlockInternal (Config.small .segmented) 4128 32 false e.heap).map
          (fun h ↦ (h.nextOffset 4088, h.size 4104, h.nextOffset 4104)) =
            some (8, 56, 2 ^ 32 - 1))) = some true by decide)
  exact ⟨e, he, of_decide_eq_true hv⟩

/-- The run of `regionEnd_joins_segments` with the free of the block at offset 64 and then a
block of 56 bytes, which takes the merged region at offset 8. The occupancy loop charges the
offsets [8, 64) to segments 0 and 1: segment 1, which also holds the block at offset 32, is
charged 64 bytes, twice `SEG_SEGMENT_SIZE`, and segment 2, whose memory the new block
overlaps in the host, nothing. -/
theorem occupied_over_segment :
    ∃ e, Reachable (Config.small .segmented) Env.interleaved e ∧
      e.live = [⟨8192, 32, false⟩, ⟨4104, 56, false⟩] ∧
      (List.range 4).map e.heap.occupied = [24, 64, 0, 0] ∧ e.heap.counters.blocksSize = 88 ∧
      (Config.small .segmented).segmentSize < e.heap.occupied 1 := by
  obtain ⟨e, he, hv⟩ := exists_reachable_of_run _ _ (show
    (run (Config.small .segmented) Env.interleaved
      (Engine.initial (Config.small .segmented) Env.interleaved (fun _ ↦ 0) (fun _ ↦ 0))
      [.allocBlock 24, .allocBlock 32, .allocBlock 32, .free ⟨4104, 24, false⟩,
        .free ⟨4128, 32, false⟩, .allocBlock 56]).map
      (fun e ↦ (e.live, (List.range 4).map e.heap.occupied, e.heap.counters.blocksSize,
        e.heap.occupied 1)) =
      some ([⟨8192, 32, false⟩, ⟨4104, 56, false⟩], [24, 64, 0, 0], 88, 64) by decide)
  simp only [Prod.mk.injEq] at hv
  obtain ⟨h₁, h₂, h₃, h₄⟩ := hv
  exact ⟨e, he, h₁, h₂, h₃, by rw [h₄]; decide⟩

end Runs

/-! ## Calls that leave the segment table alone -/

namespace Heap

variable (cfg : Config) (s : Heap) (p n : Nat)

@[simp] theorem area_setSize : (s.setSize p n).area = s.area := rfl
@[simp] theorem allocated_setSize : (s.setSize p n).allocated = s.allocated := rfl
@[simp] theorem area_setNext : (s.setNext p n).area = s.area := rfl
@[simp] theorem allocated_setNext : (s.setNext p n).allocated = s.allocated := rfl
@[simp] theorem area_setOccupied : (s.setOccupied p n).area = s.area := rfl
@[simp] theorem allocated_setOccupied : (s.setOccupied p n).allocated = s.allocated := rfl
@[simp] theorem area_recordAlloc : (s.recordAlloc cfg n small).area = s.area := rfl
@[simp] theorem allocated_recordAlloc : (s.recordAlloc cfg n small).allocated = s.allocated :=
  rfl
@[simp] theorem allocated_stat : (s.stat cfg f).allocated = s.allocated := by
  unfold stat; split <;> rfl
@[simp] theorem allocated_statAllocIter : (s.statAllocIter cfg n).allocated = s.allocated :=
  allocated_stat ..
@[simp] theorem area_statFreeIter : (s.statFreeIter cfg n).area = s.area := area_stat ..
@[simp] theorem allocated_statFreeIter : (s.statFreeIter cfg n).allocated = s.allocated :=
  allocated_stat ..

end Heap

section Table

variable {cfg : Config} {env : Env} {s s' : Heap}

theorem table_alloc_fast (small : Bool) (s : Heap) :
    (jmemHeapAllocBlockInternalFast cfg small s).2.area = s.area ∧
      (jmemHeapAllocBlockInternalFast cfg small s).2.allocated = s.allocated := by
  unfold jmemHeapAllocBlockInternalFast
  dsimp only
  split <;> split <;> split <;> simp

theorem table_updateOccupancy (h : s.updateOccupancy cfg add blockStartOffset size = some s') :
    s'.area = s.area ∧ s'.allocated = s.allocated := by
  rw [updateOccupancy_eq h]
  exact ⟨rfl, rfl⟩

theorem table_slowAllocAt (h : slowAllocAt cfg requiredSize small prevP currentOffset s = some (p, s')) :
    s'.area = s.area ∧ s'.allocated = s.allocated := by
  simp only [slowAllocAt, bind, pure, Option.bind_eq_some, Option.some.injEq] at h
  obtain ⟨s₁, hs₁, -, rfl⟩ := h
  have := table_updateOccupancy hs₁
  split <;> simp_all

/-- `jmem_heap_alloc_block_internal` writes headers, counters and occupancy, never the table. -/
theorem table_alloc_internal (h : jmemHeapAllocBlockInternal cfg env size small s = some (p, s')) :
    s'.area = s.area ∧ s'.allocated = s.allocated := by
  unfold jmemHeapAllocBlockInternal at h
  split at h
  · cases h; exact ⟨rfl, rfl⟩
  simp only [bind, pure, Option.bind_eq_some] at h
  obtain ⟨⟨q, s₁⟩, h₁, h⟩ := h
  have h₁ : s₁.area = s.area ∧ s₁.allocated = s.allocated := by
    unfold allocFastOrSlow at h₁
    split at h₁
    · cases h₁; exact table_alloc_fast _ _
    simp only [jmemHeapAllocBlockInternalSlow, bind, pure, Option.bind_eq_some] at h₁
    obtain ⟨⟨r, v⟩, -, h₁⟩ := h₁
    cases r with
    | exhausted => cases h₁; simp
    | found prevP o => simpa using table_slowAllocAt h₁
  split at h <;> cases h <;> simpa using h₁

theorem table_freeLink (s : Heap) :
    (freeLink cfg prevP blockP blockOffset alignedSize s).area = s.area ∧
      (freeLink cfg prevP blockP blockOffset alignedSize s).allocated = s.allocated := by
  simp only [freeLink, freeUpdatePrev, freeUpdateNext]
  split <;> split <;> simp

theorem table_freeInsert (h : freeInsert cfg blockP blockOffset alignedSize s = some s') :
    s'.area = s.area ∧ s'.allocated = s.allocated := by
  simp only [freeInsert, bind, pure, Option.bind_eq_some, Option.some.injEq] at h
  obtain ⟨⟨prevP, rounds⟩, -, rfl⟩ := h
  rw [(table_freeLink _).1, (table_freeLink _).2]
  split_ifs <;> simp

/-- `jmem_heap_free_block_internal` never writes the table either. -/
theorem table_free_internal (h : jmemHeapFreeBlockInternal cfg ptr size small s = some s') :
    s'.area = s.area ∧ s'.allocated = s.allocated := by
  unfold jmemHeapFreeBlockInternal at h
  split at h
  · cases h; exact ⟨rfl, rfl⟩
  simp only [bind, pure, Option.bind_eq_some, Option.some.injEq] at h
  obtain ⟨s₁, h₁, s₂, h₂, rfl⟩ := h
  have := table_freeInsert h₁
  have := table_updateOccupancy h₂
  simp_all

theorem table_spliceFreeRegion (h : spliceFreeRegion cfg start len s = some s') :
    s'.area = s.area ∧ s'.allocated = s.allocated := by
  simp only [spliceFreeRegion, bind, pure, Option.bind_eq_some, Option.some.injEq] at h
  obtain ⟨⟨prevP, rounds⟩, -, rfl⟩ := h
  simp only [spliceUpdatePrev, spliceUpdateNext]
  split <;> split <;> simp

end Table

/-! ## The segment table -/

/-- The segment table in a reachable state: segments `0 … m - 1` are attached, each to
nonzero backing memory, and no other segment is. -/
structure SegmentTable (cfg : Config) (s : Heap) (m : Nat) : Prop where
  le : m ≤ cfg.numSegments
  allocated_iff : ∀ j, s.allocated j = true ↔ j < m
  area_ne_zero : ∀ j < m, s.area j ≠ 0

/-- What the segmented backend needs of the platform `malloc`: it grants the initial segment,
and memory it grants starts neither at `first` nor inside a segment already attached. -/
structure Env.MallocApart (cfg : Config) (env : Env) : Prop where
  initial : ∀ size nextOffset, env.malloc (Heap.zero size nextOffset) cfg.segmentSize ≠ 0
  ne_first : ∀ s n, env.malloc s n ≠ 0 → env.malloc s n ≠ cfg.firstAddr
  apart : ∀ s n j, env.malloc s n ≠ 0 → j < cfg.numSegments → s.allocated j = true →
    env.malloc s n < s.area j ∨ s.area j + cfg.segmentSize ≤ env.malloc s n

section Groups

variable {cfg : Config} {env : Env} {s t : Heap} {m : Nat}

theorem SegmentTable.congr (h : SegmentTable cfg s m)
    (ht : t.area = s.area ∧ t.allocated = s.allocated) : SegmentTable cfg t m :=
  ⟨h.le, fun j ↦ by rw [ht.2]; exact h.allocated_iff j, fun j hj ↦ by
    rw [ht.1]; exact h.area_ne_zero j hj⟩

/-- The first run of `count` detached segments starts right after the attached ones. -/
theorem freeSegmentRun_eq (hT : SegmentTable cfg s m) (hc : 0 < count)
    (h : freeSegmentRun cfg count s = some i) : i = m ∧ m + count ≤ cfg.numSegments := by
  unfold freeSegmentRun at h
  simp only [List.find?_range_eq_some, Bool.and_eq_true, decide_eq_true_eq, List.all_eq_true,
    List.mem_range, Bool.not_eq_true'] at h
  obtain ⟨⟨hfit, hfree⟩, -, hmin⟩ := h
  have hdet : ∀ j, m ≤ j → s.allocated j = false := fun j hj ↦
    Bool.eq_false_iff.mpr fun h ↦ absurd ((hT.allocated_iff j).mp h) (by omega)
  have hmi : m ≤ i := Nat.le_of_not_lt fun hi ↦ by
    have h0 := hfree 0 hc
    rw [Nat.add_zero, (hT.allocated_iff i).mpr hi] at h0
    exact Bool.noConfusion h0
  rcases Nat.lt_or_eq_of_le hmi with hlt | rfl
  · have hall : ((List.range count).all fun k ↦ !s.allocated (m + k)) = true :=
      List.all_eq_true.mpr fun k _ ↦ by simp [hdet (m + k) (Nat.le_add_right m k)]
    have := hmin m hlt
    simp [hall, show m + count ≤ cfg.numSegments by omega] at this
  · exact ⟨rfl, hfit⟩

/-- Below the group, an attached group leaves decompression alone. -/
theorem decompress_attach_below (hseg : cfg.backend = .segmented) {o i count base : Nat}
    (ho : o < i * cfg.segmentSize) :
    jmemDecompressPointerInternal cfg (s.attachSegments cfg i count base) o =
      jmemDecompressPointerInternal cfg s o := by
  have : ¬ i ≤ o / cfg.segmentSize := fun h ↦
    absurd (Nat.div_lt_iff_lt_mul cfg.segmentSize_pos |>.mpr ho) (Nat.not_lt.mpr h)
  simp [jmemDecompressPointerInternal, hseg, segmentedDecompressPointer, Heap.attachSegments, this]

/-- The first offset of an attached group decompresses to the group's memory. -/
theorem decompress_attach_start (hseg : cfg.backend = .segmented) {i count base : Nat}
    (hc : 0 < count) :
    jmemDecompressPointerInternal cfg (s.attachSegments cfg i count base) (i * cfg.segmentSize) =
      base := by
  simp [jmemDecompressPointerInternal, hseg, segmentedDecompressPointer, Heap.attachSegments,
    Nat.mul_div_cancel _ cfg.segmentSize_pos, hc]

/-- `alloc_a_segment_group (size)` on a segment table of `m` segments either changes nothing
and returns `NULL`, or attaches the next `count` segments, enough for `size` bytes, to memory
from `malloc` and splices them in as one region at offset `m * SEG_SEGMENT_SIZE`. -/
theorem allocASegmentGroup_spec (hT : SegmentTable cfg s m)
    (h : allocASegmentGroup cfg env size s = some (g, t)) :
    (g = 0 ∧ t = s) ∨ ∃ count, 0 < count ∧ size ≤ count * cfg.segmentSize ∧
      m + count ≤ cfg.numSegments ∧ g = env.malloc s (count * cfg.segmentSize) ∧ g ≠ 0 ∧
      spliceFreeRegion cfg (m * cfg.segmentSize) (count * cfg.segmentSize)
        (s.attachSegments cfg m count g) = some t := by
  unfold allocASegmentGroup at h
  dsimp only at h
  split at h
  · cases h; exact .inl ⟨rfl, rfl⟩
  rename_i i hi
  obtain ⟨rfl, hle⟩ := freeSegmentRun_eq hT (Nat.le_max_left 1 _) hi
  split at h
  · cases h; exact .inl ⟨rfl, rfl⟩
  obtain ⟨t₁, ht₁, he⟩ := Option.map_eq_some'.mp h
  cases he
  have hS := cfg.segmentSize_pos
  have hq := Nat.lt_div_mul_add (a := size + cfg.segmentSize - 1) hS
  have hmax := Nat.mul_le_mul_right cfg.segmentSize
    (le_max_right 1 ((size + cfg.segmentSize - 1) / cfg.segmentSize))
  exact .inr ⟨_, Nat.le_max_left 1 _, by omega, hle, rfl, ‹_›, ht₁⟩

/-- A segment group keeps the table's shape, `count` segments longer. -/
theorem SegmentTable.group (hT : SegmentTable cfg s m)
    (h : allocASegmentGroup cfg env size s = some (g, t)) : ∃ m', SegmentTable cfg t m' := by
  rcases allocASegmentGroup_spec hT h with ⟨-, rfl⟩ | ⟨count, -, -, hle, -, hg, hsp⟩
  · exact ⟨m, hT⟩
  refine ⟨m + count, SegmentTable.congr ?_ (table_spliceFreeRegion hsp)⟩
  refine ⟨hle, fun j ↦ ?_, fun j hj ↦ ?_⟩
  · simp only [Heap.attachSegments, Bool.or_eq_true, Bool.and_eq_true, decide_eq_true_eq,
      hT.allocated_iff]
    omega
  · by_cases hj' : m ≤ j
    · simp [Heap.attachSegments, hj', hj, hg]
    · simp [Heap.attachSegments, hj', hT.area_ne_zero j (by omega)]

/-- `jmem_heap_init` writes the table only through `init_segmented_heap`. -/
theorem table_jmemHeapInit (s : Heap) :
    (jmemHeapInit cfg env s).area =
        (if cfg.backend = .segmented then initSegmentedHeap cfg env s else s).area ∧
      (jmemHeapInit cfg env s).allocated =
        (if cfg.backend = .segmented then initSegmentedHeap cfg env s else s).allocated := by
  unfold jmemHeapInit jmemHeapInitSizeMetrics jmemHeapInitFirstFreeRegion
  split_ifs <;> simp_all

theorem segmentTable_initial (hinit : cfg.backend = .segmented →
      ∀ size nextOffset, env.malloc (Heap.zero size nextOffset) cfg.segmentSize ≠ 0)
    (size nextOffset : Nat → Nat) :
    ∃ m, SegmentTable cfg (Engine.initial cfg env size nextOffset).heap m := by
  have ht := @table_jmemHeapInit cfg env (Heap.zero size nextOffset)
  by_cases hseg : cfg.backend = .segmented
  · rw [if_pos hseg] at ht
    refine ⟨1, SegmentTable.congr ⟨Nat.succ_le_of_lt cfg.numSegments_pos, fun j ↦ ?_,
      fun j hj ↦ ?_⟩ ht⟩
    · simp [initSegmentedHeap, Heap.zero]
    · simpa [initSegmentedHeap, Nat.lt_one_iff.mp hj] using hinit hseg size nextOffset
  · rw [if_neg hseg] at ht
    exact ⟨0, SegmentTable.congr ⟨Nat.zero_le _, fun j ↦ by simp [Heap.zero],
      fun j hj ↦ absurd hj (Nat.not_lt_zero j)⟩ ht⟩

/-- The collector keeps a segment table, whatever it releases. -/
theorem segmentTable_callbacksPreserve :
    CallbacksPreserve cfg env fun e ↦ ∃ m, SegmentTable cfg e.heap m :=
  callbacksPreserve_of_free fun _ _ _ ⟨m, hT⟩ hs ↦ ⟨m, hT.congr (table_free_internal hs)⟩

theorem segmentTable_blockAlloc {e e' : Engine} (he : ∃ m, SegmentTable cfg e.heap m)
    (h : blockAlloc cfg env size small e = some (p, e')) : ∃ m, SegmentTable cfg e'.heap m := by
  obtain ⟨m, hT⟩ := he
  obtain ⟨⟨q, s₁⟩, hq, he'⟩ := Option.map_eq_some'.mp h
  cases he'
  exact ⟨m, hT.congr (table_alloc_internal hq)⟩

/-- Every reachable state has a segment table, whatever the collector releases. -/
theorem exists_segmentTable (hinit : cfg.backend = .segmented →
      ∀ size nextOffset, env.malloc (Heap.zero size nextOffset) cfg.segmentSize ≠ 0)
    {e : Engine} (h : Reachable cfg env e) : ∃ m, SegmentTable cfg e.heap m :=
  reachable_preserves (segmentTable_initial hinit) (fun _ _ _ he hs ↦
    step_preserves (fun _ ↦ True) segmentTable_callbacksPreserve
      (fun _ _ _ ⟨m, hT⟩ _ hs ↦ ⟨m, hT.congr (table_free_internal hs)⟩)
      (fun _ _ _ _ _ _ he ha ↦ by simpa using segmentTable_blockAlloc he ha)
      (fun _ _ _ _ _ _ ⟨_, hT⟩ hg ↦ hT.group hg) trivial he hs) h

end Groups

end JmemHeap
