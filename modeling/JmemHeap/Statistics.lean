import JmemHeap.Shape
import JmemHeap.Counters

/-!
# Bytes on the free list, in the statistics and in the debug checks

Two accountings of the area stand beside the free list: `jmem_heap_blocks_size`, and with
`JMEM_STATS` the statistics block; a debug build checks the first against the memory. On the
contiguous backends all of them agree with the memory in every run:

* the free list holds exactly `JMEM_HEAP_AREA_SIZE - jmem_heap_blocks_size` bytes, so no byte
  of the area is lost to a free that forgot it or an allocation that took too much
  (`freeBytes_add_blocksSize`);
* `allocated_bytes` is the sum of `align_up (n)` over the held blocks, never above its peak,
  every allocation that returned a block is counted once, and every free is counted as either
  skipping the walk or not (`heapStats_of_run`). `waste_bytes` is not among these: it wraps
  below zero (`wasteBytes_wrap_small`);
* the `JERRY_ASSERT`s of `jmem_heap_free_block_internal` pass on every free of a held block,
  and the one of `jmem_heap_finalize` passes exactly when no block is held
  (`debugChecks_of_run`).

The byte count is a sum over the area of how many regions hold each byte, which the partition
of `FreeListShape` fixes at one.
-/

namespace JmemHeap

/-! ## Counting the bytes of regions -/

section Bytes

/-- A region inside the first `N` bytes holds `size` of them. -/
theorem Region.sum_ind_range {r : Region} {N : Nat} (h : r.off + r.size ≤ N) :
    ∑ x in Finset.range N, r.ind x = r.size := by
  have hset : (Finset.range N).filter (fun x ↦ r.off ≤ x ∧ x < r.off + r.size) =
      Finset.Ico r.off (r.off + r.size) := by
    ext x
    simp only [Finset.mem_filter, Finset.mem_range, Finset.mem_Ico]
    omega
  simp only [Region.ind, Finset.sum_boole, hset, Nat.card_Ico, Nat.cast_id]
  omega

/-- Regions inside the first `N` bytes hold, counted with multiplicity, the sum of their
sizes. -/
theorem sum_cover_range {N : Nat} :
    ∀ {L : List Region}, (∀ r ∈ L, r.off + r.size ≤ N) →
      ∑ x in Finset.range N, cover L x = (L.map (·.size)).sum
  | [], _ => by simp
  | r :: L, h => by
    simp only [cover_cons, Finset.sum_add_distrib, List.map_cons, List.sum_cons,
      Region.sum_ind_range (h r (List.mem_cons_self r L)),
      sum_cover_range fun q hq ↦ h q (List.mem_cons_of_mem r hq)]

/-- The free regions and the held blocks share out the area's bytes. -/
theorem FreeListShape.size_add_liveBytes {cfg : Config} {s : Heap} {live : List Block}
    {L : List Region} (h : FreeListShape cfg s live L) :
    (L.map (·.size)).sum + cfg.liveBytes live = cfg.areaSize := by
  have hL := sum_cover_range (N := cfg.areaSize) fun r hr ↦ h.end_le hr
  have hlive := sum_cover_range (N := cfg.areaSize) (L := live.map (Block.extent cfg))
    (by simpa using fun b hb ↦ h.extent_end_le hb)
  have hpart : ∑ x in Finset.range cfg.areaSize,
      (cover L x + cover (live.map (Block.extent cfg)) x) = cfg.areaSize := by
    rw [Finset.sum_congr rfl fun x hx ↦ by rw [h.partition x, if_pos (Finset.mem_range.mp hx)]]
    simp
  rw [Finset.sum_add_distrib, hL, hlive] at hpart
  simpa [Config.liveBytes, Block.extent, Function.comp_def] using hpart

/-- The held blocks' bytes fit in the area. -/
theorem FreeListShape.liveBytes_le {cfg : Config} {s : Heap} {live : List Block}
    {L : List Region} (h : FreeListShape cfg s live L) : cfg.liveBytes live ≤ cfg.areaSize := by
  have := h.size_add_liveBytes
  omega

end Bytes

/-- On the static and dynamic-emulation backends, under the collector contract, in every state
reached by requests whose rounding does not wrap, the free list read from `first.next_offset`
holds exactly the bytes of the area that `jmem_heap_blocks_size` does not count: its regions'
sizes and `jmem_heap_blocks_size` add up to `JMEM_HEAP_AREA_SIZE`. -/
theorem freeBytes_add_blocksSize {cfg : Config} {env : Env}
    (hb : cfg.backend = .static ∨ cfg.backend.isDynamicEmul) (hc : env.CollectsLive)
    {size nextOffset : Nat → Nat} {rs : List Request} {e : Engine}
    (hrun : run cfg env (Engine.initial cfg env size nextOffset) rs = some e)
    (hrs : ∀ r ∈ rs, cfg.NoWrap r.allocSize) :
    ∃ L, ListSeg cfg e.heap (e.heap.nextOffset cfg.firstAddr) L cfg.endOfList ∧
      (L.map (·.size)).sum + e.heap.counters.blocksSize = cfg.areaSize := by
  obtain ⟨L, h⟩ := exists_freeListShape_of_run hb hc hrun hrs
  rw [(countersMatch_of_reachable hb hc ⟨size, nextOffset, rs, hrun⟩).blocksSize]
  exact ⟨L, h.seg, h.size_add_liveBytes⟩

theorem freeBytes_add_blocksSize_two_runs :
    ∃ e, run (Config.small .static) Env.quiet
        (Engine.initial (Config.small .static) Env.quiet (fun _ ↦ 0) (fun _ ↦ 0))
        [.allocBlock 8, .allocBlock 20, .free ⟨4096, 8, false⟩] = some e ∧
      ∃ L, ListSeg (Config.small .static) e.heap
          (e.heap.nextOffset (Config.small .static).firstAddr) L (Config.small .static).endOfList ∧
        (L.map (·.size)).sum + e.heap.counters.blocksSize = (Config.small .static).areaSize := by
  obtain ⟨e, he⟩ := Option.isSome_iff_exists.mp (show (run (Config.small .static) Env.quiet
    (Engine.initial (Config.small .static) Env.quiet (fun _ ↦ 0) (fun _ ↦ 0))
    [.allocBlock 8, .allocBlock 20, .free ⟨4096, 8, false⟩]).isSome by decide)
  exact ⟨e, he, freeBytes_add_blocksSize (.inl rfl) (fun _ _ _ ↦ List.nil_subperm) he
    (by decide)⟩

/-! ## What the paths do to the statistics -/

section Frame

variable (cfg : Config) (s : Heap)

@[simp] theorem stats_setSize (p n : Nat) : (s.setSize p n).stats = s.stats := rfl

@[simp] theorem stats_setNext (p o : Nat) : (s.setNext p o).stats = s.stats := rfl

@[simp] theorem stats_setOccupied (i n : Nat) : (s.setOccupied i n).stats = s.stats := rfl

@[simp] theorem stats_recordAlloc (n : Nat) (small : Bool) :
    (s.recordAlloc cfg n small).stats = s.stats := rfl

@[simp] theorem stats_stat (f : Stats → Stats) :
    (s.stat cfg f).stats = if cfg.stats then f s.stats else s.stats := by
  unfold Heap.stat; split <;> rfl

theorem stats_updateOccupancy {cfg : Config} {s s' : Heap} {add : Bool} {start n : Nat}
    (h : s.updateOccupancy cfg add start n = some s') : s'.stats = s.stats := by
  rw [updateOccupancy_eq h]

@[simp] theorem stats_freeLink (prevP blockP blockOffset alignedSize : Nat) :
    (freeLink cfg prevP blockP blockOffset alignedSize s).stats = s.stats := by
  simp only [freeLink, freeUpdatePrev, freeUpdateNext]
  split <;> split <;> rfl

/-- `jmem_heap_init` sets no statistic but `size`. -/
theorem stats_jmemHeapInit (env : Env) :
    (jmemHeapInit cfg env s).stats =
      if cfg.stats then jmemHeapStatInit cfg s.stats else s.stats := by
  unfold jmemHeapInit jmemHeapInitSizeMetrics
  rw [stats_stat]
  split_ifs <;> rfl

end Frame

section Record

variable (cfg : Config) (size : Nat) (st : Stats)

@[simp] theorem allocatedBytes_statAlloc : (jmemHeapStatAlloc cfg size st).allocatedBytes =
    (st.allocatedBytes + cfg.alignUp size) % 2 ^ cfg.sizeBits := by
  unfold jmemHeapStatAlloc; dsimp only; split_ifs <;> rfl

@[simp] theorem peakAllocatedBytes_statAlloc :
    (jmemHeapStatAlloc cfg size st).peakAllocatedBytes =
      max st.peakAllocatedBytes ((st.allocatedBytes + cfg.alignUp size) % 2 ^ cfg.sizeBits) := by
  unfold jmemHeapStatAlloc
  dsimp only
  split_ifs <;> dsimp only at * <;> omega

@[simp] theorem allocCount_statAlloc :
    (jmemHeapStatAlloc cfg size st).allocCount = st.allocCount + 1 := by
  unfold jmemHeapStatAlloc; dsimp only; split_ifs <;> rfl

@[simp] theorem freeCount_statAlloc : (jmemHeapStatAlloc cfg size st).freeCount = st.freeCount := by
  unfold jmemHeapStatAlloc; dsimp only; split_ifs <;> rfl

@[simp] theorem skipCount_statAlloc : (jmemHeapStatAlloc cfg size st).skipCount = st.skipCount := by
  unfold jmemHeapStatAlloc; dsimp only; split_ifs <;> rfl

@[simp] theorem nonskipCount_statAlloc :
    (jmemHeapStatAlloc cfg size st).nonskipCount = st.nonskipCount := by
  unfold jmemHeapStatAlloc; dsimp only; split_ifs <;> rfl

end Record

section Paths

variable {cfg : Config} {env : Env}

theorem stats_alloc_fast (small : Bool) (s : Heap) :
    (jmemHeapAllocBlockInternalFast cfg small s).2.stats = (s.statAllocIter cfg 1).stats := by
  unfold jmemHeapAllocBlockInternalFast Heap.statAllocIter
  dsimp only
  split <;> split <;> split <;> simp

theorem stats_slowAllocAt {s s' : Heap}
    (h : slowAllocAt cfg requiredSize small prevP currentOffset s = some (p, s')) :
    s'.stats = s.stats := by
  simp only [slowAllocAt, bind, pure, Option.bind_eq_some, Option.some.injEq] at h
  obtain ⟨s₁, hs₁, -, rfl⟩ := h
  have := stats_updateOccupancy hs₁
  split <;> simp_all

/-- Both paths count their walk in `alloc_iter_count` and touch no other statistic. -/
theorem stats_allocFastOrSlow {s s' : Heap}
    (h : allocFastOrSlow cfg requiredSize small s = some (p, s')) :
    ∃ k, s'.stats = (s.statAllocIter cfg k).stats := by
  unfold allocFastOrSlow at h
  split at h
  · cases h
    exact ⟨1, stats_alloc_fast small s⟩
  · simp only [jmemHeapAllocBlockInternalSlow, bind, pure, Option.bind_eq_some,
      Option.some.injEq] at h
    obtain ⟨⟨r, visited⟩, -, h⟩ := h
    refine ⟨visited, ?_⟩
    cases r with
    | exhausted => cases h; rfl
    | found prevP currentOffset => exact stats_slowAllocAt h

/-- With `JMEM_STATS`, an attempt off the system allocator counts its walk and, when it
returns a block, `jmem_heap_stat_alloc` of the size it was given. -/
theorem stats_alloc_internal (hsys : cfg.backend ≠ .system) (hst : cfg.stats = true)
    {s s' : Heap} (h : jmemHeapAllocBlockInternal cfg env size small s = some (p, s')) :
    ∃ k, s'.stats =
      let st := { s.stats with allocIterCount := s.stats.allocIterCount + k }
      if p = 0 then st else jmemHeapStatAlloc cfg size st := by
  simp only [jmemHeapAllocBlockInternal, hsys, if_false, bind, pure, Option.bind_eq_some] at h
  obtain ⟨⟨q, s₁⟩, h₁, h⟩ := h
  obtain ⟨k, hk⟩ := stats_allocFastOrSlow h₁
  refine ⟨k, ?_⟩
  simp only [Heap.statAllocIter, stats_stat, hst, if_true] at hk
  split at h <;> cases h <;> simp [*]

/-- With `JMEM_STATS`, a free off the system allocator counts its walks, whether it started
from the skip pointer, and `jmem_heap_stat_free` of the size the caller passed. -/
theorem stats_free_internal (hsys : cfg.backend ≠ .system) (hst : cfg.stats = true)
    {s s' : Heap} (h : jmemHeapFreeBlockInternal cfg ptr size small s = some s') :
    ∃ k, ∃ skipOk : Bool, s'.stats = jmemHeapStatFree cfg size { s.stats with
      skipCount := s.stats.skipCount + if skipOk then 1 else 0
      nonskipCount := s.stats.nonskipCount + if skipOk then 0 else 1
      freeIterCount := s.stats.freeIterCount + 1 + k } := by
  simp only [jmemHeapFreeBlockInternal, hsys, if_false, bind, pure, Option.bind_eq_some,
    Option.some.injEq] at h
  obtain ⟨s₁, h₁, s₂, h₂, rfl⟩ := h
  simp only [freeInsert, bind, pure, Option.bind_eq_some, Option.some.injEq] at h₁
  obtain ⟨⟨prevP, rounds⟩, -, rfl⟩ := h₁
  refine ⟨rounds, ?_⟩
  simp only [stats_stat, hst, if_true, stats_updateOccupancy h₂, stats_freeLink,
    Heap.statFreeIter]
  split_ifs <;> simp [hst, Bool.exists_bool, Nat.add_assoc]

end Paths

/-! ## The statistics against the held blocks -/

/-- `JMEM_STATS` agrees with the held blocks. -/
structure StatsMatch (cfg : Config) (e : Engine) : Prop where
  allocatedBytes : e.heap.stats.allocatedBytes = cfg.liveBytes e.live
  peak : e.heap.stats.allocatedBytes ≤ e.heap.stats.peakAllocatedBytes
  allocCount : e.heap.stats.allocCount = e.heap.stats.freeCount + e.live.length
  skipCount : e.heap.stats.skipCount + e.heap.stats.nonskipCount = e.heap.stats.freeCount

section Match

variable {cfg : Config} {env : Env}

/-- Subtracting modulo `m` a part `c` of a sum below `m` leaves the rest. -/
theorem add_sub_mod_of_lt {a c m : Nat} (h : a < m) : (c + a + m - c) % m = a := by
  rw [show c + a + m - c = a + m by omega, Nat.add_mod_right, Nat.mod_eq_of_lt h]

/-- A free of a held block takes its bytes out of `allocated_bytes` without wrapping, since
they are part of what the area holds, and counts one free, skipping or not. -/
theorem statsMatch_free (hb : cfg.backend = .static ∨ cfg.backend.isDynamicEmul)
    (hst : cfg.stats = true) (harea : cfg.areaSize < 2 ^ cfg.sizeBits) :
    FreePreserves cfg fun e ↦ (∃ L, FreeListShape cfg e.heap e.live L) ∧ StatsMatch cfg e := by
  intro e b s ⟨⟨L, h⟩, hm⟩ hb' hs
  refine ⟨h.free hb hb' hs, ?_⟩
  obtain ⟨k, ok, hk⟩ := stats_free_internal (ne_of_contiguous hb).1 hst hs
  have hsum := List.sum_map_erase (fun b : Block ↦ cfg.alignUp b.size) hb'
  have hlen := List.length_erase_of_mem hb'
  have hpos := List.length_pos_of_mem hb'
  have hle := h.liveBytes_le
  obtain ⟨h₁, h₂, h₃, h₄⟩ := hm
  simp only [Config.liveBytes] at h₁ hsum hle
  refine ⟨?_, ?_, ?_, ?_⟩ <;> simp only [hk, jmemHeapStatFree, Config.liveBytes, hlen]
  · rw [h₁, ← hsum]; exact add_sub_mod_of_lt (by omega)
  · rw [h₁, ← hsum, add_sub_mod_of_lt (by omega)]; omega
  · omega
  · cases ok <;> simp <;> omega

/-- An attempt that returns a block adds its bytes to `allocated_bytes`, which stays below
`2 ^ sizeBits` since the new block set still fits in the area, and counts one allocation; a
failed attempt counts only its walk. -/
theorem statsMatch_attempt (hb : cfg.backend = .static ∨ cfg.backend.isDynamicEmul)
    (hst : cfg.stats = true) (harea : cfg.areaSize < 2 ^ cfg.sizeBits) {n : Nat} (hn : 0 < n)
    (hw : cfg.NoWrap n) (small : Bool) :
    AttemptPreserves cfg env
      (fun e ↦ (∃ L, FreeListShape cfg e.heap e.live L) ∧ StatsMatch cfg e) n small := by
  intro e p e' ⟨hL, hm⟩ ha
  obtain ⟨L', h'⟩ := attemptPreserves_shape hb hn hw small e p e' hL ha
  refine ⟨⟨L', h'⟩, ?_⟩
  obtain ⟨⟨q, s⟩, hs, he'⟩ := Option.map_eq_some'.mp ha
  cases he'
  obtain ⟨k, hk⟩ := stats_alloc_internal (ne_of_contiguous hb).1 hst hs
  obtain ⟨h₁, h₂, h₃, h₄⟩ := hm
  by_cases hq : q = 0
  · subst hq
    simp only [if_true] at hk
    exact ⟨by simp [hk, h₁], by simpa [hk] using h₂, by simp [hk, h₃], by simp [hk, h₄]⟩
  · have hle := h'.liveBytes_le
    simp only [Engine.hold, hq, if_false, Config.liveBytes, List.map_append, List.sum_append,
      List.map_singleton, List.sum_singleton] at hle
    simp only [hq, if_false] at hk
    simp only [Config.liveBytes] at h₁
    refine ⟨?_, ?_, ?_, ?_⟩ <;> simp only [hk, allocatedBytes_statAlloc,
      peakAllocatedBytes_statAlloc, allocCount_statAlloc, freeCount_statAlloc,
      skipCount_statAlloc, nonskipCount_statAlloc, Config.alignUp_alignUp, Engine.hold, hq,
      if_false, Config.liveBytes, List.map_append, List.sum_append, List.map_singleton,
      List.sum_singleton, List.length_append, List.length_singleton]
    · rw [h₁, Nat.mod_eq_of_lt (by omega)]
    · exact le_max_right _ _
    · omega
    · exact h₄

/-- `jmem_heap_init` leaves the statistics at zero but for `size`. -/
theorem statsMatch_initial (hst : cfg.stats = true) (size nextOffset : Nat → Nat) :
    StatsMatch cfg (Engine.initial cfg env size nextOffset) := by
  have hz : (Engine.initial cfg env size nextOffset).heap.stats = jmemHeapStatInit cfg Stats.zero := by
    simp [Engine.initial, stats_jmemHeapInit, hst, Heap.zero]
  have hl : (Engine.initial cfg env size nextOffset).live = [] := rfl
  constructor <;> simp [hz, hl, jmemHeapStatInit, Stats.zero, Config.liveBytes]

/-- With `JMEM_STATS` on the static and dynamic-emulation backends, when `size_t` can count the
area's bytes, under the collector contract, in every state reached by requests whose rounding
does not wrap: `allocated_bytes` is the sum of `align_up (n)` over the blocks the engine holds
(so, with the counters, `jmem_heap_blocks_size`), it never exceeds `peak_allocated_bytes`,
`alloc_count` is `free_count` plus the number of held blocks, and `skip_count` and
`nonskip_count` add up to `free_count`. -/
theorem heapStats_of_run (hb : cfg.backend = .static ∨ cfg.backend.isDynamicEmul)
    (hst : cfg.stats = true) (harea : cfg.areaSize < 2 ^ cfg.sizeBits) (hc : env.CollectsLive)
    {size nextOffset : Nat → Nat} {rs : List Request} {e : Engine}
    (hrun : run cfg env (Engine.initial cfg env size nextOffset) rs = some e)
    (hrs : ∀ r ∈ rs, cfg.NoWrap r.allocSize) :
    e.heap.stats.allocatedBytes = (e.live.map fun b ↦ cfg.alignUp b.size).sum ∧
    e.heap.stats.allocatedBytes ≤ e.heap.stats.peakAllocatedBytes ∧
    e.heap.stats.allocCount = e.heap.stats.freeCount + e.live.length ∧
    e.heap.stats.skipCount + e.heap.stats.nonskipCount = e.heap.stats.freeCount := by
  have hseg := (ne_of_contiguous hb).2
  have hf := statsMatch_free hb hst harea
  obtain ⟨-, hm⟩ := run_preserves (fun r ↦ cfg.NoWrap r.allocSize) (fun _ _ _ hr he hstep ↦
    step_preserves (fun r ↦ cfg.NoWrap r.allocSize) (callbacksPreserve_of_collectsLive hc hf) hf
      (fun r hr hn ↦ statsMatch_attempt hb hst harea hn hr r.small)
      (fun _ _ h ↦ absurd h hseg) hr he hstep) hrs
    ⟨⟨_, freeListShape_initial hb env _ _⟩, statsMatch_initial hst _ _⟩ hrun
  exact ⟨hm.allocatedBytes, hm.peak, hm.allocCount, hm.skipCount⟩

theorem heapStats_of_run_small :
    ∃ e, run (Config.small .static) Env.quiet
        (Engine.initial (Config.small .static) Env.quiet (fun _ ↦ 0) (fun _ ↦ 0))
        [.allocBlock 8, .allocBlock 20, .free ⟨4096, 8, false⟩] = some e ∧
      e.heap.stats.allocatedBytes =
        (e.live.map fun b ↦ (Config.small .static).alignUp b.size).sum ∧
      e.heap.stats.allocatedBytes ≤ e.heap.stats.peakAllocatedBytes ∧
      e.heap.stats.allocCount = e.heap.stats.freeCount + e.live.length ∧
      e.heap.stats.skipCount + e.heap.stats.nonskipCount = e.heap.stats.freeCount := by
  obtain ⟨e, he⟩ := Option.isSome_iff_exists.mp (show (run (Config.small .static) Env.quiet
    (Engine.initial (Config.small .static) Env.quiet (fun _ ↦ 0) (fun _ ↦ 0))
    [.allocBlock 8, .allocBlock 20, .free ⟨4096, 8, false⟩]).isSome by decide)
  exact ⟨e, he, heapStats_of_run (.inl rfl) rfl (by decide) (fun _ _ _ ↦ List.nil_subperm) he
    (by decide)⟩

end Match

/-! ## The debug build's checks -/

section Checks

variable (cfg : Config)

/-- `jmem_is_heap_pointer`: on the system allocator always, on the segmented backend whether the
pointer is not `NULL` (the source's "Not yet implemented"), and otherwise whether it lies in
the area, its end included. -/
def jmemIsHeapPointer (pointer : Nat) : Bool :=
  if cfg.backend = .system then true
  else if cfg.backend = .segmented then pointer != 0
  else decide (cfg.areaBase ≤ pointer ∧ pointer ≤ cfg.areaBase + cfg.areaSize)

/-- The `JERRY_ASSERT`s at the top of `jmem_heap_free_block_internal` off the system allocator:
the pointer points to the heap, the size is positive, and the limit covers the counted
bytes. -/
def freeBlockChecks (s : Heap) (ptr size : Nat) : Bool :=
  jmemIsHeapPointer cfg ptr && decide (size > 0) &&
    decide (s.counters.heapLimit ≥ s.counters.blocksSize)

/-- The `JERRY_ASSERT` of `jmem_heap_finalize`: no byte is counted any more. -/
def jmemHeapFinalizeCheck (s : Heap) : Bool := s.counters.blocksSize == 0

end Checks

/-- On the static and dynamic-emulation backends, under the collector contract, in every state
reached by requests whose rounding does not wrap: freeing any block the engine holds, with the
size it asked for, passes the debug build's checks at the top of
`jmem_heap_free_block_internal`, and the check of `jmem_heap_finalize` passes exactly when the
engine holds no block, so it catches every block left unfreed. -/
theorem debugChecks_of_run {cfg : Config} {env : Env}
    (hb : cfg.backend = .static ∨ cfg.backend.isDynamicEmul) (hc : env.CollectsLive)
    {size nextOffset : Nat → Nat} {rs : List Request} {e : Engine}
    (hrun : run cfg env (Engine.initial cfg env size nextOffset) rs = some e)
    (hrs : ∀ r ∈ rs, cfg.NoWrap r.allocSize) :
    (∀ b ∈ e.live, freeBlockChecks cfg e.heap b.ptr b.size = true) ∧
    (jmemHeapFinalizeCheck e.heap = true ↔ e.live = []) := by
  obtain ⟨hsys, hseg⟩ := ne_of_contiguous hb
  obtain ⟨L, h⟩ := exists_freeListShape_of_run hb hc hrun hrs
  have hreach : Reachable cfg env e := ⟨size, nextOffset, rs, hrun⟩
  have hm := countersMatch_of_reachable hb hc hreach
  refine ⟨fun b hb' ↦ ?_, ?_⟩
  · obtain ⟨hbase, -, hpos, -⟩ := h.blocks b hb'
    have hend := h.extent_end_le hb'
    simp only [Block.extent] at hend
    simp [freeBlockChecks, jmemIsHeapPointer, hsys, hseg, hpos,
      (limitInv_of_reachable hsys hreach).blocksSize_le]
    omega
  · rw [jmemHeapFinalizeCheck, beq_iff_eq, hm.blocksSize]
    cases hlive : e.live with
    | nil => simp [Config.liveBytes]
    | cons b bs =>
      have hpos := h.extent_size_pos (hlive ▸ List.mem_cons_self b bs)
      simp only [Block.extent] at hpos
      simp only [Config.liveBytes, List.map_cons, List.sum_cons]
      exact iff_of_false (by omega) (List.cons_ne_nil b bs)

theorem debugChecks_of_run_small :
    ∃ e, run (Config.small .static) Env.quiet
        (Engine.initial (Config.small .static) Env.quiet (fun _ ↦ 0) (fun _ ↦ 0))
        [.allocBlock 8, .allocBlock 20, .free ⟨4096, 8, false⟩] = some e ∧
      (∀ b ∈ e.live, freeBlockChecks (Config.small .static) e.heap b.ptr b.size = true) ∧
      (jmemHeapFinalizeCheck e.heap = true ↔ e.live = []) := by
  obtain ⟨e, he⟩ := Option.isSome_iff_exists.mp (show (run (Config.small .static) Env.quiet
    (Engine.initial (Config.small .static) Env.quiet (fun _ ↦ 0) (fun _ ↦ 0))
    [.allocBlock 8, .allocBlock 20, .free ⟨4096, 8, false⟩]).isSome by decide)
  exact ⟨e, he, debugChecks_of_run (.inl rfl) (fun _ _ _ ↦ List.nil_subperm) he (by decide)⟩

end JmemHeap
