import JmemHeap.Limit

/-!
# The counters against the live blocks

On the static and dynamic-emulation backends every allocation that returns a block records
`align_up (n)` bytes for it, with its kind, and the free of that block (with the same size and
kind) takes exactly that away; a failed attempt records nothing, since a region taken from
the area never sits at host address `0`. So the counters are sums, over the blocks the engine
holds, of what each block's allocation recorded, in every run.

On the system allocator this fails twice over: `jmem_heap_gc_and_alloc_block` passes the
rounded size down and `dynamic_real` counts it, while the free path subtracts the size the
caller passes; and `dynamic_real` counts a block whether or not `malloc` returned `NULL`.
The statistics have the same mismatch on every backend: `JMEM_HEAP_STAT_ALLOC` is given the
rounded size, `JMEM_HEAP_STAT_FREE` the requested one.
-/

namespace JmemHeap

namespace Config

variable (cfg : Config)

/-- Whether a block of the given kind counts in `jmem_allocated_heap_size` and
`jmem_system_allocator_metadata_size`: on the dynamic-emulation backend, unless `DE_SLAB`
serves it as a small block. -/
def countsHeap (small : Bool) : Bool := cfg.backend.isDynamicEmul && !(cfg.backend.slab && small)

/-- `jmem_heap_blocks_size` as the live blocks account for it. -/
def liveBytes (live : List Block) : Nat := (live.map fun b ↦ cfg.alignUp b.size).sum

/-- `jmem_allocated_heap_size` less its value after `jmem_heap_init`, as the live blocks
account for it. -/
def liveHeapBytes (live : List Block) : Nat :=
  (live.map fun b ↦ if cfg.countsHeap b.small then cfg.alignUp b.size else 0).sum

/-- `jmem_system_allocator_metadata_size` as the live blocks account for it. -/
def liveMetadata (live : List Block) : Nat :=
  (live.map fun b ↦ if cfg.countsHeap b.small then cfg.metadataSize else 0).sum

/-- `jmem_allocated_heap_size` right after `jmem_heap_init`. -/
def initialHeapSize : Nat := if cfg.backend = .static then cfg.heapSize else 0

end Config

/-- The counters are what the live blocks' allocations recorded. -/
structure CountersMatch (cfg : Config) (e : Engine) : Prop where
  blocksSize : e.heap.counters.blocksSize = cfg.liveBytes e.live
  allocatedBlocksCount : e.heap.counters.allocatedBlocksCount = e.live.length
  allocatedHeapSize :
    e.heap.counters.allocatedHeapSize = cfg.initialHeapSize + cfg.liveHeapBytes e.live
  systemAllocatorMetadataSize :
    e.heap.counters.systemAllocatorMetadataSize = cfg.liveMetadata e.live

section Match

variable {cfg : Config} {env : Env}

/-- Releasing a held block takes its share out of each sum. -/
theorem sum_erase_of_mem {live : List Block} {b : Block} (hb : b ∈ live) (f : Block → Nat) :
    (live.map f).sum - f b = ((live.erase b).map f).sum := by
  rw [← List.sum_map_erase f hb]
  omega

theorem countersMatch_free (hsys : cfg.backend ≠ .system) : FreePreserves cfg (CountersMatch cfg) := by
  intro e b s he hb hs
  have hc := counters_free_internal hsys hs
  refine ⟨?_, ?_, ?_, ?_⟩ <;> simp only [hc, recordFree_blocksSize, recordFree_allocatedBlocksCount,
    recordFree_allocatedHeapSize, recordFree_systemAllocatorMetadataSize]
  · rw [he.blocksSize]; exact sum_erase_of_mem hb _
  · rw [he.allocatedBlocksCount, List.length_erase_of_mem hb]
  · have := List.sum_map_erase
      (fun b : Block ↦ if cfg.countsHeap b.small then cfg.alignUp b.size else 0) hb
    simp only [he.allocatedHeapSize, Config.liveHeapBytes, Config.countsHeap] at this ⊢
    omega
  · rw [he.systemAllocatorMetadataSize]; exact sum_erase_of_mem hb _

theorem countersMatch_attempt (hb : cfg.backend = .static ∨ cfg.backend.isDynamicEmul) :
    AttemptPreserves cfg env (CountersMatch cfg) n small := by
  obtain ⟨hsys, hseg⟩ := ne_of_contiguous hb
  intro e p e' he ha
  obtain ⟨⟨q, s⟩, hs, he'⟩ := Option.map_eq_some'.mp ha
  cases he'
  obtain ⟨c, hc, hs'⟩ := counters_alloc_internal hsys hs
  rw [Config.alignUp_alignUp] at hc
  rcases hc with ⟨rfl, rfl⟩ | ⟨rfl, o, rfl⟩
  · exact ⟨by simp [hs', he.1], by simp [hs', he.2], by simp [hs', he.3], by simp [hs', he.4]⟩
  · have hp : jmemDecompressPointerInternal cfg e.heap o ≠ 0 := by
      rw [decompress_of_ne_segmented cfg hseg]; have := cfg.firstAddr_lt; omega
    simp only [Engine.hold, hp, if_false]
    refine ⟨?_, ?_, ?_, ?_⟩ <;>
      simp [hs', he.blocksSize, he.allocatedBlocksCount, he.allocatedHeapSize,
        he.systemAllocatorMetadataSize, Config.liveBytes, Config.liveHeapBytes,
        Config.liveMetadata, Config.countsHeap]
    omega

theorem countersMatch_group : GroupPreserves cfg env (CountersMatch cfg) n := by
  intro _ e g s he hg
  have := counters_allocASegmentGroup hg
  exact ⟨this ▸ he.1, this ▸ he.2, this ▸ he.3, this ▸ he.4⟩

/-- The counters match the live blocks in every reachable state of a contiguous backend. -/
theorem countersMatch_of_reachable (hb : cfg.backend = .static ∨ cfg.backend.isDynamicEmul)
    (hc : env.CollectsLive) {e : Engine} (h : Reachable cfg env e) : CountersMatch cfg e := by
  have hsys := (ne_of_contiguous hb).1
  refine reachable_preserves (fun size nextOffset ↦ ?_)
    (fun e r e' he hstep ↦ step_preserves (fun _ ↦ True)
      (callbacksPreserve_of_collectsLive hc (countersMatch_free hsys)) (countersMatch_free hsys)
      (fun _ _ _ ↦ countersMatch_attempt hb) (fun _ _ ↦ countersMatch_group) trivial he hstep) h
  refine ⟨?_, ?_, ?_, ?_⟩ <;>
    simp [Engine.initial, counters_jmemHeapInit, hsys, Heap.zero, Config.liveBytes,
      Config.liveHeapBytes, Config.liveMetadata, Config.initialHeapSize]

/-- On the static and dynamic-emulation backends, in every reachable state the counters are
sums over the live blocks of what each block's allocation recorded: `align_up (n)` bytes in
`jmem_heap_blocks_size`, one block in `jmem_heap_allocated_blocks_count`, and, for a block the
dynamic-emulation backend counts, `align_up (n)` bytes in `jmem_allocated_heap_size` (over its
value after `jmem_heap_init`) and `SYSTEM_ALLOCATOR_METADATA_SIZE` in
`jmem_system_allocator_metadata_size`. With no live block all four are back to their values
after `jmem_heap_init`. -/
theorem counters_eq_live_sums (hb : cfg.backend = .static ∨ cfg.backend.isDynamicEmul)
    (hc : env.CollectsLive) {e : Engine} (h : Reachable cfg env e) :
    e.heap.counters.blocksSize = (e.live.map fun b ↦ cfg.alignUp b.size).sum ∧
    e.heap.counters.allocatedBlocksCount = e.live.length ∧
    e.heap.counters.allocatedHeapSize = (if cfg.backend = .static then cfg.heapSize else 0) +
      (e.live.map fun b ↦
        if cfg.backend.isDynamicEmul && !(cfg.backend.slab && b.small) then cfg.alignUp b.size
        else 0).sum ∧
    e.heap.counters.systemAllocatorMetadataSize = (e.live.map fun b ↦
        if cfg.backend.isDynamicEmul && !(cfg.backend.slab && b.small) then cfg.metadataSize
        else 0).sum := by
  have := countersMatch_of_reachable hb hc h
  exact ⟨this.1, this.2, this.3, this.4⟩

theorem counters_eq_live_sums_small :
    ∃ e, Reachable (Config.small .static) Env.quiet e ∧ e.live = [⟨4112, 8, false⟩] ∧
      e.heap.counters.blocksSize = (e.live.map fun b ↦ (Config.small .static).alignUp b.size).sum ∧
      e.heap.counters.allocatedBlocksCount = e.live.length := by
  obtain ⟨e, he, hv⟩ := exists_reachable_of_run _ _ (show
    (run (Config.small .static) Env.quiet
      (Engine.initial (Config.small .static) Env.quiet (fun _ ↦ 0) (fun _ ↦ 0))
      [.allocBlock 8, .allocBlock 8, .allocBlock 8, .free ⟨4096, 8, false⟩,
        .free ⟨4104, 8, false⟩]).map (·.live) = some [⟨4112, 8, false⟩] by decide)
  have h := counters_eq_live_sums (.inl rfl) (fun _ _ _ ↦ List.nil_subperm) he
  exact ⟨e, he, hv, h.1, h.2.1⟩

/-- On the system allocator, allocating one byte and freeing it leaves 7 bytes in
`jmem_heap_blocks_size` and 8 in `jmem_allocated_heap_size`; and an allocation that
`malloc` fails three times along the ladder returns `NULL` with three blocks counted. -/
theorem counters_drift_system :
    (run (Config.small .system) (Env.mallocAt 8192)
      (Engine.initial (Config.small .system) (Env.mallocAt 8192) (fun _ ↦ 0) (fun _ ↦ 0))
      [.allocBlock 1, .free ⟨8192, 1, false⟩]).map (fun e ↦ (e.live, e.heap.counters)) =
      some ([], ⟨7, 0, 8, 0, 0⟩) ∧
    (run (Config.small .system) Env.quiet
      (Engine.initial (Config.small .system) Env.quiet (fun _ ↦ 0) (fun _ ↦ 0))
      [.allocBlockNullOnError 1]).map (fun e ↦ (e.live, e.heap.counters)) =
      some ([], ⟨24, 3, 48, 12, 0⟩) :=
  ⟨by decide, by decide⟩

end Match

/-- On the small static build, a one-byte block adds nothing to `waste_bytes`, since
`JMEM_HEAP_STAT_ALLOC` sees the rounded size, and its free takes 7 bytes away, so the counter
wraps below zero and passes its peak. -/
theorem wasteBytes_wrap_small :
    (run (Config.small .static) Env.quiet
      (Engine.initial (Config.small .static) Env.quiet (fun _ ↦ 0) (fun _ ↦ 0))
      [.allocBlock 1]).map (·.heap.stats.wasteBytes) = some 0 ∧
    (run (Config.small .static) Env.quiet
      (Engine.initial (Config.small .static) Env.quiet (fun _ ↦ 0) (fun _ ↦ 0))
      [.allocBlock 1, .free ⟨4096, 1, false⟩]).map
      (fun e ↦ (e.heap.stats.wasteBytes, e.heap.stats.peakWasteBytes)) = some (2 ^ 64 - 7, 0) :=
  ⟨by decide, by decide⟩

end JmemHeap
