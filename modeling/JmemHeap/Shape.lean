import JmemHeap.Surgery

/-!
# The free list and the held blocks partition the area

On the contiguous backends (static and dynamic emulation) the allocator's memory has one
shape after every call: the free list read from `first` is an address-ordered list of regions
of whole granules, no two touching, and these regions and the blocks the engine holds
together hold every byte of the area exactly once. The skip pointer stays at `first`, at the
header of a free region, or at the address `JMEM_HEAP_END_OF_LIST` decompresses to, which
lies above the area.

The shape is kept by every allocation attempt and every free of a held block
(`FreeListShape.attempt`, `FreeListShape.free`), so it holds in every run whose requests
round to whole granules without wrapping (`freeList_exact`).
-/

namespace JmemHeap

open Region

/-- The part of the area a held block takes: `align_up (size)` bytes from its offset. -/
def Block.extent (cfg : Config) (b : Block) : Region := ⟨b.ptr - cfg.areaBase, cfg.alignUp b.size⟩

/-- Where the skip pointer may point: `first`, the header of one of the regions `L`, or the
address `JMEM_HEAP_END_OF_LIST` decompresses to. -/
def SkipAt (cfg : Config) (L : List Region) (p : Nat) : Prop :=
  p = cfg.firstAddr ∨ (∃ r ∈ L, p = cfg.areaBase + r.off) ∨ p = cfg.areaBase + cfg.endOfList

/-- The memory of a contiguous backend, with `L` the free regions in list order and `live` the
blocks the engine holds. -/
structure FreeListShape (cfg : Config) (s : Heap) (live : List Block) (L : List Region) :
    Prop where
  /-- Following links from `first.next_offset` visits the regions `L` and arrives at
  `JMEM_HEAP_END_OF_LIST`. -/
  seg : ListSeg cfg s (s.nextOffset cfg.firstAddr) L cfg.endOfList
  /-- The regions are in address order, and no region ends where the next one starts. -/
  sorted : L.Pairwise Before
  /-- Every region is a positive number of whole granules. -/
  aligned : ∀ r ∈ L, cfg.alignment ∣ r.off ∧ cfg.alignment ∣ r.size ∧ 0 < r.size
  /-- Every held block starts at a granule of the area and was asked for with a positive size
  that rounds without wrapping. -/
  blocks : ∀ b ∈ live,
    cfg.areaBase ≤ b.ptr ∧ cfg.alignment ∣ b.ptr - cfg.areaBase ∧ 0 < b.size ∧ cfg.NoWrap b.size
  /-- Every byte of the area is in exactly one free region or held block, and no byte outside
  the area is in any. -/
  partition : ∀ x,
    cover L x + cover (live.map (Block.extent cfg)) x = if x < cfg.areaSize then 1 else 0
  /-- `first.size` is `0`, so no block is ever merged into `first`. -/
  firstSize : s.size cfg.firstAddr = 0
  skip : SkipAt cfg L s.skip

section Skip

variable {cfg : Config}

theorem skipAt_linkHolder (pre L : List Region) :
    SkipAt cfg (pre ++ L) (linkHolder cfg cfg.firstAddr pre) := by
  rcases linkHolder_cases cfg.firstAddr pre with h | ⟨q, hq, h⟩
  · exact .inl h
  · exact .inr (.inl ⟨q, List.mem_append_left L hq, h⟩)

theorem skipAt_headLink (L : List Region) : SkipAt cfg L (cfg.areaBase + headLink cfg L) := by
  cases L with
  | nil => exact .inr (.inr rfl)
  | cons r L => exact .inr (.inl ⟨r, List.mem_cons_self r L, rfl⟩)

end Skip

/-! ## Reading the shape -/

namespace FreeListShape

variable {cfg : Config} {s : Heap} {live : List Block} {L : List Region}

theorem alignment_le_size (h : FreeListShape cfg s live L) {r : Region} (hr : r ∈ L) :
    cfg.alignment ≤ r.size :=
  Nat.le_of_dvd (h.aligned r hr).2.2 (h.aligned r hr).2.1

/-- Every free region lies in the area. -/
theorem end_le (h : FreeListShape cfg s live L) {r : Region} (hr : r ∈ L) :
    r.off + r.size ≤ cfg.areaSize := by
  have hpos := (h.aligned r hr).2.2
  have := ind_le_cover hr (r.off + r.size - 1)
  have := h.partition (r.off + r.size - 1)
  unfold ind at *
  split_ifs at * <;> omega

theorem extent_size_pos (h : FreeListShape cfg s live L) {b : Block} (hb : b ∈ live) :
    0 < (b.extent cfg).size :=
  Nat.lt_of_lt_of_le cfg.alignment_pos
    (Config.alignment_le_alignUp (h.blocks b hb).2.2.1 (h.blocks b hb).2.2.2)

/-- Every held block lies in the area. -/
theorem extent_end_le (h : FreeListShape cfg s live L) {b : Block} (hb : b ∈ live) :
    (b.extent cfg).off + (b.extent cfg).size ≤ cfg.areaSize := by
  have hpos := h.extent_size_pos hb
  have := ind_le_cover (List.mem_map_of_mem (Block.extent cfg) hb)
    ((b.extent cfg).off + (b.extent cfg).size - 1)
  have := h.partition ((b.extent cfg).off + (b.extent cfg).size - 1)
  unfold ind at *
  split_ifs at * <;> omega

/-- No free region holds a byte of a held block. -/
theorem extent_disjoint (h : FreeListShape cfg s live L) {b : Block} (hb : b ∈ live) (x : Nat) :
    (b.extent cfg).ind x + cover L x ≤ 1 := by
  have := ind_le_cover (List.mem_map_of_mem (Block.extent cfg) hb) x
  have := h.partition x
  split_ifs at this <;> omega

theorem off_ne_endOfList (h : FreeListShape cfg s live L) {r : Region} (hr : r ∈ L) :
    r.off ≠ cfg.endOfList := by
  have := h.end_le hr
  have := cfg.areaSize_lt_endOfList
  omega

theorem end_lt_size32 (h : FreeListShape cfg s live L) {r : Region} (hr : r ∈ L) :
    r.off + r.size < 2 ^ 32 :=
  Nat.lt_of_le_of_lt (h.end_le hr) cfg.areaSize_lt_size32

/-- The first region on a non-empty list has a positive size. -/
theorem size_first_pos (h : FreeListShape cfg s live L)
    (hne : s.nextOffset cfg.firstAddr ≠ cfg.endOfList) :
    0 < s.size (cfg.areaBase + s.nextOffset cfg.firstAddr) := by
  have hseg := h.seg
  cases L with
  | nil => exact absurd hseg hne
  | cons r L =>
    obtain ⟨ho, hsz, -⟩ := listSeg_cons.mp hseg
    rw [ho, hsz]
    exact (h.aligned r (List.mem_cons_self r L)).2.2

/-- The shape reads only the headers and the skip pointer. -/
theorem congr {t : Heap} (h : FreeListShape cfg s live L) (hs : t.size = s.size)
    (hn : t.nextOffset = s.nextOffset) (hk : t.skip = s.skip) : FreeListShape cfg t live L :=
  ⟨h.seg.of_eq hs hn (by rw [hn]), h.sorted, h.aligned, h.blocks, h.partition,
    by rw [hs]; exact h.firstSize, by rw [hk]; exact h.skip⟩

end FreeListShape

/-! ## One allocation attempt -/

section Attempt

variable {cfg : Config} {env : Env} {s s' : Heap} {live : List Block} {L : List Region}

/-- The slow path against the shape: first fit, or `NULL` when every region is too small. -/
theorem slow_spec (hseg : cfg.backend ≠ .segmented) (h : FreeListShape cfg s live L)
    (hs : jmemHeapAllocBlockInternalSlow cfg m small s = some (p, s')) :
    (p = 0 ∧ (∀ q ∈ L, q.size < m) ∧
      s'.size = s.size ∧ s'.nextOffset = s.nextOffset ∧ s'.skip = s.skip) ∨
    ∃ pre r post, L = pre ++ r :: post ∧ (∀ q ∈ pre, q.size < m) ∧ m ≤ r.size ∧
      p = cfg.areaBase + r.off ∧
      ListSeg cfg s' (s'.nextOffset cfg.firstAddr) (pre ++ carve m r ++ post) cfg.endOfList ∧
      s'.size cfg.firstAddr = s.size cfg.firstAddr ∧ s'.skip = linkHolder cfg cfg.firstAddr pre := by
  simp only [jmemHeapAllocBlockInternalSlow, bind, pure, Option.bind_eq_some] at hs
  obtain ⟨⟨res, visited⟩, hsearch, hs⟩ := hs
  dsimp only at hs
  have hend : ∀ r ∈ L, r.off ≠ cfg.endOfList := fun r hr ↦ h.off_ne_endOfList hr
  cases res with
  | exhausted =>
    simp only [Option.some.injEq, Prod.mk.injEq] at hs
    obtain ⟨rfl, rfl⟩ := hs
    exact .inl ⟨rfl, slowSearch_exhausted hseg h.seg hend hsearch, by simp, by simp, by simp⟩
  | found prevP o =>
    obtain ⟨pre, r, post, rfl, hpre, hr, rfl, rfl⟩ := slowSearch_found hseg h.seg hend hsearch
    dsimp only at hs
    obtain ⟨t, ht, hseg', hfirst, hskip⟩ := slowAllocAt_spec hseg (s := s.statAllocIter cfg visited)
      (h.seg.of_eq (by simp) (by simp) (by simp)) h.sorted (h.end_lt_size32 (by simp)) small
    rw [ht, Option.some.injEq, Prod.mk.injEq] at hs
    obtain ⟨rfl, rfl⟩ := hs
    exact .inr ⟨pre, r, post, rfl, hpre, hr, rfl, hseg', by simpa using hfirst, hskip⟩

/-- `jmem_heap_alloc_block_internal (m)` for a whole number `m` of granules, at least one:
it returns `NULL`, with the list and the skip pointer as they were, only when every free
region is too small, and otherwise carves the block from the first region large enough. -/
theorem alloc_spec (hb : cfg.backend = .static ∨ cfg.backend.isDynamicEmul)
    (h : FreeListShape cfg s live L) (hdvd : cfg.alignment ∣ m) (hlt : m < 2 ^ cfg.sizeBits)
    (ha : jmemHeapAllocBlockInternal cfg env m small s = some (p, s')) :
    (p = 0 ∧ (∀ q ∈ L, q.size < m) ∧
      s'.size = s.size ∧ s'.nextOffset = s.nextOffset ∧ s'.skip = s.skip) ∨
    ∃ pre r post, L = pre ++ r :: post ∧ (∀ q ∈ pre, q.size < m) ∧ m ≤ r.size ∧
      p = cfg.areaBase + r.off ∧
      ListSeg cfg s' (s'.nextOffset cfg.firstAddr) (pre ++ carve m r ++ post) cfg.endOfList ∧
      s'.size cfg.firstAddr = s.size cfg.firstAddr ∧ SkipAt cfg (pre ++ carve m r ++ post) s'.skip := by
  obtain ⟨hsys, hseg⟩ := ne_of_contiguous hb
  simp only [jmemHeapAllocBlockInternal, hsys, if_false, bind, pure, Option.bind_eq_some,
    Config.alignUp_of_dvd hdvd hlt] at ha
  obtain ⟨⟨q, t⟩, hq, ha⟩ := ha
  -- the limit and the statistics leave the list alone
  have hframe : s'.size = t.size ∧ s'.nextOffset = t.nextOffset ∧ s'.skip = t.skip ∧ p = q := by
    split at ha <;> simp only [Option.some.injEq, Prod.mk.injEq] at ha <;> obtain ⟨rfl, rfl⟩ := ha
      <;> simp_all
  obtain ⟨hs, hn, hk, rfl⟩ := hframe
  unfold allocFastOrSlow at hq
  split at hq
  · -- the fast path: one granule from the first region
    rename_i hfast
    obtain ⟨rfl, hne⟩ := hfast
    obtain ⟨r, rest, rfl⟩ : ∃ r rest, L = r :: rest := by
      cases L with
      | nil => exact absurd h.seg hne
      | cons r rest => exact ⟨r, rest, rfl⟩
    obtain ⟨t', ht', hseg', hfirst, hskip⟩ := fast_spec hseg h.seg
      (List.pairwise_cons.mp h.sorted).1 (h.alignment_le_size (by simp))
      (h.end_lt_size32 (by simp)) small
    rw [ht', Option.some.injEq, Prod.mk.injEq] at hq
    obtain ⟨rfl, rfl⟩ := hq
    refine .inr ⟨[], r, rest, rfl, by simp, h.alignment_le_size (by simp), rfl,
      hseg'.of_eq hs hn (by rw [hn]), by rw [hs, hfirst], ?_⟩
    rw [hk, hskip]
    split_ifs with heq
    · exact skipAt_headLink _
    · -- a skip pointer left elsewhere still points at `first`, a later region or the end
      refine h.skip.imp_right (Or.imp_left fun ⟨q, hq, h1⟩ ↦ ?_)
      rcases List.mem_cons.mp hq with rfl | hq
      · exact absurd h1.symm heq
      · exact ⟨q, by simp [hq], h1⟩
  · rcases slow_spec hseg h hq with ⟨rfl, hall, h1, h2, h3⟩ |
      ⟨pre, r, post, rfl, hpre, hr, rfl, hseg', hfirst, hskip⟩
    · exact .inl ⟨rfl, hall, hs.trans h1, hn.trans h2, hk.trans h3⟩
    · refine .inr ⟨pre, r, post, rfl, hpre, hr, rfl, hseg'.of_eq hs hn (by rw [hn]),
        by rw [hs, hfirst], ?_⟩
      rw [hk, hskip, List.append_assoc]
      exact skipAt_linkHolder pre _

/-- An allocation attempt for `n` bytes keeps the shape, with the block it returns held. -/
theorem FreeListShape.attempt (hb : cfg.backend = .static ∨ cfg.backend.isDynamicEmul)
    (h : FreeListShape cfg s live L) (hn : 0 < n) (hw : cfg.NoWrap n)
    (ha : jmemHeapAllocBlockInternal cfg env (cfg.alignUp n) small s = some (p, s')) :
    ∃ L', FreeListShape cfg s' (if p = 0 then live else live ++ [⟨p, n, small⟩]) L' := by
  rcases alloc_spec hb h (Config.alignment_dvd_alignUp n) (Config.alignUp_lt_size n) ha with
    ⟨rfl, -, hs, hn', hk⟩ | ⟨pre, r, post, rfl, -, hr, rfl, hseg', hfirst, hskip⟩
  · exact ⟨L, by simpa using h.congr hs hn' hk⟩
  have hp : cfg.areaBase + r.off ≠ 0 := by have := cfg.firstAddr_lt; omega
  rw [if_neg hp]
  obtain ⟨hroff, hrsize, -⟩ := h.aligned r (by simp)
  refine ⟨pre ++ carve (cfg.alignUp n) r ++ post, hseg', pairwise_carve h.sorted, ?_, ?_, ?_,
    by rw [hfirst]; exact h.firstSize, hskip⟩
  · intro q hq
    simp only [List.mem_append] at hq
    rcases hq with (hq | hq) | hq
    · exact h.aligned q (by simp [hq])
    · obtain ⟨rfl, hlt⟩ := mem_carve hq
      exact ⟨Nat.dvd_add hroff (Config.alignment_dvd_alignUp n),
        Nat.dvd_sub' hrsize (Config.alignment_dvd_alignUp n), Nat.sub_pos_of_lt hlt⟩
    · exact h.aligned q (by simp [hq])
  · intro b hb
    rcases List.mem_append.mp hb with hb | hb
    · exact h.blocks b hb
    · rw [List.mem_singleton.mp hb]
      exact ⟨Nat.le_add_right _ _, by simpa using hroff, hn, hw⟩
  · intro x
    have := h.partition x
    have := cover_carve hr x
    simp only [List.map_append, List.map_cons, List.map_nil, cover_append, cover_cons, cover_nil,
      Block.extent, Nat.add_sub_cancel_left] at *
    omega

end Attempt

/-! ## Freeing a held block -/

section Free

variable {cfg : Config} {s s' : Heap} {live : List Block} {L : List Region}

theorem skipAt_insertRegion (pre : List Region) (b : Region) (post : List Region) :
    SkipAt cfg (insertRegion pre b post) (linkHolder cfg cfg.firstAddr pre) := by
  rcases List.eq_nil_or_concat pre with rfl | ⟨pre, q, rfl⟩
  · exact .inl rfl
  · rw [List.concat_eq_append, linkHolder_snoc]
    obtain ⟨y, hy, hoff⟩ := exists_off_insertRegion pre q b post
    exact .inr (.inl ⟨y, hy, by rw [hoff]⟩)

theorem cover_map_erase {live : List Block} {b : Block} (hb : b ∈ live) (f : Block → Region)
    (x : Nat) : cover (live.map f) x = (f b).ind x + cover ((live.erase b).map f) x := by
  simp only [cover, List.map_map]
  exact (List.sum_map_erase _ hb).symm

/-- Freeing a held block with the size and kind it was allocated with returns and keeps the
shape: its bytes go back to the free list, merged with the free regions they touch. -/
theorem FreeListShape.free_spec (hb : cfg.backend = .static ∨ cfg.backend.isDynamicEmul)
    (h : FreeListShape cfg s live L) {b : Block} (hbl : b ∈ live) :
    ∃ s', jmemHeapFreeBlockInternal cfg b.ptr b.size b.small s = some s' ∧
      ∃ L', FreeListShape cfg s' (live.erase b) L' := by
  obtain ⟨hsys, hseg⟩ := ne_of_contiguous hb
  obtain ⟨hle, hdvd, -, -⟩ := h.blocks b hbl
  have hnpos := h.extent_size_pos hbl
  have hend := h.extent_end_le hbl
  obtain ⟨pre, post, rfl, hpre, hpost⟩ := exists_split hnpos h.sorted
    (fun r hr ↦ (h.aligned r hr).2.2) (h.extent_disjoint hbl)
  simp only [Block.extent] at hnpos hend hpre hpost
  obtain ⟨hsortedPre, hsortedPost, -⟩ := List.pairwise_append.mp h.sorted
  have hptr : b.ptr = cfg.areaBase + (b.ptr - cfg.areaBase) := by omega
  have := cfg.areaSize_lt_size32
  obtain ⟨t, ht, hseg', hfirst, hskip⟩ := freeInsert_spec hseg
    (s := s.statFreeIter cfg 1) (h.seg.of_eq (by simp) (by simp) (by simp)) hsortedPre
    (fun q hq ↦ by have := hpre q hq; have := (h.aligned q (by simp [hq])).2.2; omega)
    (fun q hq ↦ ⟨hpost q hq, h.end_le (by simp [hq])⟩) hnpos hend (by simpa using h.firstSize)
    (by rw [Heap.skip_statFreeIter]; exact h.skip)
  rw [← hptr] at ht
  have hc : jmemCompressPointerInternal cfg (s.statFreeIter cfg 1) b.ptr = b.ptr - cfg.areaBase := by
    conv_lhs => rw [hptr]
    exact compress_of_ne_segmented cfg hseg (by omega)
  simp only [jmemHeapFreeBlockInternal, hsys, if_false, bind, pure, hc, ht, Option.some_bind,
    updateOccupancy_of_ne_segmented hseg]
  refine ⟨_, rfl, insertRegion pre ⟨b.ptr - cfg.areaBase, cfg.alignUp b.size⟩ post,
    hseg'.of_eq (by simp) (by simp) (by simp), pairwise_insertRegion hsortedPre hsortedPost hpre hpost,
    forall_mem_insertRegion (fun r q hr hq ↦ ⟨hr.1, Nat.dvd_add hr.2.1 hq.2.1,
      Nat.add_pos_left hr.2.2 _⟩)
      (fun q hq ↦ h.aligned q (by simp [hq])) ⟨hdvd, Config.alignment_dvd_alignUp _, hnpos⟩
      (fun q hq ↦ h.aligned q (by simp [hq])),
    fun b' hb' ↦ h.blocks b' (List.mem_of_mem_erase hb'), fun x ↦ ?_,
    by simpa using hfirst, by simpa [hskip] using @skipAt_insertRegion cfg pre _ post⟩
  have := h.partition x
  rw [cover_map_erase hbl, cover_append] at this
  rw [cover_insertRegion]
  simp only [Block.extent] at this
  omega

theorem FreeListShape.free (hb : cfg.backend = .static ∨ cfg.backend.isDynamicEmul)
    (h : FreeListShape cfg s live L) {b : Block} (hbl : b ∈ live)
    (hf : jmemHeapFreeBlockInternal cfg b.ptr b.size b.small s = some s') :
    ∃ L', FreeListShape cfg s' (live.erase b) L' := by
  obtain ⟨t, ht, hL⟩ := h.free_spec hb hbl
  rw [hf, Option.some.injEq] at ht
  exact ht ▸ hL

end Free

/-! ## Whole runs -/

section Runs

variable {cfg : Config} {env : Env}

@[simp] theorem Heap.size_initSizeMetrics (s : Heap) :
    (jmemHeapInitSizeMetrics cfg s).size = s.size := by
  unfold jmemHeapInitSizeMetrics; split <;> rfl

@[simp] theorem Heap.nextOffset_initSizeMetrics (s : Heap) :
    (jmemHeapInitSizeMetrics cfg s).nextOffset = s.nextOffset := by
  unfold jmemHeapInitSizeMetrics; split <;> rfl

@[simp] theorem Heap.skip_initSizeMetrics (s : Heap) :
    (jmemHeapInitSizeMetrics cfg s).skip = s.skip := by
  unfold jmemHeapInitSizeMetrics; split <;> rfl

/-- `jmem_heap_init` leaves one free region over the whole area, linked from `first`, and the
skip pointer at `first`. -/
theorem freeListShape_initial (hb : cfg.backend = .static ∨ cfg.backend.isDynamicEmul)
    (env : Env) (size nextOffset : Nat → Nat) :
    FreeListShape cfg (Engine.initial cfg env size nextOffset).heap [] [⟨0, cfg.areaSize⟩] := by
  obtain ⟨hsys, hseg⟩ := ne_of_contiguous hb
  have hfa := cfg.firstAddr_lt
  have hne : cfg.firstAddr ≠ cfg.areaBase := by omega
  have hc : ∀ s : Heap, jmemCompressPointerInternal cfg s cfg.areaBase = 0 := fun s ↦ by
    simpa using compress_of_ne_segmented cfg (s := s) hseg (o := 0) (Nat.two_pow_pos 32)
  refine ⟨?_, List.pairwise_singleton _ _, ?_, by simp, fun x ↦ ?_, ?_, ?_⟩
  · refine listSeg_cons.mpr ⟨?_, ?_, ?_⟩ <;>
      simp [Engine.initial, jmemHeapInit, hsys, hseg, jmemHeapInitFirstFreeRegion, hne, hne.symm, hc]
  · simp [cfg.alignment_dvd_areaSize, cfg.areaSize_pos]
  · simp [ind]
  · simp [Engine.initial, jmemHeapInit, hsys, hseg, jmemHeapInitFirstFreeRegion]
  · exact .inl (by simp [Engine.initial, jmemHeapInit, hsys, hseg, jmemHeapInitFirstFreeRegion])

/-- Freeing a held block keeps the shape, for some free list. -/
theorem freePreserves_shape (hb : cfg.backend = .static ∨ cfg.backend.isDynamicEmul) :
    FreePreserves cfg fun e ↦ ∃ L, FreeListShape cfg e.heap e.live L :=
  fun _ _ _ ⟨_, h⟩ hb' hs ↦ h.free hb hb' hs

/-- An attempt for `n > 0` bytes whose rounding does not wrap keeps the shape, with the block
it returns held. -/
theorem attemptPreserves_shape (hb : cfg.backend = .static ∨ cfg.backend.isDynamicEmul)
    {n : Nat} (hn : 0 < n) (hw : cfg.NoWrap n) (small : Bool) :
    AttemptPreserves cfg env (fun e ↦ ∃ L, FreeListShape cfg e.heap e.live L) n small := by
  intro e p e' ⟨L, h⟩ ha
  obtain ⟨⟨q, s⟩, hs, he'⟩ := Option.map_eq_some'.mp ha
  cases he'
  obtain ⟨L', h'⟩ := h.attempt hb hn hw hs
  exact ⟨L', by rw [Engine.heap_hold, Engine.live_hold]; exact h'⟩

theorem exists_freeListShape_of_run (hb : cfg.backend = .static ∨ cfg.backend.isDynamicEmul)
    (hc : env.CollectsLive) {size nextOffset : Nat → Nat} {rs : List Request} {e : Engine}
    (hrun : run cfg env (Engine.initial cfg env size nextOffset) rs = some e)
    (hrs : ∀ r ∈ rs, cfg.NoWrap r.allocSize) : ∃ L, FreeListShape cfg e.heap e.live L := by
  have hseg := (ne_of_contiguous hb).2
  refine run_preserves (P := fun e ↦ ∃ L, FreeListShape cfg e.heap e.live L)
    (fun r ↦ cfg.NoWrap r.allocSize) (fun _ _ _ hr he hstep ↦ step_preserves
      (fun r ↦ cfg.NoWrap r.allocSize)
      (callbacksPreserve_of_collectsLive hc (freePreserves_shape hb)) (freePreserves_shape hb)
      (fun r hr hn ↦ attemptPreserves_shape hb hn hr r.small)
      (fun _ _ h ↦ absurd h hseg) hr he hstep) hrs ⟨_, freeListShape_initial hb env _ _⟩ hrun

/-- On the static and dynamic-emulation backends, under the collector contract, in every run
whose allocation requests round to whole granules without wrapping
(`n + JMEM_ALIGNMENT - 1 ≤ SIZE_MAX`), the memory has the shape `FreeListShape`: the free
list read from `first.next_offset` and ended by `JMEM_HEAP_END_OF_LIST` is the address-ordered
list of the maximal stretches of the area that no held block covers, each a positive number
of whole granules, and the free regions and the held blocks hold every byte of the area
exactly once. -/
theorem freeList_exact (hb : cfg.backend = .static ∨ cfg.backend.isDynamicEmul)
    (hc : env.CollectsLive) {size nextOffset : Nat → Nat} {rs : List Request} {e : Engine}
    (hrun : run cfg env (Engine.initial cfg env size nextOffset) rs = some e)
    (hrs : ∀ r ∈ rs, cfg.NoWrap r.allocSize) : ∃ L, FreeListShape cfg e.heap e.live L :=
  exists_freeListShape_of_run hb hc hrun hrs

theorem freeList_exact_small :
    ∃ e, run (Config.small .static) Env.quiet
        (Engine.initial (Config.small .static) Env.quiet (fun _ ↦ 0) (fun _ ↦ 0))
        [.allocBlock 8, .allocBlock 8, .allocBlock 8, .free ⟨4096, 8, false⟩,
          .free ⟨4104, 8, false⟩] = some e ∧
      ∃ L, FreeListShape (Config.small .static) e.heap e.live L := by
  obtain ⟨e, he⟩ := Option.isSome_iff_exists.mp (show (run (Config.small .static) Env.quiet
    (Engine.initial (Config.small .static) Env.quiet (fun _ ↦ 0) (fun _ ↦ 0))
    [.allocBlock 8, .allocBlock 8, .allocBlock 8, .free ⟨4096, 8, false⟩,
      .free ⟨4104, 8, false⟩]).isSome by decide)
  exact ⟨e, he, freeList_exact (.inl rfl) (fun _ _ _ ↦ List.nil_subperm) he (by decide)⟩

/-- The block an allocation attempt for `n` bytes returns, with
`n + JMEM_ALIGNMENT - 1 ≤ SIZE_MAX`, on a contiguous backend whose memory has the shape: it is
`JMEM_ALIGNMENT`-aligned, it is accounted in `jmem_heap_blocks_size` with `align_up (n) ≥ n`
bytes, and it starts a free region of at least that many bytes, so all its bytes were free
when the attempt began. -/
theorem alloc_block_in_free_region (hb : cfg.backend = .static ∨ cfg.backend.isDynamicEmul)
    {s s' : Heap} {live : List Block} {L : List Region} (h : FreeListShape cfg s live L)
    (hw : cfg.NoWrap n)
    (ha : jmemHeapAllocBlockInternal cfg env (cfg.alignUp n) small s = some (p, s')) (hp : p ≠ 0) :
    cfg.alignment ∣ p ∧ n ≤ cfg.alignUp n ∧
      s'.counters.blocksSize = s.counters.blocksSize + cfg.alignUp n ∧
      ∃ r ∈ L, p = cfg.areaBase + r.off ∧ cfg.alignUp n ≤ r.size := by
  rcases alloc_spec hb h (Config.alignment_dvd_alignUp n) (Config.alignUp_lt_size n) ha with
    ⟨rfl, -⟩ | ⟨pre, r, post, rfl, -, hr, rfl, -⟩
  · exact absurd rfl hp
  obtain ⟨c, hc, hs'⟩ := counters_alloc_internal (ne_of_contiguous hb).1 ha
  rcases hc with ⟨h0, -⟩ | ⟨rfl, -⟩
  · exact absurd h0 hp
  refine ⟨Nat.dvd_add cfg.alignment_dvd_areaBase (h.aligned r (by simp)).1,
    Config.le_alignUp hw, by simp [hs'], r, by simp, rfl, hr⟩

theorem alloc_block_in_free_region_first :
    let s := (Engine.initial (Config.small .static) Env.quiet (fun _ ↦ 0) (fun _ ↦ 0)).heap
    ∃ p s', jmemHeapAllocBlockInternal (Config.small .static) Env.quiet
        ((Config.small .static).alignUp 1) false s = some (p, s') ∧ p ≠ 0 ∧
      (Config.small .static).alignment ∣ p ∧ 1 ≤ (Config.small .static).alignUp 1 ∧
      s'.counters.blocksSize = s.counters.blocksSize + (Config.small .static).alignUp 1 ∧
      ∃ r ∈ [(⟨0, 256⟩ : Region)], p = 4096 + r.off ∧ (Config.small .static).alignUp 1 ≤ r.size :=
  by
    obtain ⟨s', hs'⟩ : ∃ s', jmemHeapAllocBlockInternal (Config.small .static) Env.quiet
        ((Config.small .static).alignUp 1) false
        (Engine.initial (Config.small .static) Env.quiet (fun _ ↦ 0) (fun _ ↦ 0)).heap =
          some (4096, s') := ⟨_, rfl⟩
    exact ⟨4096, s', hs', by decide, alloc_block_in_free_region (.inl rfl)
      (freeListShape_initial (.inl rfl) Env.quiet _ _) (by decide) hs' (by decide)⟩

/-- A request of `SIZE_MAX` bytes rounds to `0`: on the small static build the call returns
the address of the first free region, records `0` bytes for the block, and leaves the whole
area, the block's bytes included, on the free list. -/
theorem alloc_wrap_inside_free_list :
    ∃ e, Reachable (Config.small .static) Env.quiet e ∧ e.live = [⟨4096, 2 ^ 64 - 1, false⟩] ∧
      e.heap.counters.blocksSize = 0 ∧
      ListSeg (Config.small .static) e.heap (e.heap.nextOffset 4088) [⟨0, 256⟩] (2 ^ 32 - 1) := by
  obtain ⟨e, he, hv⟩ := exists_reachable_of_run _ _ (show
    (run (Config.small .static) Env.quiet
      (Engine.initial (Config.small .static) Env.quiet (fun _ ↦ 0) (fun _ ↦ 0))
      [.allocBlock (2 ^ 64 - 1)]).map
      (fun e ↦ (e.live, e.heap.counters.blocksSize, e.heap.nextOffset 4088, e.heap.size 4096,
        e.heap.nextOffset 4096)) = some ([⟨4096, 2 ^ 64 - 1, false⟩], 0, 0, 256, 2 ^ 32 - 1)
      by decide)
  simp only [Prod.mk.injEq] at hv
  obtain ⟨hlive, hbytes, hnext, hsize, hend⟩ := hv
  exact ⟨e, he, hlive, hbytes, listSeg_cons.mpr ⟨hnext, hsize, hend⟩⟩

/-- The skip pointer, in every run as in `freeList_exact`, is `first`, the header of a free
region, or `area + JMEM_HEAP_END_OF_LIST`; the last lies above every held block, so that the
next free walks from `first`. -/
theorem skip_first_node_or_past_end (hb : cfg.backend = .static ∨ cfg.backend.isDynamicEmul)
    (hc : env.CollectsLive) {size nextOffset : Nat → Nat} {rs : List Request} {e : Engine}
    (hrun : run cfg env (Engine.initial cfg env size nextOffset) rs = some e)
    (hrs : ∀ r ∈ rs, cfg.NoWrap r.allocSize) :
    ∃ L, ListSeg cfg e.heap (e.heap.nextOffset cfg.firstAddr) L cfg.endOfList ∧
      (e.heap.skip = cfg.firstAddr ∨ (∃ r ∈ L, e.heap.skip = cfg.areaBase + r.off) ∨
        (e.heap.skip = cfg.areaBase + cfg.endOfList ∧ ∀ b ∈ e.live, b.ptr < e.heap.skip)) := by
  obtain ⟨L, h⟩ := exists_freeListShape_of_run hb hc hrun hrs
  refine ⟨L, h.seg, h.skip.imp_right (Or.imp_right fun h1 ↦ ⟨h1, fun b hb ↦ ?_⟩)⟩
  have := h.extent_end_le hb
  have := (h.blocks b hb).1
  have := cfg.areaSize_lt_endOfList
  simp only [Block.extent] at *
  omega

theorem skip_first_node_or_past_end_small :
    ∃ e, run (Config.small .static) Env.quiet
        (Engine.initial (Config.small .static) Env.quiet (fun _ ↦ 0) (fun _ ↦ 0))
        [.allocBlock 8, .allocBlock 8, .allocBlock 8, .free ⟨4096, 8, false⟩,
          .free ⟨4112, 8, false⟩, .allocBlock 240, .allocBlock 8] = some e ∧
      ∃ L, ListSeg (Config.small .static) e.heap (e.heap.nextOffset 4088) L (2 ^ 32 - 1) ∧
        (e.heap.skip = 4088 ∨ (∃ r ∈ L, e.heap.skip = 4096 + r.off) ∨
          (e.heap.skip = 4096 + (2 ^ 32 - 1) ∧ ∀ b ∈ e.live, b.ptr < e.heap.skip)) := by
  obtain ⟨e, he⟩ := Option.isSome_iff_exists.mp (show (run (Config.small .static) Env.quiet
    (Engine.initial (Config.small .static) Env.quiet (fun _ ↦ 0) (fun _ ↦ 0))
    [.allocBlock 8, .allocBlock 8, .allocBlock 8, .free ⟨4096, 8, false⟩,
      .free ⟨4112, 8, false⟩, .allocBlock 240, .allocBlock 8]).isSome by decide)
  exact ⟨e, he, skip_first_node_or_past_end (.inl rfl) (fun _ _ _ ↦ List.nil_subperm) he
    (by decide)⟩

/-- On the small static build, seven calls leave the skip pointer at
`area + JMEM_HEAP_END_OF_LIST` with the free list empty: it is neither `first` nor the header
of a region on the list. The fast path moved it there when it took the last region, at which
the slow path had left it. -/
theorem skip_off_list_small :
    ∃ e, Reachable (Config.small .static) Env.quiet e ∧ e.heap.nextOffset 4088 = 2 ^ 32 - 1 ∧
      e.heap.skip = 4096 + (2 ^ 32 - 1) := by
  obtain ⟨e, he, hv⟩ := exists_reachable_of_run _ _ (show
    (run (Config.small .static) Env.quiet
      (Engine.initial (Config.small .static) Env.quiet (fun _ ↦ 0) (fun _ ↦ 0))
      [.allocBlock 8, .allocBlock 8, .allocBlock 8, .free ⟨4096, 8, false⟩,
        .free ⟨4112, 8, false⟩, .allocBlock 240, .allocBlock 8]).map
      (fun e ↦ (e.heap.nextOffset 4088, e.heap.skip)) = some (2 ^ 32 - 1, 4096 + (2 ^ 32 - 1))
      by decide)
  exact ⟨e, he, (Prod.mk.inj hv).1, (Prod.mk.inj hv).2⟩

/-- A request of `SIZE_MAX` bytes rounds to `0` and is served from the first region without
taking it off the list; freed, it writes a region of size `0` over that region's header. After
the run below no block is held, yet the free list is one region of size `0`: the area is
lost, and the memory has no shape at all. -/
theorem freeList_lost_after_wrap :
    ∃ e, Reachable (Config.small .static) Env.quiet e ∧ e.live = [] ∧
      e.heap.nextOffset 4088 = 0 ∧ e.heap.size 4096 = 0 ∧
      ¬ ∃ L, FreeListShape (Config.small .static) e.heap e.live L := by
  obtain ⟨e, he, hv⟩ := exists_reachable_of_run _ _ (show
    (run (Config.small .static) Env.quiet
      (Engine.initial (Config.small .static) Env.quiet (fun _ ↦ 0) (fun _ ↦ 0))
      [.allocBlock (2 ^ 64 - 1), .free ⟨4096, 2 ^ 64 - 1, false⟩]).map
      (fun e ↦ (e.live, e.heap.nextOffset 4088, e.heap.size 4096)) = some ([], 0, 0) by decide)
  simp only [Prod.mk.injEq] at hv
  obtain ⟨hlive, hnext, hsize⟩ := hv
  refine ⟨e, he, hlive, hnext, hsize, fun ⟨L, h⟩ ↦ ?_⟩
  have := h.size_first_pos (by show e.heap.nextOffset 4088 ≠ 2 ^ 32 - 1; rw [hnext]; decide)
  change 0 < e.heap.size (4096 + e.heap.nextOffset 4088) at this
  rw [hnext] at this
  exact absurd hsize (Nat.pos_iff_ne_zero.mp this)

end Runs

end JmemHeap
