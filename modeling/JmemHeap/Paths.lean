import JmemHeap.Walks

/-!
# The two allocation paths on every backend

`jmem_heap_alloc_block_internal` sends a request of one granule to the fast path whenever the
free list is not empty, and every other request to the slow path's first-fit walk. Both carve
the block from the start of a free region and put the rest of the region, if any, in its place
on the list. They find the rest differently: the fast path decompresses the offset
`block_offset + JMEM_ALIGNMENT`, the slow path adds `required_size` to the region's host
address, `(uint8_t *) current_p + required_size`. The two agree when the region is one stretch
of host memory (`HostContiguous`), which the contiguous backends always give; a region of the
segmented backend that runs from one segment into the next is such a stretch only when the two
segments' memories are adjacent.

The statistics are other fields: the fast path counts its one visited region after the
accounting, the slow path before, and nothing else reads them.
-/

namespace JmemHeap

open Region

/-! ## The statistics commute with the other writes -/

namespace Heap

variable (cfg : Config) (f : Stats → Stats) (s : Heap) (p n : Nat)

theorem setSize_stat : (s.stat cfg f).setSize p n = (s.setSize p n).stat cfg f := by
  unfold Heap.stat; split <;> rfl

theorem setNext_stat : (s.stat cfg f).setNext p n = (s.setNext p n).stat cfg f := by
  unfold Heap.stat; split <;> rfl

theorem setOccupied_stat : (s.stat cfg f).setOccupied p n = (s.setOccupied p n).stat cfg f := by
  unfold Heap.stat; split <;> rfl

theorem recordAlloc_stat (small : Bool) :
    (s.stat cfg f).recordAlloc cfg n small = (s.recordAlloc cfg n small).stat cfg f := by
  unfold Heap.stat; split <;> rfl

@[simp] theorem occupied_stat : (s.stat cfg f).occupied = s.occupied := by
  unfold Heap.stat; split <;> rfl

@[simp] theorem size_setOccupied : (s.setOccupied p n).size = s.size := rfl
@[simp] theorem nextOffset_setOccupied : (s.setOccupied p n).nextOffset = s.nextOffset := rfl
@[simp] theorem skip_setOccupied : (s.setOccupied p n).skip = s.skip := rfl
@[simp] theorem occupied_recordAlloc (small : Bool) :
    (s.recordAlloc cfg n small).occupied = s.occupied := rfl

end Heap

section Codec

variable {cfg : Config} (s : Heap) (p n o : Nat)

@[simp] theorem decompress_stat (f : Stats → Stats) :
    jmemDecompressPointerInternal cfg (s.stat cfg f) o = jmemDecompressPointerInternal cfg s o :=
  decompress_congr cfg (area_stat cfg s f) o

@[simp] theorem decompress_recordAlloc (small : Bool) :
    jmemDecompressPointerInternal cfg (s.recordAlloc cfg n small) o =
      jmemDecompressPointerInternal cfg s o := rfl

@[simp] theorem decompress_setOccupied :
    jmemDecompressPointerInternal cfg (s.setOccupied p n) o =
      jmemDecompressPointerInternal cfg s o := rfl

@[simp] theorem decompress_setSize :
    jmemDecompressPointerInternal cfg (s.setSize p n) o = jmemDecompressPointerInternal cfg s o :=
  rfl

@[simp] theorem decompress_setNext :
    jmemDecompressPointerInternal cfg (s.setNext p n) o = jmemDecompressPointerInternal cfg s o :=
  rfl

end Codec

/-! ## The fast path against the slow path -/

section Fast

variable {cfg : Config} {s : Heap}

/-- The slow path's occupancy loop for one granule is the fast path's single charge. -/
theorem updateOccupancy_granule {o : Nat} (ho : cfg.alignment ∣ o)
    (hin : o + cfg.alignment ≤ cfg.offsetSpace) (s : Heap) :
    s.updateOccupancy cfg true o cfg.alignment = some (if cfg.backend = .segmented then
      s.setOccupied (o / cfg.segmentSize)
        (occupiedUpdate true (s.occupied (o / cfg.segmentSize)) cfg.alignment)
      else s) := by
  split
  · rename_i hseg
    rw [updateOccupancy_eq_charge hseg ho (dvd_refl _) (by simpa [Config.offsetSpace, hseg] using hin)
      cfg.alignment_lt_pow_31, chargeSegments_granule ho]
  · exact updateOccupancy_of_ne_segmented ‹_› s true o _

/-- On a free list with the spec's invariant, the fast path and
`jmem_heap_alloc_block_internal_slow (JMEM_ALIGNMENT)` return the same pointer and leave the
same heap, the skip pointer apart (the same headers, so the same free list, the same counters,
the same occupancy of every segment and the same statistics), as long as the two paths put the
rest of a first region of more than one granule at the same header: the fast path writes it at
`decompress (o + JMEM_ALIGNMENT)`, the slow path at `decompress (o) + JMEM_ALIGNMENT`. -/
theorem fast_eq_slow_except_skip {r : Region} {L : List Region} (h : FreeListInv cfg s (r :: L))
    (hh : cfg.alignment < r.size → jmemDecompressPointerInternal cfg s (r.off + cfg.alignment) =
      jmemDecompressPointerInternal cfg s r.off + cfg.alignment) (small : Bool) :
    ∃ p t t', jmemHeapAllocBlockInternalFast cfg small s = (p, t) ∧
      jmemHeapAllocBlockInternalSlow cfg cfg.alignment small s = some (p, t') ∧
      { t with skip := t'.skip } = t' := by
  obtain ⟨ho, hsz, -⟩ := linkSeg_cons.mp h.seg
  obtain ⟨hAo, hAs, hpos⟩ := h.aligned r (List.mem_cons_self r L)
  have hA : cfg.alignment ≤ r.size := Nat.le_of_dvd hpos hAs
  have hin := h.inside r (List.mem_cons_self r L)
  have hsp := cfg.offsetSpace_lt_endOfList
  have hE := cfg.endOfList_lt
  -- the slow path's walk stops at once, at the first region
  have hsearch : slowSearch cfg cfg.alignment s loopBound cfg.firstAddr r.off 0 =
      some (.found cfg.firstAddr r.off, 1) := by
    obtain ⟨n, hn⟩ : ∃ n, loopBound = n + 1 := ⟨_, rfl⟩
    rw [hn, slowSearch]
    simp [hsz, hA, show r.off ≠ cfg.endOfList by omega]
  simp only [jmemHeapAllocBlockInternalSlow, hsearch, Option.bind_eq_bind, Option.some_bind,
    slowAllocAt, jmemHeapAllocBlockInternalFast, ho, Heap.statAllocIter, decompress_stat,
    updateOccupancy_granule hAo (show r.off + cfg.alignment ≤ cfg.offsetSpace by omega)]
  refine ⟨_, _, _, rfl, rfl, ?_⟩
  rcases Nat.eq_or_lt_of_le hA with hfit | hlt
  · -- the region is one granule: both paths unlink it
    by_cases hseg : cfg.backend = .segmented <;>
      simp [hseg, hsz, ho, ← hfit, Heap.recordAlloc_stat, Heap.setOccupied_stat,
        Heap.setNext_stat] <;> split <;> simp
  -- the rest of the region stays: the fast path finds its header through the codec, the slow
  -- path `required_size` bytes after the region's header
  have hcont := hh hlt
  have hu32 : u32 (r.off + cfg.alignment) = r.off + cfg.alignment := u32_of_lt (by omega)
  have hsub : u32Sub r.size cfg.alignment = r.size - cfg.alignment := u32Sub_of_le hA (by omega)
  -- on every backend the slow path links the rest under its offset
  have hlink : ∀ t : Heap, (if cfg.backend = .segmented then u32 (r.off + cfg.alignment)
      else jmemCompressPointerInternal cfg t (jmemDecompressPointerInternal cfg s r.off +
        cfg.alignment)) = r.off + cfg.alignment := fun t ↦ by
    split
    · exact hu32
    · rw [decompress_of_ne_segmented cfg ‹_›, Nat.add_assoc]
      exact compress_of_ne_segmented cfg ‹_› (by omega)
  simp only [hlink]
  by_cases hseg : cfg.backend = .segmented <;>
    simp [hseg, hsz, ho, hlt, hlt.ne', hcont, hu32, hsub, Heap.recordAlloc_stat,
      Heap.setOccupied_stat, Heap.setSize_stat, Heap.setNext_stat] <;> split <;> simp

theorem fast_eq_slow_except_skip_small :
    ∃ e, Reachable (Config.small .static) Env.quiet e ∧
      FreeListInv (Config.small .static) e.heap [⟨0, 16⟩, ⟨24, 232⟩] ∧
      ∃ p t t', jmemHeapAllocBlockInternalFast (Config.small .static) false e.heap = (p, t) ∧
        jmemHeapAllocBlockInternalSlow (Config.small .static) 8 false e.heap = some (p, t') ∧
        { t with skip := t'.skip } = t' := by
  obtain ⟨e, he, h, -⟩ := exists_reachable_twoRegions
  exact ⟨e, he, h, fast_eq_slow_except_skip h (fun _ ↦ rfl) false⟩

/-- A heap of the small segmented build with segment 0 at host `4096` and segment 1 at `8192`,
and one free region of 16 bytes at offset 24, which runs from the last granule of segment 0
into segment 1. -/
def straddlingHeap : Heap where
  size p := if p = 4120 then 16 else 0
  nextOffset p := if p = 4088 then 24 else if p = 4120 then 2 ^ 32 - 1 else 0
  skip := 4088
  counters := ⟨0, 0, 0, 0, 32⟩
  area i := if i = 0 then 4096 else if i = 1 then 8192 else 0
  allocated i := decide (i < 2)
  occupied _ := 0
  stats := Stats.zero

/-- On `straddlingHeap` the free list has the spec's invariant and the codec is faithful, but
offset `24 + 8` decompresses to `8192`, not to `4120 + 8`. The fast path writes the rest of the
region, 8 bytes at offset 32, at `8192`, where offset 32 decompresses; the slow path links the
same offset 32 but writes the header at `current_p + required_size = 4128`, past the end of
segment 0's memory, and leaves the header at `8192` that `first.next_offset = 32` now leads to
unwritten. -/
theorem fast_slow_differ_straddling :
    FreeListInv (Config.small .segmented) straddlingHeap [⟨24, 16⟩] ∧
      CodecFaithful (Config.small .segmented) straddlingHeap [⟨24, 16⟩] ∧
      jmemDecompressPointerInternal (Config.small .segmented) straddlingHeap (24 + 8) = 8192 ∧
      jmemDecompressPointerInternal (Config.small .segmented) straddlingHeap 24 + 8 = 4128 ∧
      ∃ t t', jmemHeapAllocBlockInternalFast (Config.small .segmented) false straddlingHeap =
          (4120, t) ∧
        jmemHeapAllocBlockInternalSlow (Config.small .segmented) 8 false straddlingHeap =
          some (4120, t') ∧
        t.nextOffset 4088 = 32 ∧ t'.nextOffset 4088 = 32 ∧ t.size 8192 = 8 ∧ t'.size 8192 = 0 ∧
        t'.size 4128 = 8 :=
  ⟨⟨⟨rfl, rfl, rfl⟩, List.pairwise_singleton _ _, by decide, by decide, rfl⟩,
    ⟨by decide, by decide, by decide⟩, rfl, rfl, _, _, rfl, rfl, by decide, by decide, by decide, by decide, by decide⟩

end Fast

/-! ## The slow path on every backend -/

section Slow

variable {cfg : Config} {s : Heap} {L : List Region}

/-- The codec tells apart the headers of the free regions and the bytes inside them whose
offsets differ. -/
theorem CodecFaithful.ne_header (hc : CodecFaithful cfg s L) (h : FreeListInv cfg s L)
    {q r : Region} (hq : q ∈ L) (hr : r ∈ L) {k : Nat} (hk : k < r.size)
    (hne : q.off ≠ r.off + k) :
    jmemDecompressPointerInternal cfg s q.off ≠ jmemDecompressPointerInternal cfg s (r.off + k) :=
  fun heq ↦ hne (by simpa using hc.inj hq hr (h.aligned q hq).2.2 hk (by simpa using heq))

/-- The holder of the link after the regions `pre` of the free list is `&first` or the header
of the last of them: apart from the header of every other free region and every byte after
`pre`. -/
theorem CodecFaithful.holderOf_ne (hc : CodecFaithful cfg s L) (h : FreeListInv cfg s L)
    {pre : List Region} (hpre : ∀ q ∈ pre, q ∈ L) {r : Region} (hr : r ∈ L) {k : Nat}
    (hk : k < r.size) (hoff : ∀ q ∈ pre, q.off ≠ r.off + k) :
    holderOf (jmemDecompressPointerInternal cfg s) cfg.firstAddr pre ≠
      jmemDecompressPointerInternal cfg s (r.off + k) := by
  rcases @holderOf_cases (jmemDecompressPointerInternal cfg s) cfg.firstAddr pre with
    hH | ⟨q, hq, hH⟩ <;> rw [hH]
  · exact (hc.ne_first r hr k hk).symm
  · exact hc.ne_header h (hpre q hq) hr hk (hoff q hq)

/-- The occupancy update of a block of the logical offset space returns, and writes the
occupancy only. -/
theorem updateOccupancy_frame (add : Bool) {o n : Nat} (ho : cfg.alignment ∣ o)
    (hn : cfg.alignment ∣ n) (hin : o + n ≤ cfg.offsetSpace) (s : Heap) :
    ∃ occ, s.updateOccupancy cfg add o n = some { s with occupied := occ } := by
  by_cases hseg : cfg.backend = .segmented
  · have hin' : o + n ≤ cfg.segmentSize * cfg.numSegments := by
      simpa [Config.offsetSpace, hseg] using hin
    by_cases hint : n < 2 ^ 31
    · exact ⟨_, updateOccupancy_eq_charge hseg ho hn hin' hint add s⟩
    · have := Nat.lt_trans cfg.segments_lt_endOfList cfg.endOfList_lt
      exact ⟨s.occupied, updateOccupancy_skips_large hseg (by omega) (by omega) add s⟩
  · exact ⟨s.occupied, updateOccupancy_of_ne_segmented hseg s add o n⟩

/-- The slow path, once its walk has stopped at the region `r` after the regions `pre`, on every
backend: when `r` is one stretch of host memory, it returns `r`'s address, puts the rest of `r`
(`carve`), if any, in `r`'s place on the list and leaves the skip pointer at the holder of
`r`'s link. -/
theorem slowAllocAt_linkSeg {pre post : List Region} {r : Region} {need : Nat}
    (h : FreeListInv cfg s (pre ++ r :: post)) (hc : CodecFaithful cfg s (pre ++ r :: post))
    (hh : HostContiguous cfg s [r]) (hA : cfg.alignment ∣ need) (hr : need ≤ r.size)
    (small : Bool) :
    ∃ t, slowAllocAt cfg need small (holderOf (jmemDecompressPointerInternal cfg s) cfg.firstAddr pre)
        r.off s = some (jmemDecompressPointerInternal cfg s r.off, t) ∧
      LinkSeg (jmemDecompressPointerInternal cfg t) t (t.nextOffset cfg.firstAddr)
        (pre ++ carve need r ++ post) cfg.endOfList ∧
      t.skip = holderOf (jmemDecompressPointerInternal cfg s) cfg.firstAddr pre := by
  set D := jmemDecompressPointerInternal cfg s with hD
  set H := holderOf D cfg.firstAddr pre with hH
  obtain ⟨o', hpre, hr'⟩ := linkSeg_append.mp h.seg
  obtain ⟨rfl, hsz, hpost⟩ := linkSeg_cons.mp hr'
  obtain ⟨hsortedPre, hsortedR, hcross⟩ := List.pairwise_append.mp h.sorted
  have hmemR : r ∈ pre ++ r :: post := by simp
  have hmemPre : ∀ q ∈ pre, q ∈ pre ++ r :: post := fun q hq ↦ by simp [hq]
  have hmemPost : ∀ q ∈ post, q ∈ pre ++ r :: post := fun q hq ↦ by simp [hq]
  have hbelow : ∀ q ∈ pre, q.off + q.size < r.off := fun q hq ↦ hcross q hq r (by simp)
  have habove : ∀ q ∈ post, r.off + r.size < q.off := (List.pairwise_cons.mp hsortedR).1
  have hrpos := (h.aligned r hmemR).2.2
  have hin := h.inside r hmemR
  have hsp := cfg.offsetSpace_lt_endOfList
  have hE := cfg.endOfList_lt
  -- the headers the surgery keeps are apart from the ones it writes
  have hpreFirst : ∀ q ∈ pre, D q.off ≠ cfg.firstAddr := fun q hq ↦ by
    simpa using hc.ne_first q (hmemPre q hq) 0 (h.aligned q (hmemPre q hq)).2.2
  have hpreInj : pre.Pairwise fun q q' ↦ D q.off ≠ D q'.off :=
    hsortedPre.imp_of_mem fun {q q'} hq hq' hb ↦ by
      simpa using hc.ne_header h (hmemPre q hq) (hmemPre q' hq') (k := 0)
        (h.aligned q' (hmemPre q' hq')).2.2 (by unfold Before at hb; omega)
  have hpostH : ∀ q ∈ post, D q.off ≠ H := fun q hq ↦ by
    simpa using (hc.holderOf_ne h hmemPre (hmemPost q hq) (k := 0) (h.aligned q (hmemPost q hq)).2.2
      fun q' hq' ↦ by have := hbelow q' hq'; have := habove q hq; omega).symm
  obtain ⟨occ, hocc⟩ := updateOccupancy_frame true (h.aligned r hmemR).1 hA (by omega)
    (s.recordAlloc cfg need small)
  have hP : D r.off ≠ cfg.firstAddr := by simpa using hc.ne_first r hmemR 0 hrpos
  simp only [slowAllocAt, hocc, Option.bind_eq_bind, Option.some_bind, Heap.size_recordAlloc, hsz,
    gt_iff_lt]
  refine ⟨_, rfl, ?_, rfl⟩
  by_cases hfit : need < r.size
  · -- the rest of `r` takes its place, its header `need` bytes after `r`'s
    have hR : D (r.off + need) = D r.off + need := hh r (List.mem_singleton_self r) need hfit
    have hRpre : ∀ q ∈ pre, D q.off ≠ D (r.off + need) := fun q hq ↦
      hc.ne_header h (hmemPre q hq) hmemR hfit (by have := hbelow q hq; omega)
    have hRpost : ∀ q ∈ post, D q.off ≠ D (r.off + need) := fun q hq ↦
      hc.ne_header h (hmemPost q hq) hmemR hfit (by have := habove q hq; omega)
    have hRfirst : cfg.firstAddr ≠ D (r.off + need) := (hc.ne_first r hmemR need hfit).symm
    have hRH : H ≠ D (r.off + need) :=
      hc.holderOf_ne h hmemPre hmemR hfit fun q hq ↦ by have := hbelow q hq; omega
    have hlink : ∀ t : Heap, (if cfg.backend = .segmented then u32 (r.off + need)
        else jmemCompressPointerInternal cfg t (D (r.off + need))) = r.off + need := fun t ↦ by
      split
      · exact u32_of_lt (by omega)
      · simpa only [jmemCompressPointerInternal, if_neg ‹_›] using hc.roundTrip r hmemR need hfit
    simp only [hfit, if_true, ← hR, carve, hlink,
      u32Sub_of_le (Nat.le_of_lt hfit) (show r.size < 2 ^ 32 by omega)]
    set u : Heap := { s.recordAlloc cfg need small with occupied := occ } with hu
    set u' := (u.setSize (D (r.off + need)) (r.size - need)).setNext (D (r.off + need))
      (s.nextOffset (D r.off)) with hu'
    -- the regions below `r`, whose headers are apart from those written, now lead to the rest
    have h1 : LinkSeg D u' (u'.nextOffset cfg.firstAddr) pre r.off :=
      (((hpre.of_eq (t := u) rfl rfl rfl).setSize hRpre).setNext hRpre).of_eq rfl rfl
        (by simp [u', hRfirst])
    have h2 := h1.setNext_holderOf (v := r.off + need) hpreFirst hpreInj
    -- the rest, and after it the regions above `r`
    have h3 : LinkSeg D (u'.setNext H (r.off + need)) (r.off + need)
        ([⟨r.off + need, r.size - need⟩] ++ post) cfg.endOfList := by
      refine linkSeg_cons.mpr ⟨rfl, by simp [u'], ?_⟩
      simp only [u', Heap.nextOffset_setNext, if_neg hRH.symm, if_true]
      exact (((hpost.of_eq (t := u) rfl rfl rfl).setSize hRpost).setNext hRpost).setNext hpostH
    rw [List.append_assoc]
    exact (linkSeg_append.mpr ⟨_, h2, h3⟩).of_eq rfl rfl rfl
  · -- `r` is used up and unlinked
    simp only [hfit, if_false, carve, List.append_nil]
    set u : Heap := { s.recordAlloc cfg need small with occupied := occ } with hu
    have h1 := (hpre.of_eq (t := u) rfl rfl rfl).setNext_holderOf (v := s.nextOffset (D r.off))
      hpreFirst hpreInj
    have h2 := (hpost.of_eq (t := u) rfl rfl rfl).setNext (n := s.nextOffset (D r.off)) hpostH
    exact (linkSeg_append.mpr ⟨_, h1, h2⟩).of_eq rfl rfl rfl

/-- `jmem_heap_alloc_block_internal_slow` is first fit on every backend, on a free list with the
spec's invariant whose regions are each one stretch of host memory, for every request of whole
granules. Either no region has `need` bytes, and the call returns `NULL` having changed the
statistics only (it counted one visit per region); or it returns the address, never `NULL`, of
the first region in address order with `need` bytes, after regions all smaller, puts the rest of
that region in its place on the list and leaves the skip pointer at the holder of its link. -/
theorem slow_first_fit (h : FreeListInv cfg s L) (hc : CodecFaithful cfg s L)
    (hh : HostContiguous cfg s L) {need : Nat} (hA : cfg.alignment ∣ need) (small : Bool) :
    ((∀ r ∈ L, r.size < need) ∧
        jmemHeapAllocBlockInternalSlow cfg need small s = some (0, s.statAllocIter cfg L.length)) ∨
      ∃ pre r post t, L = pre ++ r :: post ∧ (∀ q ∈ pre, q.size < need) ∧ need ≤ r.size ∧
        jmemHeapAllocBlockInternalSlow cfg need small s =
          some (jmemDecompressPointerInternal cfg s r.off, t) ∧
        jmemDecompressPointerInternal cfg s r.off ≠ 0 ∧
        LinkSeg (jmemDecompressPointerInternal cfg t) t (t.nextOffset cfg.firstAddr)
          (pre ++ carve need r ++ post) cfg.endOfList ∧
        t.skip = holderOf (jmemDecompressPointerInternal cfg s) cfg.firstAddr pre := by
  have hend : ∀ r ∈ L, r.off ≠ cfg.endOfList := fun r hr ↦ by
    have := h.inside r hr; have := cfg.offsetSpace_lt_endOfList; omega
  rcases @slowSearch_spec cfg s need L loopBound cfg.firstAddr _ 0 h.seg hend h.length_lt with
    ⟨hall, hs⟩ | ⟨pre, r, post, rfl, hpre, hr, hs⟩
  · refine .inl ⟨hall, ?_⟩
    simp [jmemHeapAllocBlockInternalSlow, hs]
  · -- the slow path counts its visits first; the headers and the codec stay as they are
    rw [Nat.zero_add] at hs
    set s' := s.statAllocIter cfg (pre.length + 1)
    have hd : jmemDecompressPointerInternal cfg s' = jmemDecompressPointerInternal cfg s :=
      funext (decompress_congr cfg (by simp [s']))
    obtain ⟨t, ht, hL, hskip⟩ := slowAllocAt_linkSeg (h.congr (t := s') (by simp [s'])
      (by simp [s']) (by simp [s'])) (hc.congr (by simp [s']) (by simp [s']))
      (fun q hq ↦ hh.congr (t := s') (by simp [s']) q (by simp_all)) hA hr small
    rw [hd] at ht hskip
    refine .inr ⟨pre, r, post, t, rfl, hpre, hr, ?_, hc.ne_zero r (by simp), hL, hskip⟩
    simp [jmemHeapAllocBlockInternalSlow, hs, ht]

theorem slow_first_fit_small :
    ∃ e, Reachable (Config.small .static) Env.quiet e ∧
      FreeListInv (Config.small .static) e.heap [⟨0, 16⟩, ⟨24, 232⟩] ∧
      (((∀ r ∈ [(⟨0, 16⟩ : Region), ⟨24, 232⟩], r.size < 24) ∧
          jmemHeapAllocBlockInternalSlow (Config.small .static) 24 false e.heap =
            some (0, e.heap.statAllocIter (Config.small .static) 2)) ∨
        ∃ pre r post t, [(⟨0, 16⟩ : Region), ⟨24, 232⟩] = pre ++ r :: post ∧
          (∀ q ∈ pre, q.size < 24) ∧ 24 ≤ r.size ∧
          jmemHeapAllocBlockInternalSlow (Config.small .static) 24 false e.heap =
            some (jmemDecompressPointerInternal (Config.small .static) e.heap r.off, t) ∧
          jmemDecompressPointerInternal (Config.small .static) e.heap r.off ≠ 0 ∧
          LinkSeg (jmemDecompressPointerInternal (Config.small .static) t) t
            (t.nextOffset (Config.small .static).firstAddr) (pre ++ carve 24 r ++ post)
            (Config.small .static).endOfList ∧
          t.skip = holderOf (jmemDecompressPointerInternal (Config.small .static) e.heap)
            (Config.small .static).firstAddr pre) := by
  obtain ⟨e, he, h, -⟩ := exists_reachable_twoRegions
  exact ⟨e, he, h, slow_first_fit h (codecFaithful_of_ne_segmented (by decide) (by decide))
    (hostContiguous_of_ne_segmented (by decide)) (by decide) false⟩

/-- On the small segmented build with `Env.interleaved`, `jmem_heap_alloc_block (32)` right after
`jmem_heap_init` finds the 24 bytes of segment 0 too few, attaches segment 1 at host `8192` and
splices it in: the free list is then the one region `[8, 64)`, with the spec's invariant and a
faithful codec. The slow path carves the 32 bytes at `4104` and writes the header of the rest,
`[40, 64)`, at `4104 + 32 = 4136`, past the end of segment 0's memory, while `first.next_offset
= 40` decompresses to `8200`, whose header it never writes: the list reads a region of size `0`
there, not the rest of 24 bytes. -/
theorem slow_rest_outside_segment :
    ∃ s₁ t, allocASegmentGroup (Config.small .segmented) Env.interleaved 32
        (Engine.initial (Config.small .segmented) Env.interleaved (fun _ ↦ 0) (fun _ ↦ 0)).heap =
        some (8192, s₁) ∧
      FreeListInv (Config.small .segmented) s₁ [⟨8, 56⟩] ∧
      CodecFaithful (Config.small .segmented) s₁ [⟨8, 56⟩] ∧
      jmemHeapAllocBlockInternalSlow (Config.small .segmented) 32 false s₁ = some (4104, t) ∧
      t.nextOffset 4088 = 40 ∧ jmemDecompressPointerInternal (Config.small .segmented) t 40 = 8200 ∧
      t.size 8200 = 0 ∧ t.size 4136 = 24 ∧
      ¬ LinkSeg (jmemDecompressPointerInternal (Config.small .segmented) t) t (t.nextOffset 4088)
        [⟨40, 24⟩] (2 ^ 32 - 1) ∧
      ∃ e, Reachable (Config.small .segmented) Env.interleaved e ∧ e.live = [⟨4104, 32, false⟩] ∧
        e.heap.nextOffset 4088 = 40 ∧ e.heap.size 8200 = 0 ∧ e.heap.size 4136 = 24 := by
  obtain ⟨e, he, hv⟩ := exists_reachable_of_run _ _ (show
    (run (Config.small .segmented) Env.interleaved
      (Engine.initial (Config.small .segmented) Env.interleaved (fun _ ↦ 0) (fun _ ↦ 0))
      [.allocBlock 32]).map
      (fun e ↦ (e.live, e.heap.nextOffset 4088, e.heap.size 8200, e.heap.size 4136)) =
      some ([⟨4104, 32, false⟩], 40, 0, 24) by decide)
  simp only [Prod.mk.injEq] at hv
  obtain ⟨h₁, h₂, h₃, h₄⟩ := hv
  refine ⟨_, _, rfl, ⟨linkSeg_cons.mpr ⟨by decide, by decide, linkSeg_nil.mpr (by decide)⟩,
    List.pairwise_singleton _ _, by decide, by decide, by decide⟩,
    ⟨by decide, by decide, by decide⟩, rfl, by decide, by decide, by decide, by decide, fun hL ↦ ?_, e, he, h₁, h₂, h₃, h₄⟩
  have := (linkSeg_cons.mp hL).2.1
  revert this
  decide

end Slow

end JmemHeap
