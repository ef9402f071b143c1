import JmemHeap.FreeList

/-!
# The list surgery of each path

Against an address-ordered free list read from memory (`ListSeg`), each piece of list surgery
in `jmem-heap.c` is one operation on the list of regions: the fast path and the slow path carve
a block from the start of a region (`carve`), and the free path returns the block between the
regions below it and the regions above it (`insertRegion`). One lemma per function says which
operation it performs, what it returns and where it leaves the skip pointer; the invariants of
the allocator are derived from these lemmas alone.

This is the contiguous layout of the static and dynamic-emulation backends: the header of the
region at offset `o` is at host address `areaBase + o`, and `first` lies below the area.
-/

namespace JmemHeap

open Region

variable {cfg : Config} {s : Heap}

/-! ## Allocation -/

/-- The fast path takes the first granule of the first region: the rest of the region, if
any, takes its place, and a skip pointer left at the region moves to the new first link. -/
theorem fast_spec (hseg : cfg.backend ≠ .segmented) {r : Region} {rest : List Region}
    (hL : ListSeg cfg s (s.nextOffset cfg.firstAddr) (r :: rest) cfg.endOfList)
    (hrest : ∀ q ∈ rest, r.off + r.size < q.off) (hA : cfg.alignment ≤ r.size)
    (hend : r.off + r.size < 2 ^ 32) (small : Bool) :
    ∃ t, jmemHeapAllocBlockInternalFast cfg small s = (cfg.areaBase + r.off, t) ∧
      ListSeg cfg t (t.nextOffset cfg.firstAddr) (carve cfg.alignment r ++ rest) cfg.endOfList ∧
      t.size cfg.firstAddr = s.size cfg.firstAddr ∧
      t.skip = if cfg.areaBase + r.off = s.skip then
        cfg.areaBase + headLink cfg (carve cfg.alignment r ++ rest) else s.skip := by
  obtain ⟨ho, hsz, hrs⟩ := listSeg_cons.mp hL
  have hfa := cfg.firstAddr_lt
  have hnext := hrs.eq_headLink
  have hfirst : cfg.firstAddr ≠ cfg.areaBase + r.off := by omega
  by_cases hfit : r.size = cfg.alignment
  · have hc : carve cfg.alignment r = [] := by simp [carve, hfit]
    have hseg' : ListSeg cfg ((s.recordAlloc cfg cfg.alignment small).statAllocIter cfg 1 |>.setNext
        cfg.firstAddr (s.nextOffset (cfg.areaBase + r.off))) (s.nextOffset (cfg.areaBase + r.off))
        rest cfg.endOfList :=
      (hrs.of_headers (by simp) (by simp)).setNext fun q _ ↦ by omega
    simp only [jmemHeapAllocBlockInternalFast, decompress_of_ne_segmented cfg hseg, hseg,
      if_false, ho, Heap.size_statAllocIter, Heap.size_recordAlloc, Heap.nextOffset_statAllocIter,
      Heap.nextOffset_recordAlloc, hsz, hfit, if_true, hc, List.nil_append, Heap.skip_setNext,
      Heap.skip_statAllocIter, Heap.skip_recordAlloc, Heap.nextOffset_setNext, ← hnext]
    split_ifs <;> refine ⟨_, rfl, hseg'.of_eq ?_ ?_ ?_, ?_, ?_⟩ <;> simp
  · have hlt : cfg.alignment < r.size := by omega
    have hc : carve cfg.alignment r = [⟨r.off + cfg.alignment, r.size - cfg.alignment⟩] := by
      simp [carve, hlt]
    have hR : cfg.firstAddr ≠ cfg.areaBase + (r.off + cfg.alignment) := by omega
    have hseg' : ListSeg cfg ((((s.recordAlloc cfg cfg.alignment small).statAllocIter cfg 1).setSize
        (cfg.areaBase + (r.off + cfg.alignment)) (r.size - cfg.alignment)).setNext
        (cfg.areaBase + (r.off + cfg.alignment)) (s.nextOffset (cfg.areaBase + r.off)) |>.setNext
        cfg.firstAddr (r.off + cfg.alignment))
        (r.off + cfg.alignment) ([⟨r.off + cfg.alignment, r.size - cfg.alignment⟩] ++ rest)
        cfg.endOfList := by
      refine listSeg_cons.mpr ⟨rfl, by simp [hR.symm], ?_⟩
      simp only [Heap.nextOffset_setNext, hR.symm, if_false, if_true]
      refine (((hrs.of_headers (by simp) (by simp)).setSize ?_).setNext ?_).setNext ?_ <;>
        intro q hq <;> have := hrest q hq <;> omega
    simp only [jmemHeapAllocBlockInternalFast, decompress_of_ne_segmented cfg hseg, hseg,
      if_false, ho, Heap.size_statAllocIter, Heap.size_recordAlloc, Heap.nextOffset_statAllocIter,
      Heap.nextOffset_recordAlloc, hsz, hfit, hc, Heap.skip_setNext, Heap.skip_setSize,
      Heap.skip_statAllocIter, Heap.skip_recordAlloc, Heap.nextOffset_setNext, if_true,
      u32_of_lt (show r.off + cfg.alignment < 2 ^ 32 by omega),
      u32Sub_of_le (Nat.le_of_lt hlt) (show r.size < 2 ^ 32 by omega)]
    split_ifs <;> refine ⟨_, rfl, hseg'.of_eq ?_ ?_ ?_, ?_, ?_⟩ <;> simp [hR, headLink]

/-- The slow path, once its walk has stopped at the region `r` after the regions `pre`, carves
the block from the start of `r` and leaves the skip pointer at the holder of `r`'s link. -/
theorem slowAllocAt_spec (hseg : cfg.backend ≠ .segmented) {pre post : List Region} {r : Region}
    (hL : ListSeg cfg s (s.nextOffset cfg.firstAddr) (pre ++ r :: post) cfg.endOfList)
    (hsorted : (pre ++ r :: post).Pairwise Before) (hend : r.off + r.size < 2 ^ 32)
    (small : Bool) :
    ∃ t, slowAllocAt cfg requiredSize small (linkHolder cfg cfg.firstAddr pre) r.off s =
        some (cfg.areaBase + r.off, t) ∧
      ListSeg cfg t (t.nextOffset cfg.firstAddr) (pre ++ carve requiredSize r ++ post)
        cfg.endOfList ∧
      t.size cfg.firstAddr = s.size cfg.firstAddr ∧ t.skip = linkHolder cfg cfg.firstAddr pre := by
  obtain ⟨o', hpre, hr⟩ := listSeg_append.mp hL
  obtain ⟨rfl, hsz, hpost⟩ := listSeg_cons.mp hr
  obtain ⟨hsortedPre, hsortedR, hcross⟩ := List.pairwise_append.mp hsorted
  have hfa := cfg.firstAddr_lt
  have hbelow : ∀ q ∈ pre, q.off + q.size < r.off := fun q hq ↦ hcross q hq r (by simp)
  have habove : ∀ q ∈ post, r.off + r.size < q.off := (List.pairwise_cons.mp hsortedR).1
  have hP : linkHolder cfg cfg.firstAddr pre < cfg.areaBase + r.off := by
    rcases linkHolder_cases cfg.firstAddr pre with h | ⟨q, hq, h⟩ <;> rw [h]
    · omega
    · have := hbelow q hq; omega
  have hpreFirst : ∀ q ∈ pre, cfg.areaBase + q.off ≠ cfg.firstAddr := fun q _ ↦ by omega
  have hnext := hpost.eq_headLink
  simp only [slowAllocAt, decompress_of_ne_segmented cfg hseg, bind, pure,
    updateOccupancy_of_ne_segmented hseg, Option.some_bind, Heap.size_recordAlloc, hsz, hseg,
    if_false]
  by_cases hfit : requiredSize < r.size
  · have hc : carve requiredSize r = [⟨r.off + requiredSize, r.size - requiredSize⟩] := by
      simp [carve, hfit]
    have hR : cfg.areaBase + r.off + requiredSize = cfg.areaBase + (r.off + requiredSize) := by
      omega
    -- the rest of the region, written below the relinked holder
    let u := ((s.recordAlloc cfg requiredSize small).setSize (cfg.areaBase + (r.off + requiredSize))
      (r.size - requiredSize)).setNext (cfg.areaBase + (r.off + requiredSize))
      (s.nextOffset (cfg.areaBase + r.off))
    have hu : ListSeg cfg u (u.nextOffset cfg.firstAddr) pre r.off :=
      ((hpre.of_headers (by simp) (by simp)).setSize fun q hq ↦ by have := hbelow q hq; omega).setNext
        (fun q hq ↦ by have := hbelow q hq; omega) |>.of_eq rfl rfl (by simp [u]; omega)
    have hrest : ListSeg cfg (u.setNext (linkHolder cfg cfg.firstAddr pre) (r.off + requiredSize))
        (r.off + requiredSize) ([⟨r.off + requiredSize, r.size - requiredSize⟩] ++ post)
        cfg.endOfList := by
      refine listSeg_cons.mpr ⟨rfl, by simp [u], ?_⟩
      simp only [u, Heap.nextOffset_setNext, if_true, show cfg.areaBase + (r.off + requiredSize) ≠
        linkHolder cfg cfg.firstAddr pre by omega, if_false]
      refine (((hpost.of_headers (by simp) (by simp)).setSize ?_).setNext ?_).setNext ?_ <;>
        intro q hq <;> have := habove q hq <;> omega
    rw [if_pos (show r.size > requiredSize from hfit), hR, compress_of_ne_segmented cfg hseg (by omega),
      u32Sub_of_le (Nat.le_of_lt hfit) (by omega), hc, List.append_assoc]
    refine ⟨_, rfl, listSeg_append.mpr ⟨_, ?_, hrest.of_eq rfl rfl rfl⟩, ?_, rfl⟩
    · exact (hu.setNext_linkHolder hpreFirst hsortedPre).of_eq rfl rfl rfl
    · simp [u, show cfg.firstAddr ≠ cfg.areaBase + (r.off + requiredSize) by omega]
  · have hc : carve requiredSize r = [] := by simp [carve, hfit]
    rw [if_neg (show ¬ r.size > requiredSize from hfit), hc, List.append_nil]
    refine ⟨_, rfl, listSeg_append.mpr ⟨s.nextOffset (cfg.areaBase + r.off), ?_, ?_⟩, by simp, rfl⟩
    · exact ((hpre.of_headers (by simp) (by simp)).setNext_linkHolder hpreFirst hsortedPre).of_eq
        rfl rfl (by simp)
    · have : ListSeg cfg ((s.recordAlloc cfg requiredSize small).setNext
          (linkHolder cfg cfg.firstAddr pre) (s.nextOffset (cfg.areaBase + r.off)))
          (s.nextOffset (cfg.areaBase + r.off)) post cfg.endOfList :=
        (hpost.of_headers (by simp) (by simp)).setNext fun q hq ↦ by have := habove q hq; omega
      exact this.of_eq rfl rfl rfl

/-! ## Free -/

/-- "Update prev.": against the regions `pre` below the block, the block is merged into the
last of them when it touches it, and becomes a region of its own after them otherwise. Either
way the stretch from `first` now runs through regions `pre₀` to the region `h` that holds the
block, whose header is returned; nothing at or above the block's end is written. -/
theorem freeUpdatePrev_spec {pre : List Region} {o n o₁ : Nat}
    (hL : ListSeg cfg s (s.nextOffset cfg.firstAddr) pre o₁) (hsorted : pre.Pairwise Before)
    (hpre : ∀ q ∈ pre, q.off < o ∧ q.off + q.size ≤ o) (hn : 0 < n) (hon : o + n < 2 ^ 32)
    (hfirst : s.size cfg.firstAddr = 0) :
    ∃ b t pre₀ h, freeUpdatePrev (linkHolder cfg cfg.firstAddr pre) (cfg.areaBase + o) o n s =
        (b, t) ∧ (∀ post, insertRegion pre ⟨o, n⟩ post = pre₀ ++ mergeNext h post) ∧
      b = cfg.areaBase + h.off ∧ h.off ≤ o ∧ h.off + h.size = o + n ∧ (∀ q ∈ pre₀, q.off < h.off) ∧
      ListSeg cfg t (t.nextOffset cfg.firstAddr) pre₀ h.off ∧
      t.size (cfg.areaBase + h.off) = h.size ∧ t.size cfg.firstAddr = 0 ∧
      ∀ x, cfg.areaBase + (o + n) ≤ x → t.size x = s.size x ∧ t.nextOffset x = s.nextOffset x := by
  have hfa := cfg.firstAddr_lt
  by_cases htouch : ∃ q ∈ pre.getLast?, q.off + q.size = o
  · -- merged into the last region below the block
    obtain ⟨q, hq, htouch⟩ := htouch
    obtain ⟨pre', rfl⟩ := List.getLast?_eq_some_iff.mp hq
    obtain ⟨hL', hqsz, -⟩ := listSeg_snoc.mp hL
    have hq : cfg.firstAddr ≠ cfg.areaBase + q.off := by omega
    have hpre' : ∀ q' ∈ pre', q'.off < q.off := fun q' hq' ↦ by
      have := (List.pairwise_append.mp hsorted).2.2 q' hq' q (by simp)
      unfold Before at this
      omega
    refine ⟨_, s.setSize (cfg.areaBase + q.off) (q.size + n), pre', ⟨q.off, q.size + n⟩, ?_,
      fun post ↦ ?_, rfl, by have := hpre q (by simp); dsimp only; omega, by dsimp only; omega,
      hpre', ?_, by simp, ?_, ?_⟩
    · simp only [freeUpdatePrev, jmemHeapGetRegionEnd, linkHolder_snoc, hqsz,
        if_pos (show cfg.areaBase + q.off + q.size = cfg.areaBase + o by omega),
        u32_of_lt (show n < 2 ^ 32 by omega), u32_of_lt (show q.size + n < 2 ^ 32 by omega)]
    · rw [insertRegion_snoc, if_pos htouch]
    · exact (hL'.setSize fun q' hq' ↦ by have := hpre' q' hq'; omega).of_eq rfl rfl rfl
    · simpa [hq] using hfirst
    · intro x hx
      simp [show x ≠ cfg.areaBase + q.off by have := hpre q (by simp); omega]
  · -- the block as a region of its own, linked after `pre`
    push_neg at htouch
    have hB : cfg.firstAddr ≠ cfg.areaBase + o := by omega
    have hend : jmemHeapGetRegionEnd s (linkHolder cfg cfg.firstAddr pre) ≠ cfg.areaBase + o := by
      unfold jmemHeapGetRegionEnd
      rcases List.eq_nil_or_concat pre with rfl | ⟨pre', q, rfl⟩
      · rw [linkHolder_nil, hfirst]; omega
      · rw [List.concat_eq_append] at hL htouch
        rw [List.concat_eq_append, linkHolder_snoc, (listSeg_snoc.mp hL).2.1]
        have := htouch q (by simp)
        omega
    have hP : linkHolder cfg cfg.firstAddr pre < cfg.areaBase + o := by
      rcases linkHolder_cases cfg.firstAddr pre with h | ⟨q, hq, h⟩ <;> rw [h]
      · omega
      · have := hpre q hq; omega
    have hseg' := ((hL.setSize (w := cfg.areaBase + o) (n := n) fun q hq ↦ by
      have := hpre q hq; omega).of_eq rfl rfl rfl).setNext_linkHolder (v := o)
      (fun q _ ↦ by omega) hsorted
    refine ⟨_, _, pre, ⟨o, n⟩, by simp only [freeUpdatePrev, if_neg hend,
      u32_of_lt (show n < 2 ^ 32 by omega)], fun post ↦ insertRegion_of_not_touch htouch, rfl,
      le_rfl, rfl, fun q hq ↦ (hpre q hq).1, hseg', ?_, ?_, ?_⟩
    · simp [u32_of_lt (show n < 2 ^ 32 by omega)]
    · simpa [hB] using hfirst
    · intro x hx
      simp [show x ≠ cfg.areaBase + o by omega, show x ≠ linkHolder cfg cfg.firstAddr pre by omega]

/-- "Update next.": the region `h` that holds the block absorbs the first region above it when
it touches it, and links to it otherwise. -/
theorem freeUpdateNext_spec {pre₀ post : List Region} {h : Region} {t : Heap}
    (hpre : ListSeg cfg t (t.nextOffset cfg.firstAddr) pre₀ h.off)
    (hpre' : ∀ q ∈ pre₀, q.off < h.off) (hsize : t.size (cfg.areaBase + h.off) = h.size)
    (hpost : ListSeg cfg t (headLink cfg post) post cfg.endOfList)
    (hpost' : ∀ q ∈ post, h.off + h.size ≤ q.off ∧ q.off + q.size < 2 ^ 32) (hpos : 0 < h.size)
    (hend : h.off + h.size < cfg.endOfList) :
    ListSeg cfg (freeUpdateNext (cfg.areaBase + h.off) (headLink cfg post)
        (cfg.areaBase + headLink cfg post) t)
      ((freeUpdateNext (cfg.areaBase + h.off) (headLink cfg post)
        (cfg.areaBase + headLink cfg post) t).nextOffset cfg.firstAddr)
      (pre₀ ++ mergeNext h post) cfg.endOfList ∧
    (freeUpdateNext (cfg.areaBase + h.off) (headLink cfg post)
        (cfg.areaBase + headLink cfg post) t).size cfg.firstAddr = t.size cfg.firstAddr := by
  have hfa := cfg.firstAddr_lt
  have hH : cfg.firstAddr ≠ cfg.areaBase + h.off := by omega
  have hpreH : ∀ q ∈ pre₀, cfg.areaBase + q.off ≠ cfg.areaBase + h.off := fun q hq ↦ by
    have := hpre' q hq; omega
  cases post with
  | nil =>
    simp only [freeUpdateNext, jmemHeapGetRegionEnd, headLink, hsize,
      if_neg (show cfg.areaBase + h.off + h.size ≠ cfg.areaBase + cfg.endOfList by omega),
      mergeNext]
    refine ⟨listSeg_append.mpr ⟨h.off, (hpre.setNext hpreH).of_eq rfl rfl (by simp [hH]), ?_⟩,
      by simp⟩
    simp [hsize]
  | cons q post =>
    obtain ⟨-, hqsz, hqrest⟩ := listSeg_cons.mp hpost
    have hq := hpost' q (List.mem_cons_self q post)
    have hrest : ∀ q' ∈ post, cfg.areaBase + q'.off ≠ cfg.areaBase + h.off := fun q' hq' ↦ by
      have := hpost' q' (List.mem_cons_of_mem q hq'); omega
    by_cases htouch : h.off + h.size = q.off
    · simp only [freeUpdateNext, jmemHeapGetRegionEnd, headLink, hsize, mergeNext,
        if_pos (show cfg.areaBase + h.off + h.size = cfg.areaBase + q.off by omega), if_pos htouch]
      refine ⟨listSeg_append.mpr ⟨h.off, ((hpre.setSize hpreH).setNext hpreH).of_eq rfl rfl
        (by simp [hH]), ?_⟩, by simp [hH]⟩
      refine listSeg_cons.mpr ⟨rfl, ?_, ?_⟩
      · simp [hqsz, show cfg.areaBase + q.off ≠ cfg.areaBase + h.off by omega,
          u32_of_lt (show h.size + q.size < 2 ^ 32 by omega)]
      · exact ((hqrest.setSize hrest).setNext hrest).of_eq rfl rfl (by simp)
    · simp only [freeUpdateNext, jmemHeapGetRegionEnd, headLink, hsize, mergeNext,
        if_neg (show cfg.areaBase + h.off + h.size ≠ cfg.areaBase + q.off by omega),
        if_neg htouch]
      refine ⟨listSeg_append.mpr ⟨h.off, (hpre.setNext hpreH).of_eq rfl rfl (by simp [hH]), ?_⟩,
        by simp⟩
      refine listSeg_cons.mpr ⟨rfl, by simp [hsize], ?_⟩
      simp only [Heap.nextOffset_setNext, if_true]
      exact hpost.setNext fun q' hq' ↦ by
        rcases List.mem_cons.mp hq' with rfl | hq'
        · omega
        · exact hrest q' hq'

/-- `freeLink` returns the block between the regions `pre` below it and the regions `post`
above it, and leaves the skip pointer at the holder of the link after `pre`. -/
theorem freeLink_spec (hseg : cfg.backend ≠ .segmented) {pre post : List Region} {o n : Nat}
    (hL : ListSeg cfg s (s.nextOffset cfg.firstAddr) (pre ++ post) cfg.endOfList)
    (hsorted : pre.Pairwise Before) (hpre : ∀ q ∈ pre, q.off < o ∧ q.off + q.size ≤ o)
    (hpost : ∀ q ∈ post, o + n ≤ q.off ∧ q.off + q.size ≤ cfg.areaSize) (hn : 0 < n)
    (hon : o + n ≤ cfg.areaSize) (hfirst : s.size cfg.firstAddr = 0) :
    ListSeg cfg (freeLink cfg (linkHolder cfg cfg.firstAddr pre) (cfg.areaBase + o) o n s)
      ((freeLink cfg (linkHolder cfg cfg.firstAddr pre) (cfg.areaBase + o) o n s).nextOffset
        cfg.firstAddr) (insertRegion pre ⟨o, n⟩ post) cfg.endOfList ∧
    (freeLink cfg (linkHolder cfg cfg.firstAddr pre) (cfg.areaBase + o) o n s).size
      cfg.firstAddr = 0 ∧
    (freeLink cfg (linkHolder cfg cfg.firstAddr pre) (cfg.areaBase + o) o n s).skip =
      linkHolder cfg cfg.firstAddr pre := by
  have hA := cfg.areaSize_lt_endOfList
  have hE := cfg.endOfList_lt
  obtain ⟨o₁, hpreL, hpostL⟩ := listSeg_append.mp hL
  have hnextCp := hpreL.nextOffset_linkHolder.trans hpostL.eq_headLink
  obtain ⟨b, t, pre₀, h, hres, hins, rfl, hle, hend, hlt, hseg₀, hsize, hfirst', hframe⟩ :=
    freeUpdatePrev_spec hpreL hsorted hpre hn (by omega) hfirst
  have hpostT : ListSeg cfg t (headLink cfg post) post cfg.endOfList :=
    hpostL.eq_headLink ▸ hpostL.congr fun q hq ↦ hframe _ (by have := hpost q hq; omega)
  obtain ⟨hlist, hsz⟩ := freeUpdateNext_spec hseg₀ hlt hsize hpostT
    (fun q hq ↦ by have := hpost q hq; omega) (by omega) (by omega)
  simp only [freeLink, hnextCp, decompress_of_ne_segmented cfg hseg, hres]
  exact ⟨(hins post).symm ▸ hlist.of_eq rfl rfl rfl, hsz.trans hfirst', trivial⟩

/-- The list part of the free path: the walk, from the skip pointer when the block lies above
it and from `first` otherwise, stops at the holder of the link after the regions below the
block, and `freeLink` returns the block there. -/
theorem freeInsert_spec (hseg : cfg.backend ≠ .segmented) {pre post : List Region} {o n : Nat}
    (hL : ListSeg cfg s (s.nextOffset cfg.firstAddr) (pre ++ post) cfg.endOfList)
    (hsorted : pre.Pairwise Before) (hpre : ∀ q ∈ pre, q.off < o ∧ q.off + q.size ≤ o)
    (hpost : ∀ q ∈ post, o + n ≤ q.off ∧ q.off + q.size ≤ cfg.areaSize) (hn : 0 < n)
    (hon : o + n ≤ cfg.areaSize) (hfirst : s.size cfg.firstAddr = 0)
    (hskip : s.skip = cfg.firstAddr ∨ (∃ q ∈ pre ++ post, s.skip = cfg.areaBase + q.off) ∨
      s.skip = cfg.areaBase + cfg.endOfList) :
    ∃ t, freeInsert cfg (cfg.areaBase + o) o n s = some t ∧
      ListSeg cfg t (t.nextOffset cfg.firstAddr) (insertRegion pre ⟨o, n⟩ post) cfg.endOfList ∧
      t.size cfg.firstAddr = 0 ∧ t.skip = linkHolder cfg cfg.firstAddr pre := by
  have hA := cfg.areaSize_lt_endOfList
  have hE := cfg.endOfList_lt
  have hlen : pre.length < loopBound := by
    have := @length_le_of_pairwise pre 0 o hsorted fun q hq ↦ ⟨Nat.zero_le _, (hpre q hq).1⟩
    have : (2 : Nat) ^ 32 < loopBound := by unfold loopBound; decide
    omega
  by_cases hs : s.skip < cfg.areaBase + o
  · have hh : s.skip = cfg.firstAddr ∨ ∃ q ∈ pre, s.skip = cfg.areaBase + q.off := by
      rcases hskip with h | ⟨q, hq, h⟩ | h
      · exact .inl h
      · rcases List.mem_append.mp hq with hq | hq
        · exact .inr ⟨q, hq, h⟩
        · have := hpost q hq; omega
      · omega
    simp only [freeInsert, hseg, if_false, gt_iff_lt, hs, decide_True, if_true]
    obtain ⟨k, hk⟩ := freeWalk_from hseg (s := s.stat cfg fun st ↦ { st with
      skipCount := st.skipCount + 1 }) (hL.of_eq (by simp) (by simp) (by simp))
      (fun q hq ↦ (hpre q hq).1) (fun q hq ↦ by have := hpost q hq; omega) (by omega) hlen hh
    simp only [hk, bind, Option.some_bind, pure]
    refine ⟨_, rfl, freeLink_spec hseg (hL.of_eq ?_ ?_ ?_) hsorted hpre hpost hn hon ?_⟩ <;>
      simp [hfirst]
  · simp only [freeInsert, hseg, if_false, gt_iff_lt, hs, decide_False, Bool.false_eq_true]
    obtain ⟨k, hk⟩ := freeWalk_from hseg (s := s.stat cfg fun st ↦ { st with
      nonskipCount := st.nonskipCount + 1 }) (hL.of_eq (by simp) (by simp) (by simp))
      (fun q hq ↦ (hpre q hq).1) (fun q hq ↦ by have := hpost q hq; omega) (by omega) hlen (.inl rfl)
    simp only [hk, bind, Option.some_bind, pure]
    refine ⟨_, rfl, freeLink_spec hseg (hL.of_eq ?_ ?_ ?_) hsorted hpre hpost hn hon ?_⟩ <;>
      simp [hfirst]

end JmemHeap
