import JmemHeap.Layout

/-!
# The two walks on every backend

The slow path walks the free list from `first` to the first region large enough; the free path
walks it to the last region below the freed block, from the skip pointer when the block lies
above it and from `first` otherwise. Both walks read only the headers, through the codec, so
on a free list with the spec's invariant (`FreeListInv`) they are described by the regions
alone, on every backend (`slowSearch_spec`, `freeWalk_linkSeg`).

The skip pointer is a shortcut and nothing more: from it or from `first` the free path reaches
the same predecessor and writes the same list (`freeInsert_skip_eq_first`). The spec's
version of the free path, which always starts from `first`, is `freeInsertFromFirst`.

Termination is a property of the list, not of the code: a list whose links run in a cycle
keeps both walks going for ever (`slowSearch_none_of_loop`, `freeWalk_none_of_loop`). The
wrap-around of a request of `SIZE_MAX` bytes hands the same block out twice, and freeing both
copies links a region to itself (`walks_loop_after_wrap`).
-/

namespace JmemHeap

open Region

/-! ## What the statistics do not touch -/

section Stats

variable {cfg : Config}

theorem Heap.stat_eq_withStats (f : Stats → Stats) (s : Heap) :
    s.stat cfg f = { s with stats := (s.stat cfg f).stats } := by
  unfold Heap.stat; split <;> rfl

theorem freeWalk_withStats (b : Nat) (s : Heap) (X : Stats) :
    ∀ fuel x r, freeWalk cfg { s with stats := X } b fuel x r = freeWalk cfg s b fuel x r
  | 0, _, _ => rfl
  | fuel + 1, x, r => by
    simp only [freeWalk, jmemDecompressPointerInternal, segmentedDecompressPointer,
      freeWalk_withStats b s X fuel]

theorem freeWalk_stat (f : Stats → Stats) (b fuel x r : Nat) (s : Heap) :
    freeWalk cfg (s.stat cfg f) b fuel x r = freeWalk cfg s b fuel x r := by
  rw [Heap.stat_eq_withStats, freeWalk_withStats]

theorem freeUpdatePrev_withStats (prevP blockP blockOffset alignedSize : Nat) (s : Heap)
    (X : Stats) :
    freeUpdatePrev prevP blockP blockOffset alignedSize { s with stats := X } =
      ((freeUpdatePrev prevP blockP blockOffset alignedSize s).1,
        { (freeUpdatePrev prevP blockP blockOffset alignedSize s).2 with stats := X }) := by
  simp only [freeUpdatePrev, jmemHeapGetRegionEnd]
  split <;> rfl

theorem freeUpdateNext_withStats (blockP nextCp nextP : Nat) (s : Heap) (X : Stats) :
    freeUpdateNext blockP nextCp nextP { s with stats := X } =
      { freeUpdateNext blockP nextCp nextP s with stats := X } := by
  simp only [freeUpdateNext, jmemHeapGetRegionEnd]
  split <;> rfl

theorem freeLink_withStats (prevP blockP blockOffset alignedSize : Nat) (s : Heap) (X : Stats) :
    freeLink cfg prevP blockP blockOffset alignedSize { s with stats := X } =
      { freeLink cfg prevP blockP blockOffset alignedSize s with stats := X } := by
  simp only [freeLink, freeUpdatePrev_withStats, freeUpdateNext_withStats]
  rfl

/-- `freeLink` writes the same headers and leaves the same skip pointer whatever the
statistics. -/
theorem freeLink_headers_stat (prevP blockP blockOffset alignedSize : Nat) (f : Stats → Stats)
    (s : Heap) :
    (freeLink cfg prevP blockP blockOffset alignedSize (s.stat cfg f)).size =
        (freeLink cfg prevP blockP blockOffset alignedSize s).size ∧
      (freeLink cfg prevP blockP blockOffset alignedSize (s.stat cfg f)).nextOffset =
        (freeLink cfg prevP blockP blockOffset alignedSize s).nextOffset ∧
      (freeLink cfg prevP blockP blockOffset alignedSize (s.stat cfg f)).skip =
        (freeLink cfg prevP blockP blockOffset alignedSize s).skip := by
  rw [Heap.stat_eq_withStats, freeLink_withStats]
  exact ⟨rfl, rfl, rfl⟩

end Stats

/-! ## The walks against the regions -/

section Walks

variable {cfg : Config} {s : Heap}

/-- The first-fit walk of the slow path, on a stretch that ends the list and with fuel for
every region, visits the regions in order: it stops at the first region of at least
`requiredSize` bytes, linked from the holder of the regions before it, after one visit per
region up to it; or it reaches `JMEM_HEAP_END_OF_LIST` after visiting every region once, when
all are too small. -/
theorem slowSearch_spec {requiredSize : Nat} :
    ∀ {L : List Region} {fuel prevP o visited},
      LinkSeg (jmemDecompressPointerInternal cfg s) s o L cfg.endOfList →
      (∀ r ∈ L, r.off ≠ cfg.endOfList) → L.length < fuel →
      ((∀ q ∈ L, q.size < requiredSize) ∧ slowSearch cfg requiredSize s fuel prevP o visited =
          some (.exhausted, visited + L.length)) ∨
        ∃ pre r post, L = pre ++ r :: post ∧ (∀ q ∈ pre, q.size < requiredSize) ∧
          requiredSize ≤ r.size ∧ slowSearch cfg requiredSize s fuel prevP o visited =
            some (.found (holderOf (jmemDecompressPointerInternal cfg s) prevP pre) r.off,
              visited + pre.length + 1)
  | [], fuel + 1, _, o, _, hL, _, _ => by
    simp only [linkSeg_nil] at hL
    simp [slowSearch, hL]
  | r :: L, fuel + 1, prevP, _, visited, ⟨rfl, hsz, hL⟩, hend, hfuel => by
    simp only [slowSearch, hend r (List.mem_cons_self r L), if_false, hsz]
    split
    · exact .inr ⟨[], r, L, rfl, by simp, ‹_›, by simp [holderOf_nil]⟩
    · rcases slowSearch_spec hL (fun q hq ↦ hend q (List.mem_cons_of_mem r hq))
          (show L.length < fuel by simp at hfuel; omega) with ⟨hall, h⟩ | ⟨pre, r', post, rfl, hpre, hr', h⟩
      · refine .inl ⟨?_, by rw [h]; simp [Nat.add_assoc, Nat.add_comm 1]⟩
        simp only [List.mem_cons, forall_eq_or_imp]
        exact ⟨by omega, hall⟩
      · refine .inr ⟨r :: pre, r', post, rfl, ?_, hr', ?_⟩
        · simp only [List.mem_cons, forall_eq_or_imp]
          exact ⟨by omega, hpre⟩
        · rw [h, holderOf_cons]
          simp [Nat.add_assoc, Nat.add_comm 1]

/-- The walk of the free path, from a header whose stretch runs through the regions `pre`
below the block and then reaches a link at or above it, stops at the holder of the link after
`pre`, after one round per region of `pre`. -/
theorem freeWalk_linkSeg {blockOffset o' : Nat} :
    ∀ {pre : List Region} {fuel h rounds}, pre.length < fuel →
      LinkSeg (jmemDecompressPointerInternal cfg s) s (s.nextOffset h) pre o' →
      blockOffset ≤ o' → (∀ q ∈ pre, q.off < blockOffset) →
      freeWalk cfg s blockOffset fuel h rounds =
        some (holderOf (jmemDecompressPointerInternal cfg s) h pre, rounds + pre.length)
  | [], fuel + 1, h, rounds, _, hL, ho', _ => by
    simp only [linkSeg_nil] at hL
    simp [freeWalk, hL, Nat.not_lt.mpr ho', holderOf_nil]
  | q :: pre, fuel + 1, h, rounds, hfuel, ⟨hq, hsz, hL⟩, ho', hlt => by
    have hq' : q.off < blockOffset := hlt q (List.mem_cons_self q pre)
    simp only [freeWalk, hq, hq', if_true]
    rw [freeWalk_linkSeg (show pre.length < fuel by simp at hfuel; omega) hL ho'
      (fun q' hq' ↦ hlt q' (List.mem_cons_of_mem q hq')), holderOf_cons]
    simp [Nat.add_assoc, Nat.add_comm 1]

/-- An address-ordered list of regions splits at any offset into the regions below it and the
regions at or above it. -/
theorem exists_split_off (o : Nat) :
    ∀ {L : List Region}, L.Pairwise Before →
      ∃ pre post, L = pre ++ post ∧ (∀ q ∈ pre, q.off < o) ∧ ∀ q ∈ post, o ≤ q.off
  | [], _ => ⟨[], [], rfl, by simp, by simp⟩
  | r :: L, h => by
    rw [List.pairwise_cons] at h
    by_cases hr : r.off < o
    · obtain ⟨pre, post, rfl, hpre, hpost⟩ := exists_split_off o h.2
      refine ⟨r :: pre, post, rfl, ?_, hpost⟩
      simp only [List.mem_cons, forall_eq_or_imp]
      exact ⟨hr, hpre⟩
    · refine ⟨[], r :: L, rfl, by simp, ?_⟩
      simp only [List.mem_cons, forall_eq_or_imp]
      exact ⟨by omega, fun q hq ↦ by have := h.1 q hq; unfold Before at this; omega⟩

/-- A free list with the spec's invariant has fewer regions than the walks have fuel: its
regions have distinct offsets inside the logical offset space. -/
theorem FreeListInv.length_lt {L : List Region} (h : FreeListInv cfg s L) :
    L.length < loopBound := by
  have := @length_le_of_pairwise L 0 cfg.offsetSpace h.sorted fun q hq ↦
    ⟨Nat.zero_le _, by have := h.inside q hq; have := (h.aligned q hq).2.2; omega⟩
  have := Nat.lt_trans cfg.offsetSpace_lt_endOfList cfg.endOfList_lt
  have : (2 : Nat) ^ 32 < loopBound := by unfold loopBound; decide
  omega

/-- The regions `pre` of a free list with the spec's invariant lead from `first` to a link at
or above any offset of the logical offset space that the rest of the list starts at or above. -/
theorem FreeListInv.le_link_after {pre post : List Region} (h : FreeListInv cfg s (pre ++ post))
    {o : Nat} (ho : o < cfg.offsetSpace) (hpost : ∀ q ∈ post, o ≤ q.off) :
    ∃ o₁, LinkSeg (jmemDecompressPointerInternal cfg s) s (s.nextOffset cfg.firstAddr) pre o₁ ∧
      o ≤ o₁ := by
  obtain ⟨o₁, hpreL, hpostL⟩ := linkSeg_append.mp h.seg
  refine ⟨o₁, hpreL, ?_⟩
  rw [hpostL.eq_headLink]
  cases post with
  | nil => exact Nat.le_of_lt (Nat.lt_trans ho cfg.offsetSpace_lt_endOfList)
  | cons q _ => exact hpost q (List.mem_cons_self _ _)

/-- On a free list with the spec's invariant, the walk of the free path to a block offset of
the logical offset space, from `first` or from the header of any region below the block,
stops at the holder of the link after the regions below the block. -/
theorem freeWalk_of_freeListInv {pre post : List Region} (h : FreeListInv cfg s (pre ++ post))
    {o : Nat} (ho : o < cfg.offsetSpace) (hpre : ∀ q ∈ pre, q.off < o)
    (hpost : ∀ q ∈ post, o ≤ q.off) {x : Nat}
    (hx : x = cfg.firstAddr ∨ ∃ q ∈ pre, x = jmemDecompressPointerInternal cfg s q.off) :
    ∃ k, freeWalk cfg s o loopBound x 0 =
      some (holderOf (jmemDecompressPointerInternal cfg s) cfg.firstAddr pre, k) := by
  obtain ⟨o₁, hpreL, ho₁⟩ := h.le_link_after ho hpost
  have hlen : pre.length < loopBound := Nat.lt_of_le_of_lt (by simp) h.length_lt
  rcases hx with rfl | ⟨q, hq, rfl⟩
  · exact ⟨_, freeWalk_linkSeg hlen hpreL ho₁ hpre⟩
  · obtain ⟨pre₁, pre₂, rfl⟩ := List.append_of_mem hq
    obtain ⟨_, -, ⟨-, -, hpre₂⟩⟩ := linkSeg_append.mp hpreL
    rw [holderOf_append_cons]
    exact ⟨_, freeWalk_linkSeg (by simp at hlen; omega) hpre₂ ho₁
      fun q' hq' ↦ hpre q' (by simp [hq'])⟩

end Walks

/-! ## The walks in every run without a wrapped request -/

section Runs

variable {cfg : Config} {env : Env}

/-- On the static and dynamic-emulation backends, under the callback contract, in every state
reached by requests whose rounding does not wrap: the free list has the spec's invariant; the
slow path's walk, for every request, ends after one visit per region up to the first that fits,
or at `JMEM_HEAP_END_OF_LIST` after one visit per region; and the free path's walk to every
offset of the area, from `first` or from the header of any region below the offset, ends at the
holder of the link after the regions below it. Neither walk reads a header off the list. -/
theorem walks_end_of_run (hb : cfg.backend = .static ∨ cfg.backend.isDynamicEmul)
    (hc : env.CollectsLive) {size nextOffset : Nat → Nat} {rs : List Request} {e : Engine}
    (hrun : run cfg env (Engine.initial cfg env size nextOffset) rs = some e)
    (hrs : ∀ r ∈ rs, cfg.NoWrap r.allocSize) :
    ∃ L, FreeListInv cfg e.heap L ∧
      (∀ need, ((∀ q ∈ L, q.size < need) ∧
          slowSearch cfg need e.heap loopBound cfg.firstAddr (e.heap.nextOffset cfg.firstAddr) 0 =
            some (.exhausted, L.length)) ∨
        ∃ pre r post, L = pre ++ r :: post ∧ (∀ q ∈ pre, q.size < need) ∧ need ≤ r.size ∧
          slowSearch cfg need e.heap loopBound cfg.firstAddr (e.heap.nextOffset cfg.firstAddr) 0 =
            some (.found (holderOf (jmemDecompressPointerInternal cfg e.heap) cfg.firstAddr pre)
              r.off, pre.length + 1)) ∧
      ∀ o < cfg.offsetSpace, ∃ pre post, L = pre ++ post ∧ (∀ q ∈ pre, q.off < o) ∧
        (∀ q ∈ post, o ≤ q.off) ∧
        ∀ x, (x = cfg.firstAddr ∨ ∃ q ∈ pre, x = jmemDecompressPointerInternal cfg e.heap q.off) →
          ∃ k, freeWalk cfg e.heap o loopBound x 0 =
            some (holderOf (jmemDecompressPointerInternal cfg e.heap) cfg.firstAddr pre, k) := by
  obtain ⟨L, hL⟩ := exists_freeListShape_of_run hb hc hrun hrs
  have h := hL.freeListInv hb
  have hend : ∀ r ∈ L, r.off ≠ cfg.endOfList := fun r hr ↦ by
    have := h.inside r hr; have := cfg.offsetSpace_lt_endOfList; omega
  refine ⟨L, h, fun need ↦ ?_, fun o ho ↦ ?_⟩
  · simpa using @slowSearch_spec cfg e.heap need L loopBound cfg.firstAddr _ 0 h.seg hend
      h.length_lt
  · obtain ⟨pre, post, rfl, hpre, hpost⟩ := exists_split_off o h.sorted
    exact ⟨pre, post, rfl, hpre, hpost, fun x hx ↦ freeWalk_of_freeListInv h ho hpre hpost hx⟩

theorem walks_end_of_run_small :
    let cfg := Config.small .static
    ∃ e, run cfg Env.quiet (Engine.initial cfg Env.quiet (fun _ ↦ 0) (fun _ ↦ 0))
        [.allocBlock 8, .allocBlock 8, .allocBlock 8, .free ⟨4096, 8, false⟩,
          .free ⟨4104, 8, false⟩] = some e ∧
      ∃ L, FreeListInv cfg e.heap L ∧
        (∀ need, ((∀ q ∈ L, q.size < need) ∧
            slowSearch cfg need e.heap loopBound cfg.firstAddr (e.heap.nextOffset cfg.firstAddr) 0 =
              some (.exhausted, L.length)) ∨
          ∃ pre r post, L = pre ++ r :: post ∧ (∀ q ∈ pre, q.size < need) ∧ need ≤ r.size ∧
            slowSearch cfg need e.heap loopBound cfg.firstAddr (e.heap.nextOffset cfg.firstAddr) 0 =
              some (.found (holderOf (jmemDecompressPointerInternal cfg e.heap) cfg.firstAddr pre)
                r.off, pre.length + 1)) ∧
        ∀ o < cfg.offsetSpace, ∃ pre post, L = pre ++ post ∧ (∀ q ∈ pre, q.off < o) ∧
          (∀ q ∈ post, o ≤ q.off) ∧
          ∀ x, (x = cfg.firstAddr ∨ ∃ q ∈ pre, x = jmemDecompressPointerInternal cfg e.heap q.off) →
            ∃ k, freeWalk cfg e.heap o loopBound x 0 =
              some (holderOf (jmemDecompressPointerInternal cfg e.heap) cfg.firstAddr pre, k) := by
  obtain ⟨e, he⟩ := Option.isSome_iff_exists.mp (show (run (Config.small .static) Env.quiet
    (Engine.initial (Config.small .static) Env.quiet (fun _ ↦ 0) (fun _ ↦ 0))
    [.allocBlock 8, .allocBlock 8, .allocBlock 8, .free ⟨4096, 8, false⟩,
      .free ⟨4104, 8, false⟩]).isSome by decide)
  exact ⟨e, he, walks_end_of_run (.inl rfl) (fun _ _ _ ↦ List.nil_subperm) he (by decide)⟩

end Runs

/-! ## The skip pointer is only a shortcut -/

section Skip

variable (cfg : Config)

/-- The list part of the free path as the spec words it, without the skip pointer: the walk
always starts from `&first`, and the block is linked in after the header it stops at. -/
def freeInsertFromFirst (blockP blockOffset alignedSize : Nat) (s : Heap) : Option Heap := do
  let (prevP, _) ← freeWalk cfg s blockOffset loopBound cfg.firstAddr 0
  pure (freeLink cfg prevP blockP blockOffset alignedSize s)

variable {cfg} {s : Heap} {L : List Region}

/-- On a free list with the spec's invariant, with the codec faithful on its bytes and the skip
pointer at `&first` or at the header of a region, and for a block at any offset `o` of the
logical offset space: the walk to the block's predecessor stops at the holder of the link after
the regions below the block, from `&first` and from every region below the block alike; and
the list part of `jmem_heap_free_block_internal`, which starts from the skip pointer when the
block lies above it, writes the same headers and leaves the same skip pointer as the walk
from `&first` does. -/
theorem freeInsert_skip_eq_first (h : FreeListInv cfg s L) (hc : CodecFaithful cfg s L)
    (hskip : s.skip = cfg.firstAddr ∨ ∃ r ∈ L, s.skip = jmemDecompressPointerInternal cfg s r.off)
    {o : Nat} (ho : o < cfg.offsetSpace) (alignedSize : Nat) :
    ∃ pre post, L = pre ++ post ∧ (∀ q ∈ pre, q.off < o) ∧ (∀ q ∈ post, o ≤ q.off) ∧
      (∀ x, (x = cfg.firstAddr ∨ ∃ q ∈ pre, x = jmemDecompressPointerInternal cfg s q.off) →
        ∃ k, freeWalk cfg s o loopBound x 0 =
          some (holderOf (jmemDecompressPointerInternal cfg s) cfg.firstAddr pre, k)) ∧
      ∃ t t', freeInsert cfg (jmemDecompressPointerInternal cfg s o) o alignedSize s = some t ∧
        freeInsertFromFirst cfg (jmemDecompressPointerInternal cfg s o) o alignedSize s = some t' ∧
        t.size = t'.size ∧ t.nextOffset = t'.nextOffset ∧ t.skip = t'.skip := by
  obtain ⟨pre, post, rfl, hpre, hpost⟩ := exists_split_off o h.sorted
  have hwalk := fun x hx ↦ freeWalk_of_freeListInv (x := x) h ho hpre hpost hx
  refine ⟨pre, post, rfl, hpre, hpost, hwalk, ?_⟩
  -- the skip pointer the code starts from lies below the block
  have hok : (if cfg.backend = .segmented then
      decide (o > jmemCompressPointerInternal cfg s s.skip)
      else decide (jmemDecompressPointerInternal cfg s o > s.skip)) = true →
      s.skip = cfg.firstAddr ∨ ∃ q ∈ pre, s.skip = jmemDecompressPointerInternal cfg s q.off := by
    intro hb
    refine hskip.imp_right fun ⟨r, hr, hs⟩ ↦ ⟨r, ?_, hs⟩
    have hlt : r.off < o := by
      have h0 := hc.roundTrip r hr 0 (h.aligned r hr).2.2
      rw [Nat.add_zero] at h0
      split at hb
      · rw [hs, h0] at hb; simpa using hb
      · rename_i hseg
        rw [hs, decompress_of_ne_segmented cfg hseg, decompress_of_ne_segmented cfg hseg] at hb
        simp only [gt_iff_lt, decide_eq_true_eq] at hb
        omega
    rcases List.mem_append.mp hr with hr | hr
    · exact hr
    · exact absurd (hpost r hr) (Nat.not_le.mpr hlt)
  obtain ⟨k, hk⟩ := hwalk _ (.inl rfl)
  unfold freeInsert freeInsertFromFirst
  generalize (if cfg.backend = .segmented then
      decide (o > jmemCompressPointerInternal cfg s s.skip)
      else decide (jmemDecompressPointerInternal cfg s o > s.skip)) = b at hok
  -- from either start the walk ends at the same header; only the statistics differ
  obtain ⟨k', hk'⟩ := hwalk (if b then s.skip else cfg.firstAddr)
    (by cases b; exacts [.inl rfl, hok rfl])
  cases b <;>
  · simp only [Bool.false_eq_true, if_false, if_true, freeWalk_stat] at hk' ⊢
    simp only [hk', hk, Option.some_bind, Option.pure_def, Option.bind_eq_bind]
    exact ⟨_, _, rfl, rfl, by simp only [Heap.statFreeIter, freeLink_headers_stat, and_self]⟩

/-- The small static build after three one-granule blocks and the frees of the first two: the
free list is `[0, 16)` and `[24, 256)`, and the skip pointer is at the header of the first. -/
theorem exists_reachable_twoRegions :
    ∃ e, Reachable (Config.small .static) Env.quiet e ∧
      FreeListInv (Config.small .static) e.heap [⟨0, 16⟩, ⟨24, 232⟩] ∧ e.heap.skip = 4096 := by
  obtain ⟨e, he, hv⟩ := exists_reachable_of_run _ _ (show
    (run (Config.small .static) Env.quiet
      (Engine.initial (Config.small .static) Env.quiet (fun _ ↦ 0) (fun _ ↦ 0))
      [.allocBlock 8, .allocBlock 8, .allocBlock 8, .free ⟨4096, 8, false⟩,
        .free ⟨4104, 8, false⟩]).map (fun e ↦ [e.heap.nextOffset 4088, e.heap.size 4096,
          e.heap.nextOffset 4096, e.heap.size 4120, e.heap.nextOffset 4120, e.heap.size 4088,
          e.heap.skip]) = some [0, 16, 24, 232, 2 ^ 32 - 1, 0, 4096] by decide)
  simp only [List.cons.injEq, and_true] at hv
  obtain ⟨h₁, h₂, h₃, h₄, h₅, h₆, h₇⟩ := hv
  exact ⟨e, he, freeListInv_of_listSeg (by decide) ⟨h₁, h₂, h₃, h₄, h₅⟩ (by decide) (by decide)
    (by decide) h₆, h₇⟩

theorem freeInsert_skip_eq_first_small :
    ∃ e, Reachable (Config.small .static) Env.quiet e ∧
      FreeListInv (Config.small .static) e.heap [⟨0, 16⟩, ⟨24, 232⟩] ∧
      CodecFaithful (Config.small .static) e.heap [⟨0, 16⟩, ⟨24, 232⟩] ∧ e.heap.skip = 4096 ∧
      ∃ t t', freeInsert (Config.small .static)
          (jmemDecompressPointerInternal (Config.small .static) e.heap 16) 16 8 e.heap = some t ∧
        freeInsertFromFirst (Config.small .static)
          (jmemDecompressPointerInternal (Config.small .static) e.heap 16) 16 8 e.heap = some t' ∧
        t.size = t'.size ∧ t.nextOffset = t'.nextOffset ∧ t.skip = t'.skip := by
  obtain ⟨e, he, h, hskip⟩ := exists_reachable_twoRegions
  have hc : CodecFaithful (Config.small .static) e.heap [⟨0, 16⟩, ⟨24, 232⟩] :=
    codecFaithful_of_ne_segmented (by decide) (by decide)
  obtain ⟨-, -, -, -, -, -, ht⟩ := freeInsert_skip_eq_first h hc
    (.inr ⟨⟨0, 16⟩, List.mem_cons_self _ _, by rw [hskip]; rfl⟩)
    (show 16 < (Config.small .static).offsetSpace by decide) 8
  exact ⟨e, he, h, hc, hskip, ht⟩

end Skip

/-! ## A list that runs in a cycle -/

section Loops

variable {cfg : Config} {s : Heap}

/-- A header whose link lies below the block and leads back to the header itself keeps the
free path's walk going until the fuel runs out. -/
theorem freeWalk_none_of_loop {b x : Nat} (hlt : s.nextOffset x < b)
    (hx : jmemDecompressPointerInternal cfg s (s.nextOffset x) = x) :
    ∀ fuel rounds, freeWalk cfg s b fuel x rounds = none
  | 0, _ => rfl
  | fuel + 1, rounds => by
    rw [freeWalk, if_pos hlt, hx]
    exact freeWalk_none_of_loop hlt hx fuel _

/-- A region too small for the request whose header links back to the region itself keeps the
slow path's walk going until the fuel runs out. -/
theorem slowSearch_none_of_loop {requiredSize o : Nat} (hend : o ≠ cfg.endOfList)
    (hsz : s.size (jmemDecompressPointerInternal cfg s o) < requiredSize)
    (hnext : s.nextOffset (jmemDecompressPointerInternal cfg s o) = o) :
    ∀ fuel prevP visited, slowSearch cfg requiredSize s fuel prevP o visited = none
  | 0, _, _ => rfl
  | fuel + 1, prevP, visited => by
    simp only [slowSearch, hend, if_false, ge_iff_le, Nat.not_le.mpr hsz, hnext]
    exact slowSearch_none_of_loop hend hsz hnext fuel _ _

/-- On the small static build, `jmem_heap_alloc_block (8)`, `(SIZE_MAX)`, `(8)`, `(8)`, then
`jmem_heap_free_block` of the `SIZE_MAX` block and of the second 8-byte block, which have the
same address, links the region at offset `8` to itself. From then on the slow path's walk for
16 bytes and the free path's walk to the live block at offset `16` never end, and neither do
`jmem_heap_alloc_block_internal (16)` and the free of that block. -/
theorem walks_loop_after_wrap :
    ∃ e, Reachable (Config.small .static) Env.quiet e ∧ ⟨4112, 8, false⟩ ∈ e.live ∧
      e.heap.nextOffset 4088 = 8 ∧ e.heap.size 4104 = 8 ∧ e.heap.nextOffset 4104 = 8 ∧
      (∀ fuel, slowSearch (Config.small .static) 16 e.heap fuel 4088 8 0 = none) ∧
      (∀ fuel rounds, freeWalk (Config.small .static) e.heap 16 fuel 4104 rounds = none) ∧
      jmemHeapAllocBlockInternal (Config.small .static) Env.quiet 16 false e.heap = none ∧
      step (Config.small .static) Env.quiet e (.free ⟨4112, 8, false⟩) = none := by
  obtain ⟨e, he, hv⟩ := exists_reachable_of_run _ _ (show
    (run (Config.small .static) Env.quiet
      (Engine.initial (Config.small .static) Env.quiet (fun _ ↦ 0) (fun _ ↦ 0))
      [.allocBlock 8, .allocBlock (2 ^ 64 - 1), .allocBlock 8, .allocBlock 8,
        .free ⟨4104, 2 ^ 64 - 1, false⟩, .free ⟨4104, 8, false⟩]).map
      (fun e ↦ (e.heap.skip, e.live, e.heap.nextOffset 4088, e.heap.size 4104,
        e.heap.nextOffset 4104)) =
      some (4088, [⟨4096, 8, false⟩, ⟨4112, 8, false⟩], 8, 8, 8) by decide)
  simp only [Prod.mk.injEq] at hv
  obtain ⟨hskip, hlive, hfirst, hsize, hnext⟩ := hv
  have hdec : ∀ s : Heap, jmemDecompressPointerInternal (Config.small .static) s 8 = 4104 :=
    fun _ ↦ decompress_of_ne_segmented _ (by decide) _
  have hsearch : ∀ fuel prevP visited,
      slowSearch (Config.small .static) 16 e.heap fuel prevP 8 visited = none :=
    slowSearch_none_of_loop (by decide) (by rw [hdec, hsize]; decide) (by rw [hdec, hnext])
  have hwalk : ∀ fuel rounds,
      freeWalk (Config.small .static) e.heap 16 fuel 4104 rounds = none :=
    freeWalk_none_of_loop (by rw [hnext]; decide) (by rw [hnext, hdec])
  refine ⟨e, he, by rw [hlive]; decide, hfirst, hsize, hnext, fun fuel ↦ hsearch fuel _ _,
    hwalk, ?_, ?_⟩
  · have hfa : (Config.small .static).firstAddr = 4088 := rfl
    have h16 : (Config.small .static).alignUp 16 = 16 := by decide
    have hA : (Config.small .static).alignment = 8 := rfl
    have hb : (Config.small .static).backend = .static := rfl
    simp only [jmemHeapAllocBlockInternal, allocFastOrSlow, jmemHeapAllocBlockInternalSlow, h16,
      hfa, hfirst, hsearch, hA, hb, reduceCtorEq, if_false, Nat.reduceEqDiff, false_and,
      Option.bind_eq_bind, Option.none_bind]
  · have hb : (Config.small .static).backend = .static := rfl
    have hc : ∀ s : Heap, jmemCompressPointerInternal (Config.small .static) s 4112 = 16 :=
      fun _ ↦ rfl
    have hfree : ∀ fuel, freeWalk (Config.small .static) e.heap 16 fuel 4088 0 = none
      | 0 => rfl
      | fuel + 1 => by rw [freeWalk, if_pos (by rw [hfirst]; decide), hfirst, hdec]; exact hwalk _ _
    rw [step_free, if_pos (by rw [hlive]; decide)]
    simp [jmemHeapFreeBlockInternal, freeInsert, hb, hc, hskip, Heap.statFreeIter, freeWalk_stat,
      hfree]

end Loops

end JmemHeap
