import JmemHeap.Shape
import JmemHeap.Segments
import JmemHeap.Occupancy

/-!
# The free list on every backend

`ListSeg` reads the free list of a contiguous backend, where the header of offset `o` is at
`areaBase + o`. On the segmented backend the header of `o` is where the codec puts it,
`JERRY_HEAP_CONTEXT (area[o / SEG_SEGMENT_SIZE]) + o % SEG_SEGMENT_SIZE`. `LinkSeg` reads a
stretch of the list with any placement of the headers, `addr`; with `addr` the codec's
decompression it is the free list of every backend, and with `areaBase + ·` it is `ListSeg`
(`listSeg_iff_linkSeg`).

`FreeListInv` is the spec's invariant of the free list, on every backend that has one: the
regions read from `first.next_offset` are in address order, none touching the next, each a
positive number of whole granules inside the logical offset space, and the sentinel has size
`0`. Two further facts are about the codec, not the list:

* `CodecFaithful`: compression undoes decompression on the bytes of the free regions (the
  spec's round-trip law), and none of them is `&first` or `NULL`;
* `HostContiguous`: every free region is one stretch of host memory, which
  `jmem_heap_get_region_end` and the slow path's `(uint8_t *) current_p + required_size` take
  it to be.

Both hold on the contiguous backends, and `CodecFaithful` holds on the segmented backend when
the attached segments lie in disjoint memory away from `first`. A region of the segmented
backend that runs from one segment into the next is one stretch of host memory only when the
two segments' memory is adjacent.
-/

namespace JmemHeap

open Region

/-- The logical offset space: the area on the contiguous backends,
`SEG_SEGMENT_SIZE * SEG_NUM_SEGMENTS` bytes on the segmented one. -/
def Config.offsetSpace (cfg : Config) : Nat :=
  if cfg.backend = .segmented then cfg.segmentSize * cfg.numSegments else cfg.areaSize

theorem Config.offsetSpace_lt_endOfList (cfg : Config) : cfg.offsetSpace < cfg.endOfList := by
  unfold Config.offsetSpace
  split
  · exact cfg.segments_lt_endOfList
  · exact cfg.areaSize_lt_endOfList

/-! ## A stretch of the list, wherever the headers are -/

section Seg

variable (addr : Nat → Nat)

/-- Following links from `o`, with the header of the region at offset `x` at host address
`addr x`, visits the regions `L`, in order, and arrives at the link `o'`. -/
def LinkSeg (s : Heap) : Nat → List Region → Nat → Prop
  | o, [], o' => o = o'
  | o, r :: L, o' => o = r.off ∧ s.size (addr r.off) = r.size ∧
      LinkSeg s (s.nextOffset (addr r.off)) L o'

/-- The header that holds the link after the regions `pre`, visited from the header `h`. -/
def holderOf (h : Nat) (pre : List Region) : Nat :=
  match pre.getLast? with
  | none => h
  | some q => addr q.off

variable {addr} {s t : Heap}

@[simp] theorem linkSeg_nil {o o' : Nat} : LinkSeg addr s o [] o' ↔ o = o' := Iff.rfl

@[simp] theorem linkSeg_cons {o o' : Nat} {r : Region} {L : List Region} :
    LinkSeg addr s o (r :: L) o' ↔ o = r.off ∧ s.size (addr r.off) = r.size ∧
      LinkSeg addr s (s.nextOffset (addr r.off)) L o' := Iff.rfl

theorem linkSeg_append {L₁ L₂ : List Region} :
    ∀ {o o''}, LinkSeg addr s o (L₁ ++ L₂) o'' ↔
      ∃ o', LinkSeg addr s o L₁ o' ∧ LinkSeg addr s o' L₂ o'' := by
  induction L₁ with
  | nil => simp
  | cons r L₁ ih => simp [ih, and_assoc]

theorem linkSeg_snoc {L : List Region} {q : Region} {o o' : Nat} :
    LinkSeg addr s o (L ++ [q]) o' ↔ LinkSeg addr s o L q.off ∧
      s.size (addr q.off) = q.size ∧ s.nextOffset (addr q.off) = o' := by
  simp only [linkSeg_append, linkSeg_cons, linkSeg_nil]
  constructor
  · rintro ⟨_, h, rfl, hs, hn⟩; exact ⟨h, hs, hn⟩
  · rintro ⟨h, hs, hn⟩; exact ⟨_, h, rfl, hs, hn⟩

/-- A stretch reads the same from a heap that agrees on its headers. -/
theorem LinkSeg.congr :
    ∀ {L : List Region} {o o'}, LinkSeg addr s o L o' →
      (∀ r ∈ L, t.size (addr r.off) = s.size (addr r.off) ∧
        t.nextOffset (addr r.off) = s.nextOffset (addr r.off)) →
      LinkSeg addr t o L o'
  | [], _, _, h, _ => h
  | r :: L, _, _, ⟨ho, hs, hL⟩, ht => by
    obtain ⟨h₁, h₂⟩ := ht r (List.mem_cons_self r L)
    exact ⟨ho, h₁.trans hs, h₂ ▸ hL.congr fun r' hr' ↦ ht r' (List.mem_cons_of_mem r hr')⟩

theorem LinkSeg.setSize {L : List Region} {o o' w n : Nat} (h : LinkSeg addr s o L o')
    (hw : ∀ r ∈ L, addr r.off ≠ w) : LinkSeg addr (s.setSize w n) o L o' :=
  h.congr fun r hr ↦ ⟨by simp [hw r hr], rfl⟩

theorem LinkSeg.setNext {L : List Region} {o o' w n : Nat} (h : LinkSeg addr s o L o')
    (hw : ∀ r ∈ L, addr r.off ≠ w) : LinkSeg addr (s.setNext w n) o L o' :=
  h.congr fun r hr ↦ ⟨rfl, by simp [hw r hr]⟩

/-- The same stretch, read from a heap with the same headers and from an equal start. -/
theorem LinkSeg.of_eq {L : List Region} {o o₂ o' : Nat} (h : LinkSeg addr s o L o')
    (hs : t.size = s.size) (hn : t.nextOffset = s.nextOffset) (ho : o₂ = o) :
    LinkSeg addr t o₂ L o' :=
  ho ▸ h.congr fun _ _ ↦ ⟨by rw [hs], by rw [hn]⟩

/-- The same stretch, with the headers placed by a map that agrees on its regions. -/
theorem LinkSeg.of_addr {addr' : Nat → Nat} :
    ∀ {L : List Region} {o o'}, LinkSeg addr s o L o' → (∀ r ∈ L, addr' r.off = addr r.off) →
      LinkSeg addr' s o L o'
  | [], _, _, h, _ => h
  | r :: L, _, _, ⟨ho, hs, hL⟩, ha => by
    have hr := ha r (List.mem_cons_self r L)
    exact ⟨ho, hr ▸ hs, hr ▸ hL.of_addr fun r' hr' ↦ ha r' (List.mem_cons_of_mem r hr')⟩

theorem LinkSeg.eq_headLink {cfg : Config} {o : Nat} {L : List Region}
    (h : LinkSeg addr s o L cfg.endOfList) : o = headLink cfg L := by
  cases L with
  | nil => exact h
  | cons r L => exact h.1

theorem holderOf_nil (h : Nat) : holderOf addr h [] = h := rfl

theorem holderOf_snoc (h : Nat) (pre : List Region) (q : Region) :
    holderOf addr h (pre ++ [q]) = addr q.off := by
  simp [holderOf]

theorem holderOf_cons (h : Nat) (q : Region) (pre : List Region) :
    holderOf addr h (q :: pre) = holderOf addr (addr q.off) pre := by
  rcases List.eq_nil_or_concat pre with rfl | ⟨L, q', rfl⟩
  · rfl
  · rw [List.concat_eq_append, ← List.cons_append, holderOf_snoc, holderOf_snoc]

theorem holderOf_append_cons (h : Nat) (q : Region) (pre₂ : List Region) :
    ∀ pre₁ : List Region,
      holderOf addr h (pre₁ ++ q :: pre₂) = holderOf addr (addr q.off) pre₂
  | [] => holderOf_cons h q pre₂
  | r :: pre₁ => by rw [List.cons_append, holderOf_cons, holderOf_append_cons]

/-- The holder of a link is the header it starts from or the header of one of the regions. -/
theorem holderOf_cases (h : Nat) (pre : List Region) :
    holderOf addr h pre = h ∨ ∃ q ∈ pre, holderOf addr h pre = addr q.off := by
  rcases List.eq_nil_or_concat pre with rfl | ⟨L, q, rfl⟩
  · exact .inl rfl
  · rw [List.concat_eq_append, holderOf_snoc]
    exact .inr ⟨q, by simp, rfl⟩

/-- The holder of the link after `pre` holds the link the stretch arrives at. -/
theorem LinkSeg.nextOffset_holderOf {pre : List Region} {h o' : Nat}
    (hL : LinkSeg addr s (s.nextOffset h) pre o') : s.nextOffset (holderOf addr h pre) = o' := by
  rcases List.eq_nil_or_concat pre with rfl | ⟨L, q, rfl⟩
  · exact hL
  · rw [List.concat_eq_append] at hL ⊢
    rw [holderOf_snoc]
    exact (linkSeg_snoc.mp hL).2.2

/-- Relinking the holder of the link after `pre` keeps the stretch through `pre`, which then
arrives at the new link, when the headers of `pre` are apart from each other and from `h`. -/
theorem LinkSeg.setNext_holderOf {pre : List Region} {h o' v : Nat}
    (hL : LinkSeg addr s (s.nextOffset h) pre o') (hh : ∀ r ∈ pre, addr r.off ≠ h)
    (hinj : pre.Pairwise fun r q ↦ addr r.off ≠ addr q.off) :
    LinkSeg addr (s.setNext (holderOf addr h pre) v)
      ((s.setNext (holderOf addr h pre) v).nextOffset h) pre v := by
  rcases List.eq_nil_or_concat pre with rfl | ⟨L, q, rfl⟩
  · simp [holderOf_nil]
  · rw [List.concat_eq_append] at hL hh hinj ⊢
    rw [holderOf_snoc]
    obtain ⟨hL, hsz, -⟩ := linkSeg_snoc.mp hL
    have hq : h ≠ addr q.off := (hh q (by simp)).symm
    have hne : ∀ r ∈ L, addr r.off ≠ addr q.off := fun r hr ↦
      (List.pairwise_append.mp hinj).2.2 r hr q (by simp)
    refine linkSeg_snoc.mpr ⟨?_, by simpa using hsz, by simp⟩
    simp only [Heap.nextOffset_setNext, hq, if_false]
    exact hL.setNext hne

end Seg

/-- On the contiguous layout `LinkSeg` is `ListSeg`. -/
theorem listSeg_iff_linkSeg {cfg : Config} {s : Heap} {L : List Region} :
    ∀ {o o'}, ListSeg cfg s o L o' ↔ LinkSeg (cfg.areaBase + ·) s o L o' := by
  induction L with
  | nil => exact Iff.rfl
  | cons r L ih => simp only [listSeg_cons, linkSeg_cons, ih, implies_true]

theorem linkHolder_eq_holderOf {cfg : Config} (h : Nat) (pre : List Region) :
    linkHolder cfg h pre = holderOf (cfg.areaBase + ·) h pre := rfl

/-! ## The invariant and the codec -/

section Inv

variable (cfg : Config)

/-- The spec's invariant of the free list, on every backend that has one: following links from
`first.next_offset`, each decompressed by the codec, visits the regions `L` and arrives at
`JMEM_HEAP_END_OF_LIST`; the regions are in address order with no two touching, each is a
positive number of whole granules inside the logical offset space, and `first.size` is `0`. -/
structure FreeListInv (s : Heap) (L : List Region) : Prop where
  seg : LinkSeg (jmemDecompressPointerInternal cfg s) s (s.nextOffset cfg.firstAddr) L
    cfg.endOfList
  sorted : L.Pairwise Before
  aligned : ∀ r ∈ L, cfg.alignment ∣ r.off ∧ cfg.alignment ∣ r.size ∧ 0 < r.size
  inside : ∀ r ∈ L, r.off + r.size ≤ cfg.offsetSpace
  firstSize : s.size cfg.firstAddr = 0

/-- The codec on the bytes of the free regions `L`: compression undoes decompression there (the
spec's round-trip law), and no free byte decompresses to `&first` or to `NULL`. -/
structure CodecFaithful (s : Heap) (L : List Region) : Prop where
  roundTrip : ∀ r ∈ L, ∀ k < r.size,
    jmemCompressPointerInternal cfg s (jmemDecompressPointerInternal cfg s (r.off + k)) = r.off + k
  ne_first : ∀ r ∈ L, ∀ k < r.size, jmemDecompressPointerInternal cfg s (r.off + k) ≠ cfg.firstAddr
  ne_zero : ∀ r ∈ L, jmemDecompressPointerInternal cfg s r.off ≠ 0

/-- Every free region is one stretch of host memory: its byte `k` is `k` bytes after its
header. -/
def HostContiguous (s : Heap) (L : List Region) : Prop :=
  ∀ r ∈ L, ∀ k < r.size,
    jmemDecompressPointerInternal cfg s (r.off + k) = jmemDecompressPointerInternal cfg s r.off + k

end Inv

section Codec

variable {cfg : Config} {s : Heap} {L : List Region}

/-- On the free bytes the codec is one to one. -/
theorem CodecFaithful.inj (hc : CodecFaithful cfg s L) {r q : Region} (hr : r ∈ L) (hq : q ∈ L)
    {k j : Nat} (hk : k < r.size) (hj : j < q.size)
    (h : jmemDecompressPointerInternal cfg s (r.off + k) =
      jmemDecompressPointerInternal cfg s (q.off + j)) : r.off + k = q.off + j := by
  rw [← hc.roundTrip r hr k hk, ← hc.roundTrip q hq j hj, h]

theorem codecFaithful_of_ne_segmented (hseg : cfg.backend ≠ .segmented)
    (hin : ∀ r ∈ L, r.off + r.size < 2 ^ 32) : CodecFaithful cfg s L := by
  have hfa := cfg.firstAddr_lt
  refine ⟨fun r hr k hk ↦ ?_, fun r _ k _ ↦ ?_, fun r _ ↦ ?_⟩ <;>
    rw [decompress_of_ne_segmented cfg hseg]
  · exact compress_of_ne_segmented cfg hseg (by have := hin r hr; omega)
  · omega
  · omega

theorem hostContiguous_of_ne_segmented (hseg : cfg.backend ≠ .segmented) :
    HostContiguous cfg s L := fun _ _ _ _ ↦ by
  rw [decompress_of_ne_segmented cfg hseg, decompress_of_ne_segmented cfg hseg, Nat.add_assoc]

/-- On the segmented backend a region inside one segment is one stretch of host memory. -/
theorem hostContiguous_of_segment (hseg : cfg.backend = .segmented)
    (h : ∀ r ∈ L, ∀ k < r.size, (r.off + k) / cfg.segmentSize = r.off / cfg.segmentSize) :
    HostContiguous cfg s L := fun r hr k hk ↦ by
  simp only [jmemDecompressPointerInternal, hseg, if_true]
  exact segmentedDecompress_add (h r hr k hk)

/-- Compression reads the segment table only. -/
theorem compress_congr {t : Heap} (ha : t.area = s.area) (hal : t.allocated = s.allocated)
    (p : Nat) : jmemCompressPointerInternal cfg t p = jmemCompressPointerInternal cfg s p := by
  simp only [jmemCompressPointerInternal, segmentedCompressPointer, ha, hal]

/-- The invariant, the codec's faithfulness and host contiguity read the headers and the segment
table only: a heap that agrees with `s` on them keeps them. -/
theorem FreeListInv.congr {t : Heap} (h : FreeListInv cfg s L) (hs : t.size = s.size)
    (hn : t.nextOffset = s.nextOffset) (ha : t.area = s.area) : FreeListInv cfg t L :=
  ⟨(h.seg.of_eq hs hn (by rw [hn])).of_addr fun _ _ ↦ decompress_congr cfg ha _, h.sorted,
    h.aligned, h.inside, by rw [hs]; exact h.firstSize⟩

theorem CodecFaithful.congr {t : Heap} (hc : CodecFaithful cfg s L) (ha : t.area = s.area)
    (hal : t.allocated = s.allocated) : CodecFaithful cfg t L := by
  have hd := decompress_congr cfg ha
  refine ⟨fun r hr k hk ↦ ?_, fun r hr k hk ↦ ?_, fun r hr ↦ ?_⟩ <;>
    simp only [hd, compress_congr ha hal]
  exacts [hc.roundTrip r hr k hk, hc.ne_first r hr k hk, hc.ne_zero r hr]

theorem HostContiguous.congr {t : Heap} (hh : HostContiguous cfg s L) (ha : t.area = s.area) :
    HostContiguous cfg t L := fun r hr k hk ↦ by
  simp only [decompress_congr cfg ha]
  exact hh r hr k hk

end Codec

/-! ## The contiguous backends -/

/-- Off the segmented backend the invariant is the list read through `area + cp`, with its
regions inside the area. -/
theorem freeListInv_of_listSeg {cfg : Config} {s : Heap} {L : List Region}
    (hseg : cfg.backend ≠ .segmented)
    (hL : ListSeg cfg s (s.nextOffset cfg.firstAddr) L cfg.endOfList) (hsorted : L.Pairwise Before)
    (haligned : ∀ r ∈ L, cfg.alignment ∣ r.off ∧ cfg.alignment ∣ r.size ∧ 0 < r.size)
    (hin : ∀ r ∈ L, r.off + r.size ≤ cfg.areaSize) (hfirst : s.size cfg.firstAddr = 0) :
    FreeListInv cfg s L :=
  ⟨(listSeg_iff_linkSeg.mp hL).of_addr fun _ _ ↦ decompress_of_ne_segmented cfg hseg _, hsorted,
    haligned, fun r hr ↦ by simpa [Config.offsetSpace, hseg] using hin r hr, hfirst⟩

/-- On the static and dynamic-emulation backends the shape of the memory gives the spec's
invariant of the free list. -/
theorem FreeListShape.freeListInv {cfg : Config} {s : Heap} {live : List Block} {L : List Region}
    (hb : cfg.backend = .static ∨ cfg.backend.isDynamicEmul) (h : FreeListShape cfg s live L) :
    FreeListInv cfg s L :=
  freeListInv_of_listSeg (ne_of_contiguous hb).2 h.seg h.sorted h.aligned (fun _ ↦ h.end_le)
    h.firstSize

end JmemHeap
