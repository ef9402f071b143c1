import JmemHeap.Regions

/-!
# The free list in memory

On the contiguous backends (static and dynamic emulation) the free region at offset `o` has
its `jmem_heap_free_t` header at host address `areaBase + o`, and a link is the offset of the
next region or `JMEM_HEAP_END_OF_LIST`. `ListSeg` reads a stretch of the list out of the two
header maps: following links from an offset through the headers of the regions `L`, in
order, one arrives at a given link. The free list is the stretch from `first.next_offset` to
`JMEM_HEAP_END_OF_LIST`.

The two walks of `jmem-heap.c` are specified against such a stretch: the first-fit walk of
the slow path stops at the first region large enough, and the walk of the free path stops at
the last region below the freed block, whichever header it starts from.
-/

namespace JmemHeap

/-! ## `uint32_t` arithmetic on offsets

Offsets and sizes of regions stay below `JMEM_HEAP_END_OF_LIST < 2 ^ 32`, so the `uint32_t`
arithmetic of the source is exact on them. -/

theorem u32_of_lt {x : Nat} (h : x < 2 ^ 32) : u32 x = x := Nat.mod_eq_of_lt h

theorem u32Sub_of_le {a b : Nat} (hb : b ≤ a) (ha : a < 2 ^ 32) : u32Sub a b = a - b := by
  unfold u32Sub; omega

/-! ## What the list surgery reads

The free-list code reads and writes the two header maps and the skip pointer; the counters,
the statistics and the occupancy are other fields. -/

namespace Heap

variable (s : Heap) (p q n : Nat)

@[simp] theorem size_setSize : (s.setSize p n).size q = if q = p then n else s.size q := rfl
@[simp] theorem nextOffset_setSize : (s.setSize p n).nextOffset = s.nextOffset := rfl
@[simp] theorem skip_setSize : (s.setSize p n).skip = s.skip := rfl
@[simp] theorem size_setNext : (s.setNext p n).size = s.size := rfl
@[simp] theorem nextOffset_setNext :
    (s.setNext p n).nextOffset q = if q = p then n else s.nextOffset q := rfl
@[simp] theorem skip_setNext : (s.setNext p n).skip = s.skip := rfl

variable (cfg : Config) (f : Stats → Stats) (k : Nat) (small : Bool)

@[simp] theorem size_stat : (s.stat cfg f).size = s.size := by unfold stat; split <;> rfl
@[simp] theorem nextOffset_stat : (s.stat cfg f).nextOffset = s.nextOffset := by
  unfold stat; split <;> rfl
@[simp] theorem skip_stat : (s.stat cfg f).skip = s.skip := by unfold stat; split <;> rfl
@[simp] theorem size_statAllocIter : (s.statAllocIter cfg k).size = s.size := size_stat ..
@[simp] theorem nextOffset_statAllocIter : (s.statAllocIter cfg k).nextOffset = s.nextOffset :=
  nextOffset_stat ..
@[simp] theorem skip_statAllocIter : (s.statAllocIter cfg k).skip = s.skip := skip_stat ..
@[simp] theorem size_statFreeIter : (s.statFreeIter cfg k).size = s.size := size_stat ..
@[simp] theorem nextOffset_statFreeIter : (s.statFreeIter cfg k).nextOffset = s.nextOffset :=
  nextOffset_stat ..
@[simp] theorem skip_statFreeIter : (s.statFreeIter cfg k).skip = s.skip := skip_stat ..
@[simp] theorem size_recordAlloc : (s.recordAlloc cfg n small).size = s.size := rfl
@[simp] theorem nextOffset_recordAlloc : (s.recordAlloc cfg n small).nextOffset = s.nextOffset :=
  rfl
@[simp] theorem skip_recordAlloc : (s.recordAlloc cfg n small).skip = s.skip := rfl

end Heap

/-- Off the segmented backend the occupancy update does nothing. -/
theorem updateOccupancy_of_ne_segmented {cfg : Config} (hseg : cfg.backend ≠ .segmented)
    (s : Heap) (add : Bool) (o n : Nat) : s.updateOccupancy cfg add o n = some s := by
  simp [Heap.updateOccupancy, hseg]

section Seg

variable (cfg : Config)

/-- Following links from `o` through the headers in memory visits the regions `L`, in order,
and arrives at the link `o'`. -/
def ListSeg (s : Heap) : Nat → List Region → Nat → Prop
  | o, [], o' => o = o'
  | o, r :: L, o' => o = r.off ∧ s.size (cfg.areaBase + r.off) = r.size ∧
      ListSeg s (s.nextOffset (cfg.areaBase + r.off)) L o'

/-- The link that reaches the first of the regions `L`, `JMEM_HEAP_END_OF_LIST` when there is
none. -/
def headLink : List Region → Nat
  | [] => cfg.endOfList
  | r :: _ => r.off

/-- The header whose `next_offset` holds the link after the regions `pre`, visited from the
header `h`: `h` itself when `pre` is empty, the header of the last region of `pre` otherwise. -/
def linkHolder (h : Nat) (pre : List Region) : Nat :=
  match pre.getLast? with
  | none => h
  | some q => cfg.areaBase + q.off

variable {cfg}

@[simp] theorem listSeg_nil {s : Heap} {o o' : Nat} : ListSeg cfg s o [] o' ↔ o = o' := Iff.rfl

@[simp] theorem listSeg_cons {s : Heap} {o o' : Nat} {r : Region} {L : List Region} :
    ListSeg cfg s o (r :: L) o' ↔ o = r.off ∧ s.size (cfg.areaBase + r.off) = r.size ∧
      ListSeg cfg s (s.nextOffset (cfg.areaBase + r.off)) L o' := Iff.rfl

theorem listSeg_append {s : Heap} {L₁ L₂ : List Region} :
    ∀ {o o''}, ListSeg cfg s o (L₁ ++ L₂) o'' ↔ ∃ o', ListSeg cfg s o L₁ o' ∧ ListSeg cfg s o' L₂ o'' := by
  induction L₁ with
  | nil => simp
  | cons r L₁ ih => simp [ih, and_assoc]

theorem listSeg_snoc {s : Heap} {L : List Region} {q : Region} {o o' : Nat} :
    ListSeg cfg s o (L ++ [q]) o' ↔ ListSeg cfg s o L q.off ∧
      s.size (cfg.areaBase + q.off) = q.size ∧ s.nextOffset (cfg.areaBase + q.off) = o' := by
  simp only [listSeg_append, listSeg_cons, listSeg_nil]
  constructor
  · rintro ⟨_, h, rfl, hs, hn⟩; exact ⟨h, hs, hn⟩
  · rintro ⟨h, hs, hn⟩; exact ⟨_, h, rfl, hs, hn⟩

/-- A stretch read from memory reads the same from a heap that agrees on its headers. -/
theorem ListSeg.congr {s t : Heap} :
    ∀ {L : List Region} {o o'}, ListSeg cfg s o L o' →
      (∀ r ∈ L, t.size (cfg.areaBase + r.off) = s.size (cfg.areaBase + r.off) ∧
        t.nextOffset (cfg.areaBase + r.off) = s.nextOffset (cfg.areaBase + r.off)) →
      ListSeg cfg t o L o'
  | [], _, _, h, _ => h
  | r :: L, _, _, ⟨ho, hs, hL⟩, ht => by
    obtain ⟨h₁, h₂⟩ := ht r (List.mem_cons_self r L)
    exact ⟨ho, h₁.trans hs, h₂ ▸ hL.congr fun r' hr' ↦ ht r' (List.mem_cons_of_mem r hr')⟩

theorem ListSeg.setSize {s : Heap} {L : List Region} {o o' w n : Nat} (h : ListSeg cfg s o L o')
    (hw : ∀ r ∈ L, cfg.areaBase + r.off ≠ w) : ListSeg cfg (s.setSize w n) o L o' :=
  h.congr fun r hr ↦ ⟨by simp [Heap.setSize, hw r hr], rfl⟩

theorem ListSeg.setNext {s : Heap} {L : List Region} {o o' w n : Nat} (h : ListSeg cfg s o L o')
    (hw : ∀ r ∈ L, cfg.areaBase + r.off ≠ w) : ListSeg cfg (s.setNext w n) o L o' :=
  h.congr fun r hr ↦ ⟨rfl, by simp [Heap.setNext, hw r hr]⟩

theorem ListSeg.of_headers {s t : Heap} {L : List Region} {o o' : Nat} (h : ListSeg cfg s o L o')
    (hs : t.size = s.size) (hn : t.nextOffset = s.nextOffset) : ListSeg cfg t o L o' :=
  h.congr fun _ _ ↦ ⟨by rw [hs], by rw [hn]⟩

/-- The same stretch, read from a heap with the same headers and from an equal start. -/
theorem ListSeg.of_eq {s t : Heap} {L : List Region} {o o₂ o' : Nat} (h : ListSeg cfg s o L o')
    (hs : t.size = s.size) (hn : t.nextOffset = s.nextOffset) (ho : o₂ = o) :
    ListSeg cfg t o₂ L o' :=
  ho ▸ h.of_headers hs hn

theorem linkHolder_nil (h : Nat) : linkHolder cfg h [] = h := rfl

theorem linkHolder_snoc (h : Nat) (pre : List Region) (q : Region) :
    linkHolder cfg h (pre ++ [q]) = cfg.areaBase + q.off := by
  simp [linkHolder]

/-- The holder of the link after `pre` holds the link the stretch arrives at. -/
theorem ListSeg.nextOffset_linkHolder {s : Heap} {pre : List Region} {h o' : Nat}
    (hL : ListSeg cfg s (s.nextOffset h) pre o') : s.nextOffset (linkHolder cfg h pre) = o' := by
  rcases List.eq_nil_or_concat pre with rfl | ⟨L, q, rfl⟩
  · exact hL
  · rw [List.concat_eq_append] at hL ⊢
    rw [linkHolder_snoc]
    exact (listSeg_snoc.mp hL).2.2

theorem linkHolder_cons (h : Nat) (q : Region) (pre : List Region) :
    linkHolder cfg h (q :: pre) = linkHolder cfg (cfg.areaBase + q.off) pre := by
  rcases List.eq_nil_or_concat pre with rfl | ⟨L, q', rfl⟩
  · rfl
  · rw [List.concat_eq_append, ← List.cons_append, linkHolder_snoc, linkHolder_snoc]

theorem linkHolder_append_cons (h : Nat) (q : Region) (pre₂ : List Region) :
    ∀ pre₁ : List Region,
      linkHolder cfg h (pre₁ ++ q :: pre₂) = linkHolder cfg (cfg.areaBase + q.off) pre₂
  | [] => linkHolder_cons h q pre₂
  | r :: pre₁ => by rw [List.cons_append, linkHolder_cons, linkHolder_append_cons]

/-- The holder of a link is the header it starts from or the header of one of the regions. -/
theorem linkHolder_cases (h : Nat) (pre : List Region) :
    linkHolder cfg h pre = h ∨ ∃ q ∈ pre, linkHolder cfg h pre = cfg.areaBase + q.off := by
  rcases List.eq_nil_or_concat pre with rfl | ⟨L, q, rfl⟩
  · exact .inl rfl
  · rw [List.concat_eq_append, linkHolder_snoc]
    exact .inr ⟨q, by simp, rfl⟩

theorem ListSeg.eq_headLink {s : Heap} {o : Nat} {L : List Region}
    (h : ListSeg cfg s o L cfg.endOfList) : o = headLink cfg L := by
  cases L with
  | nil => exact h
  | cons r L => exact h.1

/-- Relinking the holder of the link after `pre` keeps the stretch through `pre`, which then
arrives at the new link. -/
theorem ListSeg.setNext_linkHolder {s : Heap} {pre : List Region} {h o' v : Nat}
    (hL : ListSeg cfg s (s.nextOffset h) pre o') (hh : ∀ r ∈ pre, cfg.areaBase + r.off ≠ h)
    (hsorted : pre.Pairwise Region.Before) :
    ListSeg cfg (s.setNext (linkHolder cfg h pre) v)
      ((s.setNext (linkHolder cfg h pre) v).nextOffset h) pre v := by
  rcases List.eq_nil_or_concat pre with rfl | ⟨L, q, rfl⟩
  · simp [linkHolder_nil]
  · rw [List.concat_eq_append] at hL hh hsorted ⊢
    rw [linkHolder_snoc]
    obtain ⟨hL, hsz, -⟩ := listSeg_snoc.mp hL
    have hq : h ≠ cfg.areaBase + q.off := (hh q (by simp)).symm
    have hne : ∀ r ∈ L, cfg.areaBase + r.off ≠ cfg.areaBase + q.off := fun r hr ↦ by
      have := (List.pairwise_append.mp hsorted).2.2 r hr q (by simp)
      unfold Region.Before at this
      omega
    refine listSeg_snoc.mpr ⟨?_, by simpa using hsz, by simp⟩
    simp only [Heap.nextOffset_setNext, hq, if_false]
    exact hL.setNext hne

end Seg

/-! ## The two walks -/

section Walks

variable {cfg : Config} {s : Heap}

/-- The first-fit walk of the slow path, on a stretch that ends the list, stops at the first
region of at least `requiredSize` bytes, linked from the holder of the regions before it. -/
theorem slowSearch_found (hseg : cfg.backend ≠ .segmented) :
    ∀ {L : List Region} {fuel prevP o visited prevP' o' v},
      ListSeg cfg s o L cfg.endOfList → (∀ r ∈ L, r.off ≠ cfg.endOfList) →
      slowSearch cfg requiredSize s fuel prevP o visited = some (.found prevP' o', v) →
      ∃ pre r post, L = pre ++ r :: post ∧ (∀ q ∈ pre, q.size < requiredSize) ∧
        requiredSize ≤ r.size ∧ o' = r.off ∧ prevP' = linkHolder cfg prevP pre
  | [], fuel, _, o, _, _, _, _, hL, _, h => by
    cases fuel with
    | zero => cases h
    | succ fuel =>
      simp only [listSeg_nil] at hL
      simp [slowSearch, hL] at h
  | r :: L, fuel, prevP, o, _, _, _, _, ⟨ho, hsz, hL⟩, hend, h => by
    subst ho
    cases fuel with
    | zero => cases h
    | succ fuel =>
      simp only [slowSearch, hend r (List.mem_cons_self r L), if_false,
        decompress_of_ne_segmented cfg hseg, hsz] at h
      split at h
      · obtain ⟨rfl, rfl⟩ := (SlowSearch.found.injEq _ _ _ _).mp (Prod.mk.inj (Option.some.inj h)).1
        exact ⟨[], r, L, rfl, by simp, ‹_›, rfl, rfl⟩
      · obtain ⟨pre, r', post, rfl, hpre, hr', rfl, rfl⟩ :=
          slowSearch_found hseg hL (fun q hq ↦ hend q (List.mem_cons_of_mem r hq)) h
        refine ⟨r :: pre, r', post, rfl, ?_, hr', rfl, (linkHolder_cons _ _ _).symm⟩
        simp only [List.mem_cons, forall_eq_or_imp]
        exact ⟨by omega, hpre⟩

/-- The first-fit walk finds nothing only when every region is too small. -/
theorem slowSearch_exhausted (hseg : cfg.backend ≠ .segmented) :
    ∀ {L : List Region} {fuel prevP o visited v},
      ListSeg cfg s o L cfg.endOfList → (∀ r ∈ L, r.off ≠ cfg.endOfList) →
      slowSearch cfg requiredSize s fuel prevP o visited = some (.exhausted, v) →
      ∀ q ∈ L, q.size < requiredSize
  | [], _, _, _, _, _, _, _, _ => by simp
  | r :: L, fuel, prevP, o, _, _, ⟨ho, hsz, hL⟩, hend, h => by
    subst ho
    cases fuel with
    | zero => cases h
    | succ fuel =>
      simp only [slowSearch, hend r (List.mem_cons_self r L), if_false,
        decompress_of_ne_segmented cfg hseg, hsz] at h
      split at h
      · cases h
      · simp only [List.mem_cons, forall_eq_or_imp]
        exact ⟨by omega, slowSearch_exhausted hseg hL
          (fun q hq ↦ hend q (List.mem_cons_of_mem r hq)) h⟩

/-- The walk of the free path, from a header whose stretch runs through the regions `pre`
below the block and then reaches a link at or above it, stops at the holder of the link after
`pre`, after one round per region of `pre`. -/
theorem freeWalk_eq (hseg : cfg.backend ≠ .segmented) {blockOffset o' : Nat} :
    ∀ {pre : List Region} {fuel h rounds}, pre.length < fuel →
      ListSeg cfg s (s.nextOffset h) pre o' → blockOffset ≤ o' →
      (∀ q ∈ pre, q.off < blockOffset) →
      freeWalk cfg s blockOffset fuel h rounds = some (linkHolder cfg h pre, rounds + pre.length)
  | [], fuel + 1, h, rounds, _, hL, ho', _ => by
    simp only [listSeg_nil] at hL
    simp [freeWalk, hL, ho', Nat.not_lt.mpr ho', linkHolder_nil]
  | q :: pre, fuel + 1, h, rounds, hfuel, ⟨hq, hsz, hL⟩, ho', hlt => by
    have hq' : q.off < blockOffset := hlt q (List.mem_cons_self q pre)
    simp only [freeWalk, hq, hq', if_true, decompress_of_ne_segmented cfg hseg]
    rw [freeWalk_eq hseg (by simp at hfuel; omega) hL ho'
      (fun q' hq' ↦ hlt q' (List.mem_cons_of_mem q hq')), linkHolder_cons]
    simp [Nat.add_assoc, Nat.add_comm 1]

/-- The walk of the free path, from `first` or from the header of a region below the block,
stops at the holder of the link after the regions `pre` below the block. -/
theorem freeWalk_from (hseg : cfg.backend ≠ .segmented) {pre post : List Region} {o h : Nat}
    (hL : ListSeg cfg s (s.nextOffset cfg.firstAddr) (pre ++ post) cfg.endOfList)
    (hpre : ∀ q ∈ pre, q.off < o) (hpost : ∀ q ∈ post, o ≤ q.off) (hend : o ≤ cfg.endOfList)
    (hlen : pre.length < loopBound)
    (hh : h = cfg.firstAddr ∨ ∃ q ∈ pre, h = cfg.areaBase + q.off) :
    ∃ k, freeWalk cfg s o loopBound h 0 = some (linkHolder cfg cfg.firstAddr pre, k) := by
  obtain ⟨o', hpreL, hpostL⟩ := listSeg_append.mp hL
  have ho' : o ≤ o' := by
    rw [hpostL.eq_headLink]
    cases post with
    | nil => exact hend
    | cons q _ => exact hpost q (List.mem_cons_self _ _)
  rcases hh with rfl | ⟨q, hq, rfl⟩
  · exact ⟨_, freeWalk_eq hseg hlen hpreL ho' hpre⟩
  · obtain ⟨pre₁, pre₂, rfl⟩ := List.append_of_mem hq
    obtain ⟨_, -, ⟨-, -, hpre₂⟩⟩ := listSeg_append.mp hpreL
    rw [linkHolder_append_cons]
    exact ⟨_, freeWalk_eq hseg (by simp at hlen; omega) hpre₂ ho'
      fun q' hq' ↦ hpre q' (by simp [hq'])⟩

end Walks

end JmemHeap
