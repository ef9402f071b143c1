import JmemHeap.Walks

/-!
# The allocator is first fit over the held blocks

On the contiguous backends the free list is the address-ordered list of the maximal stretches
of the area that no held block covers (`FreeListShape`). Everything the allocator does with
it is therefore a function of the held blocks alone. This file states that at the level of
what a caller sees.

* An attempt of `jmem_heap_alloc_block_internal` for `m` bytes returns the address of the
  lowest granule of the area from which `m` bytes are held by no block, or `NULL` when there
  is none (`alloc_first_fit_of_run`). That is the plain scan of the area, `firstFit`, which
  reads the held blocks only; the free list and its walks are how the code does the scan
  without looking at the blocks.
* Two states that hold the same blocks have the same free list, whatever runs led to them
  (`freeList_canonical`): the allocator keeps no other memory of its history.
* Between two neighbouring free regions lies a held block, so the free list has at most one
  region more than the engine holds blocks, and neither walk visits more regions than that
  (`walks_bounded_by_live`).
* `jmem_heap_gc_and_alloc_block`, behind all three allocation entry points, returns first fit
  over the blocks still held after the collector's last run (`gcAndAlloc_first_fit`): `NULL`
  only when no stretch of the rounded size is free.

## What is transcribed and what is ours

`jmem_heap_alloc_block_internal` and the free list are the code's, modelled elsewhere. The
scan `firstFit` and the stretch predicate `FreeStretch` are ours: the source states no
allocation policy, and these say what the walks compute.
-/

namespace JmemHeap

open Region

/-! ## The abstract allocator -/

section Abstract

variable (cfg : Config) (live : List Block)

/-- The `n` bytes from offset `o` lie in the area and no held block covers any of them. -/
def FreeStretch (o n : Nat) : Prop :=
  o + n ≤ cfg.areaSize ∧ ∀ k < n, cover (live.map (Block.extent cfg)) (o + k) = 0

instance (o n : Nat) : Decidable (FreeStretch cfg live o n) :=
  inferInstanceAs (Decidable (_ ∧ _))

/-- The scan of `k` granules of the area from granule `i` on: the offset of the first from
which `n` bytes are free. -/
def firstFitFrom (n : Nat) : (k i : Nat) → Option Nat
  | 0, _ => none
  | k + 1, i =>
    if FreeStretch cfg live (i * cfg.alignment) n then some (i * cfg.alignment)
    else firstFitFrom n k (i + 1)

/-- Address-ordered first fit over the held blocks: the lowest granule offset of the area from
which `n` bytes are held by no block. -/
def firstFit (n : Nat) : Option Nat :=
  firstFitFrom cfg live n (cfg.areaSize / cfg.alignment) 0

/-- The pointer first fit returns for `n` bytes: `NULL` when no stretch is free. -/
def firstFitPtr (n : Nat) : Nat :=
  match firstFit cfg live n with
  | some o => cfg.areaBase + o
  | none => 0

end Abstract

section Scan

variable {cfg : Config} {live : List Block} {n : Nat}

theorem firstFitFrom_eq_some {j : Nat} (hfree : FreeStretch cfg live (j * cfg.alignment) n)
    (hbelow : ∀ j' < j, ¬ FreeStretch cfg live (j' * cfg.alignment) n) :
    ∀ {k i}, i ≤ j → j < i + k → firstFitFrom cfg live n k i = some (j * cfg.alignment)
  | 0, _, _, hjk => absurd hjk (by omega)
  | k + 1, i, hij, hjk => by
    unfold firstFitFrom
    rcases Nat.eq_or_lt_of_le hij with rfl | hlt
    · rw [if_pos hfree]
    · rw [if_neg (hbelow i hlt)]
      exact firstFitFrom_eq_some hfree hbelow (by omega) (by omega)

theorem firstFitFrom_eq_none (hnone : ∀ j, ¬ FreeStretch cfg live (j * cfg.alignment) n) :
    ∀ k i, firstFitFrom cfg live n k i = none
  | 0, _ => rfl
  | k + 1, i => by
    rw [firstFitFrom, if_neg (hnone i)]
    exact firstFitFrom_eq_none hnone k (i + 1)

/-- First fit returns a granule offset from which `n > 0` bytes are free when every other
such offset lies above it. -/
theorem firstFit_eq_some {o : Nat} (hn : 0 < n) (ho : cfg.alignment ∣ o)
    (hfree : FreeStretch cfg live o n)
    (hbelow : ∀ o', FreeStretch cfg live o' n → o ≤ o') : firstFitPtr cfg live n = cfg.areaBase + o := by
  obtain ⟨j, rfl⟩ := ho
  have hA := cfg.alignment_pos
  rw [Nat.mul_comm] at hfree hbelow ⊢
  have hj : j * cfg.alignment + cfg.alignment ≤ cfg.areaSize :=
    add_le_of_dvd_of_lt (Nat.dvd_mul_left _ _) cfg.alignment_dvd_areaSize (by have := hfree.1; omega)
  have hk : j < 0 + cfg.areaSize / cfg.alignment := by
    rw [Nat.zero_add, Nat.lt_div_iff_mul_lt cfg.alignment_dvd_areaSize, Nat.mul_comm]; omega
  unfold firstFitPtr firstFit
  rw [firstFitFrom_eq_some hfree (fun j' hj' hf ↦ ?_) (Nat.zero_le j) hk]
  have := hbelow _ hf
  exact absurd (Nat.le_of_mul_le_mul_right this hA) (Nat.not_le.mpr hj')

/-- First fit returns `NULL` when no stretch of `n` bytes is free. -/
theorem firstFit_eq_none (hnone : ∀ o, ¬ FreeStretch cfg live o n) : firstFitPtr cfg live n = 0 := by
  unfold firstFitPtr firstFit
  rw [firstFitFrom_eq_none fun j ↦ hnone _]

end Scan

/-! ## Regions as sets of bytes -/

section Cover

theorem exists_mem_of_cover_ne_zero {L : List Region} {x : Nat} (h : cover L x ≠ 0) :
    ∃ q ∈ L, q.off ≤ x ∧ x < q.off + q.size := by
  obtain ⟨v, hv, hv0⟩ := List.exists_mem_ne_zero_of_sum_ne_zero h
  obtain ⟨q, hq, rfl⟩ := List.mem_map.mp hv
  refine ⟨q, hq, ?_⟩
  unfold ind at hv0
  split_ifs at hv0 with hx
  exacts [hx, absurd rfl hv0]

theorem before_or_before {L : List Region} (hL : L.Pairwise Before) {q q' : Region} (hq : q ∈ L)
    (hq' : q' ∈ L) (hne : q ≠ q') : Before q q' ∨ Before q' q :=
  (hL.imp fun {a b} h ↦ (Or.inl h : Before a b ∨ Before b a)).forall (fun _ _ h ↦ h.symm) hq hq'
    hne

/-- The regions after the first of an address-ordered list hold no byte up to the first's
end. -/
theorem cover_tail_eq_zero {r : Region} {L : List Region} (h : (r :: L).Pairwise Before)
    {x : Nat} (hx : x ≤ r.off + r.size) : cover L x = 0 :=
  List.sum_eq_zero fun v hv ↦ by
    obtain ⟨q, hq, rfl⟩ := List.mem_map.mp hv
    have := (List.pairwise_cons.mp h).1 q hq
    unfold Before at this; unfold ind; split_ifs <;> omega

theorem ind_self {r : Region} (h : 0 < r.size) : r.ind r.off = 1 := by
  unfold ind; rw [if_pos ⟨Nat.le_refl _, by omega⟩]

/-- Address-ordered lists of non-empty regions, no two touching, that hold the same bytes are
the same list. -/
theorem eq_of_cover_eq {L L' : List Region} (hL : L.Pairwise Before) (hL' : L'.Pairwise Before)
    (hpos : ∀ r ∈ L, 0 < r.size) (hpos' : ∀ r ∈ L', 0 < r.size)
    (hc : ∀ x, cover L x = cover L' x) : L = L' := by
  induction L generalizing L' with
  | nil =>
    cases L' with
    | nil => rfl
    | cons r' _ =>
      have := hc r'.off
      rw [cover_nil, cover_cons, ind_self (hpos' r' (List.mem_cons_self _ _))] at this
      omega
  | cons r L ih =>
    cases L' with
    | nil =>
      have := hc r.off
      rw [cover_nil, cover_cons, ind_self (hpos r (List.mem_cons_self _ _))] at this
      omega
    | cons r' L' =>
      have hr := hpos r (List.mem_cons_self _ _)
      have hr' := hpos' r' (List.mem_cons_self _ _)
      -- below the end of the first region, a list holds only what its first region holds
      have hhead : ∀ x, x ≤ r.off + r.size → x ≤ r'.off + r'.size → r.ind x = r'.ind x :=
        fun x h h' ↦ by
          have := hc x
          rwa [cover_cons, cover_cons, cover_tail_eq_zero hL h, cover_tail_eq_zero hL' h'] at this
      have hoff : r.off = r'.off := by
        have h1 := hhead (min r.off r'.off) (by omega) (by omega)
        unfold ind at h1; split_ifs at h1 <;> omega
      have hsize : r.size = r'.size := by
        have h1 := hhead (min (r.off + r.size) (r'.off + r'.size)) (by omega) (by omega)
        unfold ind at h1; split_ifs at h1 <;> omega
      obtain ⟨o, z⟩ := r
      obtain ⟨o', z'⟩ := r'
      obtain ⟨rfl, rfl⟩ : o = o' ∧ z = z' := ⟨hoff, hsize⟩
      rw [ih (List.pairwise_cons.mp hL).2 (List.pairwise_cons.mp hL').2
        (fun q hq ↦ hpos q (List.mem_cons_of_mem _ hq))
        (fun q hq ↦ hpos' q (List.mem_cons_of_mem _ hq))
        fun x ↦ by have := hc x; simp only [cover_cons] at this; omega]

end Cover

/-! ## The free list against the held blocks -/

namespace FreeListShape

variable {cfg : Config} {s : Heap} {live : List Block} {L T : List Region} {r : Region}

/-- The bytes of a free region are held by no block. -/
theorem freeStretch (h : FreeListShape cfg s live L) {r : Region} (hr : r ∈ L) {m : Nat}
    (hm : m ≤ r.size) : FreeStretch cfg live r.off m := by
  have hend := h.end_le hr
  refine ⟨by omega, fun k hk ↦ ?_⟩
  have h1 := ind_le_cover hr (r.off + k)
  have h2 := h.partition (r.off + k)
  unfold ind at h1
  split_ifs at h1 h2 <;> omega

/-- A stretch of `m > 0` free bytes lies inside one free region. -/
theorem exists_region (h : FreeListShape cfg s live L) {o m : Nat} (hm : 0 < m)
    (hf : FreeStretch cfg live o m) : ∃ q ∈ L, q.off ≤ o ∧ o + m ≤ q.off + q.size := by
  have hin : ∀ k < m, ∃ q ∈ L, q.off ≤ o + k ∧ o + k < q.off + q.size := fun k hk ↦
    exists_mem_of_cover_ne_zero (by
      have := h.partition (o + k)
      rw [if_pos (by have := hf.1; omega), hf.2 k hk] at this
      omega)
  obtain ⟨q, hq, hqo, hoq⟩ := hin 0 hm
  refine ⟨q, hq, by omega, Nat.not_lt.mp fun hlt ↦ ?_⟩
  -- the byte right after `q` is free too, so it lies in another region that touches `q`
  obtain ⟨q', hq', h1, h2⟩ := hin (q.off + q.size - o) (by omega)
  have hne : q ≠ q' := by rintro rfl; omega
  rcases before_or_before h.sorted hq hq' hne with hb | hb <;> unfold Before at hb <;> omega

/-- When every free region is smaller than `m > 0` bytes, no stretch of `m` bytes is free. -/
theorem not_freeStretch (h : FreeListShape cfg s live L) {m : Nat} (hm : 0 < m)
    (hall : ∀ q ∈ L, q.size < m) (o : Nat) : ¬ FreeStretch cfg live o m := fun hf ↦ by
  obtain ⟨q, hq, hqo, hoq⟩ := h.exists_region hm hf
  have := hall q hq
  omega

/-- The free list is read off the held blocks: two memories with the shape and the same held
blocks have the same free regions. -/
theorem eq_of_perm {s' : Heap} {live' : List Block} {L' : List Region}
    (h : FreeListShape cfg s live L) (h' : FreeListShape cfg s' live' L') (hp : live.Perm live') :
    L = L' := by
  refine eq_of_cover_eq h.sorted h'.sorted (fun r hr ↦ (h.aligned r hr).2.2)
    (fun r hr ↦ (h'.aligned r hr).2.2) fun x ↦ ?_
  have h1 := h.partition x
  have h2 := h'.partition x
  have : cover (live.map (Block.extent cfg)) x = cover (live'.map (Block.extent cfg)) x := by
    simp only [cover, List.map_map]
    exact ((hp.map _).sum_eq)
  omega

/-- The byte just below a free region other than the first is held by a block: a free region
holding it would touch the region. -/
theorem exists_block_below (h : FreeListShape cfg s live (r :: T)) {q : Region} (hq : q ∈ T) :
    ∃ b ∈ live, (b.extent cfg).off ≤ q.off - 1 ∧ q.off - 1 < (b.extent cfg).off + (b.extent cfg).size := by
  have hqL : q ∈ r :: T := List.mem_cons_of_mem r hq
  have hrq := (List.pairwise_cons.mp h.sorted).1 q hq
  have hend := h.end_le hqL
  unfold Before at hrq
  have hfree : cover (r :: T) (q.off - 1) = 0 := by
    by_contra hne
    obtain ⟨q', hq', h1, h2⟩ := exists_mem_of_cover_ne_zero hne
    have hne' : q ≠ q' := by rintro rfl; omega
    rcases before_or_before h.sorted hqL hq' hne' with hb | hb <;> unfold Before at hb <;> omega
  have hp := h.partition (q.off - 1)
  rw [if_pos (by omega), hfree, Nat.zero_add] at hp
  obtain ⟨g, hg, hgq⟩ := exists_mem_of_cover_ne_zero (x := q.off - 1)
    (L := live.map (Block.extent cfg)) (by omega)
  obtain ⟨b, hb, rfl⟩ := List.mem_map.mp hg
  exact ⟨b, hb, hgq⟩

/-- Between two neighbouring free regions lies a held block, a different one for each gap: the
free regions number at most one more than the held blocks. -/
theorem length_le (h : FreeListShape cfg s live L) : L.length ≤ live.length + 1 := by
  cases L with
  | nil => exact Nat.zero_le _
  | cons r T =>
  have hT : T.Pairwise Before := (List.pairwise_cons.mp h.sorted).2
  have hsep : ∀ q, ∃ b : Block, q ∈ T → b ∈ live ∧ (b.extent cfg).off ≤ q.off - 1 ∧
      q.off - 1 < (b.extent cfg).off + (b.extent cfg).size := fun q ↦ by
    by_cases hq : q ∈ T
    · obtain ⟨b, hb⟩ := h.exists_block_below hq
      exact ⟨b, fun _ ↦ hb⟩
    · exact ⟨⟨0, 0, false⟩, fun h ↦ absurd h hq⟩
  choose f hf using hsep
  -- the block below a region also holds that region's first byte when it lies below a later one
  have hkey : ∀ a c, a ∈ T → c ∈ T → f a = f c → ¬ Before a c := fun a c ha hc hfe hb ↦ by
    obtain ⟨hbl, h1, h2⟩ := hf a ha
    obtain ⟨-, h3, h4⟩ := hf c hc
    rw [← hfe] at h3 h4
    have haL : a ∈ r :: T := List.mem_cons_of_mem r ha
    have hra := (List.pairwise_cons.mp h.sorted).1 a ha
    have hd := h.extent_disjoint hbl a.off
    have hc1 := ind_le_cover haL a.off
    rw [ind_self (h.aligned a haL).2.2] at hc1
    unfold Before at hb hra
    unfold ind at hd
    split_ifs at hd <;> omega
  have hinj : Set.InjOn f ↑T.toFinset := fun a ha c hc hfe ↦ by
    rw [Finset.mem_coe, List.mem_toFinset] at ha hc
    by_contra hne
    rcases before_or_before hT ha hc hne with hb | hb
    exacts [hkey a c ha hc hfe hb, hkey c a hc ha hfe.symm hb]
  have hcard := Finset.card_le_card_of_injOn f
    (fun q hq ↦ List.mem_toFinset.mpr (hf q (List.mem_toFinset.mp hq)).1) hinj
  rw [List.toFinset_card_of_nodup (hT.imp fun {a b} hab heq ↦ by
    subst heq; unfold Before at hab; omega)] at hcard
  have := live.toFinset_card_le
  simp only [List.length_cons]
  omega

end FreeListShape

/-- The free path's walk from `first` to an offset of the logical offset space takes at most
one round per region of a free list with the spec's invariant. -/
theorem FreeListInv.freeWalk_first_le {cfg : Config} {s : Heap} {L : List Region}
    (h : FreeListInv cfg s L) {o : Nat} (ho : o < cfg.offsetSpace) :
    ∃ p k, freeWalk cfg s o loopBound cfg.firstAddr 0 = some (p, k) ∧ k ≤ L.length := by
  obtain ⟨pre, post, rfl, hpre, hpost⟩ := exists_split_off o h.sorted
  obtain ⟨o₁, hpreL, ho₁⟩ := h.le_link_after ho hpost
  exact ⟨_, _, freeWalk_linkSeg (Nat.lt_of_le_of_lt (by simp) h.length_lt) hpreL ho₁ hpre,
    by simp⟩

/-! ## An attempt is first fit -/

section Attempt

variable {cfg : Config} {env : Env} {s : Heap} {live : List Block} {L : List Region}

/-- On a contiguous backend whose memory has the shape, an allocation attempt returns: both
walks end on the free list. -/
theorem FreeListShape.exists_alloc (hb : cfg.backend = .static ∨ cfg.backend.isDynamicEmul)
    (h : FreeListShape cfg s live L) (m : Nat) (small : Bool) :
    ∃ p s', jmemHeapAllocBlockInternal cfg env m small s = some (p, s') := by
  obtain ⟨hsys, hseg⟩ := ne_of_contiguous hb
  have hinv := h.freeListInv hb
  have hslow : (jmemHeapAllocBlockInternalSlow cfg (cfg.alignUp m) small s).isSome := by
    rcases @slowSearch_spec cfg s (cfg.alignUp m) L loopBound cfg.firstAddr _ 0 hinv.seg
      (fun r hr ↦ h.off_ne_endOfList hr) hinv.length_lt with ⟨-, hs⟩ | ⟨pre, r, post, -, -, -, hs⟩ <;>
      simp [jmemHeapAllocBlockInternalSlow, hs, slowAllocAt, updateOccupancy_of_ne_segmented hseg]
  obtain ⟨p, t, hpt⟩ : ∃ p t, allocFastOrSlow cfg (cfg.alignUp m) small s = some (p, t) := by
    unfold allocFastOrSlow
    split
    · exact ⟨_, _, rfl⟩
    · obtain ⟨⟨p, t⟩, hpt⟩ := Option.isSome_iff_exists.mp hslow
      exact ⟨p, t, hpt⟩
  simp only [jmemHeapAllocBlockInternal, hsys, if_false, hpt, Option.bind_eq_bind, Option.some_bind]
  split <;> exact ⟨_, _, rfl⟩

/-- On a contiguous backend whose memory has the shape, an attempt for `m > 0` bytes, a whole
number of granules, returns what first fit returns for the held blocks. -/
theorem FreeListShape.alloc_eq_firstFit (hb : cfg.backend = .static ∨ cfg.backend.isDynamicEmul)
    (h : FreeListShape cfg s live L) {m : Nat} (hdvd : cfg.alignment ∣ m) (hm : 0 < m)
    (hlt : m < 2 ^ cfg.sizeBits) (small : Bool) :
    ∃ s', jmemHeapAllocBlockInternal cfg env m small s = some (firstFitPtr cfg live m, s') := by
  obtain ⟨p, s', ha⟩ : ∃ p s', jmemHeapAllocBlockInternal cfg env m small s = some (p, s') :=
    h.exists_alloc hb m small
  suffices hp : p = firstFitPtr cfg live m from ⟨s', hp ▸ ha⟩
  rcases alloc_spec hb h hdvd hlt ha with ⟨rfl, hall, -⟩ | ⟨pre, r, post, rfl, hpre, hr, rfl, -⟩
  · exact (firstFit_eq_none (h.not_freeStretch hm hall)).symm
  refine (firstFit_eq_some hm (h.aligned r (by simp)).1 (h.freeStretch (by simp) hr)
    fun o hf ↦ ?_).symm
  -- the region holding a free stretch of `m` bytes is not one of the smaller ones before `r`
  obtain ⟨q, hq, hqo, hoq⟩ := h.exists_region hm hf
  rcases List.mem_append.mp hq with hq | hq
  · have := hpre q hq; omega
  rcases List.mem_cons.mp hq with rfl | hq
  · exact hqo
  · have := (List.pairwise_cons.mp (List.pairwise_append.mp h.sorted).2.1).1 q hq
    unfold Before at this; omega

end Attempt

/-! ## Whole runs -/

section Runs

variable {cfg : Config} {env : Env}

/-- On the static and dynamic-emulation backends, under the collector contract, in every state
reached by requests whose rounding does not wrap, an attempt of
`jmem_heap_alloc_block_internal (align_up (n))` for `n > 0` bytes, whose rounding does not
wrap, returns, and returns exactly what address-ordered first fit over the held blocks
returns: the address of the lowest granule of the area from which `align_up (n)` bytes are
held by no block, or `NULL` when no such stretch exists. -/
theorem alloc_first_fit_of_run (hb : cfg.backend = .static ∨ cfg.backend.isDynamicEmul)
    (hc : env.CollectsLive) {size nextOffset : Nat → Nat} {rs : List Request} {e : Engine}
    (hrun : run cfg env (Engine.initial cfg env size nextOffset) rs = some e)
    (hrs : ∀ r ∈ rs, cfg.NoWrap r.allocSize) {n : Nat} (hn : 0 < n) (hw : cfg.NoWrap n)
    (small : Bool) :
    ∃ s', jmemHeapAllocBlockInternal cfg env (cfg.alignUp n) small e.heap =
      some (firstFitPtr cfg e.live (cfg.alignUp n), s') := by
  obtain ⟨L, h⟩ := exists_freeListShape_of_run hb hc hrun hrs
  exact h.alloc_eq_firstFit hb (Config.alignment_dvd_alignUp n)
    (Nat.lt_of_lt_of_le cfg.alignment_pos (Config.alignment_le_alignUp hn hw))
    (Config.alignUp_lt_size n) small

theorem alloc_first_fit_of_run_small :
    ∃ e, run (Config.small .static) Env.quiet
        (Engine.initial (Config.small .static) Env.quiet (fun _ ↦ 0) (fun _ ↦ 0))
        [.allocBlock 8, .allocBlock 8, .allocBlock 8, .free ⟨4096, 8, false⟩,
          .free ⟨4104, 8, false⟩] = some e ∧
      ∃ s', jmemHeapAllocBlockInternal (Config.small .static) Env.quiet
        ((Config.small .static).alignUp 24) false e.heap =
          some (firstFitPtr (Config.small .static) e.live ((Config.small .static).alignUp 24), s') := by
  obtain ⟨e, he⟩ := Option.isSome_iff_exists.mp (show (run (Config.small .static) Env.quiet
    (Engine.initial (Config.small .static) Env.quiet (fun _ ↦ 0) (fun _ ↦ 0))
    [.allocBlock 8, .allocBlock 8, .allocBlock 8, .free ⟨4096, 8, false⟩,
      .free ⟨4104, 8, false⟩]).isSome by decide)
  exact ⟨e, he, alloc_first_fit_of_run (.inl rfl) (fun _ _ _ ↦ List.nil_subperm) he (by decide)
    (by decide) (by decide) false⟩

/-- On the static and dynamic-emulation backends, under the collector contract, two states
reached by runs whose requests do not wrap, from any initial memory and with any collectors,
that hold the same blocks (in any order) have the same free list: reading the links from
`first.next_offset` to `JMEM_HEAP_END_OF_LIST` visits the same regions, with the same offsets
and sizes, in both. The free list keeps no trace of the order of the calls that built it. -/
theorem freeList_canonical (hb : cfg.backend = .static ∨ cfg.backend.isDynamicEmul)
    {env₁ env₂ : Env} (hc₁ : env₁.CollectsLive) (hc₂ : env₂.CollectsLive)
    {size₁ nextOffset₁ size₂ nextOffset₂ : Nat → Nat} {rs₁ rs₂ : List Request} {e₁ e₂ : Engine}
    (hrun₁ : run cfg env₁ (Engine.initial cfg env₁ size₁ nextOffset₁) rs₁ = some e₁)
    (hrs₁ : ∀ r ∈ rs₁, cfg.NoWrap r.allocSize)
    (hrun₂ : run cfg env₂ (Engine.initial cfg env₂ size₂ nextOffset₂) rs₂ = some e₂)
    (hrs₂ : ∀ r ∈ rs₂, cfg.NoWrap r.allocSize) (hlive : e₁.live.Perm e₂.live) :
    ∃ L, ListSeg cfg e₁.heap (e₁.heap.nextOffset cfg.firstAddr) L cfg.endOfList ∧
      ListSeg cfg e₂.heap (e₂.heap.nextOffset cfg.firstAddr) L cfg.endOfList := by
  obtain ⟨L₁, h₁⟩ := exists_freeListShape_of_run hb hc₁ hrun₁ hrs₁
  obtain ⟨L₂, h₂⟩ := exists_freeListShape_of_run hb hc₂ hrun₂ hrs₂
  exact ⟨L₁, h₁.seg, h₁.eq_of_perm h₂ hlive ▸ h₂.seg⟩

/-- Allocating two 8-byte blocks and freeing the second leaves the free list that allocating
the first alone does. -/
theorem freeList_canonical_two_runs :
    let cfg := Config.small .static
    let e₀ := Engine.initial cfg Env.quiet (fun _ ↦ 0) (fun _ ↦ 0)
    ∃ e₁ e₂, run cfg Env.quiet e₀ [.allocBlock 8, .allocBlock 8, .free ⟨4104, 8, false⟩] =
        some e₁ ∧ run cfg Env.quiet e₀ [.allocBlock 8] = some e₂ ∧ e₁.live.Perm e₂.live ∧
      ∃ L, ListSeg cfg e₁.heap (e₁.heap.nextOffset cfg.firstAddr) L cfg.endOfList ∧
        ListSeg cfg e₂.heap (e₂.heap.nextOffset cfg.firstAddr) L cfg.endOfList := by
  intro cfg e₀
  have hc : Env.quiet.CollectsLive := fun _ _ _ ↦ List.nil_subperm
  obtain ⟨e₁, h₁⟩ := Option.isSome_iff_exists.mp (show (run cfg Env.quiet e₀
    [.allocBlock 8, .allocBlock 8, .free ⟨4104, 8, false⟩]).isSome by decide)
  obtain ⟨e₂, h₂⟩ := Option.isSome_iff_exists.mp
    (show (run cfg Env.quiet e₀ [.allocBlock 8]).isSome by decide)
  have hl₁ : e₁.live = [⟨4096, 8, false⟩] := by
    have : (run cfg Env.quiet e₀ [.allocBlock 8, .allocBlock 8, .free ⟨4104, 8, false⟩]).map
      (·.live) = some [⟨4096, 8, false⟩] := by decide
    simpa [h₁] using this
  have hl₂ : e₂.live = [⟨4096, 8, false⟩] := by
    have : (run cfg Env.quiet e₀ [.allocBlock 8]).map (·.live) = some [⟨4096, 8, false⟩] := by
      decide
    simpa [h₂] using this
  have hp : e₁.live.Perm e₂.live := by rw [hl₁, hl₂]
  exact ⟨e₁, e₂, h₁, h₂, hp, freeList_canonical (.inl rfl) hc hc h₁ (by decide) h₂ (by decide) hp⟩

/-- On the static and dynamic-emulation backends, under the collector contract, in every state
reached by requests whose rounding does not wrap, the free list has at most one region more
than the engine holds blocks. So the cost of both walks is bounded by the number of held
blocks: the slow path's walk, for any request, stops after visiting at most `|live| + 1`
regions, and the free path's walk from `first` to any offset of the area ends after at most
`|live| + 1` rounds. -/
theorem walks_bounded_by_live (hb : cfg.backend = .static ∨ cfg.backend.isDynamicEmul)
    (hc : env.CollectsLive) {size nextOffset : Nat → Nat} {rs : List Request} {e : Engine}
    (hrun : run cfg env (Engine.initial cfg env size nextOffset) rs = some e)
    (hrs : ∀ r ∈ rs, cfg.NoWrap r.allocSize) :
    (∃ L, ListSeg cfg e.heap (e.heap.nextOffset cfg.firstAddr) L cfg.endOfList ∧
      L.length ≤ e.live.length + 1) ∧
    (∀ need, ∃ res k, slowSearch cfg need e.heap loopBound cfg.firstAddr
      (e.heap.nextOffset cfg.firstAddr) 0 = some (res, k) ∧ k ≤ e.live.length + 1) ∧
    ∀ o < cfg.areaSize, ∃ p k, freeWalk cfg e.heap o loopBound cfg.firstAddr 0 = some (p, k) ∧
      k ≤ e.live.length + 1 := by
  obtain ⟨L, h⟩ := exists_freeListShape_of_run hb hc hrun hrs
  have hinv := h.freeListInv hb
  have hlen := h.length_le
  refine ⟨⟨L, h.seg, hlen⟩, fun need ↦ ?_, fun o ho ↦ ?_⟩
  · rcases @slowSearch_spec cfg e.heap need L loopBound cfg.firstAddr _ 0 hinv.seg
      (fun r hr ↦ h.off_ne_endOfList hr) hinv.length_lt with ⟨-, hs⟩ | ⟨pre, r, post, rfl, -, -, hs⟩
    · exact ⟨_, _, hs, by omega⟩
    · exact ⟨_, _, hs, by simp only [List.length_append, List.length_cons] at hlen; omega⟩
  · obtain ⟨p, k, hw, hk⟩ := hinv.freeWalk_first_le
      (by simpa [Config.offsetSpace, (ne_of_contiguous hb).2] using ho)
    exact ⟨p, k, hw, by omega⟩

theorem walks_bounded_by_live_small :
    let cfg := Config.small .static
    ∃ e, run cfg Env.quiet (Engine.initial cfg Env.quiet (fun _ ↦ 0) (fun _ ↦ 0))
        [.allocBlock 8, .allocBlock 8, .allocBlock 8, .free ⟨4096, 8, false⟩,
          .free ⟨4104, 8, false⟩] = some e ∧
      (∃ L, ListSeg cfg e.heap (e.heap.nextOffset cfg.firstAddr) L cfg.endOfList ∧
        L.length ≤ e.live.length + 1) ∧
      (∀ need, ∃ res k, slowSearch cfg need e.heap loopBound cfg.firstAddr
        (e.heap.nextOffset cfg.firstAddr) 0 = some (res, k) ∧ k ≤ e.live.length + 1) ∧
      ∀ o < cfg.areaSize, ∃ p k, freeWalk cfg e.heap o loopBound cfg.firstAddr 0 = some (p, k) ∧
        k ≤ e.live.length + 1 := by
  obtain ⟨e, he⟩ := Option.isSome_iff_exists.mp (show (run (Config.small .static) Env.quiet
    (Engine.initial (Config.small .static) Env.quiet (fun _ ↦ 0) (fun _ ↦ 0))
    [.allocBlock 8, .allocBlock 8, .allocBlock 8, .free ⟨4096, 8, false⟩,
      .free ⟨4104, 8, false⟩]).isSome by decide)
  exact ⟨e, he, walks_bounded_by_live (.inl rfl) (fun _ _ _ ↦ List.nil_subperm) he (by decide)⟩

end Runs

/-! ## The public entry point is first fit too

Without segment groups every pointer `jmem_heap_gc_and_alloc_block` returns, `NULL` or not, is
the result of one attempt, made after the collector runs the call made, and the engine it
returns is the one that attempt left. -/

section Ladder

variable {cfg : Config} {env : Env} {P : Engine → Prop} {n : Nat} {retNull small : Bool}
  {p : Nat} {e' : Engine} {tr' : List Event}

/-- Without segment groups, once an attempt has failed, the severity loop returns the result
of an attempt made from a state with `P`, with the engine that attempt left. -/
theorem severityLoop_attempt (hseg : cfg.backend ≠ .segmented)
    (hcb : CallbacksPreserve cfg env P) (ha : AttemptPreserves cfg env P n small) :
    ∀ {sevs : List Severity} {e : Engine} {tr : List Event},
      (∃ e₀, P e₀ ∧ blockAlloc cfg env (cfg.alignUp n) small e₀ = some (0, e)) →
      gcAllocSeverityLoop cfg env (cfg.alignUp n) retNull small sevs 0 e tr =
        some (.returned p e' tr') →
      ∃ e₀, P e₀ ∧ blockAlloc cfg env (cfg.alignUp n) small e₀ = some (p, e')
  | [], e, tr, h₀, h => by
    simp only [gcAllocSeverityLoop, gcAllocAfterCallbacks, if_neg hseg] at h
    split at h
    · simp only [Option.some.injEq, Outcome.returned.injEq] at h
      obtain ⟨rfl, rfl, -⟩ := h
      exact h₀
    · cases h
  | sev :: sevs, e, tr, ⟨e₀, he₀, h₀⟩, h => by
    simp only [gcAllocSeverityLoop, bind, pure, Option.bind_eq_some] at h
    obtain ⟨e₁, hcb₁, ⟨q, e₂⟩, hq, h⟩ := h
    have he₁ : P e₁ := hcb _ _ _ (by simpa using ha _ _ _ he₀ h₀) hcb₁
    by_cases hq0 : q = 0
    · subst hq0
      simp only [ne_eq, not_true_eq_false, if_false] at h
      exact severityLoop_attempt hseg hcb ha ⟨e₁, he₁, hq⟩ h
    · simp only [hq0, ne_eq, not_false_eq_true, if_true, Option.some.injEq,
        Outcome.returned.injEq] at h
      obtain ⟨rfl, rfl, -⟩ := h
      exact ⟨e₁, he₁, hq⟩

/-- Without segment groups, `jmem_heap_gc_and_alloc_block (n)` for `n > 0` returns the result of
an attempt made from a state with `P`, with the engine that attempt left. -/
theorem gcAndAlloc_attempt (hseg : cfg.backend ≠ .segmented)
    (hcb : CallbacksPreserve cfg env P) (ha : AttemptPreserves cfg env P n small) {e : Engine}
    (he : P e) (hn : 0 < n)
    (h : jmemHeapGcAndAllocBlock cfg env n retNull small e = some (.returned p e' tr')) :
    ∃ e₀, P e₀ ∧ blockAlloc cfg env (cfg.alignUp n) small e₀ = some (p, e') := by
  unfold jmemHeapGcAndAllocBlock at h
  rw [if_neg (Nat.pos_iff_ne_zero.mp hn)] at h
  simp only [bind, pure, Option.bind_eq_some] at h
  obtain ⟨⟨e₁, tr₁⟩, h₁, ⟨e₂, tr₂⟩, h₂, ⟨q, e₃⟩, hq, h⟩ := h
  have he₂ := gcExpectedOverSize_preserves hcb (gcBeforeEach_preserves hcb he h₁) h₂
  by_cases hq0 : q = 0
  · subst hq0
    simp only [ne_eq, not_true_eq_false, if_false, if_neg hseg] at h
    exact severityLoop_attempt hseg hcb ha ⟨e₂, he₂, hq⟩ h
  · simp only [hq0, ne_eq, not_false_eq_true, if_true, Option.some.injEq,
      Outcome.returned.injEq] at h
    obtain ⟨rfl, rfl, -⟩ := h
    exact ⟨e₂, he₂, hq⟩

/-- On the static and dynamic-emulation backends, under the collector contract, in every state
reached by requests whose rounding does not wrap: `jmem_heap_gc_and_alloc_block (n)`, the call
behind all three allocation entry points, for `n > 0` whose rounding does not wrap, returns
exactly what address-ordered first fit returns for `align_up (n)` bytes over the blocks the
engine holds when the call returns, after every collector run the call made. In particular it
returns `NULL` only when no granule of the area starts a stretch of `align_up (n)` bytes that
no held block covers. -/
theorem gcAndAlloc_first_fit (hb : cfg.backend = .static ∨ cfg.backend.isDynamicEmul)
    (hc : env.CollectsLive) {size nextOffset : Nat → Nat} {rs : List Request} {e : Engine}
    (hrun : run cfg env (Engine.initial cfg env size nextOffset) rs = some e)
    (hrs : ∀ r ∈ rs, cfg.NoWrap r.allocSize) (hn : 0 < n) (hw : cfg.NoWrap n)
    (h : jmemHeapGcAndAllocBlock cfg env n retNull small e = some (.returned p e' tr')) :
    p = firstFitPtr cfg e'.live (cfg.alignUp n) := by
  obtain ⟨e₀, ⟨L, h₀⟩, ha₀⟩ := gcAndAlloc_attempt (ne_of_contiguous hb).2
    (callbacksPreserve_of_collectsLive hc (freePreserves_shape hb))
    (attemptPreserves_shape hb hn hw small) (exists_freeListShape_of_run hb hc hrun hrs) hn h
  obtain ⟨⟨q, s⟩, hs, he'⟩ := Option.map_eq_some'.mp ha₀
  simp only [Prod.mk.injEq] at he'
  obtain ⟨rfl, rfl⟩ := he'
  obtain ⟨s', hs'⟩ : ∃ s', jmemHeapAllocBlockInternal cfg env (cfg.alignUp n) small e₀.heap =
      some (firstFitPtr cfg e₀.live (cfg.alignUp n), s') :=
    h₀.alloc_eq_firstFit hb (Config.alignment_dvd_alignUp n)
      (Nat.lt_of_lt_of_le cfg.alignment_pos (Config.alignment_le_alignUp hn hw))
      (Config.alignUp_lt_size n) small
  rw [hs] at hs'
  exact (Prod.mk.inj (Option.some.inj hs')).1

theorem gcAndAlloc_first_fit_small :
    ∃ e' tr, jmemHeapGcAndAllocBlock (Config.small .static) Env.quiet 1000 true false
        (Engine.initial (Config.small .static) Env.quiet (fun _ ↦ 0) (fun _ ↦ 0)) =
          some (.returned 0 e' tr) ∧
      0 = firstFitPtr (Config.small .static) e'.live ((Config.small .static).alignUp 1000) := by
  obtain ⟨e', tr, h⟩ : ∃ e' tr, jmemHeapGcAndAllocBlock (Config.small .static) Env.quiet 1000 true
      false (Engine.initial (Config.small .static) Env.quiet (fun _ ↦ 0) (fun _ ↦ 0)) =
        some (.returned 0 e' tr) := ⟨_, _, rfl⟩
  exact ⟨e', tr, h, gcAndAlloc_first_fit (.inl rfl) (fun _ _ _ ↦ List.nil_subperm)
    (show run _ _ _ [] = _ from rfl) (by simp) (by decide) (by decide) h⟩

end Ladder

end JmemHeap
