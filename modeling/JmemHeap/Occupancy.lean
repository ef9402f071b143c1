import JmemHeap.FreeList
import JmemHeap.Limit

/-!
# The segment-occupancy loop

On the segmented backend the slow path charges a new block to the segments it lies in, and the
free path takes a released block off them, with one loop written twice in `jmem-heap.c`
(`occupancyLoop`). The loop cuts the block at segment ends, with end-inclusive offsets
(`block_end_offset = start + size - JMEM_ALIGNMENT`,
`segment_end_offset = (sidx + 1) * SEG_SEGMENT_SIZE - JMEM_ALIGNMENT`), and counts the bytes
left down in a signed `int`.

What the loop is for is `Heap.chargeSegments`: every segment's `occupied_size`, a `uint32_t`,
moves by the bytes of the block it holds. On whole granules inside the logical offset space
the loop does exactly that (`updateOccupancy_charges`): the count of bytes left is
`end - start` at every round, so it ends at exactly `0`, and the charges add up to the block's
size. The exception is the conversion `(int) size`: a block of `2 ^ 31` bytes or more starts
the count negative, and the loop charges nothing (`updateOccupancy_skips_large`).
-/

namespace JmemHeap

section

variable (cfg : Config)

/-- The bytes of `[lo, hi)` in segment `i`, `[i * SEG_SEGMENT_SIZE, (i + 1) * SEG_SEGMENT_SIZE)`. -/
def segmentOverlap (lo hi i : Nat) : Nat :=
  min hi ((i + 1) * cfg.segmentSize) - max lo (i * cfg.segmentSize)

/-- Every segment that holds bytes of `[lo, hi)` has its `uint32_t` field `occupied_size`
grow (`add`) or shrink by them; nothing else changes. -/
def Heap.chargeSegments (add : Bool) (lo hi : Nat) (s : Heap) : Heap :=
  { s with occupied := fun i ↦
      if 0 < segmentOverlap cfg lo hi i then
        occupiedUpdate add (s.occupied i) (segmentOverlap cfg lo hi i)
      else s.occupied i }

end

/-! ## `(int)` and `uint32_t` on counts of bytes -/

theorem toInt_of_lt {x : Nat} (h : x < 2 ^ 31) : toInt x = x := by
  unfold toInt; rw [if_pos (by omega)]; omega

theorem toInt_neg {x : Nat} (h₁ : 2 ^ 31 ≤ x) (h₂ : x < 2 ^ 32) : toInt x < 0 := by
  unfold toInt; rw [if_neg (by omega)]; omega

/-! ## The bytes of a stretch in each segment -/

section Overlap

variable {cfg : Config}

theorem segmentOverlap_self (lo i : Nat) : segmentOverlap cfg lo lo i = 0 := by
  unfold segmentOverlap; omega

@[simp] theorem Heap.chargeSegments_self (add : Bool) (lo : Nat) (s : Heap) :
    s.chargeSegments cfg add lo lo = s := by
  simp [Heap.chargeSegments, segmentOverlap_self]

/-- Moving the start of `[f, e)` up to `f'`, the end of `f`'s segment or `e`, leaves every other
segment's bytes as they were and takes `f' - f` bytes from `f`'s segment. -/
theorem segmentOverlap_advance {f f' e i k : Nat} (hk : k * cfg.segmentSize ≤ f)
    (hf : f < (k + 1) * cfg.segmentSize) (hf' : f' = min e ((k + 1) * cfg.segmentSize))
    (hfe : f < e) :
    segmentOverlap cfg f e i = segmentOverlap cfg f' e i + if i = k then f' - f else 0 := by
  unfold segmentOverlap
  rcases Nat.lt_trichotomy i k with hi | rfl | hi
  · have : (i + 1) * cfg.segmentSize ≤ k * cfg.segmentSize := Nat.mul_le_mul_right _ hi
    rw [if_neg (Nat.ne_of_lt hi)]
    omega
  · simp only [if_true]
    omega
  · have : (k + 1) * cfg.segmentSize ≤ i * cfg.segmentSize := Nat.mul_le_mul_right _ hi
    rw [if_neg (Nat.ne_of_gt hi)]
    omega

/-- The bytes of `[lo, hi)` in the first `k` segments. -/
theorem sum_segmentOverlap (lo hi : Nat) (h : lo ≤ hi) :
    ∀ k, (Finset.range k).sum (segmentOverlap cfg lo hi) =
      min hi (k * cfg.segmentSize) - min lo (k * cfg.segmentSize)
  | 0 => by simp
  | k + 1 => by
    rw [Finset.sum_range_succ, sum_segmentOverlap lo hi h k]
    have : k * cfg.segmentSize ≤ (k + 1) * cfg.segmentSize := Nat.mul_le_mul_right _ (Nat.le_succ k)
    unfold segmentOverlap
    omega

end Overlap

/-! ## The loop -/

section Loop

variable {cfg : Config}

/-- One round of the loop from the fragment start `f < e`: it charges the bytes of `[f, e)` in
`f`'s segment and moves on to the end of that segment, or to `e`. -/
theorem chargeSegments_advance {add : Bool} {f f' e k : Nat} (s : Heap)
    (hk : k * cfg.segmentSize ≤ f) (hf : f < (k + 1) * cfg.segmentSize)
    (hf' : f' = min e ((k + 1) * cfg.segmentSize)) (hfe : f < e) :
    (s.setOccupied k (occupiedUpdate add (s.occupied k) (f' - f))).chargeSegments cfg add f' e =
      s.chargeSegments cfg add f e := by
  have hadv := fun i ↦ segmentOverlap_advance (i := i) hk hf hf' hfe
  have hk0 : segmentOverlap cfg f' e k = 0 := by unfold segmentOverlap; omega
  simp only [Heap.chargeSegments, Heap.setOccupied]
  congr 1
  funext i
  rw [hadv i]
  by_cases hi : i = k
  · subst hi
    simp only [hk0, if_true, Nat.lt_irrefl, if_false, Nat.zero_add, show 0 < f' - f by omega]
  · simp only [hi, if_false, Nat.add_zero]

/-- One round's `uint32_t` arithmetic, from a fragment start `f` a granule or more below both the
block end `e` and the end `b` of its segment: the end-inclusive offsets are exact, so the round
charges `min e b - f` bytes, read back unchanged by `(int)`, and moves on to `min e b`. -/
theorem occupancyRound_arith {A e f b : Nat} (hfe : f + A ≤ e) (hfb : f + A ≤ b)
    (he : e < 2 ^ 32) (hb : b < 2 ^ 32) (hint : e - f < 2 ^ 31) :
    u32 (u32Sub (if u32Sub e A < u32Sub b A then u32Sub e A else u32Sub b A) f + A) =
        min e b - f ∧
      ((e - f : Nat) : Int) - toInt (min e b - f) = ((e - min e b : Nat) : Int) ∧
      u32 ((if u32Sub e A < u32Sub b A then u32Sub e A else u32Sub b A) + A) = min e b := by
  have hend : (if u32Sub e A < u32Sub b A then u32Sub e A else u32Sub b A) = min e b - A := by
    rw [u32Sub_of_le (by omega) he, u32Sub_of_le (by omega) hb]
    split_ifs <;> omega
  rw [hend, u32Sub_of_le (by omega) (by omega), u32_of_lt (by omega), u32_of_lt (by omega),
    toInt_of_lt (by omega)]
  omega

/-- From the fragment start `f`, a whole number of granules below the end `e` of the block, with
`e - f` bytes left, the loop charges the bytes of `[f, e)` to their segments. -/
theorem occupancyLoop_charges {add : Bool} {e : Nat} (he : cfg.alignment ∣ e)
    (hin : e ≤ cfg.segmentSize * cfg.numSegments) :
    ∀ {fuel f : Nat} (s : Heap), cfg.alignment ∣ f → f ≤ e → e - f < fuel → e - f < 2 ^ 31 →
      occupancyLoop cfg add (u32Sub e cfg.alignment) fuel ((e - f : Nat) : Int) f s =
        some (s.chargeSegments cfg add f e)
  | 0, _, _, _, _, h, _ => absurd h (Nat.not_lt_zero _)
  | fuel + 1, f, s, hf, hfe, hfuel, hint => by
    rcases Nat.eq_or_lt_of_le hfe with rfl | hlt
    · simp [occupancyLoop]
    -- the segment of `f`, `[k * SEG_SEGMENT_SIZE, (k + 1) * SEG_SEGMENT_SIZE)`
    have hS := cfg.segmentSize_pos
    have h32 : cfg.segmentSize * cfg.numSegments < 2 ^ 32 :=
      Nat.lt_trans cfg.segments_lt_endOfList cfg.endOfList_lt
    set k := f / cfg.segmentSize with hk
    have hkf : k * cfg.segmentSize ≤ f := Nat.div_mul_le_self f _
    have hfb : f < (k + 1) * cfg.segmentSize := by
      rw [Nat.succ_mul]; exact Nat.lt_div_mul_add hS
    have hbN : (k + 1) * cfg.segmentSize ≤ cfg.segmentSize * cfg.numSegments := by
      rw [Nat.mul_comm cfg.segmentSize]
      exact Nat.mul_le_mul_right _ (Nat.succ_le_of_lt
        ((Nat.div_lt_iff_lt_mul hS).mpr (by rw [Nat.mul_comm]; omega)))
    have hAb : cfg.alignment ∣ (k + 1) * cfg.segmentSize :=
      Dvd.dvd.mul_left cfg.alignment_dvd_segmentSize _
    -- the fragment `[f, min e b)`
    have hfe' := add_le_of_dvd_of_lt hf he hlt
    obtain ⟨hpiece, hleft, hnext⟩ := occupancyRound_arith hfe' (add_le_of_dvd_of_lt hf hAb hfb)
      (by omega) (by omega) hint
    have hf'A : cfg.alignment ∣ min e ((k + 1) * cfg.segmentSize) := by
      rcases min_choice e ((k + 1) * cfg.segmentSize) with h | h <;> rw [h]
      exacts [he, hAb]
    simp only [occupancyLoop, show (0 : Int) < ((e - f : Nat) : Int) by omega, if_true, ← hk,
      hpiece, hleft, hnext]
    rw [occupancyLoop_charges he hin _ hf'A (min_le_left _ _) (by omega) (by omega)]
    exact congrArg some (chargeSegments_advance s hkf hfb rfl hlt)

end Loop

/-! ## The occupancy update of both paths -/

section Update

variable {cfg : Config}

/-- The occupancy update charges every segment the bytes of the block it holds. -/
theorem updateOccupancy_eq_charge (hseg : cfg.backend = .segmented) {o n : Nat}
    (ho : cfg.alignment ∣ o) (hn : cfg.alignment ∣ n)
    (hin : o + n ≤ cfg.segmentSize * cfg.numSegments) (hint : n < 2 ^ 31) (add : Bool)
    (s : Heap) : s.updateOccupancy cfg add o n = some (s.chargeSegments cfg add o (o + n)) := by
  have h := @occupancyLoop_charges cfg add _ (Nat.dvd_add ho hn) hin loopBound o s ho
    (Nat.le_add_right o n) (by unfold loopBound; omega) (by omega)
  rw [Nat.add_sub_cancel_left] at h
  simpa [Heap.updateOccupancy, hseg, toInt_of_lt hint] using h

/-- The occupancy loop of `jmem_heap_alloc_block_internal_slow` (`add`) and of
`jmem_heap_free_block_internal`, for a block of `n` bytes at offset `o`, both whole numbers of
granules, inside the logical offset space, with `n < 2 ^ 31` so that `(int) size` is the size:
it terminates and adds to (or takes from) the `uint32_t` field `occupied_size` of every segment
exactly the bytes of the block it holds, with no other field changed; the charges add up to
`n`, so the count of bytes left ends at exactly `0`. -/
theorem updateOccupancy_charges (hseg : cfg.backend = .segmented) {o n : Nat}
    (ho : cfg.alignment ∣ o) (hn : cfg.alignment ∣ n)
    (hin : o + n ≤ cfg.segmentSize * cfg.numSegments) (hint : n < 2 ^ 31) (add : Bool)
    (s : Heap) :
    s.updateOccupancy cfg add o n = some (s.chargeSegments cfg add o (o + n)) ∧
      (Finset.range cfg.numSegments).sum (segmentOverlap cfg o (o + n)) = n := by
  refine ⟨updateOccupancy_eq_charge hseg ho hn hin hint add s, ?_⟩
  rw [sum_segmentOverlap o (o + n) (Nat.le_add_right o n)]
  have := Nat.mul_comm cfg.segmentSize cfg.numSegments
  omega

theorem updateOccupancy_charges_small :
    (Config.small .segmented).backend = .segmented ∧ (Config.small .segmented).alignment ∣ 24 ∧
      (Config.small .segmented).alignment ∣ 16 ∧
      24 + 16 ≤ (Config.small .segmented).segmentSize * (Config.small .segmented).numSegments ∧
      16 < 2 ^ 31 ∧
      (Heap.zero (fun _ ↦ 0) (fun _ ↦ 0)).updateOccupancy (Config.small .segmented) true 24 16 =
        some ((Heap.zero (fun _ ↦ 0) (fun _ ↦ 0)).chargeSegments (Config.small .segmented) true 24
          (24 + 16)) ∧
      (Finset.range (Config.small .segmented).numSegments).sum
        (segmentOverlap (Config.small .segmented) 24 (24 + 16)) = 16 :=
  ⟨rfl, by decide, by decide, by decide, by decide,
    updateOccupancy_charges rfl (by decide) (by decide) (by decide) (by decide) true _⟩

/-- `JMEM_ALIGNMENT` is below `2 ^ 31`, so `(int) JMEM_ALIGNMENT` is the granule: the segment
holds two granules at least, and the logical offset space fits in a `uint32_t`. -/
theorem Config.alignment_lt_pow_31 (cfg : Config) : cfg.alignment < 2 ^ 31 := by
  obtain ⟨c, hc⟩ := cfg.alignment_dvd_segmentSize
  have hlt := cfg.alignment_lt_segmentSize
  have hN := Nat.le_mul_of_pos_right cfg.segmentSize cfg.numSegments_pos
  have h32 := Nat.lt_trans cfg.segments_lt_endOfList cfg.endOfList_lt
  have h2 : cfg.alignment * 2 ≤ cfg.segmentSize := by
    rw [hc] at hlt ⊢
    exact Nat.mul_le_mul_left _ (Nat.lt_of_mul_lt_mul_left (by rwa [Nat.mul_one]))
  omega

/-- A granule at a granule-aligned offset lies inside one segment, the one
`block_offset / SEG_SEGMENT_SIZE` names. -/
theorem segmentOverlap_granule {o : Nat} (ho : cfg.alignment ∣ o) (i : Nat) :
    segmentOverlap cfg o (o + cfg.alignment) i =
      if i = o / cfg.segmentSize then cfg.alignment else 0 := by
  have hS := cfg.segmentSize_pos
  set k := o / cfg.segmentSize
  have hko : k * cfg.segmentSize ≤ o := Nat.div_mul_le_self o _
  have hok : o < (k + 1) * cfg.segmentSize := by
    rw [Nat.succ_mul]; exact Nat.lt_div_mul_add hS
  have hend := add_le_of_dvd_of_lt ho (Dvd.dvd.mul_left cfg.alignment_dvd_segmentSize _) hok
  unfold segmentOverlap
  split_ifs with hi
  · subst hi; omega
  · rcases Nat.lt_or_gt_of_ne hi with hlt | hgt
    · have : (i + 1) * cfg.segmentSize ≤ k * cfg.segmentSize := Nat.mul_le_mul_right _ hlt
      omega
    · have : (k + 1) * cfg.segmentSize ≤ i * cfg.segmentSize := Nat.mul_le_mul_right _ hgt
      omega

/-- Charging one granule is the fast path's single `occupied_size += JMEM_ALIGNMENT`. -/
theorem chargeSegments_granule {o : Nat} (ho : cfg.alignment ∣ o) (s : Heap) :
    s.chargeSegments cfg true o (o + cfg.alignment) = s.setOccupied (o / cfg.segmentSize)
      (occupiedUpdate true (s.occupied (o / cfg.segmentSize)) cfg.alignment) := by
  simp only [Heap.chargeSegments, Heap.setOccupied, segmentOverlap_granule ho]
  congr 1
  funext i
  by_cases hi : i = o / cfg.segmentSize
  · simp [hi, cfg.alignment_pos]
  · simp [hi]

/-- A block of `2 ^ 31` bytes or more, below `2 ^ 32`, starts the loop's count of bytes left
negative: no segment is charged. -/
theorem updateOccupancy_skips_large (hseg : cfg.backend = .segmented) {o n : Nat}
    (h₁ : 2 ^ 31 ≤ n) (h₂ : n < 2 ^ 32) (add : Bool) (s : Heap) :
    s.updateOccupancy cfg add o n = some s := by
  simp only [Heap.updateOccupancy, hseg, if_true, loopBound]
  simp [occupancyLoop, Int.not_lt.mpr (Int.le_of_lt (toInt_neg h₁ h₂))]

end Update

/-- A segmented build on a 32-bit target whose logical offset space is one segment of
`2 ^ 31` bytes. -/
def Config.wide : Config where
  backend := .segmented
  alignmentLog := 3
  heapSize := 2 ^ 31
  areaSize := 2 ^ 31
  desiredLimit := 32
  endOfList := 2 ^ 32 - 1
  segmentSize := 2 ^ 31
  numSegments := 1
  metadataSize := 4
  systemAlignBytes := 8
  sizeBits := 32
  gcBeforeEachAlloc := false
  lazyGc := false
  stats := false
  areaBase := 4096
  firstAddr := 4088
  alignmentLog_ge := by decide
  alignmentLog_lt := by decide
  areaSize_dvd := by decide
  areaSize_pos := by decide
  areaSize_lt_endOfList := by decide
  endOfList_lt := by decide
  desiredLimit_pos := by decide
  firstAddr_lt := by decide
  areaBase_dvd := by decide
  areaBase_add_le h := absurd rfl h
  segmentSize_dvd := by decide
  alignment_lt_segmentSize := by decide
  numSegments_pos := by decide
  segments_lt_endOfList := by decide

/-- On that build the block `[0, 2 ^ 31)` fills the logical offset space and is a whole number
of granules, and segment 0 holds all of its bytes; yet the occupancy loop charges it nothing. -/
theorem occupancy_skips_half_space :
    segmentOverlap Config.wide 0 (2 ^ 31) 0 = 2 ^ 31 ∧
      ((Heap.zero (fun _ ↦ 0) (fun _ ↦ 0)).updateOccupancy Config.wide true 0 (2 ^ 31)).map
        (·.occupied 0) = some 0 := by
  decide

end JmemHeap
