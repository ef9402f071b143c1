import JmemHeap.Accounting

/-!
# The free list as a list of regions

What the allocator keeps, abstractly: the free regions of the area as a list of
`(offset, size)` pairs in address order, no two of them touching. Allocation carves a block
from the start of a region and leaves the rest in its place; free returns a region between
the regions below it and those above it, merged with a neighbour it touches. `cover` counts
how many regions hold a byte, which is how the partition of the area between free regions and
live blocks is stated.
-/

namespace JmemHeap

/-- A free region: its offset in the area and its size in bytes. -/
structure Region where
  off : Nat
  size : Nat
  deriving DecidableEq, Repr

namespace Region

/-- `r` ends strictly before `r'` starts: the two are in address order and do not touch. -/
def Before (r r' : Region) : Prop := r.off + r.size < r'.off

instance (r r' : Region) : Decidable (Before r r') := inferInstanceAs (Decidable (_ < _))

/-- `1` when the region holds the byte at offset `x`, `0` otherwise. -/
def ind (r : Region) (x : Nat) : Nat := if r.off ≤ x ∧ x < r.off + r.size then 1 else 0

theorem Before.trans {r r' r'' : Region} (h : Before r r') (h' : Before r' r'') : Before r r'' := by
  unfold Before at *; omega

/-- Two regions that touch hold, together, what their union holds. -/
theorem ind_merge {r q : Region} (h : r.off + r.size = q.off) (x : Nat) :
    (⟨r.off, r.size + q.size⟩ : Region).ind x = r.ind x + q.ind x := by
  unfold ind; dsimp only; split_ifs <;> omega

theorem ind_le_one (r : Region) (x : Nat) : r.ind x ≤ 1 := by
  unfold ind; split_ifs <;> omega

/-- Two regions that never hold a byte together do not overlap. -/
theorem disjoint_of_ind {r q : Region} (hr : 0 < r.size) (hq : 0 < q.size)
    (h : ∀ x, r.ind x + q.ind x ≤ 1) : r.off + r.size ≤ q.off ∨ q.off + q.size ≤ r.off := by
  by_contra hc
  have := h (if r.off ≤ q.off then q.off else r.off)
  unfold ind at this
  split_ifs at this <;> omega

end Region

open Region

/-- How many of the regions `L` hold the byte at offset `x`. -/
def cover (L : List Region) (x : Nat) : Nat := (L.map (·.ind x)).sum

@[simp] theorem cover_nil (x : Nat) : cover [] x = 0 := rfl

@[simp] theorem cover_cons (r : Region) (L : List Region) (x : Nat) :
    cover (r :: L) x = r.ind x + cover L x := by simp [cover]

@[simp] theorem cover_append (L L' : List Region) (x : Nat) :
    cover (L ++ L') x = cover L x + cover L' x := by simp [cover]

theorem ind_le_cover {r : Region} {L : List Region} (h : r ∈ L) (x : Nat) : r.ind x ≤ cover L x := by
  induction L with
  | nil => cases h
  | cons q L ih =>
    rcases List.mem_cons.mp h with rfl | h
    · simp
    · have := ih h; simp; omega

/-- A stretch of bytes that no region of the address-ordered list `L` holds cuts `L` into the
regions below it and the regions above it. -/
theorem exists_split {b : Region} (hb : 0 < b.size) :
    ∀ {L : List Region}, L.Pairwise Before → (∀ r ∈ L, 0 < r.size) →
      (∀ x, b.ind x + cover L x ≤ 1) →
      ∃ pre post, L = pre ++ post ∧ (∀ q ∈ pre, q.off + q.size ≤ b.off) ∧
        ∀ q ∈ post, b.off + b.size ≤ q.off
  | [], _, _, _ => ⟨[], [], rfl, by simp, by simp⟩
  | r :: L, hL, hpos, h => by
    rw [List.pairwise_cons] at hL
    have hr := hpos r (List.mem_cons_self r L)
    rcases disjoint_of_ind hb hr fun x ↦ by have := h x; simp only [cover_cons] at this; omega
      with hbr | hrb
    · refine ⟨[], r :: L, rfl, by simp, ?_⟩
      simp only [List.mem_cons, forall_eq_or_imp]
      exact ⟨hbr, fun q hq ↦ by have := hL.1 q hq; unfold Before at this; omega⟩
    · obtain ⟨pre, post, rfl, hpre, hpost⟩ := exists_split hb hL.2
        (fun q hq ↦ hpos q (List.mem_cons_of_mem r hq))
        fun x ↦ by have := h x; simp only [cover_cons] at this; omega
      refine ⟨r :: pre, post, rfl, ?_, hpost⟩
      simp only [List.mem_cons, forall_eq_or_imp]
      exact ⟨hrb, hpre⟩

/-- Address-ordered regions that start between `lo` and `hi` number at most `hi - lo`. -/
theorem length_le_of_pairwise :
    ∀ {L : List Region} {lo hi : Nat}, L.Pairwise Before →
      (∀ r ∈ L, lo ≤ r.off ∧ r.off < hi) → L.length ≤ hi - lo
  | [], _, _, _, _ => Nat.zero_le _
  | r :: L, lo, hi, hL, hb => by
    rw [List.pairwise_cons] at hL
    have hr := hb r (List.mem_cons_self r L)
    have := @length_le_of_pairwise L (lo + 1) hi hL.2 fun q hq ↦ by
      have := hb q (List.mem_cons_of_mem r hq)
      have := hL.1 q hq
      unfold Before at this
      omega
    simp only [List.length_cons]
    omega

/-! ## Carving a block -/

/-- The rest of the region `r` once a block of `requiredSize` bytes is carved from its
start: nothing on an exact fit. -/
def carve (requiredSize : Nat) (r : Region) : List Region :=
  if requiredSize < r.size then [⟨r.off + requiredSize, r.size - requiredSize⟩] else []

/-- The block and the rest of the region hold what the region held. -/
theorem cover_carve {requiredSize : Nat} {r : Region} (h : requiredSize ≤ r.size) (x : Nat) :
    cover (carve requiredSize r) x + (⟨r.off, requiredSize⟩ : Region).ind x = r.ind x := by
  unfold carve
  split_ifs <;> simp only [cover_cons, cover_nil, ind] <;> split_ifs <;> omega

theorem mem_carve {requiredSize : Nat} {r q : Region} (h : q ∈ carve requiredSize r) :
    q = ⟨r.off + requiredSize, r.size - requiredSize⟩ ∧ requiredSize < r.size := by
  unfold carve at h; split_ifs at h with hlt
  · exact ⟨List.mem_singleton.mp h, hlt⟩
  · cases h

theorem pairwise_carve {pre post : List Region} {r : Region} {requiredSize : Nat}
    (h : (pre ++ r :: post).Pairwise Before) :
    (pre ++ carve requiredSize r ++ post).Pairwise Before := by
  simp only [List.pairwise_append, List.pairwise_cons, List.mem_append, List.mem_cons] at h ⊢
  obtain ⟨hpre, ⟨hr, hpost⟩, hcross⟩ := h
  refine ⟨⟨hpre, ?_, ?_⟩, hpost, ?_⟩
  · unfold carve; split_ifs <;> simp
  · intro a ha b hb
    obtain ⟨rfl, -⟩ := mem_carve hb
    have := hcross a ha r (.inl rfl); unfold Before at *; dsimp only; omega
  · rintro a (ha | ha) b hb
    · exact hcross a ha b (.inr hb)
    · obtain ⟨rfl, hlt⟩ := mem_carve ha
      have := hr b hb; unfold Before at *; dsimp only; omega

/-! ## Returning a region -/

/-- The region `b` followed by the regions `post`, merged with the first of them when it
starts where `b` ends. -/
def mergeNext (b : Region) : List Region → List Region
  | q :: post => if b.off + b.size = q.off then ⟨b.off, b.size + q.size⟩ :: post else b :: q :: post
  | [] => [b]

/-- The free list after the region `b` is returned between the regions `pre` below it and
`post` above it: merged into the last region of `pre` when that one ends where `b` starts,
and then with the first region of `post` when it starts where the result ends. -/
def insertRegion (pre : List Region) (b : Region) (post : List Region) : List Region :=
  match pre.getLast? with
  | some q =>
    if q.off + q.size = b.off then pre.dropLast ++ mergeNext ⟨q.off, q.size + b.size⟩ post
    else pre ++ mergeNext b post
  | none => mergeNext b post

theorem insertRegion_nil (b : Region) (post : List Region) :
    insertRegion [] b post = mergeNext b post := rfl

theorem insertRegion_snoc (pre : List Region) (q b : Region) (post : List Region) :
    insertRegion (pre ++ [q]) b post =
      if q.off + q.size = b.off then pre ++ mergeNext ⟨q.off, q.size + b.size⟩ post
      else pre ++ q :: mergeNext b post := by
  simp [insertRegion]

theorem cover_mergeNext (b : Region) (post : List Region) (x : Nat) :
    cover (mergeNext b post) x = b.ind x + cover post x := by
  cases post with
  | nil => simp [mergeNext]
  | cons q post =>
    simp only [mergeNext]
    split_ifs with h
    · simp [ind_merge h]; omega
    · simp

/-- The returned region adds what it holds, merged or not. -/
theorem cover_insertRegion (pre : List Region) (b : Region) (post : List Region) (x : Nat) :
    cover (insertRegion pre b post) x = cover pre x + b.ind x + cover post x := by
  rcases List.eq_nil_or_concat pre with rfl | ⟨pre, q, rfl⟩
  · simp [insertRegion_nil, cover_mergeNext]
  · rw [List.concat_eq_append, insertRegion_snoc]
    split_ifs with h
    · simp [cover_mergeNext, ind_merge h]; omega
    · simp [cover_mergeNext]; omega

/-- What holds of `b` and of every region of `post`, and is kept by merging, holds of every
region of `mergeNext b post`. -/
theorem forall_mem_mergeNext {P : Region → Prop}
    (hmerge : ∀ r q, P r → P q → P ⟨r.off, r.size + q.size⟩) {b : Region} {post : List Region}
    (hb : P b) (hpost : ∀ q ∈ post, P q) : ∀ y ∈ mergeNext b post, P y := by
  cases post with
  | nil => simpa [mergeNext] using hb
  | cons q post =>
    simp only [List.mem_cons, forall_eq_or_imp] at hpost
    simp only [mergeNext]
    split_ifs
    · simpa using ⟨hmerge b q hb hpost.1, hpost.2⟩
    · simpa using ⟨hb, hpost.1, hpost.2⟩

theorem forall_mem_insertRegion {P : Region → Prop}
    (hmerge : ∀ r q, P r → P q → P ⟨r.off, r.size + q.size⟩) {pre post : List Region} {b : Region}
    (hpre : ∀ q ∈ pre, P q) (hb : P b) (hpost : ∀ q ∈ post, P q) :
    ∀ y ∈ insertRegion pre b post, P y := by
  rcases List.eq_nil_or_concat pre with rfl | ⟨pre, q, rfl⟩
  · exact forall_mem_mergeNext hmerge hb hpost
  · rw [List.concat_eq_append] at hpre ⊢
    rw [insertRegion_snoc]
    simp only [List.mem_append, List.mem_singleton] at hpre
    have hq := hpre q (.inr rfl)
    split_ifs
    · simpa [or_imp, forall_and] using
        ⟨fun y hy ↦ hpre y (.inl hy), forall_mem_mergeNext hmerge (hmerge q b hq hb) hpost⟩
    · simpa [or_imp, forall_and] using
        ⟨fun y hy ↦ hpre y (.inl hy), hq, forall_mem_mergeNext hmerge hb hpost⟩

/-- The first region of `mergeNext b post` starts where `b` does. -/
theorem exists_off_mergeNext (b : Region) (post : List Region) :
    ∃ y ∈ mergeNext b post, y.off = b.off := by
  cases post with
  | nil => exact ⟨b, by simp [mergeNext], rfl⟩
  | cons q post =>
    simp only [mergeNext]
    split_ifs
    · exact ⟨_, List.mem_cons_self _ _, rfl⟩
    · exact ⟨b, List.mem_cons_self _ _, rfl⟩

/-- The last region below the returned one still starts a region afterwards, merged or not. -/
theorem exists_off_insertRegion (pre : List Region) (q b : Region) (post : List Region) :
    ∃ y ∈ insertRegion (pre ++ [q]) b post, y.off = q.off := by
  rw [insertRegion_snoc]
  split_ifs
  · obtain ⟨y, hy, hoff⟩ := exists_off_mergeNext ⟨q.off, q.size + b.size⟩ post
    exact ⟨y, List.mem_append_right _ hy, hoff⟩
  · exact ⟨q, by simp, rfl⟩

/-- With no touching region below it, the returned region is only merged upwards. -/
theorem insertRegion_of_not_touch {pre post : List Region} {b : Region}
    (h : ∀ q ∈ pre.getLast?, q.off + q.size ≠ b.off) :
    insertRegion pre b post = pre ++ mergeNext b post := by
  unfold insertRegion
  split
  · rename_i q hq
    rw [if_neg (h q hq)]
  · rename_i hq
    rw [List.getLast?_eq_none_iff.mp hq, List.nil_append]

theorem off_le_of_mem_mergeNext {b y : Region} {post : List Region}
    (hge : ∀ q ∈ post, b.off + b.size ≤ q.off) (hy : y ∈ mergeNext b post) : b.off ≤ y.off := by
  cases post with
  | nil => simp [mergeNext] at hy; rw [hy]
  | cons q post =>
    simp only [mergeNext] at hy
    split_ifs at hy
    · rcases List.mem_cons.mp hy with rfl | hy
      · exact le_rfl
      · have := hge y (List.mem_cons_of_mem q hy); omega
    · rcases List.mem_cons.mp hy with rfl | hy
      · exact le_rfl
      · have := hge y hy; omega

theorem pairwise_mergeNext {b : Region} {post : List Region} (hpost : post.Pairwise Before)
    (hge : ∀ q ∈ post, b.off + b.size ≤ q.off) : (mergeNext b post).Pairwise Before := by
  cases post with
  | nil => simp [mergeNext]
  | cons q post =>
    rw [List.pairwise_cons] at hpost
    simp only [mergeNext]
    split_ifs with h
    · refine List.pairwise_cons.mpr ⟨fun y hy ↦ ?_, hpost.2⟩
      have := hpost.1 y hy; unfold Before at *; dsimp only; omega
    · have hq := hge q (List.mem_cons_self q post)
      refine List.pairwise_cons.mpr ⟨fun y hy ↦ ?_, List.pairwise_cons.mpr hpost⟩
      rcases List.mem_cons.mp hy with rfl | hy
      · unfold Before; omega
      · have := hpost.1 y hy; unfold Before at *; omega

/-- Returning a region of positive size that lies between `pre` and `post` keeps the list in
address order with no two regions touching. -/
theorem pairwise_insertRegion {pre post : List Region} {b : Region}
    (hpre : pre.Pairwise Before) (hpost : post.Pairwise Before)
    (hle : ∀ q ∈ pre, q.off + q.size ≤ b.off) (hge : ∀ q ∈ post, b.off + b.size ≤ q.off) :
    (insertRegion pre b post).Pairwise Before := by
  rcases List.eq_nil_or_concat pre with rfl | ⟨pre, q, rfl⟩
  · exact pairwise_mergeNext hpost hge
  · rw [List.concat_eq_append] at hpre hle
    rw [List.concat_eq_append, insertRegion_snoc]
    have hq := hle q (by simp)
    simp only [List.pairwise_append, List.mem_singleton, List.pairwise_cons] at hpre
    obtain ⟨hpre, -, hcross⟩ := hpre
    split_ifs with h
    · refine List.pairwise_append.mpr ⟨hpre, pairwise_mergeNext hpost fun q' hq' ↦ ?_,
        fun a ha y hy ↦ ?_⟩
      · have := hge q' hq'; dsimp only; omega
      · have h₁ := hcross a ha q rfl
        have h₂ := off_le_of_mem_mergeNext (b := ⟨q.off, q.size + b.size⟩)
          (fun q' hq' ↦ by have := hge q' hq'; dsimp only; omega) hy
        unfold Before at *; dsimp only at h₂; omega
    · have hm := pairwise_mergeNext hpost hge
      rw [← List.singleton_append, ← List.append_assoc]
      refine List.pairwise_append.mpr ⟨List.pairwise_append.mpr ⟨hpre, by simp,
        fun a ha b hb ↦ hcross a ha b (List.mem_singleton.mp hb)⟩, hm,
        fun a ha y hy ↦ ?_⟩
      have h₂ := off_le_of_mem_mergeNext hge hy
      rcases List.mem_append.mp ha with ha | ha
      · have := hcross a ha q rfl; unfold Before at *; omega
      · rw [List.mem_singleton.mp ha]; unfold Before; omega

end JmemHeap
