import Mathlib

/-!
# Build configuration of the heap allocator

`jmem-heap.c` is compiled once per configuration: a backend (`JMEM_STATIC_HEAP`,
`JMEM_SEGMENTED_HEAP`, `JMEM_DYNAMIC_HEAP_EMUL` with or without `DE_SLAB`, or
`JERRY_SYSTEM_ALLOCATOR`), a handful of policy switches and the constants the headers
define. A `Config` holds all of them, together with the facts about the constants that the
headers and the build guarantee, so that no proof has to assume them again.

The constants whose definitions are not in the source (`JMEM_ALIGNMENT_LOG`,
`JMEM_HEAP_AREA_SIZE`, `JMEM_HEAP_END_OF_LIST`, the segment sizes, …) are parameters; the
sentinel is only required to lie above every offset of the area, which is what the spec
says of it ("distinct from any legal offset").

Arithmetic on `size_t` wraps modulo `2 ^ sizeBits`. Here that matters for the rounding
`(size + JMEM_ALIGNMENT - 1) / JMEM_ALIGNMENT * JMEM_ALIGNMENT`, kept as `Config.roundUp`
with its wrap-around, and for the counters that a caller's size reaches unrounded (see
`Context`).

Pointer arithmetic wraps too, at the host's pointer width. The static codec decompresses an
offset as `JERRY_HEAP_CONTEXT (area) + cp`; a build is modelled when this sum does not wrap
for any `uint32_t` offset, `JMEM_HEAP_END_OF_LIST` included (`Config.areaBase_add_le`), as on
a host with 64-bit pointers whose area does not sit in the top 4 GiB of the address space.
On a host with 32-bit pointers `JMEM_HEAP_END_OF_LIST` decompresses to `area - 1`, a header
that overlaps `first` and the first granule of the area; the model keeps the two header
fields of every address apart and does not describe such a build.
-/

namespace JmemHeap

/-- The allocator backends of `jmem-heap.c`, selected at compile time. -/
inductive Backend where
  /-- `JMEM_STATIC_HEAP`: one statically reserved area. -/
  | static
  /-- `JMEM_SEGMENTED_HEAP`: up to `SEG_NUM_SEGMENTS` segments acquired on demand. -/
  | segmented
  /-- `JMEM_DYNAMIC_HEAP_EMUL`, with `DE_SLAB` when `slab` holds. -/
  | dynamicEmul (slab : Bool)
  /-- `JERRY_SYSTEM_ALLOCATOR`: every block comes from the platform `malloc`. -/
  | system
  deriving DecidableEq, Repr

namespace Backend

/-- `JMEM_DYNAMIC_HEAP_EMUL` is defined. -/
def isDynamicEmul : Backend → Bool
  | .dynamicEmul _ => true
  | _ => false

/-- `DE_SLAB` is defined (it only has an effect on the dynamic-emulation backend). -/
def slab : Backend → Bool
  | .dynamicEmul s => s
  | _ => false

end Backend

/-- A build of the allocator: backend, switches, constants, and the facts the build
guarantees about the constants. -/
structure Config where
  backend : Backend
  /-- `JMEM_ALIGNMENT_LOG`; `JMEM_ALIGNMENT` is `1 << JMEM_ALIGNMENT_LOG`. -/
  alignmentLog : Nat
  /-- `JMEM_HEAP_SIZE`. -/
  heapSize : Nat
  /-- `JMEM_HEAP_AREA_SIZE`, the bytes of `JERRY_HEAP_CONTEXT (area)`. -/
  areaSize : Nat
  /-- `CONFIG_MEM_HEAP_DESIRED_LIMIT`. -/
  desiredLimit : Nat
  /-- `JMEM_HEAP_END_OF_LIST`, the offset that ends the free list. -/
  endOfList : Nat
  /-- `SEG_SEGMENT_SIZE`. -/
  segmentSize : Nat
  /-- `SEG_NUM_SEGMENTS`. -/
  numSegments : Nat
  /-- `SYSTEM_ALLOCATOR_METADATA_SIZE`. -/
  metadataSize : Nat
  /-- `SYSTEM_ALLOCATOR_ALIGN_BYTES`. -/
  systemAlignBytes : Nat
  /-- The width of `size_t` in bits. -/
  sizeBits : Nat
  /-- `JMEM_GC_BEFORE_EACH_ALLOC`. -/
  gcBeforeEachAlloc : Bool
  /-- `JMEM_LAZY_GC`. -/
  lazyGc : Bool
  /-- `JMEM_STATS`. -/
  stats : Bool
  /-- The host address of `JERRY_HEAP_CONTEXT (area)`. -/
  areaBase : Nat
  /-- The host address of `JERRY_HEAP_CONTEXT (first)`, which precedes the area. -/
  firstAddr : Nat
  /-- A granule holds a whole `jmem_heap_free_t` header (two `uint32_t` fields). -/
  alignmentLog_ge : 3 ≤ alignmentLog
  alignmentLog_lt : alignmentLog < sizeBits
  areaSize_dvd : 2 ^ alignmentLog ∣ areaSize
  areaSize_pos : 0 < areaSize
  areaSize_lt_endOfList : areaSize < endOfList
  endOfList_lt : endOfList < 2 ^ 32
  desiredLimit_pos : 0 < desiredLimit
  firstAddr_lt : firstAddr < areaBase
  /-- `jmem_heap_init` asserts `(uintptr_t) JERRY_HEAP_CONTEXT (area) % JMEM_ALIGNMENT == 0`. -/
  areaBase_dvd : 2 ^ alignmentLog ∣ areaBase
  /-- Off the segmented backend, `JERRY_HEAP_CONTEXT (area) + cp` does not wrap around for
  any `uint32_t` offset `cp`. -/
  areaBase_add_le : backend ≠ .segmented → areaBase + 2 ^ 32 ≤ 2 ^ sizeBits
  segmentSize_dvd : 2 ^ alignmentLog ∣ segmentSize
  alignment_lt_segmentSize : 2 ^ alignmentLog < segmentSize
  numSegments_pos : 0 < numSegments
  segments_lt_endOfList : segmentSize * numSegments < endOfList

namespace Config

variable (cfg : Config)

/-- `JMEM_ALIGNMENT`. -/
def alignment : Nat := 2 ^ cfg.alignmentLog

/-- `((x + g - 1) / g) * g` computed in `size_t`: the sum wraps modulo `2 ^ sizeBits`. -/
def roundUp (g x : Nat) : Nat := (x + g - 1) % 2 ^ cfg.sizeBits / g * g

/-- The rounding of a request to whole granules that every path of `jmem-heap.c` writes as
`(size + JMEM_ALIGNMENT - 1) / JMEM_ALIGNMENT * JMEM_ALIGNMENT`. -/
def alignUp (n : Nat) : Nat := cfg.roundUp cfg.alignment n

/-- A request whose rounding does not wrap around: `n + JMEM_ALIGNMENT - 1 ≤ SIZE_MAX`. -/
def NoWrap (n : Nat) : Prop := n + (cfg.alignment - 1) < 2 ^ cfg.sizeBits

instance (n : Nat) : Decidable (cfg.NoWrap n) := inferInstanceAs (Decidable (_ < _))

/-- The least multiple of `CONFIG_MEM_HEAP_DESIRED_LIMIT` strictly above `b`. -/
def limitAbove (b : Nat) : Nat := (b / cfg.desiredLimit + 1) * cfg.desiredLimit

/-- The least multiple of `CONFIG_MEM_HEAP_DESIRED_LIMIT` that is at least `b`. -/
def limitAtLeast (b : Nat) : Nat := (b + cfg.desiredLimit - 1) / cfg.desiredLimit * cfg.desiredLimit

/-! ## Granules -/

theorem alignment_pos : 0 < cfg.alignment := Nat.pos_pow_of_pos _ (by decide)

theorem eight_le_alignment : 8 ≤ cfg.alignment :=
  calc 8 = 2 ^ 3 := rfl
    _ ≤ 2 ^ cfg.alignmentLog := Nat.pow_le_pow_right (by decide) cfg.alignmentLog_ge

theorem alignment_dvd_size : cfg.alignment ∣ 2 ^ cfg.sizeBits :=
  Nat.pow_dvd_pow 2 (Nat.le_of_lt cfg.alignmentLog_lt)

theorem alignment_dvd_areaSize : cfg.alignment ∣ cfg.areaSize := cfg.areaSize_dvd

theorem alignment_le_areaSize : cfg.alignment ≤ cfg.areaSize :=
  Nat.le_of_dvd cfg.areaSize_pos cfg.areaSize_dvd

theorem alignment_dvd_areaBase : cfg.alignment ∣ cfg.areaBase := cfg.areaBase_dvd

theorem alignment_dvd_segmentSize : cfg.alignment ∣ cfg.segmentSize := cfg.segmentSize_dvd

theorem segmentSize_pos : 0 < cfg.segmentSize :=
  Nat.lt_of_le_of_lt (Nat.zero_le _) cfg.alignment_lt_segmentSize

theorem areaSize_lt_size32 : cfg.areaSize < 2 ^ 32 :=
  Nat.lt_trans cfg.areaSize_lt_endOfList cfg.endOfList_lt

/-! ## Rounding to granules -/

variable {cfg}

theorem alignUp_def (n : Nat) :
    cfg.alignUp n = (n + cfg.alignment - 1) % 2 ^ cfg.sizeBits / cfg.alignment * cfg.alignment :=
  rfl

theorem alignment_dvd_alignUp (n : Nat) : cfg.alignment ∣ cfg.alignUp n :=
  Nat.dvd_mul_left _ _

theorem alignUp_lt_size (n : Nat) : cfg.alignUp n < 2 ^ cfg.sizeBits :=
  Nat.lt_of_le_of_lt (Nat.div_mul_le_self _ _) (Nat.mod_lt _ (Nat.two_pow_pos _))

theorem alignUp_of_noWrap {n : Nat} (h : cfg.NoWrap n) :
    cfg.alignUp n = (n + cfg.alignment - 1) / cfg.alignment * cfg.alignment := by
  have := cfg.alignment_pos
  rw [alignUp_def, Nat.mod_eq_of_lt (by unfold NoWrap at h; omega)]

theorem le_alignUp {n : Nat} (h : cfg.NoWrap n) : n ≤ cfg.alignUp n := by
  have hA := cfg.alignment_pos
  have : n + cfg.alignment - 1 <
      (n + cfg.alignment - 1) / cfg.alignment * cfg.alignment + cfg.alignment :=
    Nat.lt_div_mul_add hA
  rw [alignUp_of_noWrap h]
  omega

theorem alignUp_lt {n : Nat} (h : cfg.NoWrap n) : cfg.alignUp n < n + cfg.alignment := by
  have hA := cfg.alignment_pos
  have := Nat.div_mul_le_self (n + cfg.alignment - 1) cfg.alignment
  rw [alignUp_of_noWrap h]
  omega

/-- A request of at least one byte whose rounding does not wrap takes at least a granule. -/
theorem alignment_le_alignUp {n : Nat} (h0 : 0 < n) (h : cfg.NoWrap n) :
    cfg.alignment ≤ cfg.alignUp n := by
  obtain ⟨k, hk⟩ : cfg.alignment ∣ cfg.alignUp n := alignment_dvd_alignUp n
  have := le_alignUp h
  rw [hk] at this ⊢
  rcases k with _ | k
  · omega
  · exact Nat.le_mul_of_pos_right _ (Nat.succ_pos k)

theorem noWrap_of_dvd {n : Nat} (hd : cfg.alignment ∣ n) (h : n < 2 ^ cfg.sizeBits) :
    cfg.NoWrap n := by
  obtain ⟨a, ha⟩ := hd
  obtain ⟨b, hb⟩ := cfg.alignment_dvd_size
  have hA := cfg.alignment_pos
  have : a < b := by
    rw [ha, hb] at h
    exact Nat.lt_of_mul_lt_mul_left h
  have : cfg.alignment * (a + 1) ≤ cfg.alignment * b := Nat.mul_le_mul_left _ this
  unfold NoWrap
  rw [Nat.mul_succ] at this
  omega

/-- A whole number of granules is its own rounding. -/
theorem alignUp_of_dvd {n : Nat} (hd : cfg.alignment ∣ n) (h : n < 2 ^ cfg.sizeBits) :
    cfg.alignUp n = n := by
  obtain ⟨a, rfl⟩ := hd
  have hA := cfg.alignment_pos
  rw [alignUp_of_noWrap (noWrap_of_dvd (Nat.dvd_mul_right _ _) h),
    show cfg.alignment * a + cfg.alignment - 1 = (cfg.alignment - 1) + cfg.alignment * a by omega,
    Nat.add_mul_div_left _ _ hA, Nat.div_eq_of_lt (by omega), Nat.zero_add, Nat.mul_comm]

/-- Rounding twice is rounding once, wrap-around included: this is why the size that
`jmem_heap_gc_and_alloc_block` rounds before passing it on is recorded unchanged. -/
@[simp] theorem alignUp_alignUp (n : Nat) : cfg.alignUp (cfg.alignUp n) = cfg.alignUp n :=
  alignUp_of_dvd (alignment_dvd_alignUp n) (alignUp_lt_size n)

/-- The last `JMEM_ALIGNMENT - 1` values of `size_t` round to `0`. -/
theorem alignUp_eq_zero_of_wrap {n : Nat} (hw : ¬ cfg.NoWrap n) (h : n < 2 ^ cfg.sizeBits) :
    cfg.alignUp n = 0 := by
  have hA := cfg.alignment_pos
  have := Nat.le_of_dvd (Nat.two_pow_pos _) cfg.alignment_dvd_size
  unfold NoWrap at hw
  rw [alignUp_def, Nat.mod_eq_sub_mod (by omega), Nat.mod_eq_of_lt (by omega),
    Nat.div_eq_of_lt (by omega), Nat.zero_mul]

/-! ## A small build

A build with 8-byte granules, a 256-byte static area at host address 4096 right behind
`first`, four 32-byte segments and a desired limit of 32 bytes, with statistics on: small
enough to evaluate the model on concrete runs. -/

/-- The small build of the allocator for `backend`. -/
def small (backend : Backend) : Config where
  backend := backend
  alignmentLog := 3
  heapSize := 264
  areaSize := 256
  desiredLimit := 32
  endOfList := 2 ^ 32 - 1
  segmentSize := 32
  numSegments := 4
  metadataSize := 4
  systemAlignBytes := 8
  sizeBits := 64
  gcBeforeEachAlloc := false
  lazyGc := false
  stats := true
  areaBase := 4096
  firstAddr := 4088
  alignmentLog_ge := by decide
  alignmentLog_lt := by decide
  areaSize_dvd := by decide
  areaSize_pos := by decide
  areaSize_lt_endOfList := by decide
  endOfList_lt := by decide
  desiredLimit_pos := by decide
  firstAddr_lt := by decide
  areaBase_dvd := by decide
  areaBase_add_le _ := by decide
  segmentSize_dvd := by decide
  alignment_lt_segmentSize := by decide
  numSegments_pos := by decide
  segments_lt_endOfList := by decide

end Config

/-- The static and dynamic-emulation backends keep one contiguous area. -/
theorem ne_of_contiguous {cfg : Config} (hb : cfg.backend = .static ∨ cfg.backend.isDynamicEmul) :
    cfg.backend ≠ .system ∧ cfg.backend ≠ .segmented := by
  rcases hb with h | h
  · simp [h]
  · revert h; cases cfg.backend <;> simp [Backend.isDynamicEmul]

end JmemHeap
