import JmemHeap.Accounting

/-!
# The soft limit

`jmem_heap_limit` is moved by two loops in steps of `CONFIG_MEM_HEAP_DESIRED_LIMIT`: after
every allocation attempt it is raised until it is strictly above `jmem_heap_blocks_size`,
after every free it is lowered while a whole step fits above `jmem_heap_blocks_size`. Both
loops land on the one multiple of the step in a window of one step, which is what
`LimitInv` keeps: the limit is a multiple of the step and lies within one step above the
live byte count. On the system allocator neither loop runs and the limit is never set.
-/

namespace JmemHeap

/-! ## Multiples of the step -/

section Window

variable {D x y a : Nat}

/-- Two multiples of `D` in one window of `D` consecutive numbers are equal. -/
theorem eq_of_dvd_window (hx : D ∣ x) (hy : D ∣ y) (hax : a ≤ x) (hxa : x < a + D)
    (hay : a ≤ y) (hya : y < a + D) : x = y := by
  obtain ⟨i, rfl⟩ := hx
  obtain ⟨j, rfl⟩ := hy
  rcases Nat.lt_trichotomy i j with h | rfl | h
  · have := Nat.mul_le_mul_left D h
    rw [Nat.mul_succ] at this
    omega
  · rfl
  · have := Nat.mul_le_mul_left D h
    rw [Nat.mul_succ] at this
    omega

/-- The next multiple of `D` above a multiple of `D` is at least one step higher. -/
theorem add_le_of_dvd_of_lt (hx : D ∣ x) (hy : D ∣ y) (h : x < y) : x + D ≤ y := by
  obtain ⟨i, rfl⟩ := hx
  obtain ⟨j, rfl⟩ := hy
  have := Nat.mul_le_mul_left D (Nat.lt_of_mul_lt_mul_left h)
  rwa [Nat.mul_succ] at this

end Window

namespace Config

variable (cfg : Config) (b : Nat)

theorem dvd_limitAbove : cfg.desiredLimit ∣ cfg.limitAbove b := Nat.dvd_mul_left _ _

theorem lt_limitAbove : b < cfg.limitAbove b := by
  have := Nat.lt_div_mul_add (a := b) cfg.desiredLimit_pos
  simp only [limitAbove, Nat.succ_mul]
  omega

theorem limitAbove_le : cfg.limitAbove b ≤ b + cfg.desiredLimit := by
  have := Nat.div_mul_le_self b cfg.desiredLimit
  simp only [limitAbove, Nat.succ_mul]
  omega

theorem dvd_limitAtLeast : cfg.desiredLimit ∣ cfg.limitAtLeast b := Nat.dvd_mul_left _ _

theorem le_limitAtLeast : b ≤ cfg.limitAtLeast b := by
  have := Nat.lt_div_mul_add (a := b + cfg.desiredLimit - 1) cfg.desiredLimit_pos
  have := cfg.desiredLimit_pos
  simp only [limitAtLeast]
  omega

theorem limitAtLeast_lt : cfg.limitAtLeast b < b + cfg.desiredLimit := by
  have := Nat.div_mul_le_self (b + cfg.desiredLimit - 1) cfg.desiredLimit
  have := cfg.desiredLimit_pos
  simp only [limitAtLeast]
  omega

/-- A multiple of the step within one step above `b` is `limitAbove b`. -/
theorem eq_limitAbove {l : Nat} (hl : cfg.desiredLimit ∣ l) (hbl : b < l)
    (hlb : l ≤ b + cfg.desiredLimit) : l = cfg.limitAbove b :=
  eq_of_dvd_window hl (cfg.dvd_limitAbove b) hbl (by omega) (cfg.lt_limitAbove b)
    (by have := cfg.limitAbove_le b; omega)

/-- A multiple of the step in `[b, b + step)` is `limitAtLeast b`. -/
theorem eq_limitAtLeast {l : Nat} (hl : cfg.desiredLimit ∣ l) (hbl : b ≤ l)
    (hlb : l < b + cfg.desiredLimit) : l = cfg.limitAtLeast b :=
  eq_of_dvd_window hl (cfg.dvd_limitAtLeast b) hbl hlb (cfg.le_limitAtLeast b)
    (cfg.limitAtLeast_lt b)

theorem limitAtLeast_eq_zero_iff : cfg.limitAtLeast b = 0 ↔ b = 0 := by
  constructor
  · intro h; have := cfg.le_limitAtLeast b; omega
  · rintro rfl
    exact (cfg.eq_limitAtLeast 0 (Nat.dvd_zero _) le_rfl (by simpa using cfg.desiredLimit_pos)).symm

end Config

/-! ## The two loops -/

section Loops

variable {cfg : Config}

/-- The raising loop, started on a multiple of the step no higher than `limitAbove b` and
given enough rounds, stops at `limitAbove b`. -/
theorem raiseHeapLimit_eq {b : Nat} :
    ∀ {rounds l : Nat}, cfg.desiredLimit ∣ l → l ≤ cfg.limitAbove b →
      cfg.limitAbove b ≤ l + rounds * cfg.desiredLimit →
        raiseHeapLimit cfg b rounds l = cfg.limitAbove b
  | 0, l, _, hle, hr => by simp only [raiseHeapLimit]; omega
  | rounds + 1, l, hl, hle, hr => by
    simp only [raiseHeapLimit]
    split
    · have := add_le_of_dvd_of_lt hl (cfg.dvd_limitAbove b)
        (Nat.lt_of_le_of_lt ‹b ≥ l› (cfg.lt_limitAbove b))
      exact raiseHeapLimit_eq (Nat.dvd_add hl (Nat.dvd_refl _)) this (by rw [Nat.succ_mul] at hr; omega)
    · exact cfg.eq_limitAbove b hl (by omega) (by have := cfg.limitAbove_le b; omega)

/-- The lowering loop, started on a multiple of the step at least `b` and given enough
rounds, stops at `limitAtLeast b`. -/
theorem lowerHeapLimit_eq {b : Nat} :
    ∀ {rounds l : Nat}, cfg.desiredLimit ∣ l → b ≤ l → l ≤ rounds * cfg.desiredLimit →
      lowerHeapLimit cfg b rounds l = cfg.limitAtLeast b
  | 0, l, hl, hb, hr => by
    simp only [lowerHeapLimit]
    exact cfg.eq_limitAtLeast b hl hb (by simp at hr; have := cfg.desiredLimit_pos; omega)
  | rounds + 1, l, hl, hb, hr => by
    simp only [lowerHeapLimit]
    split
    · exact lowerHeapLimit_eq (Nat.dvd_sub' hl (Nat.dvd_refl _)) (by omega)
        (by rw [Nat.succ_mul] at hr; omega)
    · exact cfg.eq_limitAtLeast b hl hb (by omega)

end Loops

/-! ## The invariant -/

/-- The soft limit is a multiple of `CONFIG_MEM_HEAP_DESIRED_LIMIT` at most one step above
the live byte count. -/
structure LimitInv (cfg : Config) (c : Counters) : Prop where
  dvd : cfg.desiredLimit ∣ c.heapLimit
  blocksSize_le : c.blocksSize ≤ c.heapLimit
  le_add : c.heapLimit ≤ c.blocksSize + cfg.desiredLimit

section Invariant

variable {cfg : Config} {env : Env}

/-- The raising loop after an attempt that counted `c.blocksSize` bytes, from a limit in
the window of fewer bytes, ends at `limitAbove`. -/
theorem raise_of_limitInv {c₀ c : Counters} (hinv : LimitInv cfg c₀)
    (hle : c₀.blocksSize ≤ c.blocksSize) (hl : c.heapLimit = c₀.heapLimit) :
    raiseHeapLimit cfg c.blocksSize (c.blocksSize + 1) c.heapLimit = cfg.limitAbove c.blocksSize := by
  rw [hl]
  refine raiseHeapLimit_eq hinv.dvd ?_ ?_
  · by_cases h : c₀.heapLimit ≤ c.blocksSize
    · exact (Nat.le_of_lt (Nat.lt_of_le_of_lt h (cfg.lt_limitAbove _)))
    · exact (cfg.eq_limitAbove _ hinv.dvd (by omega) (by have := hinv.le_add; omega)).le
  · have := cfg.limitAbove_le c.blocksSize
    have := Nat.le_mul_of_pos_right c.blocksSize cfg.desiredLimit_pos
    rw [Nat.succ_mul]
    omega

theorem limitInv_limitAbove (c : Counters) :
    LimitInv cfg { c with heapLimit := cfg.limitAbove c.blocksSize } :=
  ⟨cfg.dvd_limitAbove _, (cfg.lt_limitAbove _).le, cfg.limitAbove_le _⟩

theorem limitInv_limitAtLeast (c : Counters) :
    LimitInv cfg { c with heapLimit := cfg.limitAtLeast c.blocksSize } :=
  ⟨cfg.dvd_limitAtLeast _, cfg.le_limitAtLeast _, (cfg.limitAtLeast_lt _).le⟩

/-- After every `jmem_heap_alloc_block_internal` off the system allocator the limit is the
least multiple of the step strictly above the live byte count. -/
theorem heapLimit_alloc_internal (hsys : cfg.backend ≠ .system) {s s' : Heap}
    (hinv : LimitInv cfg s.counters)
    (h : jmemHeapAllocBlockInternal cfg env size small s = some (p, s')) :
    s'.counters.heapLimit = cfg.limitAbove s'.counters.blocksSize := by
  obtain ⟨c, hc, hs'⟩ := counters_alloc_internal hsys h
  rw [hs']
  exact raise_of_limitInv hinv hc.blocksSize_ge hc.heapLimit_eq

/-- After every `jmem_heap_free_block_internal` off the system allocator the limit is the
least multiple of the step that is at least the live byte count. -/
theorem heapLimit_free_internal (hsys : cfg.backend ≠ .system) {s s' : Heap}
    (hinv : LimitInv cfg s.counters)
    (h : jmemHeapFreeBlockInternal cfg ptr size small s = some s') :
    s'.counters.heapLimit = cfg.limitAtLeast s'.counters.blocksSize := by
  rw [counters_free_internal hsys h]
  have := hinv.blocksSize_le
  refine lowerHeapLimit_eq (by simpa using hinv.dvd) (by simp; omega) ?_
  have := Nat.le_mul_of_pos_right (s.counters.heapLimit + 1) cfg.desiredLimit_pos
  simp only [recordFree_heapLimit]
  omega

theorem limitInv_alloc_internal (hsys : cfg.backend ≠ .system) {s s' : Heap}
    (hinv : LimitInv cfg s.counters)
    (h : jmemHeapAllocBlockInternal cfg env size small s = some (p, s')) :
    LimitInv cfg s'.counters := by
  have : LimitInv cfg { s'.counters with heapLimit := cfg.limitAbove s'.counters.blocksSize } :=
    limitInv_limitAbove _
  rwa [← heapLimit_alloc_internal hsys hinv h] at this

theorem limitInv_free_internal (hsys : cfg.backend ≠ .system) {s s' : Heap}
    (hinv : LimitInv cfg s.counters)
    (h : jmemHeapFreeBlockInternal cfg ptr size small s = some s') :
    LimitInv cfg s'.counters := by
  have : LimitInv cfg { s'.counters with heapLimit := cfg.limitAtLeast s'.counters.blocksSize } :=
    limitInv_limitAtLeast _
  rwa [← heapLimit_free_internal hsys hinv h] at this

/-- Off the system allocator every reachable state keeps `LimitInv`. -/
theorem limitInv_of_reachable (hsys : cfg.backend ≠ .system) {e : Engine}
    (h : Reachable cfg env e) : LimitInv cfg e.heap.counters := by
  refine reachable_preserves (P := fun e ↦ LimitInv cfg e.heap.counters) ?_ ?_ h
  · intro size nextOffset
    simp only [Engine.initial, counters_jmemHeapInit, hsys, if_false]
    exact ⟨(Nat.dvd_refl _), by simp [Heap.zero], by simp [Heap.zero]⟩
  · intro e r e' he hstep
    refine step_preserves (P := fun e ↦ LimitInv cfg e.heap.counters) (fun _ ↦ True) ?_ ?_ ?_ ?_
      trivial he hstep
    · exact callbacksPreserve_of_free fun e b s he hs ↦ limitInv_free_internal hsys he hs
    · intro e b s he _ hs
      exact limitInv_free_internal hsys he hs
    · intro r _ _ e p e' he ha
      obtain ⟨⟨q, s⟩, hs, he'⟩ := Option.map_eq_some'.mp ha
      cases he'
      simpa using limitInv_alloc_internal hsys he hs
    · intro r _ _ e g s he hg
      simpa [counters_allocASegmentGroup hg] using he

/-- On the system allocator the limit is never set: it stays `0`. -/
theorem heapLimit_of_reachable_system (hsys : cfg.backend = .system) {e : Engine}
    (h : Reachable cfg env e) : e.heap.counters.heapLimit = 0 := by
  have hfree : ∀ {ptr size small} {s s' : Heap}, s.counters.heapLimit = 0 →
      jmemHeapFreeBlockInternal cfg ptr size small s = some s' → s'.counters.heapLimit = 0 := by
    intro ptr size small s s' hs h
    rw [free_internal_system hsys h]
    exact hs
  refine reachable_preserves (P := fun e ↦ e.heap.counters.heapLimit = 0) ?_ ?_ h
  · intro size nextOffset
    simp [Engine.initial, counters_jmemHeapInit, hsys, Heap.zero]
  · intro e r e' he hstep
    refine step_preserves (P := fun e ↦ e.heap.counters.heapLimit = 0) (fun _ ↦ True) ?_ ?_ ?_ ?_
      trivial he hstep
    · exact callbacksPreserve_of_free fun e b s he hs ↦ hfree he hs
    · exact fun e b s he _ hs ↦ hfree he hs
    · intro r _ _ e p e' he ha
      obtain ⟨⟨q, s⟩, hs, he'⟩ := Option.map_eq_some'.mp ha
      cases he'
      have := congrArg Prod.snd (alloc_internal_system hsys hs)
      simp only at this
      simpa [this, jmemHeapAllocBlockInternalDynamicReal] using he
    · intro r _ _ e g s he hg
      simpa [counters_allocASegmentGroup hg] using he

theorem heapLimit_initial (hsys : cfg.backend ≠ .system) (size nextOffset : Nat → Nat) :
    (Engine.initial cfg env size nextOffset).heap.counters =
      { (Heap.zero size nextOffset).counters with
        heapLimit := cfg.desiredLimit
        allocatedHeapSize := if cfg.backend = .static then cfg.heapSize else 0 } := by
  simp [Engine.initial, counters_jmemHeapInit, hsys, Heap.zero]

end Invariant

/-! ## The soft limit over whole runs -/

section Runs

variable (cfg : Config)

/-- Off the system allocator `jmem_heap_limit` is always a multiple of the step within one
step above `jmem_heap_blocks_size`; `jmem_heap_init` and every
`jmem_heap_alloc_block_internal` leave it at the least multiple strictly above, every
`jmem_heap_free_block_internal` at the least multiple at least `jmem_heap_blocks_size`. -/
theorem heapLimit_within_one_step (hsys : cfg.backend ≠ .system) :
    (∀ env e, Reachable cfg env e → LimitInv cfg e.heap.counters) ∧
    (∀ env size nextOffset, (Engine.initial cfg env size nextOffset).heap.counters.heapLimit =
      cfg.limitAbove (Engine.initial cfg env size nextOffset).heap.counters.blocksSize) ∧
    (∀ env size small p (s s' : Heap), LimitInv cfg s.counters →
      jmemHeapAllocBlockInternal cfg env size small s = some (p, s') →
        s'.counters.heapLimit = cfg.limitAbove s'.counters.blocksSize) ∧
    (∀ ptr size small (s s' : Heap), LimitInv cfg s.counters →
      jmemHeapFreeBlockInternal cfg ptr size small s = some s' →
        s'.counters.heapLimit = cfg.limitAtLeast s'.counters.blocksSize) := by
  refine ⟨fun _ _ ↦ limitInv_of_reachable hsys, fun env size nextOffset ↦ ?_,
    fun _ _ _ _ _ _ ↦ heapLimit_alloc_internal hsys, fun _ _ _ _ _ ↦ heapLimit_free_internal hsys⟩
  simp [heapLimit_initial hsys, Heap.zero, Config.limitAbove, Nat.zero_div]

theorem heapLimit_within_one_step_small :
    ∃ e, Reachable (Config.small .static) Env.quiet e ∧ e.heap.counters.blocksSize = 8 ∧
      LimitInv (Config.small .static) e.heap.counters := by
  obtain ⟨e, he, hv⟩ := exists_reachable_of_run _ _ (show
    (run (Config.small .static) Env.quiet
      (Engine.initial (Config.small .static) Env.quiet (fun _ ↦ 0) (fun _ ↦ 0))
      [.allocBlock 8, .allocBlock 8, .allocBlock 8, .free ⟨4096, 8, false⟩,
        .free ⟨4104, 8, false⟩]).map (·.heap.counters.blocksSize) = some 8 by decide)
  exact ⟨e, he, hv, (heapLimit_within_one_step (Config.small .static) (by decide)).1 Env.quiet e he⟩

/-- Off the system allocator `jmem_heap_limit` is at least `jmem_heap_blocks_size` in every
reachable state and positive after `jmem_heap_init` and after every
`jmem_heap_alloc_block_internal`, but a free that leaves no byte counted leaves it at `0`.
From such a state, on the static and segmented backends without `JMEM_LAZY_GC`, the budget
check of `jmem_heap_gc_and_alloc_block` runs the collector at `LOW` severity for every request
of one byte or more that rounds without wrapping. On the system allocator the limit is never
set and stays `0`. -/
theorem heapLimit_zero_iff_nothing_counted :
    (cfg.backend ≠ .system → ∀ env e, Reachable cfg env e →
      e.heap.counters.blocksSize ≤ e.heap.counters.heapLimit) ∧
    (cfg.backend ≠ .system → ∀ env size nextOffset,
      0 < (Engine.initial cfg env size nextOffset).heap.counters.heapLimit) ∧
    (cfg.backend ≠ .system → ∀ env size small p (s s' : Heap), LimitInv cfg s.counters →
      jmemHeapAllocBlockInternal cfg env size small s = some (p, s') →
        0 < s'.counters.heapLimit) ∧
    (cfg.backend ≠ .system → ∀ ptr size small (s s' : Heap), LimitInv cfg s.counters →
      jmemHeapFreeBlockInternal cfg ptr size small s = some s' →
        (s'.counters.heapLimit = 0 ↔ s'.counters.blocksSize = 0)) ∧
    (cfg.backend = .static ∨ cfg.backend = .segmented → cfg.lazyGc = false →
      ∀ env (e : Engine) n small tr, e.heap.counters.heapLimit = 0 →
        e.heap.counters.blocksSize = 0 → 0 < n → cfg.NoWrap n →
        gcExpectedOverSize cfg env (cfg.alignUp n) small e tr =
          (jmemRunFreeUnusedMemoryCallbacks cfg env .low e).map (·, tr ++ [.callbacks .low])) ∧
    (cfg.backend = .system → ∀ env e, Reachable cfg env e → e.heap.counters.heapLimit = 0) := by
  refine ⟨fun hsys _ _ h ↦ (limitInv_of_reachable hsys h).blocksSize_le,
    fun hsys env size nextOffset ↦ ?_, fun hsys _ _ _ _ _ _ hinv h ↦ ?_,
    fun hsys _ _ _ _ _ hinv h ↦ ?_, fun hss hlazy _ e n small _ hl hb hn hw ↦ ?_,
    fun hsys _ _ h ↦ heapLimit_of_reachable_system hsys h⟩
  · simpa [heapLimit_initial hsys] using cfg.desiredLimit_pos
  · rw [heapLimit_alloc_internal hsys hinv h]
    exact Nat.lt_of_le_of_lt (Nat.zero_le _) (cfg.lt_limitAbove _)
  · rw [heapLimit_free_internal hsys hinv h]
    exact cfg.limitAtLeast_eq_zero_iff _
  · -- the projected size is the rounded request, above the limit `0`
    have hover : expectedOverSize cfg e.heap (cfg.alignUp n) small = true := by
      have := cfg.alignment_le_alignUp hn hw
      have := cfg.alignment_pos
      rw [expectedOverSize, if_neg (by simp [hlazy]), allocatedSize, if_pos hss, hb, hl,
        Nat.zero_add, Nat.mod_eq_of_lt (cfg.alignUp_lt_size n)]
      exact decide_eq_true (by omega)
    rw [gcExpectedOverSize, if_pos hover]

theorem heapLimit_zero_iff_nothing_counted_small :
    ∃ e, Reachable (Config.small .static) Env.quiet e ∧ e.heap.counters.heapLimit = 0 ∧
      e.heap.counters.blocksSize = 0 ∧
      gcExpectedOverSize (Config.small .static) Env.quiet ((Config.small .static).alignUp 8) false
          e [] =
        (jmemRunFreeUnusedMemoryCallbacks (Config.small .static) Env.quiet .low e).map
          (·, [] ++ [.callbacks .low]) := by
  obtain ⟨e, he, hv⟩ := exists_reachable_of_run _ _ (show
    (run (Config.small .static) Env.quiet
      (Engine.initial (Config.small .static) Env.quiet (fun _ ↦ 0) (fun _ ↦ 0))
      [.allocBlock 8, .free ⟨4096, 8, false⟩]).map
      (fun e ↦ (e.heap.counters.heapLimit, e.heap.counters.blocksSize)) = some (0, 0) by decide)
  obtain ⟨hl, hb⟩ := Prod.mk.inj hv
  exact ⟨e, he, hl, hb, (heapLimit_zero_iff_nothing_counted (Config.small .static)).2.2.2.2.1
    (.inl rfl) rfl Env.quiet e 8 false [] hl hb (by decide) (by decide)⟩

/-- On the small static build, allocating 8 bytes and freeing them leaves the limit at `0`,
and the next 8-byte allocation, well within one step, runs the collector first. -/
theorem heapLimit_zero_after_free_small :
    ∃ e, Reachable (Config.small .static) Env.quiet e ∧ e.heap.counters.heapLimit = 0 ∧
      (jmemHeapAllocBlock (Config.small .static) Env.quiet 8 e).map Outcome.trace =
        some [.callbacks .low, .attempt 4096] := by
  obtain ⟨e, he, hv⟩ := exists_reachable_of_run _ _ (show
    (run (Config.small .static) Env.quiet
      (Engine.initial (Config.small .static) Env.quiet (fun _ ↦ 0) (fun _ ↦ 0))
      [.allocBlock 8, .free ⟨4096, 8, false⟩]).map
      (fun e ↦ (e.heap.counters.heapLimit,
        (jmemHeapAllocBlock (Config.small .static) Env.quiet 8 e).map Outcome.trace)) =
      some (0, some [.callbacks .low, .attempt 4096]) by decide)
  exact ⟨e, he, (Prod.mk.inj hv).1, (Prod.mk.inj hv).2⟩

end Runs

end JmemHeap
