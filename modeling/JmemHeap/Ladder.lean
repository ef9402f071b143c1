import JmemHeap.Segments

/-!
# The retry ladder never hands out `NULL` unasked

`jmem_heap_gc_and_alloc_block` returns the pointer of an attempt only after checking it,
except on the segmented backend, where the attempt retried after a successful
`alloc_a_segment_group` is returned unchecked. That retry cannot fail: the group was spliced
into the free list after the last region below it, so the first-fit walk of the retry either
meets a region of an attached segment that is large enough, or reaches the new group, whose
region holds the whole request. Nothing here needs the free list to be well formed; it needs
only the segment table and a platform `malloc` that hands out fresh memory.

So every `NULL` that comes back was asked for (`ret_null_on_error`), and comes after the
attempt that followed the `HIGH`-severity collector (`gcAndAlloc_null_after_high`).
-/

namespace JmemHeap

/-! ## What a splice writes -/

section Splice

variable {cfg : Config} {s t : Heap} {headP nextCp : Nat}

theorem spliceUpdateNext_ne {x : Nat} (hx : x ≠ headP) :
    (spliceUpdateNext cfg headP nextCp s).nextOffset x = s.nextOffset x ∧
      (spliceUpdateNext cfg headP nextCp s).size x = s.size x := by
  unfold spliceUpdateNext; split <;> simp [hx]

theorem size_spliceUpdateNext_ge : s.size headP ≤ (spliceUpdateNext cfg headP nextCp s).size headP := by
  unfold spliceUpdateNext; split <;> simp

theorem area_spliceUpdateNext : (spliceUpdateNext cfg headP nextCp s).area = s.area := by
  unfold spliceUpdateNext; split <;> rfl

/-- What `spliceFreeRegion` writes, from where its walk stopped (`prevP`): headers only at
`prevP` and at the new region's header; `prevP` grows by `len` when the region merges into it,
and otherwise links to `start`, whose header then holds at least `len` bytes. -/
theorem spliceFreeRegion_spec (h : spliceFreeRegion cfg start len s = some t) :
    ∃ prevP k, freeWalk cfg s start loopBound cfg.firstAddr 0 = some (prevP, k) ∧
      t.area = s.area ∧
      (∀ x, x ≠ prevP → x ≠ jmemDecompressPointerInternal cfg s start →
        t.nextOffset x = s.nextOffset x ∧ t.size x = s.size x) ∧
      ((prevP ≠ cfg.firstAddr ∧ len ≤ t.size prevP) ∨
        ((prevP ≠ jmemDecompressPointerInternal cfg s start → t.nextOffset prevP = start) ∧
          len ≤ t.size (jmemDecompressPointerInternal cfg s start))) := by
  simp only [spliceFreeRegion, bind, pure, Option.bind_eq_some, Option.some.injEq] at h
  obtain ⟨⟨prevP, k⟩, hw, rfl⟩ := h
  refine ⟨prevP, k, hw, ?_⟩
  unfold spliceUpdatePrev
  split
  · rename_i hm
    refine ⟨by simp [area_spliceUpdateNext], fun x hx _ ↦ ?_, .inl ⟨hm.1, ?_⟩⟩
    · rw [(spliceUpdateNext_ne hx).1, (spliceUpdateNext_ne hx).2]
      simp [hx]
    · refine le_trans ?_ size_spliceUpdateNext_ge
      simp
  · refine ⟨by simp [area_spliceUpdateNext], fun x hx hr ↦ ?_, .inr ⟨fun hp ↦ ?_, ?_⟩⟩
    · rw [(spliceUpdateNext_ne hr).1, (spliceUpdateNext_ne hr).2]
      simp [hx, hr]
    · rw [(spliceUpdateNext_ne hp).1]
      simp
    · refine le_trans ?_ size_spliceUpdateNext_ge
      simp

end Splice

/-! ## The retry after a segment group -/

section Retry

/-- `jmem_heap_free_block_internal`'s walk stops at a header whose link reaches the offset. -/
theorem freeWalk_stop {cfg : Config} {s : Heap} {b : Nat} :
    ∀ {fuel x r p k}, freeWalk cfg s b fuel x r = some (p, k) → b ≤ s.nextOffset p
  | 0, _, _, _, _, h => by cases h
  | fuel + 1, x, r, p, k, h => by
    unfold freeWalk at h
    split at h
    · exact freeWalk_stop h
    · cases h; omega

variable {cfg : Config} {s₁ h : Heap} {start len base prevP k : Nat}
  (hF1 : ∀ x, x ≠ prevP → x ≠ base → h.nextOffset x = s₁.nextOffset x ∧ h.size x = s₁.size x)
  (hF2 : (prevP ≠ cfg.firstAddr ∧ len ≤ h.size prevP) ∨
    ((prevP ≠ base → h.nextOffset prevP = start) ∧ len ≤ h.size base))
  (harea : h.area = s₁.area)
  (hnode : ∀ o < start, jmemDecompressPointerInternal cfg s₁ o ≠ 0 ∧
    jmemDecompressPointerInternal cfg s₁ o ≠ base)
  (hstart : jmemDecompressPointerInternal cfg s₁ start = base) (hbase : base ≠ 0)
  (hend : start < cfg.endOfList)
include hF1 hF2 harea hnode hstart hbase hend

/-- From a header on the walk to `prevP` (one below every offset of the new group, or
`first`), the link decompresses to a nonzero address, and the first-fit search of the retry
ends at a region, never at the end of the list: it meets the new group at the latest. -/
theorem search_after_splice {req : Nat} (hreq : req ≤ len) :
    ∀ {fuel x rounds}, freeWalk cfg s₁ start fuel x rounds = some (prevP, k) → x ≠ base →
      (x = cfg.firstAddr ∨ h.size x < req) →
      jmemDecompressPointerInternal cfg h (h.nextOffset x) ≠ 0 ∧
      ∀ {fuel' q v res v'}, slowSearch cfg req h fuel' q (h.nextOffset x) v = some (res, v') →
        ∃ p' o, res = .found p' o ∧ jmemDecompressPointerInternal cfg h o ≠ 0
  | 0, _, _, hwx, _, _ => by cases hwx
  | fuel + 1, x, rounds, hwx, hxb, hx => by
    have hdec : ∀ o, jmemDecompressPointerInternal cfg h o =
        jmemDecompressPointerInternal cfg s₁ o := decompress_congr cfg harea
    unfold freeWalk at hwx
    split at hwx
    · -- the walk goes on to the next region, below the group
      rename_i hlt
      have hxp : x ≠ prevP := fun hxp ↦ by
        have := freeWalk_stop hwx
        rw [← hxp] at this
        omega
      have hn : h.nextOffset x = s₁.nextOffset x := (hF1 x hxp hxb).1
      obtain ⟨hy0, hyb⟩ := hnode _ hlt
      refine ⟨by rw [hn, hdec]; exact hy0, fun {fuel' q v res v'} hs ↦ ?_⟩
      cases fuel' with
      | zero => cases hs
      | succ fuel' =>
        simp only [slowSearch, hn, Nat.ne_of_lt (Nat.lt_trans hlt hend), if_false, hdec] at hs
        split at hs
        · cases hs; exact ⟨q, _, rfl, by rw [hdec]; exact hy0⟩
        · exact (search_after_splice hreq hwx hyb (.inr (Nat.lt_of_not_le ‹_›))).2 hs
    · -- the walk stops at `x`, which is `prevP`
      cases hwx
      rcases hF2 with ⟨hpf, hpl⟩ | ⟨hpn, hbl⟩
      · exact absurd (hx.resolve_left hpf) (Nat.not_lt.mpr (le_trans hreq hpl))
      have hn := hpn hxb
      have hb : jmemDecompressPointerInternal cfg h start = base := by rw [hdec, hstart]
      refine ⟨by rw [hn, hb]; exact hbase, fun {fuel' q v res v'} hs ↦ ?_⟩
      cases fuel' with
      | zero => cases hs
      | succ fuel' =>
        simp only [slowSearch, hn, Nat.ne_of_lt hend, if_false, hb,
          if_pos (le_trans hreq hbl), Option.some.injEq, Prod.mk.injEq] at hs
        exact ⟨q, start, hs.1.symm, by rw [hb]; exact hbase⟩

/-- The retry of `jmem_heap_alloc_block_internal` after the splice returns a nonzero pointer,
on the fast path as on the slow one. -/
theorem alloc_after_splice (hw : freeWalk cfg s₁ start loopBound cfg.firstAddr 0 = some (prevP, k))
    (hseg : cfg.backend = .segmented) (hfirst : cfg.firstAddr ≠ base)
    (hreq : cfg.alignUp size ≤ len) {env : Env} {p : Nat} {h' : Heap}
    (ha : jmemHeapAllocBlockInternal cfg env size small h = some (p, h')) : p ≠ 0 := by
  have hsearch := search_after_splice hF1 hF2 harea hnode hstart hbase hend hreq hw hfirst (.inl rfl)
  have hsys : cfg.backend ≠ .system := by rw [hseg]; decide
  simp only [jmemHeapAllocBlockInternal, hsys, if_false, bind, pure, Option.bind_eq_some] at ha
  obtain ⟨⟨q, h₁⟩, hq, ha⟩ := ha
  have hq0 : q ≠ 0 := by
    unfold allocFastOrSlow at hq
    split at hq
    · cases hq; exact hsearch.1
    simp only [jmemHeapAllocBlockInternalSlow, bind, pure, Option.bind_eq_some] at hq
    obtain ⟨⟨r, v⟩, hr, hq⟩ := hq
    obtain ⟨p', o, rfl, ho⟩ := hsearch.2 hr
    rw [(counters_slowAllocAt hq).2, decompress_congr cfg (area_statAllocIter cfg h v)]
    exact ho
  split at ha
  · exact absurd ‹_› hq0
  · cases ha; exact hq0

end Retry

section Group

variable {cfg : Config} {env : Env} {s t : Heap} {m : Nat}

/-- The attempt that `jmem_heap_gc_and_alloc_block` retries after a successful
`alloc_a_segment_group (align_up (n))` returns a nonzero pointer, on a segment table and with a
platform `malloc` that hands out fresh memory. -/
theorem alloc_after_group (hseg : cfg.backend = .segmented) (hM : env.MallocApart cfg)
    (hT : SegmentTable cfg s m) (hg : allocASegmentGroup cfg env (cfg.alignUp n) s = some (g, t))
    (hg0 : g ≠ 0) {h' : Heap}
    (ha : jmemHeapAllocBlockInternal cfg env (cfg.alignUp n) small t = some (p, h')) : p ≠ 0 := by
  rcases allocASegmentGroup_spec hT hg with ⟨rfl, -⟩ | ⟨count, hc, hfit, hle, rfl, hg0, hsp⟩
  · exact absurd rfl hg0
  obtain ⟨prevP, k, hw, harea, hF1, hF2⟩ := spliceFreeRegion_spec hsp
  have hS := cfg.segmentSize_pos
  have hstart : jmemDecompressPointerInternal cfg
      (s.attachSegments cfg m count (env.malloc s (count * cfg.segmentSize))) (m * cfg.segmentSize) =
        env.malloc s (count * cfg.segmentSize) := decompress_attach_start hseg hc
  rw [hstart] at hF1 hF2
  refine alloc_after_splice hF1 hF2 harea (fun o ho ↦ ?_) hstart hg0 ?_ hw hseg
    (hM.ne_first _ _ hg0).symm (by simpa using hfit) ha
  · -- an offset below the group lies in an attached segment
    have hj : o / cfg.segmentSize < m := (Nat.div_lt_iff_lt_mul hS).mpr ho
    have hmod := Nat.mod_lt o hS
    have hA := hT.area_ne_zero _ hj
    have hap := hM.apart s (count * cfg.segmentSize) (o / cfg.segmentSize) hg0 (by omega)
      ((hT.allocated_iff _).mpr hj)
    rw [decompress_attach_below hseg ho]
    simp only [jmemDecompressPointerInternal, hseg, if_true, segmentedDecompressPointer]
    omega
  · -- the group starts below the end of the list
    calc m * cfg.segmentSize < cfg.numSegments * cfg.segmentSize :=
          Nat.mul_lt_mul_of_pos_right (by omega) hS
      _ = cfg.segmentSize * cfg.numSegments := Nat.mul_comm _ _
      _ < cfg.endOfList := cfg.segments_lt_endOfList

end Group

/-! ## The ladder -/

section Ladder

variable {cfg : Config} {env : Env} {e e' : Engine} {tr tr' : List Event}

/-- `if (alloc_a_segment_group (size) != NULL) return BLOCK ALLOC;` returns a nonzero pointer,
or goes on from a state with a segment table, with the failed group on the trace. -/
theorem trySegmentGroup_returned (hseg : cfg.backend = .segmented) (hM : env.MallocApart cfg)
    (he : ∃ m, SegmentTable cfg e.heap m) {orElse : Engine → List Event → Option Outcome}
    (h : trySegmentGroup cfg env (cfg.alignUp n) small e tr orElse = some (.returned p e' tr')) :
    p ≠ 0 ∨ ∃ e₁, (∃ m, SegmentTable cfg e₁.heap m) ∧
      orElse e₁ (tr ++ [.segmentGroup 0]) = some (.returned p e' tr') := by
  obtain ⟨m, hT⟩ := he
  simp only [trySegmentGroup, bind, pure, Option.bind_eq_some] at h
  obtain ⟨⟨g, t⟩, hg, h⟩ := h
  split at h
  · exact .inr ⟨_, hT.group hg, h⟩
  · simp only [Option.bind_eq_some, Option.some.injEq, Outcome.returned.injEq] at h
    obtain ⟨⟨q, e₁⟩, hq, rfl, -, -⟩ := h
    obtain ⟨⟨q', t'⟩, hq', he⟩ := Option.map_eq_some'.mp hq
    cases he
    exact .inl (alloc_after_group hseg hM hT hg ‹_› hq')

/-- One round of the severity loop returns a nonzero pointer, or fails its attempt and goes on
with the rest of the severities. -/
theorem severityLoop_cons_returned (he : ∃ m, SegmentTable cfg e.heap m)
    (h : gcAllocSeverityLoop cfg env size retNull small (sev :: rest) q e tr =
      some (.returned p e' tr')) :
    p ≠ 0 ∨ ∃ e₁, (∃ m, SegmentTable cfg e₁.heap m) ∧
      gcAllocSeverityLoop cfg env size retNull small rest 0 e₁
        (tr ++ [.callbacks sev, .attempt 0]) = some (.returned p e' tr') := by
  simp only [gcAllocSeverityLoop, bind, pure, Option.bind_eq_some] at h
  obtain ⟨e₁, hcb, ⟨q₁, e₂⟩, hq₁, h⟩ := h
  have he₂ := segmentTable_blockAlloc (segmentTable_callbacksPreserve _ _ _ he hcb) hq₁
  by_cases hq₁0 : q₁ = 0
  · subst hq₁0
    exact .inr ⟨e₂, he₂, by simpa using h⟩
  · simp only [hq₁0, ne_eq, not_false_eq_true, if_true, Option.some.injEq,
      Outcome.returned.injEq] at h
    exact .inl (h.1 ▸ hq₁0)

/-- Once the severities are spent, the pointer returned is nonzero, or the `NULL` of the last
attempt, returned because the caller asked for it, possibly after a failed segment group. -/
theorem afterCallbacks_returned (hM : cfg.backend = .segmented → env.MallocApart cfg)
    (he : ∃ m, SegmentTable cfg e.heap m)
    (h : gcAllocAfterCallbacks cfg env (cfg.alignUp n) retNull small q e tr =
      some (.returned p e' tr')) :
    p ≠ 0 ∨ (retNull = true ∧ p = q ∧ (tr' = tr ∨ tr' = tr ++ [.segmentGroup 0])) := by
  have hout : ∀ e₁ tr₁, some (if retNull then Outcome.returned q e₁ tr₁ else .fatal tr₁) =
      some (.returned p e' tr') → retNull = true ∧ p = q ∧ tr' = tr₁ := by
    intro e₁ tr₁ h
    split at h
    · simp only [Option.some.injEq, Outcome.returned.injEq] at h
      exact ⟨‹_›, h.1.symm, h.2.2.symm⟩
    · cases h
  unfold gcAllocAfterCallbacks at h
  by_cases hseg : cfg.backend = .segmented
  · rw [if_pos hseg] at h
    rcases trySegmentGroup_returned hseg (hM hseg) he h with hp | ⟨e₁, -, h⟩
    · exact .inl hp
    · obtain ⟨hr, hp, ht⟩ := hout _ _ h
      exact .inr ⟨hr, hp, .inr ht⟩
  · rw [if_neg hseg] at h
    obtain ⟨hr, hp, ht⟩ := hout _ _ h
    exact .inr ⟨hr, hp, .inl ht⟩

/-- In every reachable state, whatever the collector releases, and with a platform `malloc` that
grants the initial segment and fresh memory on the segmented backend,
`jmem_heap_gc_and_alloc_block (n)` for `n > 0` returns a nonzero pointer, or returns `NULL`
only when the caller asked for it (`ret_null_on_error`), right after the failed attempt that
follows the `HIGH`-severity collector and, on the segmented backend, a failed segment group.
With `ret_null_on_error = false` (`jmem_heap_alloc_block`,
`jmem_heap_alloc_block_small_object`) every pointer returned is nonzero. -/
theorem gcAndAlloc_null_after_high (hM : cfg.backend = .segmented → env.MallocApart cfg)
    (hr : Reachable cfg env e) (hn : 0 < n)
    (h : jmemHeapGcAndAllocBlock cfg env n retNull small e = some (.returned p e' tr)) :
    p ≠ 0 ∨ (retNull = true ∧ ∃ tr₀, tr = tr₀ ++ [.callbacks .high, .attempt 0] ∨
      tr = tr₀ ++ [.callbacks .high, .attempt 0, .segmentGroup 0]) := by
  have hloop : ∀ e₀ tr₀ q, (∃ m, SegmentTable cfg e₀.heap m) →
      gcAllocSeverityLoop cfg env (cfg.alignUp n) retNull small [.low, .high] q e₀ tr₀ =
        some (.returned p e' tr) →
      p ≠ 0 ∨ (retNull = true ∧ ∃ tr₁, tr = tr₁ ++ [.callbacks .high, .attempt 0] ∨
        tr = tr₁ ++ [.callbacks .high, .attempt 0, .segmentGroup 0]) := by
    intro e₀ tr₀ q he₀ h
    rcases severityLoop_cons_returned he₀ h with hp | ⟨e₁, he₁, h⟩
    · exact .inl hp
    rcases severityLoop_cons_returned he₁ h with hp | ⟨e₂, he₂, h⟩
    · exact .inl hp
    simp only [gcAllocSeverityLoop] at h
    rcases afterCallbacks_returned hM he₂ h with hp | ⟨hr, -, ht | ht⟩
    · exact .inl hp
    · exact .inr ⟨hr, _, .inl ht⟩
    · exact .inr ⟨hr, tr₀ ++ [.callbacks .low, .attempt 0], .inr (by rw [ht]; simp)⟩
  have he := exists_segmentTable (fun hseg ↦ (hM hseg).initial) hr
  unfold jmemHeapGcAndAllocBlock at h
  rw [if_neg (Nat.pos_iff_ne_zero.mp hn)] at h
  simp only [bind, pure, Option.bind_eq_some] at h
  obtain ⟨⟨e₁, tr₁⟩, h₁, ⟨e₂, tr₂⟩, h₂, ⟨q, e₃⟩, hq, h⟩ := h
  have he₃ := segmentTable_blockAlloc (gcExpectedOverSize_preserves segmentTable_callbacksPreserve
    (gcBeforeEach_preserves segmentTable_callbacksPreserve he h₁) h₂) hq
  by_cases hq0 : q = 0
  · simp only [hq0, ne_eq, not_true_eq_false, if_false] at h
    split at h
    · rcases trySegmentGroup_returned ‹_› (hM ‹_›) he₃ h with hp | ⟨e₄, he₄, h⟩
      · exact .inl hp
      · exact hloop _ _ _ he₄ h
    · exact hloop _ _ _ he₃ h
  · simp only [hq0, ne_eq, not_false_eq_true, if_true, Option.some.injEq,
      Outcome.returned.injEq] at h
    exact .inl (h.1 ▸ hq0)

theorem gcAndAlloc_null_after_high_small :
    ∃ e' tr, jmemHeapGcAndAllocBlock (Config.small .static) Env.quiet 1000 true false
        (Engine.initial (Config.small .static) Env.quiet (fun _ ↦ 0) (fun _ ↦ 0)) =
          some (.returned 0 e' tr) ∧
      ((0 : Nat) ≠ 0 ∨ (true = true ∧ ∃ tr₀, tr = tr₀ ++ [.callbacks .high, .attempt 0] ∨
        tr = tr₀ ++ [.callbacks .high, .attempt 0, .segmentGroup 0])) := by
  obtain ⟨e', tr, h⟩ : ∃ e' tr, jmemHeapGcAndAllocBlock (Config.small .static) Env.quiet 1000 true
      false (Engine.initial (Config.small .static) Env.quiet (fun _ ↦ 0) (fun _ ↦ 0)) =
        some (.returned 0 e' tr) := ⟨_, _, rfl⟩
  exact ⟨e', tr, h, gcAndAlloc_null_after_high (fun h ↦ absurd h (by decide))
    ⟨fun _ ↦ 0, fun _ ↦ 0, [], rfl⟩ (by decide) h⟩

end Ladder

end JmemHeap
