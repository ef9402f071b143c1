import JmemHeap.Run

/-!
# Invariants of whole runs

Every call of the engine reaches the allocator's state through three operations only:
`jmem_heap_free_block_internal` on a block the engine holds (a free entry point, or the
collector inside an allocation), one attempt of `jmem_heap_alloc_block_internal`, and on
the segmented backend `alloc_a_segment_group`. A property of the engine that these three
preserve holds after every call, whatever the collector releases within the contract and
whichever way the ladder of `jmem_heap_gc_and_alloc_block` goes. This is proved once here,
for runs whose requests satisfy a given condition; every invariant of the allocator then
shows only its three preservation facts.
-/

namespace JmemHeap

/-- The collector contract: `jmem_run_free_unused_memory_callbacks` releases only blocks the
engine holds, each at most once. -/
def Env.CollectsLive (env : Env) : Prop :=
  ∀ severity s live, (env.collect severity s live).Subperm live

section Preserve

variable (cfg : Config) (env : Env) (P : Engine → Prop)

/-- `P` survives `jmem_heap_free_block_internal` on a held block, which the engine drops. -/
def FreePreserves : Prop :=
  ∀ e b s, P e → b ∈ e.live → jmemHeapFreeBlockInternal cfg b.ptr b.size b.small e.heap = some s →
    P ⟨s, e.live.erase b⟩

/-- `P` survives an attempt for a request of `n` bytes: a failed attempt as it leaves the
engine, a successful one once the engine holds the block. -/
def AttemptPreserves (n : Nat) (small : Bool) : Prop :=
  ∀ e p e', P e → blockAlloc cfg env (cfg.alignUp n) small e = some (p, e') →
    P (e'.hold p n small)

/-- `P` survives `alloc_a_segment_group` for a request of `n` bytes, which only the
segmented backend calls. -/
def GroupPreserves (n : Nat) : Prop :=
  cfg.backend = .segmented → ∀ e g s, P e →
    allocASegmentGroup cfg env (cfg.alignUp n) e.heap = some (g, s) → P { e with heap := s }

/-- `P` survives `jmem_run_free_unused_memory_callbacks` at either severity. -/
def CallbacksPreserve : Prop :=
  ∀ severity e e', P e → jmemRunFreeUnusedMemoryCallbacks cfg env severity e = some e' → P e'

variable {cfg env P}

theorem freeAll_preserves (hf : FreePreserves cfg P) :
    ∀ {bs : List Block} {e e' : Engine}, P e → bs.Subperm e.live → freeAll cfg bs e = some e' →
      P e'
  | [], _, _, he, _, h => by cases h; exact he
  | b :: bs, e, _, he, hsub, h => by
    obtain ⟨s, hs, h⟩ := Option.bind_eq_some.mp h
    have hrest : bs.Subperm (e.live.erase b) := by simpa using hsub.erase b
    exact freeAll_preserves hf (hf e b s he (hsub.subset (List.mem_cons_self b bs)) hs) hrest h

/-- Under the collector contract, a property that survives freeing a held block survives the
collector. -/
theorem callbacksPreserve_of_collectsLive (hc : env.CollectsLive) (hf : FreePreserves cfg P) :
    CallbacksPreserve cfg env P :=
  fun _ _ _ he h ↦ freeAll_preserves hf he (hc _ _ _) h

/-- A property that survives freeing any block survives whatever the collector releases. -/
theorem callbacksPreserve_of_free
    (hf : ∀ e b s, P e → jmemHeapFreeBlockInternal cfg b.ptr b.size b.small e.heap = some s →
      P ⟨s, e.live.erase b⟩) : CallbacksPreserve cfg env P := by
  have : ∀ {bs : List Block} {e e' : Engine}, P e → freeAll cfg bs e = some e' → P e' := by
    intro bs
    induction bs with
    | nil => intro e e' he h; cases h; exact he
    | cons b bs ih =>
      intro e e' he h
      obtain ⟨s, hs, h⟩ := Option.bind_eq_some.mp h
      exact ih (hf e b s he hs) h
  exact fun _ _ _ he h ↦ this he h

theorem gcBeforeEach_preserves (hcb : CallbacksPreserve cfg env P)
    {e e' : Engine} (he : P e) (h : gcBeforeEach cfg env e = some (e', tr)) : P e' := by
  unfold gcBeforeEach at h
  split at h
  · obtain ⟨e₁, hcb', he₁⟩ := Option.map_eq_some'.mp h
    cases he₁
    exact hcb _ _ _ he hcb'
  · cases h; exact he

theorem gcExpectedOverSize_preserves (hcb : CallbacksPreserve cfg env P)
    {e e' : Engine} (he : P e) (h : gcExpectedOverSize cfg env size small e tr = some (e', tr')) :
    P e' := by
  unfold gcExpectedOverSize at h
  split at h
  · obtain ⟨e₁, hcb', he₁⟩ := Option.map_eq_some'.mp h
    cases he₁
    exact hcb _ _ _ he hcb'
  · cases h; exact he

theorem trySegmentGroup_preserves (ha : AttemptPreserves cfg env P n small)
    (hg : GroupPreserves cfg env P n) (hseg : cfg.backend = .segmented)
    {orElse : Engine → List Event → Option Outcome}
    (hk : ∀ e tr, P e → orElse e tr = some (.returned p e' tr') → P (e'.hold p n small))
    (he : P e) (h : trySegmentGroup cfg env (cfg.alignUp n) small e tr orElse =
      some (.returned p e' tr')) : P (e'.hold p n small) := by
  simp only [trySegmentGroup, bind, pure, Option.bind_eq_some, Option.some.injEq] at h
  obtain ⟨⟨g, s⟩, hgroup, h⟩ := h
  have hs := hg hseg e g s he hgroup
  split at h
  · exact hk _ _ hs h
  · simp only [Option.bind_eq_some, Option.some.injEq] at h
    obtain ⟨⟨q, e₁⟩, hq, ⟨⟩⟩ := h
    exact ha _ _ _ hs hq

section Ladder

variable (hcb : CallbacksPreserve cfg env P) (ha : AttemptPreserves cfg env P n small)
  (hg : GroupPreserves cfg env P n)
include hcb ha hg

/-- Once the first attempt has failed, the ladder returns only a block of a successful
attempt, or the `NULL` of the failed one it carries. -/
theorem severityLoop_preserves :
    ∀ {sevs : List Severity} {q : Nat} {e : Engine} {tr}, q = 0 → P e →
      gcAllocSeverityLoop cfg env (cfg.alignUp n) retNull small sevs q e tr =
        some (.returned p e' tr') → P (e'.hold p n small)
  | [], q, e, tr, hq, he, h => by
    have hout : ∀ e tr, P e → (some (if retNull then Outcome.returned q e tr else .fatal tr) =
        some (Outcome.returned p e' tr')) → P (e'.hold p n small) := by
      intro e tr he h
      split at h
      · cases h; simpa [hq] using he
      · cases h
    simp only [gcAllocSeverityLoop, gcAllocAfterCallbacks] at h
    split at h
    · exact trySegmentGroup_preserves ha hg ‹_› hout he h
    · exact hout e tr he h
  | sev :: sevs, q, e, tr, _, he, h => by
    simp only [gcAllocSeverityLoop, bind, pure, Option.bind_eq_some, Option.some.injEq] at h
    obtain ⟨e₁, hcb', ⟨q₁, e₂⟩, hq₁, h⟩ := h
    have he₂ := ha _ _ _ (hcb _ _ _ he hcb') hq₁
    by_cases hq₁0 : q₁ = 0
    · simp only [hq₁0, ne_eq, not_true_eq_false, if_false] at h he₂
      exact severityLoop_preserves rfl he₂ h
    · simp only [hq₁0, ne_eq, not_false_eq_true, if_true] at h
      cases h; exact he₂

/-- `jmem_heap_gc_and_alloc_block` keeps `P`, once the engine holds the block it returns. -/
theorem gcAndAlloc_preserves {e e' : Engine} (he : P e)
    (h : jmemHeapGcAndAllocBlock cfg env n retNull small e = some (.returned p e' tr)) :
    P (e'.hold p n small) := by
  unfold jmemHeapGcAndAllocBlock at h
  split at h
  · cases h; simpa using he
  simp only [bind, pure, Option.bind_eq_some, Option.some.injEq] at h
  obtain ⟨⟨e₁, tr₁⟩, h₁, ⟨e₂, tr₂⟩, h₂, ⟨q, e₃⟩, hq, h⟩ := h
  have he₃ := ha _ _ _ (gcExpectedOverSize_preserves hcb (gcBeforeEach_preserves hcb he h₁) h₂) hq
  by_cases hq0 : q = 0
  · simp only [hq0, ne_eq, not_true_eq_false, if_false] at h he₃
    split at h
    · exact trySegmentGroup_preserves ha hg ‹_›
        (fun _ _ he h ↦ severityLoop_preserves hcb ha hg rfl he h) he₃ h
    · exact severityLoop_preserves hcb ha hg rfl he₃ h
  · simp only [hq0, ne_eq, not_false_eq_true, if_true] at h
    cases h; exact he₃

end Ladder

/-- A call whose request satisfies `ok` keeps `P`, given the three preservation facts for
the requests `ok` admits. -/
theorem step_preserves (ok : Request → Prop) (hcb : CallbacksPreserve cfg env P)
    (hf : FreePreserves cfg P)
    (ha : ∀ r, ok r → 0 < r.allocSize → AttemptPreserves cfg env P r.allocSize r.small)
    (hg : ∀ r, ok r → GroupPreserves cfg env P r.allocSize)
    {e e' : Engine} {r : Request} (hr : ok r) (he : P e) (h : step cfg env e r = some e') :
    P e' := by
  cases r with
  | free b =>
    rw [step_free] at h
    split at h
    · obtain ⟨s, hs, rfl⟩ := Option.map_eq_some'.mp h
      exact hf e b s he ‹_› hs
    · cases h
  | allocBlock n | allocBlockNullOnError n | allocBlockSmallObject n =>
    have ha := ha _ hr
    have hg := hg _ hr
    simp only [step, Engine.receive, jmemHeapAllocBlock, jmemHeapAllocBlockNullOnError,
      jmemHeapAllocBlockSmallObject, Request.allocSize, Request.small] at h ha hg
    split at h
    · cases h
      rename_i hgc
      by_cases hn : n = 0
      · simp only [jmemHeapGcAndAllocBlock, hn, if_true, Option.some.injEq,
          Outcome.returned.injEq] at hgc
        obtain ⟨rfl, rfl, -⟩ := hgc
        simpa using he
      · exact gcAndAlloc_preserves hcb (by simpa using ha (Nat.pos_of_ne_zero hn)) hg he hgc
    · cases h

/-- A run of requests that all satisfy `ok` keeps `P`. -/
theorem run_preserves (ok : Request → Prop)
    (hstep : ∀ e r e', ok r → P e → step cfg env e r = some e' → P e') :
    ∀ {rs : List Request} {e e' : Engine}, (∀ r ∈ rs, ok r) → P e → run cfg env e rs = some e' →
      P e'
  | [], _, _, _, he, h => by cases h; exact he
  | r :: rs, e, _, hrs, he, h => by
    obtain ⟨e₁, h₁, h⟩ := Option.bind_eq_some.mp h
    exact run_preserves ok hstep (fun r' hr' ↦ hrs r' (List.mem_cons_of_mem r hr'))
      (hstep e r e₁ (hrs r (List.mem_cons_self r rs)) he h₁) h

/-- A property that `jmem_heap_init` establishes and every call keeps holds in every
reachable state. -/
theorem reachable_preserves (hinit : ∀ size nextOffset, P (Engine.initial cfg env size nextOffset))
    (hstep : ∀ e r e', P e → step cfg env e r = some e' → P e') {e : Engine}
    (h : Reachable cfg env e) : P e := by
  obtain ⟨size, nextOffset, rs, hrun⟩ := h
  exact run_preserves (fun _ ↦ True) (fun e r e' _ ↦ hstep e r e') (fun _ _ ↦ trivial)
    (hinit size nextOffset) hrun

end Preserve

end JmemHeap
