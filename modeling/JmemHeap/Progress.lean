import JmemHeap.FirstFit

/-!
# Every call returns

The model's `none` stands for a call that does not return: a walk or a loop of the source
still running after `loopBound` rounds has revisited a state and runs forever. On the static
and dynamic-emulation backends no call made in a run whose requests round without wrapping
does so (`calls_return_of_run`): the free of a held block returns, and an allocation ends,
with a pointer or with `jerry_fatal (ERR_OUT_OF_MEMORY)`, whatever the collector releases
within its contract.

As for the invariants of `Invariant`, this is shown once for the ladder of
`jmem_heap_gc_and_alloc_block`, from two facts about a property `P` of the engine that the
operations keep: from a state with `P` the free of a held block returns, and so does an
attempt. The free list's shape is such a property.
-/

namespace JmemHeap

section Returns

variable (cfg : Config) (env : Env) (P : Engine → Prop)

/-- From a state with `P`, `jmem_heap_free_block_internal` on a held block returns. -/
def FreeReturns : Prop :=
  ∀ e b, P e → b ∈ e.live →
    ∃ s, jmemHeapFreeBlockInternal cfg b.ptr b.size b.small e.heap = some s

/-- From a state with `P`, `jmem_run_free_unused_memory_callbacks` returns at either severity. -/
def CallbacksReturn : Prop :=
  ∀ severity e, P e → ∃ e', jmemRunFreeUnusedMemoryCallbacks cfg env severity e = some e'

/-- From a state with `P`, an attempt for a request of `n` bytes returns. -/
def AttemptReturns (n : Nat) (small : Bool) : Prop :=
  ∀ e, P e → ∃ r, blockAlloc cfg env (cfg.alignUp n) small e = some r

variable {cfg env P}

theorem freeAll_returns (hf : FreePreserves cfg P) (hr : FreeReturns cfg P) :
    ∀ {bs : List Block} {e : Engine}, P e → bs.Subperm e.live → ∃ e', freeAll cfg bs e = some e'
  | [], e, _, _ => ⟨e, rfl⟩
  | b :: bs, e, he, hsub => by
    have hb := hsub.subset (List.mem_cons_self b bs)
    obtain ⟨s, hs⟩ := hr e b he hb
    have hrest : bs.Subperm (e.live.erase b) := by simpa using hsub.erase b
    simp only [freeAll, hs, Option.some_bind]
    exact freeAll_returns hf hr (hf e b s he hb hs) hrest

/-- Under the collector contract, the collector returns from every state from which a free of
a held block returns and keeps `P`. -/
theorem callbacksReturn_of_collectsLive (hc : env.CollectsLive) (hf : FreePreserves cfg P)
    (hr : FreeReturns cfg P) : CallbacksReturn cfg env P :=
  fun severity e he ↦ freeAll_returns hf hr he (hc severity e.heap e.live)

theorem gcBeforeEach_returns (hcr : CallbacksReturn cfg env P) {e : Engine} (he : P e) :
    ∃ r, gcBeforeEach cfg env e = some r := by
  unfold gcBeforeEach
  split
  · obtain ⟨e', h⟩ := hcr .high e he
    exact ⟨_, by rw [h]; rfl⟩
  · exact ⟨_, rfl⟩

theorem gcExpectedOverSize_returns (hcr : CallbacksReturn cfg env P) {e : Engine} (he : P e) :
    ∃ r, gcExpectedOverSize cfg env size small e tr = some r := by
  unfold gcExpectedOverSize
  split
  · obtain ⟨e', h⟩ := hcr .low e he
    exact ⟨_, by rw [h]; rfl⟩
  · exact ⟨_, rfl⟩

section Ladder

variable {n : Nat} {retNull small : Bool}

/-- Without segment groups, the severity loop returns from every state with `P`. -/
theorem severityLoop_returns (hseg : cfg.backend ≠ .segmented) (hcb : CallbacksPreserve cfg env P)
    (hcr : CallbacksReturn cfg env P) (ha : AttemptPreserves cfg env P n small)
    (har : AttemptReturns cfg env P n small) :
    ∀ {sevs : List Severity} {p : Nat} {e : Engine} {tr : List Event}, P e →
      ∃ o, gcAllocSeverityLoop cfg env (cfg.alignUp n) retNull small sevs p e tr = some o
  | [], _, _, _, _ => by
    simp only [gcAllocSeverityLoop, gcAllocAfterCallbacks, if_neg hseg]
    exact ⟨_, rfl⟩
  | sev :: sevs, _, e, tr, he => by
    obtain ⟨e₁, h₁⟩ := hcr sev e he
    have he₁ := hcb _ _ _ he h₁
    obtain ⟨⟨q, e₂⟩, h₂⟩ := har e₁ he₁
    simp only [gcAllocSeverityLoop, h₁, h₂, bind, Option.some_bind]
    split
    · exact ⟨_, rfl⟩
    · obtain rfl : q = 0 := by simpa using ‹¬q ≠ 0›
      exact severityLoop_returns hseg hcb hcr ha har (by simpa using ha e₁ 0 e₂ he₁ h₂)

/-- Without segment groups, `jmem_heap_gc_and_alloc_block (n)` for `n > 0` returns from every
state with `P`. -/
theorem gcAndAlloc_returns (hseg : cfg.backend ≠ .segmented) (hcb : CallbacksPreserve cfg env P)
    (hcr : CallbacksReturn cfg env P) (ha : AttemptPreserves cfg env P n small)
    (har : AttemptReturns cfg env P n small) {e : Engine} (he : P e) :
    ∃ o, jmemHeapGcAndAllocBlock cfg env n retNull small e = some o := by
  obtain ⟨⟨e₁, tr₁⟩, h₁⟩ := gcBeforeEach_returns hcr he
  have he₁ := gcBeforeEach_preserves hcb he h₁
  obtain ⟨⟨e₂, tr₂⟩, h₂⟩ :
      ∃ r, gcExpectedOverSize cfg env (cfg.alignUp n) small e₁ tr₁ = some r :=
    gcExpectedOverSize_returns hcr he₁
  have he₂ := gcExpectedOverSize_preserves hcb he₁ h₂
  obtain ⟨⟨q, e₃⟩, h₃⟩ := har e₂ he₂
  unfold jmemHeapGcAndAllocBlock
  split
  · exact ⟨_, rfl⟩
  simp only [h₁, h₂, h₃, bind, Option.some_bind, if_neg hseg]
  split
  · exact ⟨_, rfl⟩
  · obtain rfl : q = 0 := by simpa using ‹¬q ≠ 0›
    exact severityLoop_returns hseg hcb hcr ha har (by simpa using ha e₂ 0 e₃ he₂ h₃)

end Ladder

end Returns

/-! ## Every call of a run returns -/

section Runs

variable {cfg : Config} {env : Env}

theorem freeReturns_shape (hb : cfg.backend = .static ∨ cfg.backend.isDynamicEmul) :
    FreeReturns cfg fun e ↦ ∃ L, FreeListShape cfg e.heap e.live L :=
  fun _ _ ⟨_, h⟩ hb' ↦ (h.free_spec hb hb').imp fun _ h ↦ h.1

theorem attemptReturns_shape (hb : cfg.backend = .static ∨ cfg.backend.isDynamicEmul)
    (n : Nat) (small : Bool) :
    AttemptReturns cfg env (fun e ↦ ∃ L, FreeListShape cfg e.heap e.live L) n small := by
  intro e ⟨L, h⟩
  obtain ⟨p, s, hs⟩ : ∃ p s, jmemHeapAllocBlockInternal cfg env (cfg.alignUp n) small e.heap =
      some (p, s) := h.exists_alloc hb _ small
  exact ⟨(p, { e with heap := s }), by simp [blockAlloc, hs]⟩

/-- On the static and dynamic-emulation backends, under the collector contract, in every state
reached by requests whose rounding does not wrap, no call runs forever: freeing any held block
returns, and `jmem_heap_gc_and_alloc_block (n)`, behind the three allocation entry points,
for every `n` whose rounding does not wrap, ends, by returning a pointer or by calling
`jerry_fatal`, with its collector runs, attempts and loops all finished. -/
theorem calls_return_of_run (hb : cfg.backend = .static ∨ cfg.backend.isDynamicEmul)
    (hc : env.CollectsLive) {size nextOffset : Nat → Nat} {rs : List Request} {e : Engine}
    (hrun : run cfg env (Engine.initial cfg env size nextOffset) rs = some e)
    (hrs : ∀ r ∈ rs, cfg.NoWrap r.allocSize) :
    (∀ b ∈ e.live, ∃ s, jmemHeapFreeBlockInternal cfg b.ptr b.size b.small e.heap = some s) ∧
    ∀ n retNull small, cfg.NoWrap n →
      ∃ o, jmemHeapGcAndAllocBlock cfg env n retNull small e = some o := by
  have he := exists_freeListShape_of_run hb hc hrun hrs
  have hf := freePreserves_shape hb
  refine ⟨fun b hb' ↦ freeReturns_shape hb e b he hb', fun n retNull small hw ↦ ?_⟩
  rcases Nat.eq_zero_or_pos n with rfl | hn
  · exact ⟨_, if_pos rfl⟩
  · exact gcAndAlloc_returns (ne_of_contiguous hb).2 (callbacksPreserve_of_collectsLive hc hf)
      (callbacksReturn_of_collectsLive hc hf (freeReturns_shape hb))
      (attemptPreserves_shape hb hn hw small) (attemptReturns_shape hb n small) he

theorem calls_return_of_run_small :
    ∃ e, run (Config.small .static) Env.quiet
        (Engine.initial (Config.small .static) Env.quiet (fun _ ↦ 0) (fun _ ↦ 0))
        [.allocBlock 8, .allocBlock 20, .free ⟨4096, 8, false⟩] = some e ∧
      (∀ b ∈ e.live, ∃ s, jmemHeapFreeBlockInternal (Config.small .static) b.ptr b.size b.small
        e.heap = some s) ∧
      ∀ n retNull small, (Config.small .static).NoWrap n →
        ∃ o, jmemHeapGcAndAllocBlock (Config.small .static) Env.quiet n retNull small e = some o := by
  obtain ⟨e, he⟩ := Option.isSome_iff_exists.mp (show (run (Config.small .static) Env.quiet
    (Engine.initial (Config.small .static) Env.quiet (fun _ ↦ 0) (fun _ ↦ 0))
    [.allocBlock 8, .allocBlock 20, .free ⟨4096, 8, false⟩]).isSome by decide)
  exact ⟨e, he, calls_return_of_run (.inl rfl) (fun _ _ _ ↦ List.nil_subperm) he (by decide)⟩

end Runs

end JmemHeap
