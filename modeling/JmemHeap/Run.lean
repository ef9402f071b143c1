import JmemHeap.GcAlloc

/-!
# Runs of the allocator

A run starts from the zero-initialised context, calls `jmem_heap_init`, and then serves the
engine's calls one after another: the three allocation entry points and the two free entry
points. The engine only frees blocks it holds, each with the size and kind it was allocated
with; a call that breaks this, ends the engine (`ERR_OUT_OF_MEMORY`) or does not return ends
the run. A block returned as `NULL` is not held.
-/

namespace JmemHeap

/-- A call of the engine into the allocator. -/
inductive Request where
  /-- `jmem_heap_alloc_block (size)`. -/
  | allocBlock (size : Nat)
  /-- `jmem_heap_alloc_block_null_on_error (size)`. -/
  | allocBlockNullOnError (size : Nat)
  /-- `jmem_heap_alloc_block_small_object (size)`. -/
  | allocBlockSmallObject (size : Nat)
  /-- `jmem_heap_free_block` or `jmem_heap_free_block_small_object`, by the block's kind. -/
  | free (block : Block)
  deriving DecidableEq, Repr

/-- The size a request asks for (`0` for a free). -/
def Request.allocSize : Request → Nat
  | .allocBlock n | .allocBlockNullOnError n | .allocBlockSmallObject n => n
  | .free _ => 0

/-- Whether a request asks for a small object. -/
def Request.small : Request → Bool
  | .allocBlockSmallObject _ => true
  | _ => false

section

variable (cfg : Config) (env : Env)

/-- The engine once it holds the block `p` it asked `size` bytes for, unless `p` is `NULL`. -/
def Engine.hold (e : Engine) (p size : Nat) (small : Bool) : Engine :=
  if p = 0 then e else { e with live := e.live ++ [⟨p, size, small⟩] }

@[simp] theorem Engine.hold_zero (e : Engine) (size : Nat) (small : Bool) :
    e.hold 0 size small = e := rfl

@[simp] theorem Engine.heap_hold (e : Engine) (p size : Nat) (small : Bool) :
    (e.hold p size small).heap = e.heap := by
  unfold Engine.hold; split <;> rfl

theorem Engine.live_hold (e : Engine) (p size : Nat) (small : Bool) :
    (e.hold p size small).live = if p = 0 then e.live else e.live ++ [⟨p, size, small⟩] := by
  unfold Engine.hold; split <;> rfl

/-- The engine after an allocation call that asked for `size` bytes returned. -/
def Engine.receive (size : Nat) (small : Bool) : Option Outcome → Option Engine
  | some (.returned p e _) => some (e.hold p size small)
  | _ => none

/-- One call of the engine. -/
def step (e : Engine) : Request → Option Engine
  | .allocBlock n => Engine.receive n false (jmemHeapAllocBlock cfg env n e)
  | .allocBlockNullOnError n => Engine.receive n false (jmemHeapAllocBlockNullOnError cfg env n e)
  | .allocBlockSmallObject n => Engine.receive n true (jmemHeapAllocBlockSmallObject cfg env n e)
  | .free b =>
    if b ∈ e.live then
      ((if b.small then jmemHeapFreeBlockSmallObject cfg b.ptr b.size e.heap
        else jmemHeapFreeBlock cfg b.ptr b.size e.heap).map fun h ↦ ⟨h, e.live.erase b⟩)
    else none

/-- Both free entry points are `jmem_heap_free_block_internal` with the block's kind. -/
theorem step_free (e : Engine) (b : Block) :
    step cfg env e (.free b) = if b ∈ e.live then
      (jmemHeapFreeBlockInternal cfg b.ptr b.size b.small e.heap).map (⟨·, e.live.erase b⟩)
    else none := by
  cases hb : b.small <;> simp [step, hb, jmemHeapFreeBlock, jmemHeapFreeBlockSmallObject]

/-- The calls `rs`, one after another. -/
def run (e : Engine) : List Request → Option Engine
  | [] => some e
  | r :: rs => (step cfg env e r).bind fun e ↦ run e rs

/-- The engine right after `jmem_heap_init`, from a context whose memory holds `size` and
`nextOffset` as header fields. -/
def Engine.initial (size nextOffset : Nat → Nat) : Engine :=
  ⟨jmemHeapInit cfg env (Heap.zero size nextOffset), []⟩

/-- A state some run reaches. -/
def Reachable (e : Engine) : Prop :=
  ∃ size nextOffset rs, run cfg env (Engine.initial cfg env size nextOffset) rs = some e

/-- A property of what a run from `jmem_heap_init` ends in is a property of a reachable
state. -/
theorem exists_reachable_of_run {α : Type} {f : Engine → α} {v : α}
    (h : (run cfg env (Engine.initial cfg env size nextOffset) rs).map f = some v) :
    ∃ e, Reachable cfg env e ∧ f e = v := by
  obtain ⟨e, he, rfl⟩ := Option.map_eq_some'.mp h
  exact ⟨e, ⟨_, _, _, he⟩, rfl⟩

end

end JmemHeap
