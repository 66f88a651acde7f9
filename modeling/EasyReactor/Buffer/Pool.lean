import Mathlib.Data.List.Perm.Basic
import EasyReactor.Buffer.IoBuffer
import EasyReactor.Foundation.LinkedList

set_option autoImplicit false

/-!
# Buffer: `buffer_pool`

The pool keeps one free list for each capacity class, linked through `next`.  `bufs`
is the heap: the buffers made so far have the numbers below `created`, and the memory
of those still to be made holds arbitrary bytes.  Each call runs under `_mutex`, so a
call is one step.
-/

namespace EasyReactor.Buffer

open EasyReactor.Foundation

/-- `buffer_pool::MEM_CAP`, the keys of `_pool` -/
inductive MemCap where
  | u4K
  | u16K
  | u64K
  | u256K
  | u1M
  | u4M
  | u8M
  deriving DecidableEq, Repr

namespace MemCap

def bytes : MemCap → Nat
  | .u4K => 4096
  | .u16K => 16384
  | .u64K => 65536
  | .u256K => 262144
  | .u1M => 1048576
  | .u4M => 4194304
  | .u8M => 8388608

/-- `_pool.find(index)` -/
def find (index : Int) : Option MemCap :=
  [u4K, u16K, u64K, u256K, u1M, u4M, u8M].find? fun c => index == c.bytes

/-- The class `alloc(N)` takes a buffer of. -/
def forSize (N : Int) : Option MemCap :=
  if N ≤ u4K.bytes then some u4K
  else if N ≤ u16K.bytes then some u16K
  else if N ≤ u64K.bytes then some u64K
  else if N ≤ u256K.bytes then some u256K
  else if N ≤ u1M.bytes then some u1M
  else if N ≤ u4M.bytes then some u4M
  else if N ≤ u8M.bytes then some u8M
  else none

/-- How many buffers of the class the constructor makes. -/
def initialCount : MemCap → Nat
  | .u4K => 5000
  | .u16K => 1000
  | .u64K => 500
  | .u256K => 200
  | .u1M => 50
  | .u4M => 20
  | .u8M => 10

theorem bytes_bounds (c : MemCap) : 0 < c.bytes ∧ c.bytes ≤ 8388608 := by
  cases c <;> decide

theorem bytes_injective {c d : MemCap} (h : c.bytes = d.bytes) : c = d := by
  cases c <;> cases d <;> first | rfl | exact absurd h (by decide)

theorem find_bytes (c : MemCap) : find c.bytes = some c := by
  cases c <;> rfl

theorem le_initialCount (c : MemCap) : 10 ≤ c.initialCount := by
  cases c <;> decide

theorem forSize_some {N : Int} {c : MemCap} (h : forSize N = some c) : N ≤ c.bytes := by
  unfold forSize at h
  split_ifs at h <;> (obtain rfl := Option.some.inj h; assumption)

theorem forSize_none {N : Int} (h : forSize N = none) : 8388608 < N := by
  unfold forSize at h
  split_ifs at h with h₁ h₂ h₃ h₄ h₅ h₆ h₇
  exact Int.not_le.mp h₇

end MemCap

structure BufferPool where
  bufs : BufId → IoBuffer
  created : Nat
  pool : MemCap → Option BufId
  /-- in units of 1024 bytes -/
  totalMem : Nat

/-- `EXTRA_MEM_LIMIT` -/
def extraMemLimit : Nat := 5 * 1024 * 1024

namespace BufferPool

/-- The object `*b` becomes `x`. -/
def setBuf (p : BufferPool) (b : BufId) (x : IoBuffer) : BufferPool :=
  { p with bufs := Function.update p.bufs b x }

/-- `_pool[index] = h` -/
def setPool (p : BufferPool) (index : MemCap) (h : Option BufId) : BufferPool :=
  { p with pool := Function.update p.pool index h }

/-- `new io_buffer(index)`: the object gets the number `created`. -/
def newBuf (p : BufferPool) (index : MemCap) : BufferPool :=
  { p with
    bufs := Function.update p.bufs p.created (.new index.bytes (p.bufs p.created).data)
    created := p.created + 1 }

def alloc (p : BufferPool) (N : Int) : Except Fault (BufferPool × Option BufId) :=
  match MemCap.forSize N with
  | none => .ok (p, none)
  | some index =>
    match p.pool index with
    | none =>
      if p.totalMem + index.bytes / 1024 ≥ extraMemLimit then
        .error .exit
      else
        .ok ({ p.newBuf index with totalMem := p.totalMem + index.bytes / 1024 }, some p.created)
    | some target =>
      let p := p.setPool index (p.bufs target).next
      .ok (p.setBuf target { p.bufs target with next := none }, some target)

def revert (p : BufferPool) (buffer : BufId) : Except Fault BufferPool :=
  let p := p.setBuf buffer { p.bufs buffer with length := 0, head := 0 }
  match MemCap.find (p.bufs buffer).capacity with
  | none => .error (.assertion .revertIndex)
  | some index =>
    let p := p.setBuf buffer { p.bufs buffer with next := p.pool index }
    .ok (p.setPool index (some buffer))

/-- The loop of the constructor: `prev->next = new io_buffer(index); prev = prev->next`. -/
def extend (index : MemCap) : Nat → BufferPool → BufId → BufferPool
  | 0, p, _ => p
  | n + 1, p, prev =>
    let b := p.created
    let p := p.newBuf index
    extend index n (p.setBuf prev { p.bufs prev with next := some b }) b

/-- What the constructor does for one class. -/
def addClass (index : MemCap) (p : BufferPool) : BufferPool :=
  let b := p.created
  let p := (p.newBuf index).setPool index (some b)
  let p := extend index (index.initialCount - 1) p b
  { p with totalMem := p.totalMem + index.bytes / 1024 * index.initialCount }

/-- No buffer yet; `raw` is what the memory of each will hold. -/
def empty (raw : BufId → Nat → UInt8) : BufferPool :=
  ⟨fun b => .new 0 (raw b), 0, fun _ => none, 0⟩

/-- `buffer_pool::buffer_pool()` -/
def init (raw : BufId → Nat → UInt8) : BufferPool :=
  [.u4K, .u16K, .u64K, .u256K, .u1M, .u4M, .u8M].foldl (fun p c => p.addClass c) (empty raw)

end BufferPool

end EasyReactor.Buffer
