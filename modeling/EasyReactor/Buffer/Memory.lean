import Mathlib.Algebra.BigOperators.Group.Finset.Basic
import EasyReactor.Buffer.Ownership

set_option autoImplicit false

/-!
# Buffer: the memory of the pool

`_total_mem` is what all buffers made so far take, and stays below `EXTRA_MEM_LIMIT`.
Only `alloc` changes it, when it makes a buffer.
-/

namespace EasyReactor.Buffer

open EasyReactor.Foundation

/-! ## The class of a size -/

theorem MemCap.forSize_least {N : Int} {c : MemCap} (h : MemCap.forSize N = some c) :
    ∀ d : MemCap, N ≤ d.bytes → c.bytes ≤ d.bytes := by
  intro d hd
  unfold MemCap.forSize at h
  -- `N` does not fit into the classes below `c`, so `d` is none of them
  split_ifs at h <;> obtain rfl := Option.some.inj h <;>
    cases d <;> simp only [MemCap.bytes] at * <;> omega

/-- A buffer that `alloc` returns has the capacity of the size's class. -/
theorem alloc_capacity {p q : BufferPool} {owned : List BufId} (h : PoolInv p owned) {N : Int}
    {b : BufId} (halloc : p.alloc N = .ok (q, some b)) :
    ∃ c, MemCap.forSize N = some c ∧ (q.bufs b).capacity = c.bytes := by
  obtain ⟨free, hacc, _⟩ := h.accounted
  unfold BufferPool.alloc at halloc
  split at halloc
  · cases halloc
  rename_i c hc
  refine ⟨c, hc, ?_⟩
  have hlinked := hacc.linked c
  split at halloc
  · split at halloc
    · cases halloc
    obtain ⟨rfl, hb⟩ := Prod.mk.inj (Except.ok.inj halloc)
    obtain rfl := Option.some.inj hb
    change (Function.update p.bufs p.created _ p.created).capacity = _
    rw [Function.update_self]
    rfl
  · rename_i target htarget
    obtain ⟨rfl, hb⟩ := Prod.mk.inj (Except.ok.inj halloc)
    obtain rfl := Option.some.inj hb
    rw [htarget] at hlinked
    obtain ⟨l, hl, _⟩ := hlinked.eq_cons
    change (Function.update p.bufs target _ target).capacity = _
    rw [Function.update_self]
    exact (hacc.reset c target (hl ▸ List.mem_cons_self)).capacity

namespace BufferPool

/-- The memory of all buffers made so far, in units of 1024 bytes. -/
def memory (p : BufferPool) : Int := ∑ b ∈ Finset.range p.created, (p.bufs b).capacity / 1024

/-- No buffer was made, and none changed its capacity. -/
structure SameMemory (p q : BufferPool) : Prop where
  created : q.created = p.created
  totalMem : q.totalMem = p.totalMem
  capacity : ∀ b, (q.bufs b).capacity = (p.bufs b).capacity

variable {p q r : BufferPool}

theorem SameMemory.trans (h : SameMemory p q) (h' : SameMemory q r) : SameMemory p r :=
  ⟨h'.created.trans h.created, h'.totalMem.trans h.totalMem,
    fun b => (h'.capacity b).trans (h.capacity b)⟩

theorem SameMemory.memory (h : SameMemory p q) : q.memory = p.memory := by
  unfold BufferPool.memory
  rw [h.created]
  exact Finset.sum_congr rfl fun b _ => by rw [h.capacity b]

theorem setBuf_sameMemory {b : BufId} {x : IoBuffer} (hx : x.capacity = (p.bufs b).capacity) :
    SameMemory p (p.setBuf b x) := by
  refine ⟨rfl, rfl, fun a => ?_⟩
  change (Function.update p.bufs b x a).capacity = _
  by_cases hab : a = b
  · subst hab
    rw [Function.update_self, hx]
  · rw [Function.update_of_ne hab]

theorem setPool_sameMemory (p : BufferPool) (index : MemCap) (h : Option BufId) :
    SameMemory p (p.setPool index h) := ⟨rfl, rfl, fun _ => rfl⟩

theorem revert_sameMemory {b : BufId} (h : p.revert b = .ok q) : SameMemory p q := by
  unfold revert at h
  simp only at h
  split at h
  · cases h
  · obtain rfl := Except.ok.inj h
    refine SameMemory.trans ?_ (setPool_sameMemory _ _ _)
    refine SameMemory.trans ?_ (setBuf_sameMemory rfl)
    exact setBuf_sameMemory rfl

/-- A new buffer takes its class. -/
theorem memory_newBuf (p : BufferPool) (c : MemCap) :
    (p.newBuf c).memory = p.memory + c.bytes / 1024 := by
  have hnew : ((p.newBuf c).bufs p.created).capacity = c.bytes := by
    change (Function.update p.bufs p.created _ p.created).capacity = _
    rw [Function.update_self]
    rfl
  have hold : ∀ b ∈ Finset.range p.created,
      ((p.newBuf c).bufs b).capacity / 1024 = (p.bufs b).capacity / 1024 := by
    intro b hb
    have hne : b ≠ p.created := Nat.ne_of_lt (Finset.mem_range.mp hb)
    change (Function.update p.bufs p.created _ b).capacity / 1024 = _
    rw [Function.update_of_ne hne]
  unfold memory
  change ∑ b ∈ Finset.range (p.created + 1), ((p.newBuf c).bufs b).capacity / 1024 = _
  rw [Finset.sum_range_succ, Finset.sum_congr rfl hold, hnew]

end BufferPool

/-- What `_total_mem` says. -/
structure Budgeted (p : BufferPool) : Prop where
  total : (p.totalMem : Int) = p.memory
  below : p.totalMem < extraMemLimit

namespace Budgeted

variable {p q : BufferPool}

theorem same (h : Budgeted p) (hs : p.SameMemory q) : Budgeted q where
  total := by rw [hs.totalMem, hs.memory, h.total]
  below := by
    rw [hs.totalMem]
    exact h.below

/-- `alloc` counts the buffer it makes, and makes none that would reach the limit. -/
theorem alloc (h : Budgeted p) {N : Int} {b : Option BufId} (halloc : p.alloc N = .ok (q, b)) :
    Budgeted q := by
  unfold BufferPool.alloc at halloc
  split at halloc
  · obtain ⟨rfl, _⟩ := Prod.mk.inj (Except.ok.inj halloc)
    exact h
  · rename_i c _
    split at halloc
    · split at halloc
      · cases halloc
      · rename_i hlimit
        obtain ⟨rfl, _⟩ := Prod.mk.inj (Except.ok.inj halloc)
        refine ⟨?_, Nat.not_le.mp hlimit⟩
        have hmem := p.memory_newBuf c
        have htotal := h.total
        change ((p.totalMem + c.bytes / 1024 : Nat) : Int) = (p.newBuf c).memory
        rw [hmem, ← htotal]
        exact Int.natCast_add _ _
    · rename_i target _
      obtain ⟨rfl, _⟩ := Prod.mk.inj (Except.ok.inj halloc)
      have hpop := BufferPool.setPool_sameMemory p c (p.bufs target).next
      exact h.same (hpop.trans (BufferPool.setBuf_sameMemory rfl))

end Budgeted

/-! ## The constructor -/

namespace BufferPool

theorem extend_memory (c : MemCap) (n : Nat) (p : BufferPool) (prev : BufId) :
    (extend c n p prev).memory = p.memory + n * (c.bytes / 1024) ∧
      (extend c n p prev).totalMem = p.totalMem := by
  induction n generalizing p prev with
  | zero =>
    refine ⟨?_, rfl⟩
    change p.memory = p.memory + ((0 : Nat) : Int) * _
    rw [Int.natCast_zero, Int.zero_mul, Int.add_zero]
  | succ n ih =>
    have hlink : SameMemory (p.newBuf c)
        ((p.newBuf c).setBuf prev { (p.newBuf c).bufs prev with next := some p.created }) :=
      setBuf_sameMemory rfl
    obtain ⟨hmem, htotal⟩ := ih ((p.newBuf c).setBuf prev
      { (p.newBuf c).bufs prev with next := some p.created }) p.created
    refine ⟨hmem.trans ?_, htotal.trans rfl⟩
    rw [hlink.memory, memory_newBuf, Int.natCast_succ, Int.add_mul, Int.one_mul]
    omega

theorem addClass_memory (c : MemCap) (p : BufferPool) :
    (p.addClass c).memory = p.memory + c.initialCount * (c.bytes / 1024) ∧
      (p.addClass c).totalMem = p.totalMem + c.bytes / 1024 * c.initialCount := by
  have hfirst : SameMemory (p.newBuf c) ((p.newBuf c).setPool c (some p.created)) :=
    setPool_sameMemory _ _ _
  obtain ⟨hmem, htotal⟩ := extend_memory c (c.initialCount - 1)
    ((p.newBuf c).setPool c (some p.created)) p.created
  refine ⟨hmem.trans ?_, ?_⟩
  · have hpos := c.le_initialCount
    have hcount : (c.initialCount : Int) = ((c.initialCount - 1 : Nat) : Int) + 1 := by omega
    rw [hfirst.memory, memory_newBuf, hcount, Int.add_mul, Int.one_mul]
    omega
  · change (extend c (c.initialCount - 1) _ p.created).totalMem + _ = _
    rw [htotal]
    rfl

theorem addClass_total {p : BufferPool} (c : MemCap) (h : (p.totalMem : Int) = p.memory) :
    ((p.addClass c).totalMem : Int) = (p.addClass c).memory := by
  obtain ⟨hmem, htotal⟩ := addClass_memory c p
  rw [hmem, htotal, ← h, Int.natCast_add, Int.natCast_mul, Int.mul_comm]
  rfl

theorem foldl_addClass_total (cs : List MemCap) {p : BufferPool}
    (h : (p.totalMem : Int) = p.memory) :
    ((cs.foldl (fun p c => p.addClass c) p).totalMem : Int) =
      (cs.foldl (fun p c => p.addClass c) p).memory := by
  induction cs generalizing p with
  | nil => exact h
  | cons c cs ih => exact ih (addClass_total c h)

end BufferPool

/-- The pool starts with the memory of its classes, far below the limit. -/
theorem init_budgeted (raw : BufId → Nat → UInt8) : Budgeted (.init raw) := by
  refine ⟨BufferPool.foldl_addClass_total _ rfl, ?_⟩
  have hempty : (BufferPool.empty raw).totalMem = 0 := rfl
  unfold BufferPool.init
  simp only [List.foldl_cons, List.foldl_nil, (BufferPool.addClass_memory _ _).2, MemCap.bytes,
    MemCap.initialCount, hempty]
  decide

end EasyReactor.Buffer
