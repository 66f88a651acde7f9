import Mathlib.Data.List.Nodup
import EasyReactor.Buffer.Pool

set_option autoImplicit false

/-!
# Buffer: who holds which buffer

`Accounted p free owned`: every buffer made so far is in the free list of its class or
is one of `owned`, and in one place only.  `PoolInv` adds that the classes never get
smaller than the constructor made them.  What each call of the pool does to `owned` is
stated once here (`alloc_ends`, `revert_eq`, `PoolInv.setBuf`); a holder of buffers
needs nothing else about the pool.
-/

namespace EasyReactor.Buffer

open EasyReactor.Foundation

/-- The links of the heap. -/
def BufferPool.next (p : BufferPool) (b : BufId) : Option BufId := (p.bufs b).next

/-- A buffer as the pool keeps it. -/
structure Reset (b : IoBuffer) (c : MemCap) : Prop where
  capacity : b.capacity = c.bytes
  length : b.length = 0
  head : b.head = 0

/-- The free lists are `free`, the buffers outside them are `owned`. -/
structure Accounted (p : BufferPool) (free : MemCap → List BufId) (owned : List BufId) :
    Prop where
  linked : ∀ c, Linked p.next (p.pool c) (free c)
  free_nodup : ∀ c, (free c).Nodup
  owned_nodup : owned.Nodup
  apart : ∀ c, ∀ b ∈ free c, b ∉ owned
  reset : ∀ c, ∀ b ∈ free c, Reset (p.bufs b) c
  owned_class : ∀ b ∈ owned, ∃ c : MemCap, (p.bufs b).capacity = c.bytes
  created_iff : ∀ b, b < p.created ↔ b ∈ owned ∨ ∃ c, b ∈ free c

namespace Accounted

variable {p : BufferPool} {free : MemCap → List BufId} {owned : List BufId}

/-- A buffer on two free lists would have two capacities. -/
theorem free_unique (h : Accounted p free owned) {c d : MemCap} {b : BufId} (hc : b ∈ free c)
    (hd : b ∈ free d) : c = d := by
  have h₁ := (h.reset c b hc).capacity
  have h₂ := (h.reset d b hd).capacity
  apply MemCap.bytes_injective
  omega

theorem not_created (h : Accounted p free owned) :
    p.created ∉ owned ∧ ∀ c, p.created ∉ free c := by
  have hn : ¬ (p.created ∈ owned ∨ ∃ c, p.created ∈ free c) := by
    rw [← h.created_iff]
    exact Nat.lt_irrefl _
  exact ⟨fun ho => hn (.inl ho), fun c hc => hn (.inr ⟨c, hc⟩)⟩

/-- Who owns a buffer is a matter of membership only. -/
theorem perm (h : Accounted p free owned) {owned' : List BufId} (hp : owned.Perm owned') :
    Accounted p free owned' where
  linked := h.linked
  free_nodup := h.free_nodup
  owned_nodup := hp.nodup_iff.mp h.owned_nodup
  apart c b hb ho := h.apart c b hb (hp.mem_iff.mpr ho)
  reset := h.reset
  owned_class b hb := h.owned_class b (hp.mem_iff.mpr hb)
  created_iff b := by rw [h.created_iff, hp.mem_iff]

/-- An owner may write to its buffer, the capacity apart. -/
theorem setBuf (h : Accounted p free owned) {b : BufId} {x : IoBuffer} (hb : b ∈ owned)
    (hx : x.capacity = (p.bufs b).capacity) : Accounted (p.setBuf b x) free owned := by
  have hfree : ∀ c, ∀ a ∈ free c, (p.setBuf b x).bufs a = p.bufs a := by
    intro c a ha
    apply Function.update_of_ne
    rintro rfl
    exact h.apart c a ha hb
  refine ⟨?_, h.free_nodup, h.owned_nodup, h.apart, ?_, ?_, h.created_iff⟩
  · intro c
    apply (h.linked c).congr
    intro a ha
    unfold BufferPool.next
    rw [hfree c a ha]
  · intro c a ha
    rw [hfree c a ha]
    exact h.reset c a ha
  · intro a ha
    change ∃ c : MemCap, (Function.update p.bufs b x a).capacity = _
    by_cases hab : a = b
    · subst hab
      rw [Function.update_self, hx]
      exact h.owned_class a ha
    · rw [Function.update_of_ne hab]
      exact h.owned_class a ha

/-- Making a buffer and giving it to a new owner. -/
theorem newBuf (h : Accounted p free owned) (c : MemCap) :
    Accounted (p.newBuf c) free (p.created :: owned) := by
  obtain ⟨hno, hnf⟩ := h.not_created
  have hold : ∀ a, a ≠ p.created → (p.newBuf c).bufs a = p.bufs a := fun a ha =>
    Function.update_of_ne ha ..
  have hfree : ∀ d, ∀ a ∈ free d, (p.newBuf c).bufs a = p.bufs a := by
    intro d a ha
    apply hold
    rintro rfl
    exact hnf d ha
  refine ⟨?_, h.free_nodup, List.nodup_cons.mpr ⟨hno, h.owned_nodup⟩, ?_, ?_, ?_, ?_⟩
  · intro d
    apply (h.linked d).congr
    intro a ha
    unfold BufferPool.next
    rw [hfree d a ha]
  · intro d a ha hao
    cases List.mem_cons.mp hao with
    | inl he =>
      subst he
      exact hnf d ha
    | inr ho => exact h.apart d a ha ho
  · intro d a ha
    rw [hfree d a ha]
    exact h.reset d a ha
  · intro a ha
    cases List.mem_cons.mp ha with
    | inl he =>
      subst he
      refine ⟨c, ?_⟩
      change (Function.update p.bufs p.created _ p.created).capacity = _
      rw [Function.update_self]
      rfl
    | inr ho =>
      rw [hold a]
      · exact h.owned_class a ho
      · rintro rfl
        exact hno ho
  · intro a
    change a < p.created + 1 ↔ _
    rw [List.mem_cons, or_assoc, ← h.created_iff]
    omega

/-- Taking the first buffer of a free list. -/
theorem pop (h : Accounted p free owned) {c : MemCap} {b : BufId} {l : List BufId}
    (hc : free c = b :: l) :
    Accounted (p.setPool c (p.bufs b).next) (Function.update free c l) (b :: owned) := by
  have hbc : b ∈ free c := by simp [hc]
  have hnodup := h.free_nodup c
  rw [hc, List.nodup_cons] at hnodup
  have hmem : ∀ d a, a ∈ Function.update free c l d → a ∈ free d ∧ a ≠ b := by
    intro d a ha
    by_cases hd : d = c
    · subst hd
      rw [Function.update_self] at ha
      refine ⟨by simp [hc, ha], ?_⟩
      rintro rfl
      exact hnodup.1 ha
    · rw [Function.update_of_ne hd] at ha
      refine ⟨ha, ?_⟩
      rintro rfl
      exact hd (h.free_unique ha hbc)
  refine ⟨?_, ?_, ?_, ?_, ?_, ?_, ?_⟩
  · intro d
    change Linked p.next (Function.update p.pool c _ d) _
    by_cases hd : d = c
    · subst hd
      have hl := h.linked d
      rw [hc] at hl
      rw [Function.update_self, Function.update_self]
      exact hl.2
    · rw [Function.update_of_ne hd, Function.update_of_ne hd]
      exact h.linked d
  · intro d
    by_cases hd : d = c
    · subst hd
      rw [Function.update_self]
      exact hnodup.2
    · rw [Function.update_of_ne hd]
      exact h.free_nodup d
  · exact List.nodup_cons.mpr ⟨h.apart c b hbc, h.owned_nodup⟩
  · intro d a ha hao
    obtain ⟨had, hab⟩ := hmem d a ha
    cases List.mem_cons.mp hao with
    | inl he => exact hab he
    | inr ho => exact h.apart d a had ho
  · intro d a ha
    exact h.reset d a (hmem d a ha).1
  · intro a ha
    cases List.mem_cons.mp ha with
    | inl he =>
      subst he
      exact ⟨c, (h.reset c a hbc).capacity⟩
    | inr ho => exact h.owned_class a ho
  · intro a
    refine (h.created_iff a).trans ⟨?_, ?_⟩
    · rintro (ho | ⟨d, hd⟩)
      · exact .inl (List.mem_cons_of_mem _ ho)
      · by_cases hdc : d = c
        · subst hdc
          rw [hc] at hd
          cases List.mem_cons.mp hd with
          | inl he => exact .inl (he ▸ List.mem_cons_self ..)
          | inr hl => exact .inr ⟨d, by rwa [Function.update_self]⟩
        · exact .inr ⟨d, by rwa [Function.update_of_ne hdc]⟩
    · rintro (ho | ⟨d, hd⟩)
      · cases List.mem_cons.mp ho with
        | inl he => exact .inr ⟨c, he ▸ hbc⟩
        | inr ho => exact .inl ho
      · exact .inr ⟨d, (hmem d a hd).1⟩

/-- A buffer changes hands from its owner to the free list of its class; the links are
for the caller to set. -/
theorem gain {b : BufId} {q : BufferPool} {l : List BufId} {c : MemCap}
    (h : Accounted p free (b :: owned)) (hl : l.Perm (b :: free c)) (hr : Reset (p.bufs b) c)
    (hcreated : q.created = p.created)
    (hsame : ∀ a d, Reset (p.bufs a) d → Reset (q.bufs a) d)
    (hcap : ∀ a, (q.bufs a).capacity = (p.bufs a).capacity)
    (hlinked : ∀ d, Linked q.next (q.pool d) (Function.update free c l d)) :
    Accounted q (Function.update free c l) owned := by
  have hbf : ∀ d, b ∉ free d := fun d hd => h.apart d b hd (List.mem_cons_self ..)
  obtain ⟨hbo, hown⟩ := List.nodup_cons.mp h.owned_nodup
  have hmem : ∀ d a, a ∈ Function.update free c l d ↔ a ∈ free d ∨ (a = b ∧ d = c) := by
    intro d a
    by_cases hd : d = c
    · subst hd
      rw [Function.update_self, hl.mem_iff, List.mem_cons]
      tauto
    · rw [Function.update_of_ne hd]
      tauto
  refine ⟨hlinked, ?_, hown, ?_, ?_, ?_, ?_⟩
  · intro d
    by_cases hd : d = c
    · subst hd
      rw [Function.update_self]
      exact hl.nodup_iff.mpr (List.nodup_cons.mpr ⟨hbf d, h.free_nodup d⟩)
    · rw [Function.update_of_ne hd]
      exact h.free_nodup d
  · intro d a ha ho
    cases (hmem d a).mp ha with
    | inl hf => exact h.apart d a hf (List.mem_cons_of_mem _ ho)
    | inr he => exact hbo (he.1 ▸ ho)
  · intro d a ha
    apply hsame
    cases (hmem d a).mp ha with
    | inl hf => exact h.reset d a hf
    | inr he =>
      obtain ⟨rfl, rfl⟩ := he
      exact hr
  · intro a ha
    rw [hcap]
    exact h.owned_class a (List.mem_cons_of_mem _ ha)
  · intro a
    rw [hcreated, h.created_iff, List.mem_cons]
    refine ⟨?_, ?_⟩
    · rintro ((he | ho) | ⟨d, hd⟩)
      · exact .inr ⟨c, (hmem c a).mpr (.inr ⟨he, rfl⟩)⟩
      · exact .inl ho
      · exact .inr ⟨d, (hmem d a).mpr (.inl hd)⟩
    · rintro (ho | ⟨d, hd⟩)
      · exact .inl (.inr ho)
      · cases (hmem d a).mp hd with
        | inl hf => exact .inr ⟨d, hf⟩
        | inr he => exact .inl (.inl he.1)

/-- Putting an owned buffer, reset and linked, in front of the free list of its class. -/
theorem push {b : BufId} (h : Accounted p free (b :: owned)) {c : MemCap}
    (hr : Reset (p.bufs b) c) (hn : (p.bufs b).next = p.pool c) :
    Accounted (p.setPool c (some b)) (Function.update free c (b :: free c)) owned := by
  apply h.gain (q := p.setPool c (some b)) (List.Perm.refl _) hr rfl (fun _ _ ha => ha)
    (fun _ => rfl)
  intro d
  change Linked p.next (Function.update p.pool c _ d) _
  by_cases hd : d = c
  · subst hd
    rw [Function.update_self, Function.update_self]
    refine ⟨rfl, ?_⟩
    unfold BufferPool.next
    rw [hn]
    exact h.linked d
  · rw [Function.update_of_ne hd, Function.update_of_ne hd]
    exact h.linked d

/-- Linking an owned buffer, reset, behind the last buffer of the free list of its class. -/
theorem link {b prev : BufId} {l : List BufId} (h : Accounted p free (b :: owned)) {c : MemCap}
    (hc : free c = l ++ [prev]) (hr : Reset (p.bufs b) c) (hn : (p.bufs b).next = none) :
    Accounted (p.setBuf prev { p.bufs prev with next := some b })
      (Function.update free c (l ++ [prev] ++ [b])) owned := by
  have hprev : prev ∈ free c := by simp [hc]
  have hbprev : b ≠ prev := by
    rintro rfl
    exact h.apart c b hprev (List.mem_cons_self ..)
  have hnodup := h.free_nodup c
  rw [hc, List.nodup_append] at hnodup
  have hold : ∀ a, a ≠ prev →
      (p.setBuf prev { p.bufs prev with next := some b }).bufs a = p.bufs a := fun a ha =>
    Function.update_of_ne ha ..
  have hself : (p.setBuf prev { p.bufs prev with next := some b }).bufs prev =
      { p.bufs prev with next := some b } := Function.update_self ..
  apply h.gain (q := p.setBuf prev { p.bufs prev with next := some b }) _ hr rfl
  · intro a d ha
    by_cases hap : a = prev
    · subst hap
      rw [hself]
      exact ⟨ha.capacity, ha.length, ha.head⟩
    · rw [hold a hap]
      exact ha
  · intro a
    by_cases hap : a = prev
    · subst hap
      rw [hself]
    · rw [hold a hap]
  · intro d
    by_cases hd : d = c
    · subst hd
      have hl := h.linked d
      rw [hc] at hl
      rw [Function.update_self]
      apply hl.concat
      · intro x hx
        unfold BufferPool.next
        rw [hold x]
        rintro rfl
        exact hnodup.2.2 x hx x (by simp) rfl
      · unfold BufferPool.next
        rw [hself]
      · unfold BufferPool.next
        rw [hold b hbprev, hn]
    · rw [Function.update_of_ne hd]
      apply (h.linked d).congr
      intro a ha
      unfold BufferPool.next
      rw [hold a]
      rintro rfl
      exact hd (h.free_unique ha hprev)
  · rw [hc]
    exact List.perm_append_comm

end Accounted

/-! ## The classes never shrink -/

/-- The buffers of class `c` among `owned`. -/
def BufferPool.countClass (p : BufferPool) (c : MemCap) (owned : List BufId) : Nat :=
  owned.countP fun b => decide ((p.bufs b).capacity = c.bytes)

/-- What every call of the pool keeps. -/
structure PoolInv (p : BufferPool) (owned : List BufId) : Prop where
  accounted : ∃ free, Accounted p free owned ∧
    ∀ c : MemCap, c.initialCount ≤ (free c).length + p.countClass c owned

theorem countClass_congr {p p' : BufferPool} {owned : List BufId} (c : MemCap)
    (h : ∀ a ∈ owned, (p'.bufs a).capacity = (p.bufs a).capacity) :
    p'.countClass c owned = p.countClass c owned := by
  apply List.countP_congr
  intro a ha
  rw [h a ha]

theorem countClass_cons (p : BufferPool) (c : MemCap) (b : BufId) (owned : List BufId) :
    p.countClass c (b :: owned) =
      p.countClass c owned + if (p.bufs b).capacity = c.bytes then 1 else 0 := by
  unfold BufferPool.countClass
  rw [List.countP_cons]
  simp

theorem countClass_le (p : BufferPool) (c : MemCap) (owned : List BufId) :
    p.countClass c owned ≤ owned.length :=
  List.countP_le_length

namespace PoolInv

variable {p : BufferPool} {owned : List BufId}

theorem perm (h : PoolInv p owned) {owned' : List BufId} (hp : owned.Perm owned') :
    PoolInv p owned' := by
  obtain ⟨free, hacc, hstock⟩ := h.accounted
  refine ⟨free, hacc.perm hp, ?_⟩
  intro c
  have : p.countClass c owned' = p.countClass c owned := (hp.countP_eq _).symm
  rw [this]
  exact hstock c

theorem nodup (h : PoolInv p owned) : owned.Nodup := by
  obtain ⟨free, hacc, -⟩ := h.accounted
  exact hacc.owned_nodup

theorem capacity (h : PoolInv p owned) {b : BufId} (hb : b ∈ owned) :
    0 < (p.bufs b).capacity ∧ (p.bufs b).capacity ≤ 8388608 := by
  obtain ⟨free, hacc, -⟩ := h.accounted
  obtain ⟨c, hc⟩ := hacc.owned_class b hb
  have := c.bytes_bounds
  omega

theorem setBuf (h : PoolInv p owned) {b : BufId} {x : IoBuffer} (hb : b ∈ owned)
    (hx : x.capacity = (p.bufs b).capacity) : PoolInv (p.setBuf b x) owned := by
  obtain ⟨free, hacc, hstock⟩ := h.accounted
  refine ⟨free, hacc.setBuf hb hx, ?_⟩
  intro c
  have : (p.setBuf b x).countClass c owned = p.countClass c owned := by
    apply countClass_congr
    intro a _
    change (Function.update p.bufs b x a).capacity = _
    by_cases hab : a = b
    · subst hab
      rw [Function.update_self, hx]
    · rw [Function.update_of_ne hab]
  rw [this]
  exact hstock c

end PoolInv

/-! ## `alloc` and `revert` -/

/-- What `alloc(N)` did when it returned a buffer: `b` is a new holding, reset, and large
enough, and no other buffer changed. -/
structure Allocated (p p' : BufferPool) (owned : List BufId) (N : Int) (b : BufId) : Prop where
  inv : PoolInv p' (b :: owned)
  size : N ≤ (p'.bufs b).capacity
  empty : Window (p'.bufs b) 0 []
  others : ∀ a, a ≠ b → p'.bufs a = p.bufs a

/-- The branch of `alloc` that takes the first free buffer of the class. -/
theorem Accounted.allocated {p : BufferPool} {free : MemCap → List BufId} {owned : List BufId}
    (h : Accounted p free owned)
    (hstock : ∀ c : MemCap, c.initialCount ≤ (free c).length + p.countClass c owned)
    {c : MemCap} {b : BufId} {l : List BufId} (hl : free c = b :: l) {N : Int} (hN : N ≤ c.bytes) :
    Allocated p ((p.setPool c (p.bufs b).next).setBuf b { p.bufs b with next := none })
      owned N b := by
  have hreset := h.reset c b (by simp [hl])
  have hcb := c.bytes_bounds
  have hcap := hreset.capacity
  have hpop := (h.pop hl).setBuf (b := b) (x := { p.bufs b with next := none })
    (List.mem_cons_self ..) rfl
  generalize hq : (p.setPool c (p.bufs b).next).setBuf b { p.bufs b with next := none } = q
    at hpop ⊢
  have hself : q.bufs b = { p.bufs b with next := none } := by
    rw [← hq]
    exact Function.update_self ..
  have hold : ∀ a, a ≠ b → q.bufs a = p.bufs a := by
    intro a ha
    rw [← hq]
    exact Function.update_of_ne ha ..
  refine ⟨⟨_, hpop, ?_⟩, ?_, ?_, hold⟩
  · intro d
    have h₁ := hstock d
    have h₂ : q.countClass d owned = p.countClass d owned := by
      apply countClass_congr
      intro a ha
      rw [hold a]
      rintro rfl
      exact h.apart c a (by simp [hl]) ha
    rw [countClass_cons, h₂, hself]
    by_cases hd : d = c
    · subst hd
      rw [hl, List.length_cons] at h₁
      rw [Function.update_self, if_pos hcap]
      omega
    · rw [Function.update_of_ne hd]
      omega
  · rw [hself]
    exact hcap ▸ hN
  · have hcap' : (q.bufs b).capacity = c.bytes := by
      rw [hself]
      exact hcap
    have hlen : (q.bufs b).length = 0 := by
      rw [hself]
      exact hreset.length
    have hhead : (q.bufs b).head = 0 := by
      rw [hself]
      exact hreset.head
    exact .of_reset hlen hhead (by omega) (by omega)

/-- The branch of `alloc` that makes a new buffer. -/
theorem Accounted.allocated_new {p : BufferPool} {free : MemCap → List BufId}
    {owned : List BufId} (h : Accounted p free owned)
    (hstock : ∀ c : MemCap, c.initialCount ≤ (free c).length + p.countClass c owned)
    (c : MemCap) {N : Int} (hN : N ≤ c.bytes) (total : Nat) :
    Allocated p { p.newBuf c with totalMem := total } owned N p.created := by
  have hnew := h.newBuf c
  have hcb := c.bytes_bounds
  have hself : (p.newBuf c).bufs p.created = .new c.bytes (p.bufs p.created).data :=
    Function.update_self ..
  have hold : ∀ a, a ≠ p.created → (p.newBuf c).bufs a = p.bufs a := fun a ha =>
    Function.update_of_ne ha ..
  refine ⟨⟨free, ⟨hnew.linked, hnew.free_nodup, hnew.owned_nodup, hnew.apart, hnew.reset,
    hnew.owned_class, hnew.created_iff⟩, ?_⟩, ?_, ?_, hold⟩
  · intro d
    have h₁ := hstock d
    have h₂ : (p.newBuf c).countClass d owned = p.countClass d owned := by
      apply countClass_congr
      intro a ha
      rw [hold a]
      rintro rfl
      exact h.not_created.1 ha
    change _ ≤ _ + (p.newBuf c).countClass d (p.created :: owned)
    rw [countClass_cons, h₂]
    omega
  · change N ≤ ((p.newBuf c).bufs p.created).capacity
    rw [hself]
    exact hN
  · change Window ((p.newBuf c).bufs p.created) 0 []
    rw [hself]
    apply Window.of_reset rfl rfl (Int.natCast_nonneg _)
    change (c.bytes : Int) < _
    omega

/-- `alloc` fails only past the largest class.  It ends the process only at the memory
limit, and never while fewer than ten buffers are held. -/
theorem alloc_ends {p : BufferPool} {owned : List BufId} (h : PoolInv p owned) (N : Int) :
    Ends (p.alloc N)
      (fun r => match r.2 with
        | none => r.1 = p ∧ 8388608 < N
        | some b => Allocated p r.1 owned N b)
      (fun e => e = .exit ∧ 10 ≤ owned.length) := by
  obtain ⟨free, hacc, hstock⟩ := h.accounted
  unfold BufferPool.alloc
  cases hN : MemCap.forSize N with
  | none => exact ⟨rfl, MemCap.forSize_none hN⟩
  | some c =>
    have hsize := MemCap.forSize_some hN
    have hlinked := hacc.linked c
    simp only
    cases hc : p.pool c with
    | none =>
      rw [hc] at hlinked
      have hnil := hlinked.eq_nil
      simp only
      split
      next hlimit =>
        -- the free list of the class is empty: all its buffers are held
        refine ⟨rfl, ?_⟩
        have h₁ := hstock c
        have h₂ := countClass_le p c owned
        have h₃ := c.le_initialCount
        rw [hnil, List.length_nil] at h₁
        omega
      next hlimit => exact hacc.allocated_new hstock c hsize _
    | some b =>
      rw [hc] at hlinked
      obtain ⟨l, hl, -⟩ := hlinked.eq_cons
      exact hacc.allocated hstock hl hsize

/-- An owner can always give its buffer back. -/
theorem revert_eq {p : BufferPool} {owned : List BufId} {b : BufId} (h : PoolInv p (b :: owned)) :
    ∃ p', p.revert b = .ok p' ∧ PoolInv p' owned ∧ ∀ a, a ≠ b → p'.bufs a = p.bufs a := by
  obtain ⟨free, hacc, hstock⟩ := h.accounted
  have hb : b ∈ b :: owned := List.mem_cons_self ..
  obtain ⟨c, hc⟩ := hacc.owned_class b hb
  -- the two writes to the buffer
  let x : IoBuffer := { p.bufs b with length := 0, head := 0, next := p.pool c }
  have hset := hacc.setBuf (x := x) hb rfl
  have hself : (p.setBuf b x).bufs b = x := Function.update_self ..
  have hold : ∀ a, a ≠ b → (p.setBuf b x).bufs a = p.bufs a := fun a ha =>
    Function.update_of_ne ha ..
  have hpush := hset.push (c := c) (by rw [hself]; exact ⟨hc, rfl, rfl⟩) (by rw [hself]; rfl)
  refine ⟨(p.setBuf b x).setPool c (some b), ?_, ⟨_, hpush, ?_⟩, hold⟩
  · unfold BufferPool.revert
    have h₁ : (p.setBuf b { p.bufs b with length := 0, head := 0 }).bufs b =
        { p.bufs b with length := 0, head := 0 } := Function.update_self ..
    have h₂ : (p.setBuf b { p.bufs b with length := 0, head := 0 }).setBuf b x = p.setBuf b x := by
      unfold BufferPool.setBuf
      rw [Function.update_idem]
    have h₃ : MemCap.find (p.bufs b).capacity = some c := by
      rw [hc, MemCap.find_bytes]
    simp only [h₁, h₃]
    rw [← h₂]
    rfl
  · intro d
    have h₁ := hstock d
    have h₂ : ((p.setBuf b x).setPool c (some b)).countClass d owned = p.countClass d owned := by
      apply countClass_congr
      intro a ha
      change ((p.setBuf b x).bufs a).capacity = _
      rw [hold a]
      rintro rfl
      exact (List.nodup_cons.mp hacc.owned_nodup).1 ha
    rw [countClass_cons, hc] at h₁
    rw [h₂]
    by_cases hd : d = c
    · subst hd
      rw [if_pos rfl] at h₁
      rw [Function.update_self, List.length_cons]
      omega
    · have hne : ¬ (c.bytes : Int) = d.bytes := by
        intro he
        exact hd (MemCap.bytes_injective (by omega)).symm
      rw [if_neg hne] at h₁
      rw [Function.update_of_ne hd]
      omega

/-! ## The constructor -/

/-- The loop of the constructor lengthens the free list it works on. -/
theorem extend_accounted {c : MemCap} (n : Nat) {p : BufferPool} {free : MemCap → List BufId}
    {prev : BufId} {l : List BufId} (h : Accounted p free []) (hc : free c = l ++ [prev]) :
    ∃ l', Accounted (p.extend c n prev) (Function.update free c l') [] ∧
      l'.length = (free c).length + n := by
  induction n generalizing p free prev l with
  | zero =>
    refine ⟨free c, ?_, rfl⟩
    rw [Function.update_eq_self]
    exact h
  | succ n ih =>
    have hself : (p.newBuf c).bufs p.created =
        .new c.bytes (p.bufs p.created).data := Function.update_self ..
    have hlink := (h.newBuf c).link hc (by rw [hself]; exact ⟨rfl, rfl, rfl⟩) (by rw [hself]; rfl)
    obtain ⟨l', hacc, hlen⟩ := ih hlink (Function.update_self ..)
    refine ⟨l', ?_, ?_⟩
    · rw [Function.update_idem] at hacc
      exact hacc
    · rw [hlen, Function.update_self, hc]
      simp only [List.length_append, List.length_singleton]
      omega

theorem addClass_accounted {c : MemCap} {p : BufferPool} {free : MemCap → List BufId}
    (h : Accounted p free []) (hc : free c = []) :
    ∃ l, Accounted (p.addClass c) (Function.update free c l) [] ∧ l.length = c.initialCount := by
  have hself : (p.newBuf c).bufs p.created =
      .new c.bytes (p.bufs p.created).data := Function.update_self ..
  have hpool : p.pool c = none := by
    have hl := h.linked c
    rw [hc] at hl
    exact hl
  have hpush := (h.newBuf c).push (c := c) (by rw [hself]; exact ⟨rfl, rfl, rfl⟩)
    (by rw [hself]; exact hpool.symm)
  obtain ⟨l, hacc, hlen⟩ := extend_accounted (c.initialCount - 1) (l := []) hpush
    (by rw [Function.update_self, hc]; rfl)
  rw [Function.update_idem] at hacc
  refine ⟨l, ?_, ?_⟩
  · exact ⟨hacc.linked, hacc.free_nodup, hacc.owned_nodup, hacc.apart, hacc.reset,
      hacc.owned_class, hacc.created_iff⟩
  · have := c.le_initialCount
    rw [hlen, Function.update_self, hc, List.length_singleton]
    omega

/-- Adding classes one after the other to a pool that has none of them. -/
theorem foldl_addClass (cs : List MemCap) (hcs : cs.Nodup) {p : BufferPool}
    {free : MemCap → List BufId} (h : Accounted p free []) (hfree : ∀ c ∈ cs, free c = []) :
    ∃ free', Accounted (cs.foldl (fun p c => p.addClass c) p) free' [] ∧
      (∀ c ∈ cs, (free' c).length = c.initialCount) ∧ ∀ c ∉ cs, free' c = free c := by
  induction cs generalizing p free with
  | nil => exact ⟨free, h, by simp, fun _ _ => rfl⟩
  | cons c cs ih =>
    obtain ⟨hc, hcs⟩ := List.nodup_cons.mp hcs
    obtain ⟨l, hacc, hlen⟩ := addClass_accounted h (hfree c (List.mem_cons_self ..))
    have hrest : ∀ d ∈ cs, Function.update free c l d = [] := by
      intro d hd
      rw [Function.update_of_ne]
      · exact hfree d (List.mem_cons_of_mem _ hd)
      · rintro rfl
        exact hc hd
    obtain ⟨free', hacc', hin, hout⟩ := ih hcs hacc hrest
    refine ⟨free', hacc', ?_, ?_⟩
    · intro d hd
      cases List.mem_cons.mp hd with
      | inl he =>
        subst he
        rw [hout d hc, Function.update_self, hlen]
      | inr hd => exact hin d hd
    · intro d hd
      obtain ⟨hdc, hd⟩ := List.ne_and_not_mem_of_not_mem_cons hd
      rw [hout d hd, Function.update_of_ne hdc]

theorem empty_accounted (raw : BufId → Nat → UInt8) :
    Accounted (.empty raw) (fun _ => []) [] where
  linked _ := rfl
  free_nodup _ := List.nodup_nil
  owned_nodup := List.nodup_nil
  apart _ _ hb := absurd hb (by simp)
  reset _ _ hb := absurd hb (by simp)
  owned_class _ hb := absurd hb (by simp)
  created_iff b := by
    change b < 0 ↔ _
    simp

/-- The pool starts with every buffer free. -/
theorem init_inv (raw : BufId → Nat → UInt8) : PoolInv (.init raw) [] := by
  obtain ⟨free, hacc, hlen, -⟩ := foldl_addClass
    [.u4K, .u16K, .u64K, .u256K, .u1M, .u4M, .u8M] (by decide) (empty_accounted raw)
    (fun _ _ => rfl)
  refine ⟨free, hacc, ?_⟩
  intro c
  have hc : c ∈ [MemCap.u4K, .u16K, .u64K, .u256K, .u1M, .u4M, .u8M] := by
    cases c <;> decide
  rw [hlen c hc]
  exact Nat.le_add_right _ _

end EasyReactor.Buffer
