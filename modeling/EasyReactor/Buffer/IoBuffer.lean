import EasyReactor.Machine
import EasyReactor.Foundation.Outcome
import EasyReactor.Foundation.Region

set_option autoImplicit false

/-!
# Buffer: `io_buffer`

`data` is the memory behind the pointer, stale bytes included.  Every access to it is
checked against `capacity`: what would be a read or write outside `new char[size]` is
`Fault.undefined`.
-/

namespace EasyReactor.Buffer

open EasyReactor.Foundation

/-- An `io_buffer*` other than `NULL`. -/
abbrev BufId := Nat

structure IoBuffer where
  capacity : Int
  length : Int
  head : Int
  next : Option BufId
  data : Nat → UInt8

namespace IoBuffer

/-- `new io_buffer(size)`; `raw` is what the fresh memory happens to hold -/
def new (size : Int) (raw : Nat → UInt8) : IoBuffer :=
  ⟨size, 0, 0, none, raw⟩

/-- Reading `n` bytes from `data + off`. -/
def load (b : IoBuffer) (off n : Int) : Except Fault (List UInt8) :=
  if 0 ≤ off ∧ 0 ≤ n ∧ off + n ≤ b.capacity then
    .ok (slice b.data off.toNat n.toNat)
  else
    .error .undefined

/-- Writing `bs` to `data + off`. -/
def save (b : IoBuffer) (off : Int) (bs : List UInt8) : Except Fault IoBuffer :=
  if 0 ≤ off ∧ off + bs.length ≤ b.capacity then
    .ok { b with data := store b.data off.toNat bs }
  else
    .error .undefined

def clear (b : IoBuffer) : IoBuffer := { b with length := 0, head := 0 }

/-- move data to head -/
def adjust (b : IoBuffer) : Except Fault IoBuffer :=
  if b.head ≠ 0 then
    if b.length ≠ 0 then do
      let bs ← b.load b.head b.length
      let b ← b.save 0 bs
      return { b with head := 0 }
    else
      return { b with head := 0 }
  else
    return b

/-- only copy data to myself -/
def copy (b other : IoBuffer) : Except Fault IoBuffer := do
  let bs ← other.load other.head other.length
  let b ← b.save 0 bs
  return { b with head := 0, length := other.length }

def pop (b : IoBuffer) (len : Int) : IoBuffer :=
  { b with length := wrap (b.length - len), head := wrap (b.head + len) }

@[simp] theorem pop_capacity (b : IoBuffer) (len : Int) : (b.pop len).capacity = b.capacity := rfl

theorem save_eq {b b' : IoBuffer} {off : Int} {bs : List UInt8} (h : b.save off bs = .ok b') :
    b' = { b with data := store b.data off.toNat bs } := by
  unfold save at h
  split at h
  · exact (Except.ok.inj h).symm
  · cases h

/-- A write stays inside the memory. -/
theorem save_bounds {b b' : IoBuffer} {off : Int} {bs : List UInt8} (h : b.save off bs = .ok b') :
    0 ≤ off ∧ off + bs.length ≤ b.capacity := by
  unfold save at h
  split at h
  next hin => exact hin
  next => cases h

theorem save_capacity {b b' : IoBuffer} {off : Int} {bs : List UInt8}
    (h : b.save off bs = .ok b') : b'.capacity = b.capacity := by
  rw [save_eq h]

theorem copy_capacity {b b' other : IoBuffer} (h : b.copy other = .ok b') :
    b'.capacity = b.capacity := by
  unfold copy at h
  obtain ⟨bs, -, h⟩ := bind_eq_ok.mp h
  obtain ⟨b₁, h₁, h⟩ := bind_eq_ok.mp h
  obtain rfl := Except.ok.inj h
  have hcap : b₁.capacity = b.capacity := save_capacity h₁
  exact hcap

theorem adjust_capacity {b b' : IoBuffer} (h : b.adjust = .ok b') : b'.capacity = b.capacity := by
  unfold adjust at h
  split at h
  · split at h
    · obtain ⟨bs, -, h⟩ := bind_eq_ok.mp h
      obtain ⟨b₁, h₁, h⟩ := bind_eq_ok.mp h
      obtain rfl := Except.ok.inj h
      have hcap : b₁.capacity = b.capacity := save_capacity h₁
      exact hcap
    · obtain rfl := Except.ok.inj h
      rfl
  · obtain rfl := Except.ok.inj h
    rfl

theorem adjust_length {b b' : IoBuffer} (h : b.adjust = .ok b') : b'.length = b.length := by
  unfold adjust at h
  split at h
  · split at h
    · obtain ⟨bs, -, h⟩ := bind_eq_ok.mp h
      obtain ⟨b₁, h₁, h⟩ := bind_eq_ok.mp h
      obtain rfl := Except.ok.inj h
      rw [save_eq h₁]
    · obtain rfl := Except.ok.inj h
      rfl
  · obtain rfl := Except.ok.inj h
    rfl

/-- So does a read. -/
theorem load_bounds {b : IoBuffer} {off n : Int} {bs : List UInt8} (h : b.load off n = .ok bs) :
    0 ≤ off ∧ 0 ≤ n ∧ off + n ≤ b.capacity := by
  unfold load at h
  split at h
  next hin => exact hin
  next => cases h

theorem load_eq {b : IoBuffer} {off n : Int} {bs : List UInt8} (h : b.load off n = .ok bs) :
    bs = slice b.data off.toNat n.toNat := by
  unfold load at h
  split at h
  · exact (Except.ok.inj h).symm
  · cases h

/-- `memmove` with a length below zero. -/
theorem adjust_negative {b : IoBuffer} (hhead : b.head ≠ 0) (hlen : b.length < 0) :
    b.adjust = .error .undefined := by
  unfold adjust load
  rw [if_pos hhead, if_pos (by omega), if_neg (by omega)]
  rfl

end IoBuffer

/-! ## The unconsumed bytes of a buffer -/

/-- The unconsumed bytes of `b` are `bs`, and lie from offset `off` on. -/
structure Window (b : IoBuffer) (off : Nat) (bs : List UInt8) : Prop where
  head : b.head = off
  length : b.length = bs.length
  fits : (off : Int) + bs.length ≤ b.capacity
  small : b.capacity < 2147483648
  bytes : slice b.data off bs.length = bs

namespace Window

variable {b : IoBuffer} {off : Nat} {bs : List UInt8}

/-- A buffer that was reset holds nothing. -/
theorem of_reset (hl : b.length = 0) (hh : b.head = 0) (hc : 0 ≤ b.capacity)
    (hs : b.capacity < 2147483648) : Window b 0 [] :=
  ⟨by simpa using hh, by simpa using hl, by simpa using hc, hs, rfl⟩

/-- A new buffer holds nothing. -/
theorem of_new {size : Int} (hc : 0 ≤ size) (hs : size < 2147483648) (raw : Nat → UInt8) :
    Window (.new size raw) 0 [] :=
  .of_reset rfl rfl hc hs

theorem nil_of_length (w : Window b off bs) (h : b.length = 0) : bs = [] := by
  rw [w.length] at h
  exact List.eq_nil_of_length_eq_zero (by omega)

/-- A buffer has one window at most. -/
theorem unique {bs' : List UInt8} (w : Window b off bs) (w' : Window b off bs') : bs = bs' := by
  have hlen : bs.length = bs'.length := by
    have h := w.length
    rw [w'.length] at h
    omega
  rw [← w.bytes, hlen, w'.bytes]

theorem load_front (w : Window b off bs) {n : Nat} (hn : n ≤ bs.length) :
    b.load b.head n = .ok (bs.take n) := by
  have hfits := w.fits
  unfold IoBuffer.load
  rw [w.head, if_pos (by omega)]
  have : slice b.data off n = bs.take n := by
    rw [← take_slice b.data off hn, w.bytes]
  simpa using this

theorem load_all (w : Window b off bs) : b.load b.head b.length = .ok bs := by
  rw [w.length, w.load_front (Nat.le_refl _), List.take_length]

theorem load_start (w : Window b 0 bs) : b.load 0 b.length = .ok bs := by
  have hl := w.load_all
  rwa [w.head] at hl

theorem pop (w : Window b off bs) {n : Nat} (hn : n ≤ bs.length) :
    Window (b.pop n) (off + n) (bs.drop n) := by
  have hfits := w.fits
  have hsmall := w.small
  have hlen : (bs.drop n).length = bs.length - n := List.length_drop
  refine ⟨?_, ?_, ?_, hsmall, ?_⟩
  · change wrap (b.head + n) = _
    rw [w.head, wrap_of_range (by omega) (by omega)]
    omega
  · change wrap (b.length - n) = _
    rw [w.length, wrap_of_range (by omega) (by omega), hlen]
    omega
  · rw [IoBuffer.pop_capacity, hlen]
    omega
  · change slice b.data (off + n) _ = _
    rw [hlen, ← drop_slice b.data off hn, w.bytes]

/-- What `memcpy` of a whole window to the start of a large enough buffer leaves there. -/
theorem save_start (w : Window b off bs) {c : IoBuffer} (hc : (bs.length : Int) ≤ c.capacity)
    (hs : c.capacity < 2147483648) :
    ∃ c', c.save 0 bs = .ok c' ∧ Window { c' with head := 0, length := b.length } 0 bs := by
  refine ⟨{ c with data := store c.data 0 bs }, ?_, rfl, w.length, ?_, hs, ?_⟩
  · unfold IoBuffer.save
    rw [if_pos (by omega)]
    rfl
  · simpa using hc
  · exact slice_store c.data 0 bs

/-- A copy succeeds exactly when the bytes fit. -/
theorem copy_ends (w : Window b off bs) {c : IoBuffer} (hs : c.capacity < 2147483648) :
    Ends (c.copy b) (fun c' => Window c' 0 bs ∧ bs.length ≤ c.capacity)
      (fun e => e = .undefined ∧ c.capacity < bs.length) := by
  unfold IoBuffer.copy
  rw [w.load_all, ok_bind]
  by_cases hc : (bs.length : Int) ≤ c.capacity
  · obtain ⟨c', hsave, w'⟩ := w.save_start hc hs
    rw [hsave, ok_bind]
    exact ⟨w', hc⟩
  · unfold IoBuffer.save
    rw [if_neg (by omega)]
    exact ⟨rfl, by omega⟩

theorem adjust (w : Window b off bs) : ∃ b', b.adjust = .ok b' ∧ Window b' 0 bs := by
  have hfits := w.fits
  unfold IoBuffer.adjust
  split
  next hhead =>
    split
    next hlen =>
      obtain ⟨b', hsave, w'⟩ := w.save_start (c := b) (by omega) w.small
      refine ⟨{ b' with head := 0 }, ?_, rfl, ?_, w'.fits, w'.small, w'.bytes⟩
      · rw [w.load_all, ok_bind, hsave, ok_bind]
        rfl
      · unfold IoBuffer.save at hsave
        rw [if_pos (by omega)] at hsave
        obtain rfl := Except.ok.inj hsave
        exact w.length
    next hlen =>
      have hnil : bs = [] := by
        have := w.length
        apply List.eq_nil_of_length_eq_zero
        omega
      subst hnil
      exact ⟨_, rfl, rfl, w.length, by simp at hfits ⊢; omega, w.small, rfl⟩
  next hhead =>
    have hoff : off = 0 := by
      have := w.head
      omega
    subst hoff
    exact ⟨b, rfl, w⟩

/-- What `write` took is popped, and the rest moved to head 0. -/
theorem pop_adjust {taken left : List UInt8} (w : Window b 0 (taken ++ left)) :
    ∃ b', (b.pop taken.length).adjust = .ok b' ∧ Window b' 0 left := by
  have w' := w.pop (n := taken.length) (by simp)
  rw [List.drop_left] at w'
  exact w'.adjust

/-- Bytes written behind the window, and counted in. -/
theorem append (w : Window b 0 bs) {add : List UInt8}
    (hadd : (bs.length : Int) + add.length ≤ b.capacity) :
    ∃ b', b.save b.length add = .ok b' ∧
      Window { b' with length := wrap (b'.length + add.length) } 0 (bs ++ add) := by
  have hsmall := w.small
  refine ⟨{ b with data := store b.data bs.length add }, ?_, w.head, ?_, ?_, hsmall, ?_⟩
  · unfold IoBuffer.save
    rw [w.length, if_pos (by omega)]
    rfl
  · change wrap (b.length + add.length) = _
    rw [w.length, wrap_of_range (by omega) (by omega), List.length_append]
    push_cast
    rfl
  · rw [List.length_append]
    push_cast
    simpa using hadd
  · have h := slice_store_append b.data 0 bs.length add
    rw [w.bytes, Nat.zero_add] at h
    rw [List.length_append]
    exact h

theorem save_nil {b' : IoBuffer} {o : Int} (w : Window b off bs) (h : b.save o [] = .ok b') :
    Window b' off bs := by
  rw [IoBuffer.save_eq h, store_nil]
  exact w

/-- An append succeeds exactly when the bytes fit. -/
theorem append_ends (w : Window b 0 bs) (add : List UInt8) :
    Ends (b.save b.length add)
      (fun b' => Window { b' with length := wrap (b'.length + add.length) } 0 (bs ++ add) ∧
        (bs.length : Int) + add.length ≤ b.capacity)
      (fun e => e = .undefined ∧ b.capacity < bs.length + add.length) := by
  by_cases hfit : (bs.length : Int) + add.length ≤ b.capacity
  · obtain ⟨b', hsave, w'⟩ := w.append hfit
    rw [hsave]
    exact ⟨w', hfit⟩
  · have hl := w.length
    unfold IoBuffer.save
    rw [if_neg (by omega)]
    exact ⟨rfl, by omega⟩

end Window

end EasyReactor.Buffer
