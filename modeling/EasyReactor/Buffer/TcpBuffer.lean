import EasyReactor.Buffer.Ownership

set_option autoImplicit false

/-!
# Buffer: `tcp_buffer`, `input_buffer` and `output_buffer`

A `tcp_buffer` is one pointer `_buf` into the pool.  The calls below take the pool and
the pointer and return both.  What a system call returns is an argument: `Recv` for
`ioctl` and `read`, a list of `WriteResult`s for the calls of `write` still to come.
-/

namespace EasyReactor.Buffer

open EasyReactor.Foundation

/-- `_buf` of a `tcp_buffer`. -/
abbrev TcpBuffer := Option BufId

/-- What `::read` returns, once it is not interrupted. -/
inductive ReadResult where
  /-- this many bytes were read; none at the end of the stream -/
  | bytes (bs : List UInt8)
  /-- `-1` with `EAGAIN` -/
  | eagain
  /-- `-1` with another `errno` -/
  | error

/-- What the system calls of one `read_data` return. -/
structure Recv where
  /-- `rn`, or `none` when `::ioctl` returns `-1` -/
  fionread : Option Int
  read : ReadResult

/-- `FIONREAD` announces the bytes that `read` then delivers. -/
def Recv.chunk (bs : List UInt8) : Recv := ⟨some bs.length, .bytes bs⟩

/-- What one `::write` returns. -/
inductive WriteResult where
  /-- at most this many of the bytes offered were taken -/
  | wrote (n : Nat)
  /-- `-1` with `EINTR` -/
  | eintr
  /-- `-1` with `EAGAIN` -/
  | eagain
  /-- `-1` with another `errno` -/
  | error
  deriving DecidableEq

/-- `do … while (ret == -1 && errno == EINTR)`: the first result that is not `EINTR`, and
the results left.  A list that runs out stands for a socket that takes no more. -/
def uninterrupted : List WriteResult → WriteResult × List WriteResult
  | [] => (.eagain, [])
  | .eintr :: ws => uninterrupted ws
  | w :: ws => (w, ws)

namespace TcpBuffer

def length (p : BufferPool) (buf : TcpBuffer) : Int :=
  match buf with
  | none => 0
  | some b => (p.bufs b).length

def clear (p : BufferPool) (buf : TcpBuffer) : Except Fault (BufferPool × TcpBuffer) :=
  match buf with
  | none => return (p, none)
  | some b => do
    let p ← p.revert b
    return (p, none)

def pop (p : BufferPool) (buf : TcpBuffer) (len : Int) : Except Fault (BufferPool × TcpBuffer) :=
  match buf with
  | none => .error (.assertion .popLength)
  | some b =>
    if len ≤ (p.bufs b).length then
      let x := (p.bufs b).pop len
      let p := p.setBuf b x
      -- buf is empty
      if x.length = 0 then do
        let p ← p.revert b
        return (p, none)
      else
        return (p, some b)
    else
      .error (.assertion .popLength)

/-- `new_buf->copy(_buf); buffer_pool::ins()->revert(_buf)` -/
def moveTo (p : BufferPool) (b newBuf : BufId) : Except Fault BufferPool := do
  let x ← (p.bufs newBuf).copy (p.bufs b)
  (p.setBuf newBuf x).revert b

/-- The part that `input_buffer::read_data` and `output_buffer::send_data` share: a buffer
with room for `n` more bytes, a larger one if need be, or `none` if there is none.  The
two differ in the `assert` that guards it. -/
def makeRoom (which : Assertion) (p : BufferPool) (buf : TcpBuffer) (n : Int) :
    Except Fault (BufferPool × Option BufId) :=
  match buf with
  | none => p.alloc n
  | some b =>
    if (p.bufs b).head ≠ 0 then
      .error (.assertion which)
    else if wrap ((p.bufs b).capacity - (p.bufs b).length) < n then do
      -- get new
      let (p, newBuf) ← p.alloc (wrap (n + (p.bufs b).length))
      match newBuf with
      | none => return (p, none)
      | some newBuf =>
        let p ← moveTo p b newBuf
        return (p, some newBuf)
    else
      return (p, some b)

/-- `input_buffer::data`, and the `len` bytes a reader takes from it -/
def data (p : BufferPool) (buf : TcpBuffer) (len : Int) : Except Fault (List UInt8) :=
  match buf with
  | none => if len = 0 then return [] else .error .undefined
  | some b => (p.bufs b).load (p.bufs b).head len

def adjust (p : BufferPool) (buf : TcpBuffer) : Except Fault BufferPool :=
  match buf with
  | none => return p
  | some b => do
    let x ← (p.bufs b).adjust
    return p.setBuf b x

def readData (p : BufferPool) (buf : TcpBuffer) (r : Recv) :
    Except Fault (BufferPool × TcpBuffer × Int) :=
  match r.fionread with
  | none => return (p, buf, -1)
  | some rn => do
    let (p, room) ← makeRoom .readHead p buf rn
    match room with
    | none => return (p, buf, -1)
    | some b =>
      match r.read with
      | .bytes bs =>
        let x ← (p.bufs b).save (p.bufs b).length bs
        if bs = [] then
          return (p.setBuf b x, some b, 0)
        else if bs.length = rn then
          return (p.setBuf b { x with length := wrap (x.length + bs.length) }, some b, bs.length)
        else
          .error (.assertion .readCount)
      | .eagain => return (p, some b, -1)
      | .error => return (p, some b, -1)

def sendData (p : BufferPool) (buf : TcpBuffer) (data : List UInt8) :
    Except Fault (BufferPool × TcpBuffer × Int) := do
  let (p, room) ← makeRoom .sendHead p buf data.length
  match room with
  | none => return (p, buf, -1)
  | some b =>
    let x ← (p.bufs b).save (p.bufs b).length data
    return (p.setBuf b { x with length := wrap (x.length + data.length) }, some b, 0)

/-- What one `write_fd` did. -/
structure Written where
  pool : BufferPool
  /-- the bytes the socket took -/
  taken : List UInt8
  ret : Int
  /-- the results of `write` left -/
  script : List WriteResult

def writeFd (p : BufferPool) (buf : TcpBuffer) (ws : List WriteResult) : Except Fault Written :=
  match buf with
  | none => .error (.assertion .writeHead)
  | some b =>
    if (p.bufs b).head ≠ 0 then
      .error (.assertion .writeHead)
    else do
      let offered ← (p.bufs b).load 0 (p.bufs b).length
      match uninterrupted ws with
      | (.wrote n, ws) =>
        let taken := offered.take n
        if taken = [] then
          return ⟨p, [], 0, ws⟩
        else
          let x ← ((p.bufs b).pop taken.length).adjust
          return ⟨p.setBuf b x, taken, taken.length, ws⟩
      | (.error, ws) => return ⟨p, [], -1, ws⟩
      | (_, ws) => return ⟨p, [], 0, ws⟩

end TcpBuffer

/-! ## What a `tcp_buffer` holds -/

/-- The unconsumed bytes of `buf` are `bs`, from offset `off` on. -/
def Holds (p : BufferPool) (buf : TcpBuffer) (off : Nat) (bs : List UInt8) : Prop :=
  match buf with
  | none => bs = []
  | some b => Window (p.bufs b) off bs

@[simp] theorem holds_none (p : BufferPool) (off : Nat) (bs : List UInt8) :
    Holds p none off bs ↔ bs = [] := Iff.rfl

@[simp] theorem holds_some (p : BufferPool) (b : BufId) (off : Nat) (bs : List UInt8) :
    Holds p (some b) off bs ↔ Window (p.bufs b) off bs := Iff.rfl

/-- What a buffer holds depends on its own memory only. -/
theorem Holds.congr {p q : BufferPool} {buf : TcpBuffer} {off : Nat} {bs : List UInt8}
    (h : Holds p buf off bs) (heq : ∀ b ∈ buf.toList, q.bufs b = p.bufs b) :
    Holds q buf off bs := by
  cases buf with
  | none => exact h
  | some b =>
    have hb := heq b (by simp)
    rw [holds_some, hb]
    exact h

theorem Holds.length {p : BufferPool} {buf : TcpBuffer} {off : Nat} {bs : List UInt8}
    (h : Holds p buf off bs) : buf.length p = bs.length := by
  cases buf with
  | none =>
    rw [holds_none] at h
    subst h
    rfl
  | some b => exact Window.length h

/-- Bytes that a window holds somewhere are at its head. -/
theorem Holds.at_head {p : BufferPool} {buf : TcpBuffer} {off : Nat} {bs : List UInt8}
    (h : Holds p buf off bs) (hhead : ∀ b, buf = some b → (p.bufs b).head = 0) :
    Holds p buf 0 bs := by
  cases buf with
  | none => exact h
  | some b =>
    have hzero := hhead b rfl
    rw [Window.head h] at hzero
    obtain rfl : off = 0 := by omega
    exact h

/-- What every call on a `tcp_buffer` keeps: the pool accounts for the buffer the call
leaves behind, and the buffers held by others are untouched. -/
structure Keeps (rest : List BufId) (p q : BufferPool) (buf : TcpBuffer) : Prop where
  inv : PoolInv q (buf.toList ++ rest)
  others : ∀ a ∈ rest, q.bufs a = p.bufs a

namespace Keeps

variable {rest : List BufId} {p q : BufferPool} {buf : TcpBuffer}

theorem refl (h : PoolInv p (buf.toList ++ rest)) : Keeps rest p p buf :=
  ⟨h, fun _ _ => rfl⟩

theorem trans {r : BufferPool} {buf' : TcpBuffer} (h : Keeps rest p q buf)
    (h' : Keeps rest q r buf') : Keeps rest p r buf' :=
  ⟨h'.inv, fun a ha => (h'.others a ha).trans (h.others a ha)⟩

/-- An owner writes to its buffer. -/
theorem setBuf {b : BufId} (h : Keeps rest p q (some b)) {x : IoBuffer}
    (hx : x.capacity = (q.bufs b).capacity) : Keeps rest p (q.setBuf b x) (some b) := by
  have hnodup : (b :: rest).Nodup := h.inv.nodup
  refine ⟨h.inv.setBuf (List.mem_cons_self ..) hx, ?_⟩
  intro a ha
  rw [← h.others a ha]
  apply Function.update_of_ne
  rintro rfl
  exact (List.nodup_cons.mp hnodup).1 ha

/-- An owner gives its buffer back. -/
theorem revert {b : BufId} (h : Keeps rest p q (some b)) :
    ∃ q', q.revert b = .ok q' ∧ Keeps rest p q' none := by
  obtain ⟨q', hq', hinv, hothers⟩ := revert_eq h.inv
  have hnodup : (b :: rest).Nodup := h.inv.nodup
  refine ⟨q', hq', hinv, ?_⟩
  intro a ha
  rw [hothers a, h.others a ha]
  rintro rfl
  exact (List.nodup_cons.mp hnodup).1 ha

end Keeps

namespace TcpBuffer

variable {p : BufferPool} {buf : TcpBuffer} {rest : List BufId} {off : Nat} {bs : List UInt8}

theorem clear_eq (h : PoolInv p (buf.toList ++ rest)) :
    ∃ q, buf.clear p = .ok (q, none) ∧ Keeps rest p q none := by
  cases buf with
  | none => exact ⟨p, rfl, .refl h⟩
  | some b =>
    obtain ⟨q, hq, hk⟩ := (Keeps.refl h).revert
    refine ⟨q, ?_, hk⟩
    unfold clear
    simp only
    rw [hq, ok_bind]
    rfl

/-- A pop drops bytes from the front; the one that drops the last byte gives the buffer
back. -/
theorem pop_eq (h : PoolInv p (buf.toList ++ rest)) (hold : Holds p buf off bs)
    (hbuf : buf ≠ none) {n : Nat} (hn : n ≤ bs.length) :
    ∃ q buf', buf.pop p n = .ok (q, buf') ∧ Keeps rest p q buf' ∧
      Holds q buf' (off + n) (bs.drop n) ∧ (buf' = none ↔ bs.drop n = []) := by
  cases buf with
  | none => exact absurd rfl hbuf
  | some b =>
    have w : Window (p.bufs b) off bs := hold
    have w' := w.pop hn
    have hk := (Keeps.refl h).setBuf (x := (p.bufs b).pop n) rfl
    unfold pop
    simp only
    rw [if_pos (by rw [w.length]; omega)]
    split
    next hz =>
      have hnil : bs.drop n = [] := by
        have := w'.length
        apply List.eq_nil_of_length_eq_zero
        omega
      obtain ⟨q, hq, hk'⟩ := hk.revert
      refine ⟨q, none, ?_, hk', ?_, by simp [hnil]⟩
      · rw [hq, ok_bind]
        rfl
      · exact hnil
    next hz =>
      refine ⟨_, some b, rfl, hk, ?_, ?_⟩
      · change Window (Function.update p.bufs b _ b) _ _
        rw [Function.update_self]
        exact w'
      · have hne : bs.drop n ≠ [] := by
          intro hnil
          apply hz
          rw [w'.length, hnil]
          rfl
        simp [hne]

/-- Without a buffer there is nothing to pop, not even zero bytes. -/
theorem pop_none (len : Int) : pop p none len = .error (.assertion .popLength) := rfl

theorem data_eq (hold : Holds p buf off bs) {n : Nat} (hn : n ≤ bs.length) :
    buf.data p n = .ok (bs.take n) := by
  cases buf with
  | none =>
    rw [holds_none] at hold
    subst hold
    obtain rfl : n = 0 := by simpa using hn
    rfl
  | some b => exact Window.load_front hold hn

theorem adjust_eq (h : PoolInv p (buf.toList ++ rest)) (hold : Holds p buf off bs) :
    ∃ q, buf.adjust p = .ok q ∧ Keeps rest p q buf ∧ Holds q buf 0 bs := by
  cases buf with
  | none => exact ⟨p, rfl, .refl h, hold⟩
  | some b =>
    obtain ⟨x, hx, w⟩ := Window.adjust hold
    refine ⟨p.setBuf b x, ?_, (Keeps.refl h).setBuf (IoBuffer.adjust_capacity hx), ?_⟩
    · unfold adjust
      simp only
      rw [hx, ok_bind]
      rfl
    · change Window (Function.update p.bufs b x b) _ _
      rw [Function.update_self]
      exact w

/-- The bytes move to a buffer `alloc` returned, if they fit. -/
theorem moveTo_ends {q : BufferPool} {b nb : BufId} {N : Int}
    (h : Allocated p q (b :: rest) N nb) :
    Ends (moveTo q b nb)
      (fun r => Keeps rest p r (some nb) ∧ ∀ bs, Window (p.bufs b) 0 bs →
        Window (r.bufs nb) 0 bs ∧ N ≤ (r.bufs nb).capacity)
      (fun e => ∀ bs, Window (p.bufs b) 0 bs →
        e = .undefined ∧ (q.bufs nb).capacity < bs.length) := by
  have hnodup : (nb :: b :: rest).Nodup := h.inv.nodup
  obtain ⟨hnb, hrest⟩ := List.nodup_cons.mp hnodup
  have hne : b ≠ nb := by
    rintro rfl
    exact hnb (List.mem_cons_self ..)
  have hcap := h.inv.capacity (b := nb) (by simp)
  unfold moveTo
  rw [h.others b hne]
  cases hcopy : (q.bufs nb).copy (p.bufs b) with
  | error e =>
    intro bs w
    exact (w.copy_ends (by omega)).of_error hcopy
  | ok x =>
    have hxcap := IoBuffer.copy_capacity hcopy
    have hset := h.inv.setBuf (b := nb) (x := x) (List.mem_cons_self ..) hxcap
    have hold : ∀ a, a ≠ nb → (q.setBuf nb x).bufs a = q.bufs a := fun a ha =>
      Function.update_of_ne ha ..
    obtain ⟨r, hrev, hinv, hothers⟩ := revert_eq (hset.perm (List.Perm.swap b nb rest))
    have hx : r.bufs nb = x := by
      rw [hothers nb (Ne.symm hne)]
      exact Function.update_self ..
    rw [ok_bind, hrev]
    refine ⟨⟨hinv, ?_⟩, ?_⟩
    · intro a ha
      have hab : a ≠ b := by
        rintro rfl
        exact (List.nodup_cons.mp hrest).1 ha
      have han : a ≠ nb := by
        rintro rfl
        exact hnb (List.mem_cons_of_mem _ ha)
      rw [hothers a hab, hold a han, h.others a han]
    · intro bs w
      rw [hx, hxcap]
      exact ⟨((w.copy_ends (by omega)).of_ok hcopy).1, h.size⟩

/-- Room for `n` more bytes behind those of `buf`, or none past the largest class. -/
def RoomFound (rest : List BufId) (p : BufferPool) (buf : TcpBuffer) (n : Int)
    (r : BufferPool × Option BufId) : Prop :=
  match r.2 with
  | none => r.1 = p ∧ ∀ bs, Holds p buf 0 bs →
      (bs.length : Int) + n < 2147483648 → 8388608 < (bs.length : Int) + n
  | some b => Keeps rest p r.1 (some b) ∧ ∀ bs, Holds p buf 0 bs →
      Window (r.1.bufs b) 0 bs ∧ ((bs.length : Int) + n < 2147483648 →
        (bs.length : Int) + n ≤ (r.1.bufs b).capacity)

/-- The memory limit is reached, or the sum of the two lengths overflows. -/
def RoomFault (rest : List BufId) (p : BufferPool) (buf : TcpBuffer) (n : Int) (e : Fault) : Prop :=
  ∀ bs, Holds p buf 0 bs →
    (e = .exit ∧ 9 ≤ rest.length) ∨ (e = .undefined ∧ 2147483648 ≤ (bs.length : Int) + n)

/-- The first buffer of a `tcp_buffer`. -/
theorem alloc_room (h : PoolInv p rest) (n : Int) :
    Ends (p.alloc n) (RoomFound rest p none n) (RoomFault rest p none n) := by
  apply (alloc_ends h n).imp
  · rintro ⟨q, b?⟩ hb
    cases b? with
    | none =>
      refine ⟨hb.1, ?_⟩
      intro bs hbs hlt
      have := hb.2
      omega
    | some b =>
      have hb : Allocated p q _ n b := hb
      refine ⟨⟨hb.inv, ?_⟩, ?_⟩
      · intro a ha
        apply hb.others
        rintro rfl
        exact (List.nodup_cons.mp hb.inv.nodup).1 ha
      · intro bs hbs
        rw [holds_none] at hbs
        subst hbs
        refine ⟨hb.empty, ?_⟩
        intro _
        have := hb.size
        simpa using this
  · rintro e ⟨he, hlen⟩ bs -
    exact .inl ⟨he, by omega⟩

/-- A larger buffer, when `hsmall` says that `n` more bytes do not fit. -/
theorem grow_room {b : BufId} (h : PoolInv p (b :: rest)) (n : Int)
    (hsmall : wrap ((p.bufs b).capacity - (p.bufs b).length) < n) :
    Ends
      (do
        let (p', newBuf) ← p.alloc (wrap (n + (p.bufs b).length))
        match newBuf with
        | none => return (p', none)
        | some newBuf =>
          let q ← moveTo p' b newBuf
          return (q, some newBuf))
      (RoomFound rest p (some b) n) (RoomFault rest p (some b) n) := by
  have hcap := h.capacity (b := b) (by simp)
  have hlow := (wrap_bounds ((p.bufs b).capacity - (p.bufs b).length)).1
  apply ((alloc_ends h _).imp (fun _ hr => hr) _).bind
  · rintro ⟨q, nb?⟩ hr
    cases nb? with
    | none =>
      refine ⟨hr.1, ?_⟩
      intro bs hbs hlt
      have hl := Window.length hbs
      have h₂ := hr.2
      rw [hl, wrap_of_range (by omega) (by omega)] at h₂
      omega
    | some nb =>
      have hr : Allocated p q _ _ nb := hr
      simp only
      apply ((moveTo_ends hr).imp (fun _ hk => hk) _).bind
      · rintro r ⟨hk, hw⟩
        refine ⟨hk, ?_⟩
        intro bs hbs
        have hl := Window.length hbs
        obtain ⟨w, hsize⟩ := hw bs hbs
        refine ⟨w, ?_⟩
        intro hlt
        rw [hl, wrap_of_range (by omega) (by omega)] at hsize
        change (bs.length : Int) + n ≤ (r.bufs nb).capacity
        omega
      · intro e he bs hbs
        have hl := Window.length hbs
        have hsize := hr.size
        obtain ⟨heq, hlt⟩ := he bs hbs
        refine .inr ⟨heq, ?_⟩
        -- without an overflow the new buffer has room for both parts
        by_contra hno
        have hfits := Window.fits hbs
        rw [hl, wrap_of_range (by omega) (by omega)] at hsmall
        rw [hl, wrap_of_range (by omega) (by omega)] at hsize
        omega
  · rintro e ⟨he, hlen⟩ bs -
    rw [List.length_cons] at hlen
    exact .inl ⟨he, by omega⟩

/-- `makeRoom` moves what the buffer holds to a buffer with room for `n` bytes more. -/
theorem makeRoom_ends (which : Assertion) (h : PoolInv p (buf.toList ++ rest)) (n : Int) :
    Ends (makeRoom which p buf n) (RoomFound rest p buf n) (RoomFault rest p buf n) := by
  cases buf with
  | none => exact alloc_room h n
  | some b =>
    have hcap := h.capacity (b := b) (by simp)
    unfold makeRoom
    simp only
    split
    next hhead =>
      -- the assert fails: then the buffer does not hold its bytes at head 0
      intro bs hbs
      exact absurd (Window.head hbs) hhead
    next hhead =>
      split
      next hsmall => exact grow_room h n hsmall
      next hroom =>
        refine ⟨.refl h, ?_⟩
        intro bs hbs
        have w : Window (p.bufs b) 0 bs := hbs
        refine ⟨w, ?_⟩
        intro _
        have hl := w.length
        have hfits := w.fits
        rw [hl, wrap_of_range (by omega) (by omega)] at hroom
        change (bs.length : Int) + n ≤ (p.bufs b).capacity
        omega

end TcpBuffer

end EasyReactor.Buffer
