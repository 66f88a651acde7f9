import EasyReactor.Buffer.Sharing
import EasyReactor.Foundation.Fifo

set_option autoImplicit false

/-!
# Buffer: a `tcp_buffer` is a queue of bytes

The `tcp_buffer`s of a process share one pool: their bytes move to larger buffers, and the
buffers go from one `tcp_buffer` to the next.  Seen from outside each is a queue of its own.
A call puts bytes in at the back or takes bytes out at the front of its own queue, and no
step of any thread changes another one.
-/

namespace EasyReactor.Buffer

open EasyReactor.Foundation

/-! ## Queues -/

/-- A queue, and the bytes that the call in progress will put in. -/
structure ByteQueue where
  fifo : Fifo UInt8
  coming : Option (List UInt8)

/-- The bytes that a call puts in. -/
def Fill.bytes : Fill → List UInt8
  | .read _ (.bytes bs) => bs
  | .read _ .eagain => []
  | .read _ .error => []
  | .send data => data

/-- What a call puts in, if `::ioctl` does not fail. -/
def Call.fill : Call → Option Fill
  | .readData r => r.fionread.map fun rn => .read rn r.read
  | .sendData data => some (.send data)
  | .writeFd _ => none
  | .pop _ => none
  | .clear => none
  | .adjust => none

/-- How many bytes a call takes out of a queue of `n`. -/
def Call.takes (n : Nat) : Call → Nat
  | .readData _ => 0
  | .sendData _ => 0
  | .writeFd ws =>
    match (uninterrupted ws).1 with
    | .wrote k => k
    | _ => 0
  | .pop len => len.toNat
  | .clear => n
  | .adjust => 0

namespace ByteQueue

def empty : ByteQueue := ⟨.empty, none⟩

/-- A step of a queue: the first step of a call, or with `none` the next step of the call in
progress. -/
inductive Step : Option Call → ByteQueue → ByteQueue → Prop where
  /-- the bytes of a call that fit a buffer will be put in -/
  | begin {c : Call} {fill : Fill} {q : Fifo UInt8} (hfill : c.fill = some fill) :
      Step (some c) ⟨q, none⟩ ⟨q, some fill.bytes⟩
  /-- those of a call that do not fit the largest buffer are refused -/
  | refuse {c : Call} {fill : Fill} {q : Fifo UInt8} (hfill : c.fill = some fill)
      (hlarge : 8388608 < (q.items.length : Int) + fill.size) :
      Step (some c) ⟨q, none⟩ ⟨q, none⟩
  | take {c : Call} {q : Fifo UInt8} (hfill : c.fill = none) :
      Step (some c) ⟨q, none⟩ ⟨q.drop (c.takes q.items.length), none⟩
  /-- another call is in progress -/
  | busy {c : Call} {q : Fifo UInt8} {bs : List UInt8} : Step (some c) ⟨q, some bs⟩ ⟨q, some bs⟩
  | rest {q : ByteQueue} : Step none q q
  | put {q : Fifo UInt8} {bs : List UInt8} : Step none ⟨q, some bs⟩ ⟨q.push bs, none⟩

/-- Bytes come out as they went in. -/
theorem Step.conserved {c : Option Call} {q q' : ByteQueue} (h : Step c q q')
    (hq : q.fifo.Conserved) : q'.fifo.Conserved := by
  cases h with
  | begin => exact hq
  | refuse => exact hq
  | take => exact hq.drop _
  | busy => exact hq
  | rest => exact hq
  | put => exact hq.push _

end ByteQueue

/-! ## What the threads may ask -/

/-- The kernel delivers no more than was announced, and no `int` overflows next to the
largest buffer. -/
def Fill.Brief (fill : Fill) : Prop :=
  (fill.bytes.length : Int) ≤ fill.size ∧ fill.size < 2147483648 - 8388608

instance (fill : Fill) : Decidable fill.Brief := inferInstanceAs (Decidable (_ ∧ _))

def Call.Sane : Call → Prop
  | .readData r => ∀ fill ∈ (Call.readData r).fill, fill.Brief
  | .sendData data => (Fill.send data).Brief
  | .writeFd _ => True
  | .pop len => 0 ≤ len
  | .clear => True
  | .adjust => True

instance : ∀ c : Call, Decidable c.Sane
  | .readData _ => inferInstanceAs (Decidable (∀ _ ∈ _, _))
  | .sendData _ => inferInstanceAs (Decidable (Fill.Brief _))
  | .writeFd _ => .isTrue trivial
  | .pop len => inferInstanceAs (Decidable (0 ≤ len))
  | .clear => .isTrue trivial
  | .adjust => .isTrue trivial

/-! ## A `tcp_buffer` as a queue -/

/-- The bytes are those of the queue, and there is room for those to come. -/
def Holder.Shows (p : BufferPool) : Holder → ByteQueue → Prop
  | .idle buf, q => q.coming = none ∧ ∃ off, Holds p buf off q.fifo.items
  | .growing b newBuf fill, q =>
    q.coming = some fill.bytes ∧ fill.Brief ∧ Window (p.bufs b) 0 q.fifo.items ∧
      Window (p.bufs newBuf) 0 [] ∧ q.fifo.items.length + fill.size ≤ (p.bufs newBuf).capacity
  | .filling b fill, q =>
    q.coming = some fill.bytes ∧ fill.Brief ∧ Window (p.bufs b) 0 q.fifo.items ∧
      q.fifo.items.length + fill.size ≤ (p.bufs b).capacity

/-- It depends on the holder's own buffers only. -/
theorem Holder.Shows.congr {p p' : BufferPool} {h : Holder} {q : ByteQueue}
    (hs : h.Shows p q) (heq : ∀ b ∈ h.holds, p'.bufs b = p.bufs b) : h.Shows p' q := by
  cases h with
  | idle buf =>
    obtain ⟨hcoming, off, hold⟩ := hs
    exact ⟨hcoming, off, hold.congr heq⟩
  | growing b newBuf fill =>
    have hnew := heq newBuf List.mem_cons_self
    have hold := heq b (List.mem_cons_of_mem _ List.mem_cons_self)
    simp only [Shows, hnew, hold]
    exact hs
  | filling b fill =>
    have hb := heq b List.mem_cons_self
    simp only [Shows, hb]
    exact hs

/-- A step of one holder: its queue steps, and the buffers of the others stay as they are. -/
def StepsQueue (rest : List BufId) (p : BufferPool) (c : Option Call) (q : ByteQueue)
    (r : BufferPool × Holder) : Prop :=
  (∀ a ∈ rest, r.1.bufs a = p.bufs a) ∧ ∃ q', q.Step c q' ∧ r.2.Shows r.1 q'

/-- No access outside a buffer. -/
def InBounds (f : Fault) : Prop := f ≠ .undefined

/-- A buffer that `alloc` returns is not one of the others'. -/
theorem Allocated.others_rest {p p' : BufferPool} {owned : List BufId} {N : Int} {b : BufId}
    (h : Allocated p p' owned N b) : ∀ a ∈ owned, p'.bufs a = p.bufs a := by
  intro a ha
  refine h.others a ?_
  rintro rfl
  exact (List.nodup_cons.mp h.inv.nodup).1 ha

namespace TcpBuffer

variable {p : BufferPool} {buf : TcpBuffer} {rest : List BufId} {q : Fifo UInt8} {off : Nat}

theorem beginFill_queue (h : PoolInv p (buf.toList ++ rest)) (hold : Holds p buf off q.items)
    {c : Call} {fill : Fill} (hfill : c.fill = some fill) (hbrief : fill.Brief) :
    Ends (beginFill p buf fill) (StepsQueue rest p (some c) ⟨q, none⟩) InBounds := by
  obtain ⟨hlen, hsize⟩ := hbrief
  cases buf with
  | none =>
    have hnil : q.items = [] := hold
    unfold beginFill
    refine ((alloc_ends h fill.size).imp (fun _ hr => hr) ?_).bind ?_
    · rintro f ⟨rfl, -⟩
      exact nofun
    · rintro ⟨p', newBuf⟩ hr
      cases newBuf with
      | none =>
        obtain ⟨rfl, hlarge⟩ := hr
        refine ⟨fun _ _ => rfl, _, .refuse hfill ?_, rfl, 0, hnil⟩
        rw [hnil]
        simpa using hlarge
      | some b =>
        have hr : Allocated p p' rest fill.size b := hr
        refine ⟨hr.others_rest, _, .begin hfill, rfl, ⟨hlen, hsize⟩, ?_, ?_⟩
        · show Window _ 0 q.items
          rw [hnil]
          exact hr.empty
        · show (q.items.length : Int) + _ ≤ _
          rw [hnil]
          simpa using hr.size
  | some b =>
    have w : Window (p.bufs b) off q.items := hold
    have hcap := h.capacity (b := b) (by simp)
    have hfits := w.fits
    unfold beginFill
    simp only
    split
    next hhead => exact fun hf => by cases hf
    next hhead =>
      obtain rfl : off = 0 := by
        have := w.head
        omega
      split
      next hsmall =>
        rw [w.length, wrap_of_range (by omega) (by omega)]
        refine ((alloc_ends h _).imp (fun _ hr => hr) ?_).bind ?_
        · rintro f ⟨rfl, -⟩
          exact nofun
        · rintro ⟨p', newBuf⟩ hr
          cases newBuf with
          | none =>
            obtain ⟨rfl, hlarge⟩ := hr
            refine ⟨fun _ _ => rfl, _, .refuse hfill ?_, rfl, 0, w⟩
            show 8388608 < (q.items.length : Int) + fill.size
            omega
          | some newBuf =>
            have hr : Allocated p p' (b :: rest) (fill.size + q.items.length) newBuf := hr
            have hothers := hr.others_rest
            have hb := hothers b List.mem_cons_self
            refine ⟨fun a ha => hothers a (List.mem_cons_of_mem _ ha), _, .begin hfill, rfl,
              ⟨hlen, hsize⟩, ?_, hr.empty, ?_⟩
            · rw [hb]
              exact w
            · have := hr.size
              show (q.items.length : Int) + fill.size ≤ (p'.bufs newBuf).capacity
              omega
      next hroom =>
        rw [w.length, wrap_of_range (by omega) (by omega)] at hroom
        refine ⟨fun _ _ => rfl, _, .begin hfill, rfl, ⟨hlen, hsize⟩, w, ?_⟩
        show (q.items.length : Int) + fill.size ≤ (p.bufs b).capacity
        omega

/-- The bytes move to the larger buffer. -/
theorem moveTo_queue {b newBuf : BufId} {fill : Fill} (h : PoolInv p (newBuf :: b :: rest))
    {q : ByteQueue} (hs : (Holder.growing b newBuf fill).Shows p q) :
    Ends (moveTo p b newBuf) (fun p' => StepsQueue rest p none q (p', .filling newBuf fill))
      InBounds := by
  obtain ⟨hcoming, hbrief, w, wnew, hroom⟩ := hs
  have hmove := moveTo_ends ⟨h, hroom, wnew, fun _ _ => rfl⟩
  refine hmove.imp (fun p' hp' => ?_) fun f hf => ?_
  · obtain ⟨hk, hw⟩ := hp'
    obtain ⟨w', hroom'⟩ := hw _ w
    exact ⟨hk.others, q, .rest, hcoming, hbrief, w', hroom'⟩
  · -- the new buffer is large enough
    obtain ⟨-, hfull⟩ := hf _ w
    have hsize : (0 : Int) ≤ fill.bytes.length := Int.natCast_nonneg _
    have hlen := hbrief.1
    omega

/-- The bytes of the call come behind the others. -/
theorem fillIn_queue {b : BufId} {fill : Fill} (h : PoolInv p (b :: rest)) {q : ByteQueue}
    (hs : (Holder.filling b fill).Shows p q) :
    Ends (fillIn p b fill) (fun p' => StepsQueue rest p none q (p', .idle (some b)))
      InBounds := by
  obtain ⟨fifo, coming⟩ := q
  obtain ⟨rfl, hbrief, w, hroom⟩ := hs
  have hk : Keeps rest p p (some b) := .refl h
  have hput : ∀ {p' : BufferPool}, Keeps rest p p' (some b) →
      Window (p'.bufs b) 0 (fifo.push fill.bytes).items →
        StepsQueue rest p none ⟨fifo, some fill.bytes⟩ (p', .idle (some b)) := fun hk w' =>
    ⟨hk.others, _, .put, rfl, 0, w'⟩
  -- the bytes that were saved are counted in
  have happend : ∀ {x : IoBuffer}, (p.bufs b).save (p.bufs b).length fill.bytes = .ok x →
      StepsQueue rest p none ⟨fifo, some fill.bytes⟩
        (p.setBuf b { x with length := wrap (x.length + fill.bytes.length) }, .idle (some b)) := by
    intro x hx
    have hheld := ((append_ends w fill.bytes).of_ok hx).1
    exact hput (counted hk hx _) hheld
  have hsave : ∀ {f : Fault}, (p.bufs b).save (p.bufs b).length fill.bytes = .error f → False := by
    intro f hf
    obtain ⟨-, hfull⟩ := (append_ends w fill.bytes).of_error hf
    have hlen := hbrief.1
    have hroom : (fifo.items.length : Int) + fill.size ≤ (p.bufs b).capacity := hroom
    omega
  cases fill with
  | send data =>
    simp only [fillIn]
    cases hx : (p.bufs b).save (p.bufs b).length data with
    | error f => exact absurd hx fun hx => hsave hx
    | ok x => exact happend hx
  | read rn res =>
    cases res with
    | eagain =>
      refine hput hk ?_
      rw [Fill.bytes, Fifo.push_nil]
      exact w
    | error =>
      refine hput hk ?_
      rw [Fill.bytes, Fifo.push_nil]
      exact w
    | bytes bs =>
      simp only [fillIn]
      cases hx : (p.bufs b).save (p.bufs b).length bs with
      | error f => exact absurd hx fun hx => hsave hx
      | ok x =>
        rw [ok_bind]
        split
        next hnil =>
          subst hnil
          refine hput (hk.setBuf (IoBuffer.save_capacity hx)) ?_
          rw [Fill.bytes, Fifo.push_nil, setBuf_self]
          exact w.save_nil hx
        next =>
          split
          next => exact happend hx
          next => exact fun hf => by cases hf

/-- The socket takes as many bytes as `::write` says, if there are that many. -/
theorem writeFd_takes {b : BufId} {ws : List WriteResult} {r : Written} {bs : List UInt8}
    (w : Window (p.bufs b) 0 bs) (h : writeFd p (some b) ws = .ok r) (n : Nat) :
    r.taken = bs.take ((Call.writeFd ws).takes n) := by
  have hhead := writeFd_head h
  unfold writeFd at h
  simp only at h
  rw [if_neg (not_not.mpr hhead), w.load_start, ok_bind] at h
  simp only [Call.takes]
  cases hws : uninterrupted ws with
  | mk res ws' =>
    rw [hws] at h
    cases res with
    | wrote k =>
      simp only at h
      split at h
      next hnil =>
        obtain rfl := Except.ok.inj h
        exact hnil.symm
      next =>
        obtain ⟨x, -, h⟩ := bind_eq_ok.mp h
        obtain rfl := Except.ok.inj h
        rfl
    | error =>
      obtain rfl := Except.ok.inj h
      rfl
    | eagain =>
      obtain rfl := Except.ok.inj h
      rfl
    | eintr =>
      obtain rfl := Except.ok.inj h
      rfl

theorem writeFd_queue (h : PoolInv p (buf.toList ++ rest)) (hold : Holds p buf off q.items)
    (ws : List WriteResult) :
    Ends (writeFd p buf ws)
      (fun w => StepsQueue rest p (some (.writeFd ws)) ⟨q, none⟩ (w.pool, .idle buf)) InBounds := by
  cases buf with
  | none => exact fun hf => by cases hf
  | some b =>
    have w : Window (p.bufs b) off q.items := hold
    refine .intro (fun r hr => ?_) fun f hf => ?_
    · have hhead := writeFd_head hr
      obtain rfl : off = 0 := by
        have := w.head
        omega
      obtain ⟨hk, -, -, hleft⟩ := (writeFd_ends h ws).of_ok hr
      obtain ⟨left, hbytes, hheld⟩ := hleft _ w
      refine ⟨hk.others, _, .take rfl, rfl, 0, ?_⟩
      have htaken := writeFd_takes w hr q.items.length
      have hsplit := List.take_append_drop ((Call.writeFd ws).takes q.items.length) q.items
      rw [← htaken] at hsplit
      have hdrop : q.items.drop ((Call.writeFd ws).takes q.items.length) = left :=
        List.append_cancel_left (hsplit.trans hbytes)
      show Window _ 0 (q.items.drop _)
      rw [hdrop]
      exact hheld
    · by_cases hhead : (p.bufs b).head = 0
      · obtain rfl : off = 0 := by
          have := w.head
          omega
        exact absurd w ((writeFd_ends h ws).of_error hf _)
      · unfold writeFd at hf
        simp only at hf
        rw [if_pos hhead] at hf
        obtain rfl := Except.error.inj hf
        exact nofun

theorem pop_queue (h : PoolInv p (buf.toList ++ rest)) (hold : Holds p buf off q.items)
    {len : Int} (hlen : 0 ≤ len) :
    Ends (buf.pop p len)
      (fun r => StepsQueue rest p (some (.pop len)) ⟨q, none⟩ (r.1, .idle r.2)) InBounds := by
  refine .intro (fun r hr => ?_) fun f hf => ?_
  · obtain ⟨n, rfl⟩ := Int.eq_ofNat_of_zero_le hlen
    have hbuf : buf ≠ none := by
      rintro rfl
      cases hr
    have hn : n ≤ q.items.length := by
      by_contra hlt
      obtain ⟨b, rfl⟩ := Option.ne_none_iff_exists'.mp hbuf
      have hlength := Window.length hold
      unfold pop at hr
      simp only at hr
      rw [if_neg (by omega)] at hr
      cases hr
    obtain ⟨p', buf', hpop, hk, hheld, -⟩ := pop_eq h hold hbuf hn
    obtain rfl := Except.ok.inj (hr.symm.trans hpop)
    exact ⟨hk.others, _, .take rfl, rfl, _, hheld⟩
  · rw [(pop_keeps h len).of_error hf]
    exact nofun

theorem clear_queue (h : PoolInv p (buf.toList ++ rest)) :
    Ends (buf.clear p) (fun r => StepsQueue rest p (some .clear) ⟨q, none⟩ (r.1, .idle r.2))
      InBounds := by
  obtain ⟨p', hclear, hk⟩ := clear_eq h
  rw [hclear]
  refine ⟨hk.others, _, .take rfl, rfl, 0, ?_⟩
  exact List.drop_length

theorem adjust_queue (h : PoolInv p (buf.toList ++ rest)) (hold : Holds p buf off q.items) :
    Ends (buf.adjust p) (fun p' => StepsQueue rest p (some .adjust) ⟨q, none⟩ (p', .idle buf))
      InBounds := by
  obtain ⟨p', hadjust, hk, hheld⟩ := adjust_eq h hold
  rw [hadjust]
  refine ⟨hk.others, _, .take rfl, rfl, 0, ?_⟩
  rw [Call.takes, Fifo.drop_zero]
  exact hheld

end TcpBuffer

theorem Call.start_queue {p : BufferPool} {buf : TcpBuffer} {rest : List BufId}
    (h : PoolInv p (buf.toList ++ rest)) {q : ByteQueue} (hs : (Holder.idle buf).Shows p q)
    {c : Call} (hc : c.Sane) : Ends (c.start p buf) (StepsQueue rest p (some c) q) InBounds := by
  obtain ⟨fifo, coming⟩ := q
  obtain ⟨rfl, off, hold⟩ := hs
  cases c with
  | readData r =>
    simp only [Call.start]
    cases hr : r.fionread with
    | none =>
      refine ⟨fun _ _ => rfl, _, .take (by rw [Call.fill, hr]; rfl), rfl, off, ?_⟩
      rw [Call.takes, Fifo.drop_zero]
      exact hold
    | some rn =>
      have hfill : (Call.readData r).fill = some (.read rn r.read) := by
        rw [Call.fill, hr]
        rfl
      exact TcpBuffer.beginFill_queue h hold hfill (hc _ hfill)
  | sendData data => exact TcpBuffer.beginFill_queue h hold rfl hc
  | writeFd ws => exact (TcpBuffer.writeFd_queue h hold ws).bind fun w hw => hw
  | pop len => exact (TcpBuffer.pop_queue h hold hc).bind fun r hr => hr
  | clear => exact (TcpBuffer.clear_queue h).bind fun r hr => hr
  | adjust => exact (TcpBuffer.adjust_queue h hold).bind fun p' hp' => hp'

theorem Holder.resume_queue {p : BufferPool} {holder : Holder} {rest : List BufId}
    (h : PoolInv p (holder.holds ++ rest)) {q : ByteQueue} (hs : holder.Shows p q) :
    Ends (holder.resume p) (StepsQueue rest p none q) InBounds := by
  cases holder with
  | idle buf => exact ⟨fun _ _ => rfl, q, .rest, hs⟩
  | growing b newBuf fill => exact (TcpBuffer.moveTo_queue h hs).bind fun p' hp' => hp'
  | filling b fill => exact (TcpBuffer.fillIn_queue h hs).bind fun p' hp' => hp'

/-! ## All of them -/

namespace Shared

variable {ι : Type}

/-- Whose step an event is. -/
def Event.owner : Event ι → ι
  | .call i _ => i
  | .resume i => i

/-- The call that it starts. -/
def Event.starts : Event ι → Option Call
  | .call _ c => some c
  | .resume _ => none

def Event.Sane : Event ι → Prop
  | .call _ c => c.Sane
  | .resume _ => True

instance : ∀ e : Event ι, Decidable e.Sane
  | .call _ c => inferInstanceAs (Decidable c.Sane)
  | .resume _ => .isTrue trivial

variable [DecidableEq ι]

/-- The queues after the events: each event is a step of its owner's queue alone. -/
inductive Queued : List (Event ι) → (ι → ByteQueue) → Prop where
  | start : Queued [] fun _ => .empty
  | step {evs : List (Event ι)} {q : ι → ByteQueue} {e : Event ι} {q' : ByteQueue}
      (before : Queued evs q) (moves : (q e.owner).Step e.starts q') :
      Queued (evs ++ [e]) (Function.update q e.owner q')

/-- Bytes come out of every queue as they went in. -/
theorem Queued.conserved {evs : List (Event ι)} {q : ι → ByteQueue} (h : Queued evs q) (i : ι) :
    (q i).fifo.Conserved := by
  induction h with
  | start => exact Fifo.conserved_empty
  | @step evs q e q' _ moves ih =>
    by_cases hi : i = e.owner
    · subst hi
      rw [Function.update_self]
      exact moves.conserved ih
    · rw [Function.update_of_ne hi]
      exact ih

/-- The `tcp_buffer`s have their buffers to themselves, and show the queues. -/
structure Refines (s : Shared ι) (q : ι → ByteQueue) : Prop where
  apart : ∃ owned, s.Apart owned
  shows : ∀ i, (s.holders i).Shows s.pool (q i)

/-- A step of holder `i` is a step of its queue, and none of another. -/
theorem Refines.put {s : Shared ι} {q : ι → ByteQueue} (h : Refines s q) {i : ι}
    {rest : List BufId} {owned : List BufId} (hapart : s.Apart owned)
    (hrest : ∀ b, b ∈ rest ↔ ∃ j, j ≠ i ∧ b ∈ (s.holders j).holds) {r : BufferPool × Holder}
    (hacc : Accounts r.1 (r.2.holds ++ rest)) {c : Option Call}
    (hr : StepsQueue rest s.pool c (q i) r) :
    ∃ q', (q i).Step c q' ∧ Refines (s.put i r) (Function.update q i q') := by
  obtain ⟨hothers, q', hstep, hshows⟩ := hr
  refine ⟨q', hstep, ⟨_, hapart.put hrest hacc⟩, fun j => ?_⟩
  by_cases hj : j = i
  · subst hj
    show Holder.Shows r.1 (Function.update s.holders j r.2 j) (Function.update q j q' j)
    rw [Function.update_self, Function.update_self]
    exact hshows
  · show Holder.Shows r.1 (Function.update s.holders i r.2 j) (Function.update q i q' j)
    rw [Function.update_of_ne hj, Function.update_of_ne hj]
    refine (h.shows j).congr fun b hb => hothers b ?_
    exact (hrest b).mpr ⟨j, hj, hb⟩

/-- A holder whose call is in progress gets no other. -/
theorem Refines.busy {s : Shared ι} {q : ι → ByteQueue} (h : Refines s q) {i : ι}
    {bs : List UInt8} (hcoming : (q i).coming = some bs) (c : Call) :
    ∃ q', (q i).Step (some c) q' ∧ Refines s (Function.update q i q') := by
  refine ⟨q i, ?_, ?_⟩
  · rcases hq : q i with ⟨fifo, coming⟩
    rw [hq] at hcoming
    obtain rfl : coming = some bs := hcoming
    exact .busy
  · rw [Function.update_eq_self]
    exact h

theorem Refines.step {s : Shared ι} {q : ι → ByteQueue} (h : Refines s q) {e : Event ι}
    (he : e.Sane) :
    Ends (s.step e)
      (fun s' => ∃ q', (q e.owner).Step e.starts q' ∧ Refines s' (Function.update q e.owner q'))
      InBounds := by
  obtain ⟨owned, hapart⟩ := h.apart
  cases e with
  | call i c =>
    obtain ⟨rest, hacc, hrest⟩ := hapart.rest i
    have hshows := h.shows i
    simp only [Shared.step]
    cases hi : s.holders i with
    | idle buf =>
      rw [hi] at hacc hshows
      have hacc' := (Call.start_accounts hacc c).imp (fun _ hr => hr) fun _ _ => trivial
      refine ((Call.start_queue hacc.inv hshows he).and_post hacc').bind ?_
      rintro r ⟨hr, hracc⟩
      exact h.put hapart hrest hracc hr
    | growing b newBuf fill =>
      rw [hi] at hshows
      exact h.busy hshows.1 c
    | filling b fill =>
      rw [hi] at hshows
      exact h.busy hshows.1 c
  | resume i =>
    obtain ⟨rest, hacc, hrest⟩ := hapart.rest i
    have hacc' := (Holder.resume_accounts hacc).imp (fun _ hr => hr) fun _ _ => trivial
    refine ((Holder.resume_queue hacc.inv (h.shows i)).and_post hacc').bind ?_
    rintro r ⟨hr, hracc⟩
    exact h.put hapart hrest hracc hr

theorem run_refines (raw : BufId → Nat → UInt8) {evs : List (Event ι)}
    (hev : ∀ e ∈ evs, e.Sane) :
    Ends (run raw evs) (fun s => ∃ q, Queued evs q ∧ Refines s q) InBounds := by
  have hstart : Refines (start ι raw) fun _ => .empty :=
    ⟨⟨[], start_apart raw⟩, fun i => ⟨rfl, 0, rfl⟩⟩
  refine Ends.foldlM (P := fun done s => ∃ q, Queued done q ∧ Refines s q) ?_
    ⟨_, .start, hstart⟩
  intro done e post s hts h
  obtain ⟨q, hq, h⟩ := h
  have he : e ∈ evs := hts ▸ List.mem_append_right done List.mem_cons_self
  refine (h.step (hev e he)).imp (fun s' hs' => ?_) fun _ hf => hf
  obtain ⟨q', hstep, h'⟩ := hs'
  exact ⟨_, hq.step hstep, h'⟩

/-- **Every `tcp_buffer` is a queue of its own.**  Whatever the interleaving, each holds the
bytes of a queue that only its own calls have changed, where bytes come out as they went in,
and a call is refused only when the largest buffer is too small; nothing is accessed outside
a buffer. -/
theorem buffers_are_queues (raw : BufId → Nat → UInt8) {evs : List (Event ι)}
    (hev : ∀ e ∈ evs, e.Sane) :
    (∀ s, run raw evs = .ok s → ∃ q, Queued evs q ∧
      ∀ i, (s.holders i).Shows s.pool (q i) ∧ (q i).fifo.Conserved) ∧
    ∀ f, run raw evs = .error f → f ≠ .undefined := by
  have hend := run_refines raw hev
  refine ⟨fun s hs => ?_, fun f hf => hend.of_error hf⟩
  obtain ⟨q, hq, h⟩ := hend.of_ok hs
  exact ⟨q, hq, fun i => ⟨h.shows i, hq.conserved i⟩⟩

/-- Two threads: while the bytes of one move to a larger buffer, the other gives a buffer of
the same class back and takes one. -/
def twoThreads : List (Event Bool) :=
  [.call false (.sendData [1, 2]), .call true (.sendData [3]), .resume true, .resume false,
    .call false (.sendData (List.replicate 5000 4)), .call true (.writeFd [.wrote 1]),
    .resume false, .call true .clear, .call true (.sendData [5]), .resume false, .resume true,
    .call false (.pop 1)]

theorem buffers_are_queues_twoThreads :
    (∀ s, run (fun _ _ => 0) twoThreads = .ok s → ∃ q, Queued twoThreads q ∧
      ∀ i, (s.holders i).Shows s.pool (q i) ∧ (q i).fifo.Conserved) ∧
    ∀ f, run (fun _ _ => 0) twoThreads = .error f → f ≠ .undefined :=
  buffers_are_queues (fun _ _ => 0) (by decide +kernel)

end Shared

end EasyReactor.Buffer
