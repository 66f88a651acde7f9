import EasyReactor.Buffer.Memory
import EasyReactor.Delivery.Admissible
import EasyReactor.Server.Rollback

set_option autoImplicit false

/-!
# Delivery: what the output buffers are checked for

`tcp_client::send_data` compares `datlen + COMMU_HEAD_LENGTH` with the space in `obuf`, and
`output_buffer::send_data` asks the pool for `datlen + _buf->length` bytes.  Both sums are
`int`s.  Past the largest `int` the first is below any space there is, and the second a
request for the smallest class.
-/

namespace EasyReactor.Delivery

open EasyReactor.Foundation EasyReactor.Buffer EasyReactor.Loop EasyReactor.Wire
open EasyReactor.Client

/-! ## The pool -/

/-- There is no free buffer of the smallest class, and no memory for another one. -/
def OutOfSmall (p : BufferPool) : Prop :=
  p.pool .u4K = none ∧ extraMemLimit ≤ p.totalMem + MemCap.u4K.bytes / 1024

section Pool

variable {p q : BufferPool} {owned : List BufId}

/-- A request below zero is served from the smallest class. -/
theorem alloc_negative (h : PoolInv p owned) {N : Int} (hN : N < 0) :
    Ends (p.alloc N)
      (fun r => ¬ OutOfSmall p ∧ ∃ b, r.2 = some b ∧ (r.1.bufs b).capacity = 4096)
      (fun e => e = .exit ∧ OutOfSmall p) := by
  have hclass : MemCap.forSize N = some .u4K := by
    unfold MemCap.forSize
    rw [if_pos (by omega)]
  cases halloc : p.alloc N with
  | error e =>
    unfold BufferPool.alloc at halloc
    rw [hclass] at halloc
    simp only at halloc
    split at halloc
    next hfree =>
      split at halloc
      next hlimit => exact ⟨(Except.error.inj halloc).symm, hfree, hlimit⟩
      next => cases halloc
    next => cases halloc
  | ok r =>
    obtain ⟨q, b?⟩ := r
    refine ⟨?_, ?_⟩
    · rintro ⟨hfree, hlimit⟩
      unfold BufferPool.alloc at halloc
      rw [hclass] at halloc
      simp only [hfree] at halloc
      rw [if_pos hlimit] at halloc
      cases halloc
    · cases b? with
      | none =>
        have hbig := ((alloc_ends h N).of_ok halloc).2
        omega
      | some b =>
        obtain ⟨c, hc, hcap⟩ := alloc_capacity h halloc
        obtain rfl := Option.some.inj (hclass.symm.trans hc)
        exact ⟨b, rfl, hcap⟩

/-- Nine buffers held by others are not enough to use up a class. -/
theorem not_outOfSmall (h : PoolInv p owned) (hfew : owned.length < 10) : ¬ OutOfSmall p := by
  cases halloc : p.alloc (-1) with
  | error e =>
    have hmany := ((alloc_ends h (-1)).of_error halloc).2
    omega
  | ok r => exact ((alloc_negative h (by decide)).of_ok halloc).1

/-- A buffer moves with its capacity. -/
theorem moveTo_capacity {b newBuf : BufId} (h : TcpBuffer.moveTo p b newBuf = .ok q) :
    (q.bufs newBuf).capacity = (p.bufs newBuf).capacity := by
  unfold TcpBuffer.moveTo at h
  obtain ⟨x, hx, h⟩ := bind_eq_ok.mp h
  rw [(BufferPool.revert_sameMemory h).capacity]
  change (Function.update p.bufs newBuf x newBuf).capacity = _
  rw [Function.update_self]
  exact IoBuffer.copy_capacity hx

end Pool

/-! ## `output_buffer::send_data` -/

/-- `new_buf->copy(_buf)` on the way of a `send_data` of `n` bytes: `alloc` returned `newBuf`
and left the pool `q`. -/
structure Copies (p : BufferPool) (buf : TcpBuffer) (n : Int) (q : BufferPool) (b newBuf : BufId) :
    Prop where
  held : buf = some b
  head : (p.bufs b).head = 0
  full : wrap ((p.bufs b).capacity - (p.bufs b).length) < n
  alloc : p.alloc (wrap (n + (p.bufs b).length)) = .ok (q, some newBuf)

/-- A `send_data` keeps to the memory of its buffers.  It may stop the process, at the memory
limit or by its `assert`. -/
structure KeepsWithin (p : BufferPool) (buf : TcpBuffer) (data : List UInt8) : Prop where
  ends : Ends (buf.sendData p data)
    (fun r => r.2.2 = -1 ∨ ∃ b, r.2.1 = some b ∧ (r.1.bufs b).length ≤ (r.1.bufs b).capacity)
    (fun e => e = .exit ∨ e = .assertion .sendHead)
  copies : ∀ q b newBuf, Copies p buf data.length q b newBuf →
    (q.bufs b).length ≤ (q.bufs newBuf).capacity

section OutputBuffer

variable {p q : BufferPool} {buf : TcpBuffer} {rest : List BufId} {bs data : List UInt8}

/-- A sum below `2^31` is the request it was meant to be. -/
theorem copies_fit (h : PoolInv p (buf.toList ++ rest)) (hold : Holds p buf 0 bs)
    (hlt : bs.length + data.length < 2147483648) {b newBuf : BufId}
    (hc : Copies p buf data.length q b newBuf) :
    (q.bufs b).length ≤ (q.bufs newBuf).capacity := by
  obtain ⟨rfl, -, -, halloc⟩ := hc
  have hlen := Window.length hold
  have hgot : Allocated p q (b :: rest) _ newBuf := (alloc_ends h _).of_ok halloc
  have hnodup : (newBuf :: b :: rest).Nodup := hgot.inv.nodup
  have hne : b ≠ newBuf := by
    rintro rfl
    exact (List.nodup_cons.mp hnodup).1 (List.mem_cons_self ..)
  have hsize := hgot.size
  rw [hlen, wrap_of_range (by omega) (by omega)] at hsize
  rw [hgot.others b hne, hlen]
  omega

theorem keepsWithin_of_lt (h : PoolInv p (buf.toList ++ rest)) (hold : Holds p buf 0 bs)
    (hlt : bs.length + data.length < 2147483648) : KeepsWithin p buf data := by
  refine ⟨?_, fun q b newBuf hc => copies_fit h hold hlt hc⟩
  apply (TcpBuffer.sendData_ends h hold data).imp
  · intro r hr
    cases hr with
    | refused => exact .inl rfl
    | @appended q buf' hk hmade hheld =>
      obtain ⟨b, rfl⟩ := Option.ne_none_iff_exists'.mp hmade
      have hlen : (q.bufs b).length = _ := Window.length hheld
      have hfits : _ ≤ (q.bufs b).capacity := Window.fits hheld
      refine .inr ⟨b, rfl, ?_⟩
      change (q.bufs b).length ≤ (q.bufs b).capacity
      omega
  · exact fun e he => .inl (he rfl hlt).1

/-- A sum from `2^31` on is a request below zero. -/
theorem request_negative {b : BufId} (h : PoolInv p (b :: rest)) (w : Window (p.bufs b) 0 bs)
    {n : Nat} (hn : n < 2147483648) (hover : 2147483648 ≤ bs.length + n) :
    wrap (n + (p.bufs b).length) < 0 := by
  have hlen := w.length
  have hfits := w.fits
  have hcap : (p.bufs b).capacity ≤ 8388608 := (h.capacity (by simp)).2
  rw [wrap_of_overflow (by omega) (by omega)]
  omega

/-- There the bytes held move to a buffer of the smallest class, if they fit into it. -/
theorem makeRoom_overflow (h : PoolInv p (buf.toList ++ rest)) (hold : Holds p buf 0 bs)
    {n : Nat} (hn : n < 2147483648) (hover : 2147483648 ≤ bs.length + n) :
    Ends (TcpBuffer.makeRoom .sendHead p buf n)
      (fun r => ¬ OutOfSmall p ∧ ∃ b, r.2 = some b ∧ Window (r.1.bufs b) 0 bs ∧
        (r.1.bufs b).capacity = 4096)
      (fun e => e = .exit ∧ OutOfSmall p ∨ e = .undefined ∧ ¬ OutOfSmall p) := by
  cases buf with
  | none =>
    rw [holds_none] at hold
    subst hold
    rw [List.length_nil] at hover
    omega
  | some b =>
    have w : Window (p.bufs b) 0 bs := hold
    have hlen := w.length
    have hhead := w.head
    have hfits := w.fits
    have hcap : (p.bufs b).capacity ≤ 8388608 := (h.capacity (by simp)).2
    have hneg := request_negative h w hn hover
    have hsmall : wrap ((p.bufs b).capacity - (p.bufs b).length) < n := by
      rw [wrap_of_range (by omega) (by omega)]
      omega
    unfold TcpBuffer.makeRoom
    simp only
    rw [if_neg (by omega), if_pos hsmall]
    apply ((alloc_negative h hneg).imp (fun _ hr => hr) (fun _ he => .inl he)).bind_eq
      (fun _ he => he)
    rintro ⟨q, newBuf?⟩ halloc ⟨hsupply, newBuf, hsome, hnewcap⟩
    obtain rfl : newBuf? = some newBuf := hsome
    have hgot : Allocated p q (b :: rest) _ newBuf := (alloc_ends h _).of_ok halloc
    simp only
    apply (TcpBuffer.moveTo_ends hgot).bind_eq
    · exact fun e he => .inr ⟨(he bs w).1, hsupply⟩
    · rintro r hmove ⟨-, hw⟩
      exact ⟨hsupply, newBuf, rfl, (hw bs w).1, (moveTo_capacity hmove).trans hnewcap⟩

/-- Either way the bytes to come do not fit behind them. -/
theorem sendData_overflow (h : PoolInv p (buf.toList ++ rest)) (hold : Holds p buf 0 bs)
    (hdata : data.length < 2147483648) (hover : 2147483648 ≤ bs.length + data.length) :
    Ends (buf.sendData p data) (fun _ => False)
      (fun e => e = .exit ∧ OutOfSmall p ∨ e = .undefined ∧ ¬ OutOfSmall p) := by
  unfold TcpBuffer.sendData
  apply (makeRoom_overflow h hold hdata hover).bind
  rintro ⟨q, b?⟩ ⟨hsupply, b, hsome, w, hcap⟩
  obtain rfl : b? = some b := hsome
  have hcap : (q.bufs b).capacity = 4096 := hcap
  simp only
  apply (w.append_ends data).bind_eq
  · exact fun e he => .inr ⟨he.1, hsupply⟩
  · rintro x - ⟨-, hroom⟩
    have hroom : (bs.length : Int) + data.length ≤ (q.bufs b).capacity := hroom
    omega

/-- A call keeps to its memory exactly when the bytes held and the bytes to come are fewer
than `2^31`, or the pool stops the process first. -/
theorem keepsWithin_iff (h : PoolInv p (buf.toList ++ rest)) (hold : Holds p buf 0 bs)
    (hdata : data.length < 2147483648) :
    KeepsWithin p buf data ↔ buf.length p + data.length < 2147483648 ∨ OutOfSmall p := by
  rw [hold.length]
  by_cases hlt : bs.length + data.length < 2147483648
  · exact ⟨fun _ => .inl (by omega), fun _ => keepsWithin_of_lt h hold hlt⟩
  · have hend := sendData_overflow h hold hdata (by omega)
    refine ⟨fun hk => ?_, fun hcase => ?_⟩
    · cases hsend : buf.sendData p data with
      | ok r => exact (hend.of_ok hsend).elim
      | error e =>
        rcases hend.of_error hsend with ⟨-, hout⟩ | ⟨rfl, -⟩
        · exact .inr hout
        · rcases hk.ends.of_error hsend with hexit | hassert
          · cases hexit
          · cases hassert
    · have hout : OutOfSmall p := hcase.resolve_left (by omega)
      refine ⟨?_, ?_⟩
      · apply hend.imp (fun _ hf => hf.elim)
        rintro e (⟨he, -⟩ | ⟨-, hno⟩)
        · exact .inl he
        · exact absurd hout hno
      · rintro q b newBuf ⟨rfl, -, -, halloc⟩
        have hneg := request_negative h hold hdata (by omega)
        exact absurd hout ((alloc_negative h hneg).of_ok halloc).1

end OutputBuffer

/-! ## The client -/

/-- `send_data` of the client: -1 and `obuf` as it was, or `obuf` with no more bytes than it has
memory for. -/
def SendsWithin (s : ClientState) (data : List UInt8) (cmdid : Int32) : Prop :=
  Ends (s.sendData data cmdid)
    (fun r => r.2 = -1 ∧ r.1.obuf = s.obuf ∨ r.1.obuf.length ≤ r.1.obuf.capacity)
    (fun _ => False)

section Client

variable {s : ClientState} {pending data : List UInt8}

theorem sendsWithin_iff (w : Pending s pending) (hdata : data.length < 2147483648)
    (cmdid : Int32) :
    SendsWithin s data cmdid ↔
      (s.netOk = true → data.length + commuHeadLength < 2147483648) := by
  have hfits := w.fits
  have hsmall := w.small
  have hwidth := commuHeadLength_eq
  have hends := sendData_ends w data cmdid
  constructor
  · intro hwithin hnet
    by_contra hover
    -- the sum wraps, and is below any space
    have hwrap : wrap (data.length + commuHeadLength) < 0 := by
      rw [wrap_of_overflow (by omega) (by omega)]
      omega
    cases hsend : s.sendData data cmdid with
    | error e => exact hwithin.of_error hsend
    | ok r =>
      cases hends.of_ok hsend with
      | refused full =>
        have hfull := full hnet
        omega
      | accepted obuf netOk fits appended => omega
  · intro hcond
    apply hends.imp
    · intro r hr
      cases hr with
      | refused => exact .inl ⟨rfl, rfl⟩
      | accepted obuf netOk fits appended =>
        have hlen := appended.length
        have hin := appended.fits
        refine .inr ?_
        change obuf.length ≤ obuf.capacity
        omega
    · intro e he
      have hlt := hcond he.netOk
      have hpassed := he.passed
      have hover := he.exceeds
      rw [wrap_of_range (by omega) (by omega)] at hpassed
      omega

end Client

/-! ## The server -/

/-- The calls of `output_buffer::send_data` that `tcp_conn::send_data` makes, and where: one for
the header, and when that one returned 0 one for the content. -/
inductive OutputCall (s : Server.ConnState) (data : List UInt8) (cmdid : Int32) :
    BufferPool → TcpBuffer → List UInt8 → Prop where
  | head :
      OutputCall s data cmdid s.pool s.conn.obuf (CommuHead.mk cmdid (.ofInt data.length)).bytes
  | content {p : BufferPool} {obuf : TcpBuffer}
      (h : s.conn.obuf.sendData s.pool (CommuHead.mk cmdid (.ofInt data.length)).bytes =
        .ok (p, obuf, 0)) : OutputCall s data cmdid p obuf data

section Server

variable {s : Server.ConnState} {data : List UInt8}

/-- Away from head 0 the `assert` stops the call. -/
theorem keepsWithin_moved {p : BufferPool} {b : BufId} (hhead : (p.bufs b).head ≠ 0)
    (data : List UInt8) : KeepsWithin p (some b) data := by
  refine ⟨?_, fun q b' newBuf hc => ?_⟩
  · unfold TcpBuffer.sendData TcpBuffer.makeRoom
    simp only
    rw [if_pos hhead]
    exact .inr rfl
  · obtain ⟨heq, hzero, -, -⟩ := hc
    obtain rfl := Option.some.inj heq
    exact absurd hzero hhead

variable {rest : List BufId} {pending : List UInt8}

theorem outputCall_keepsWithin_iff (h : PoolInv s.pool (s.conn.obuf.toList ++ rest)) {off : Nat}
    (hheld : Holds s.pool s.conn.obuf off pending) (hdata : data.length < 2147483648)
    {cmdid : Int32} {p : BufferPool} {obuf : TcpBuffer} {bytes : List UInt8}
    (hcall : OutputCall s data cmdid p obuf bytes) :
    KeepsWithin p obuf bytes ↔ obuf.length p + bytes.length < 2147483648 ∨ OutOfSmall p := by
  cases hcall with
  | content hret =>
    cases (TcpBuffer.sendData_ends h hheld _).of_ok hret with
    | appended hk _ hheld₁ => exact keepsWithin_iff hk.inv hheld₁ hdata
  | head =>
    have hhead := CommuHead.length_bytes ⟨cmdid, .ofInt data.length⟩
    have hwidth := commuHeadLength_eq
    by_cases hmoved : Server.HeadMoved s
    · obtain ⟨b, hb, hne⟩ := hmoved
      rw [hb] at h hheld ⊢
      have hfits := Window.fits hheld
      have hlen := Window.length hheld
      have hcap := (h.capacity (b := b) (by simp)).2
      refine ⟨fun _ => .inl ?_, fun _ => keepsWithin_moved hne _⟩
      change (s.pool.bufs b).length + _ < 2147483648
      omega
    · apply keepsWithin_iff h (hheld.at_head _) (by omega)
      intro b hb
      by_contra hne
      exact hmoved ⟨b, hb, hne⟩

/-- The content that goes too far behind a header for which there is room. -/
theorem content_overflows (h : PoolInv s.pool (s.conn.obuf.toList ++ rest))
    (hfew : rest.length < 9) (hheld : Holds s.pool s.conn.obuf 0 pending)
    (hroom : pending.length + 8 ≤ 8388608) (hdata : data.length < 2147483648)
    (hover : 2147483648 ≤ pending.length + 8 + data.length) (cmdid : Int32) :
    ∃ p obuf, OutputCall s data cmdid p obuf data ∧ ¬ KeepsWithin p obuf data := by
  have hhead := CommuHead.length_bytes ⟨cmdid, .ofInt data.length⟩
  have hwidth := commuHeadLength_eq
  have hends := TcpBuffer.sendData_ends h hheld (CommuHead.mk cmdid (.ofInt data.length)).bytes
  cases hsend : s.conn.obuf.sendData s.pool (CommuHead.mk cmdid (.ofInt data.length)).bytes with
  | error e =>
    have hmany := (hends.of_error hsend rfl (by omega)).2
    omega
  | ok r =>
    cases hends.of_ok hsend with
    | refused full =>
      have hfull := full (by omega)
      omega
    | @appended p obuf hk _ hheld₁ =>
      refine ⟨p, obuf, .content hsend, fun hwithin => ?_⟩
      have hlen : obuf.length p = _ := hheld₁.length
      rw [List.length_append] at hlen
      have howned : (obuf.toList ++ rest).length < 10 := by
        cases obuf <;> simp only [Option.toList, List.length_append, List.length_cons,
          List.length_nil] <;> omega
      rcases (keepsWithin_iff hk.inv hheld₁ hdata).mp hwithin with hshort | hout
      · omega
      · exact not_outOfSmall hk.inv howned hout

/-- What every `send_data` finds: the pool accounts for `obuf`, and `obuf` is in order. -/
theorem lifeRun_output (srv : Server.TcpServer) (raw : BufId → Nat → UInt8)
    (before : List Server.PoolCommand) (events : List Server.ObjectEvent) :
    Ends (Server.ConnState.lifeRun srv raw before events)
      (fun s => PoolInv s.pool (s.conn.obuf.toList ++ (s.conn.ibuf.toList ++ s.others)) ∧
        ∃ off pending, Holds s.pool s.conn.obuf off pending)
      (fun _ => True) := by
  apply (Server.lifeRun_settled srv raw before events).imp _ (fun _ he => he)
  rintro s (hlive | hcleaned)
  · exact ⟨hlive.attached.inv_obuf, hlive.output⟩
  · rw [hcleaned.obuf, hcleaned.ibuf]
    exact ⟨hcleaned.inv, 0, [], rfl⟩

end Server

/-! ## Every length -/

/-- In every state of a client: `send_data` keeps `obuf` within its memory exactly when it is
not connected or the frame is shorter than `2^31`.  In every state of a connection object: so
does each call of `output_buffer::send_data` when the bytes held and those to come are fewer
than `2^31`, or the pool stops the process. -/
theorem sends_keep_within_iff (cli : TcpClient) (rawIn rawOut : Nat → UInt8) (c : Connect)
    (events : List ClientEvent) (srv : Server.TcpServer) (raw : BufId → Nat → UInt8)
    (before : List Server.PoolCommand) (objectEvents : List Server.ObjectEvent) :
    Ends (ClientState.run cli rawIn rawOut c events)
        (fun s => ∀ data cmdid, data.length < 2147483648 →
          (SendsWithin s data cmdid ↔
            (s.netOk = true → data.length + commuHeadLength < 2147483648)))
        (fun _ => True) ∧
      Ends (Server.ConnState.lifeRun srv raw before objectEvents)
        (fun s => ∀ data cmdid, data.length < 2147483648 →
          ∀ p obuf bytes, OutputCall s data cmdid p obuf bytes →
            (KeepsWithin p obuf bytes ↔
              obuf.length p + bytes.length < 2147483648 ∨ OutOfSmall p))
        (fun _ => True) := by
  constructor
  · apply (run_pending cli rawIn rawOut c events).imp _ (fun _ he => he)
    rintro s ⟨pending, w⟩ data cmdid hdata
    exact sendsWithin_iff w hdata cmdid
  · apply (lifeRun_output srv raw before objectEvents).imp _ (fun _ he => he)
    rintro s ⟨hinv, off, pending, hheld⟩ data cmdid hdata p obuf bytes hcall
    exact outputCall_keepsWithin_iff hinv hheld hdata hcall

/-- The largest `int` is a length that neither check stops: not on a client that has just
connected, and not on a connection that has just been made. -/
theorem longest_send_overflows :
    ¬ Ends (ClientState.run (quietClient [1]) (fun _ => 0) (fun _ => 0) ⟨some 4, .inProgress⟩
          [.io .output noCalls])
        (fun s => ∀ data cmdid, data.length < 2147483648 → SendsWithin s data cmdid)
        (fun _ => True) ∧
      ¬ Ends (Server.ConnState.lifeRun (Server.quietServer [1]) (fun _ _ => 0) [] [.init 7 0])
        (fun s => ∀ data cmdid, data.length < 2147483648 →
          ∀ p obuf bytes, OutputCall s data cmdid p obuf bytes → KeepsWithin p obuf bytes)
        (fun _ => True) := by
  have hdata : (List.replicate 2147483647 (0 : UInt8)).length = 2147483647 :=
    List.length_replicate
  have hwidth := commuHeadLength_eq
  generalize List.replicate 2147483647 (0 : UInt8) = data at hdata
  constructor
  · intro hall
    have hobs : (ClientState.run (quietClient [1]) (fun _ => 0) (fun _ => 0)
        ⟨some 4, .inProgress⟩ [.io .output noCalls]).toOption.map (fun s => s.netOk) =
          some true := by
      decide +kernel
    obtain ⟨s, hrun, hnet⟩ := ok_of_observed hobs
    obtain ⟨pending, w⟩ := (run_pending (quietClient [1]) (fun _ => 0) (fun _ => 0)
      ⟨some 4, .inProgress⟩ [.io .output noCalls]).of_ok hrun
    have hshort := (sendsWithin_iff w (by omega) 1).mp (hall.of_ok hrun data 1 (by omega)) hnet
    omega
  · intro hall
    have hobs : (Server.ConnState.lifeRun (Server.quietServer [1]) (fun _ _ => 0) []
        [.init 7 0]).toOption.map (fun s => ((s.conn.ibuf.toList ++ s.others).length,
          s.conn.obuf)) = some (0, none) := by
      decide +kernel
    obtain ⟨s, hrun, hobs⟩ := ok_of_observed hobs
    obtain ⟨hrest, hobuf⟩ := Prod.mk.inj hobs
    obtain ⟨hinv, -⟩ := (lifeRun_output (Server.quietServer [1]) (fun _ _ => 0) []
      [.init 7 0]).of_ok hrun
    have hheld : Holds s.pool s.conn.obuf 0 [] := by
      rw [hobuf]
      rfl
    obtain ⟨p, obuf, hcall, hno⟩ := @content_overflows s data _ [] hinv (by omega) hheld
      (by decide) (by omega) (by rw [List.length_nil]; omega) 1
    exact hno (hall.of_ok hrun data 1 (by omega) p obuf data hcall)

end EasyReactor.Delivery
