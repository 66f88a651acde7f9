import EasyReactor.Server.Callback
import EasyReactor.Wire.Reference

set_option autoImplicit false

/-!
# Server: what `handle_read` makes of the bytes that arrive

`handleRead_ends` says what one call does to a connection that holds `pend`: exactly what
the reference parser does to `pend ++ chunk`.  The one exception is a frame without a
body that ends the buffer.  Popping its header gives the buffer back to the pool, and
the pop of its body then fails its `assert`.
-/

namespace EasyReactor.Server

open EasyReactor.Foundation EasyReactor.Buffer EasyReactor.Loop EasyReactor.Wire

/-- An open connection with `pend` unconsumed, at offset `off` of its buffer. -/
structure Live (s : ConnState) (off : Nat) (pend : List UInt8) : Prop where
  attached : Attached s
  held : Holds s.pool s.conn.ibuf off pend
  reading : s.evs.Watches s.conn.connfd epollIn

/-- What `clean_conn` leaves behind. -/
structure Cleaned (s : ConnState) : Prop where
  inv : PoolInv s.pool s.others
  connfd : s.conn.connfd = -1
  loop : s.conn.loop = none
  ibuf : s.conn.ibuf = none
  obuf : s.conn.obuf = none
  unwatched : s.evs.mask (-1) = 0

/-- The callbacks do nothing, and the connection holds no buffer but `ibuf`, nor does
anybody else. -/
structure Silent (srv : TcpServer) (s : ConnState) : Prop where
  message : ∀ cmdid func, srv.dispatcher.dispatcher.lookup cmdid = some func →
    ∀ hist usrData, func hist usrData = []
  close : srv.connCloseCb = none
  obuf : s.conn.obuf = none
  others : s.others = []

/-- The process ended at the memory limit or inside a callback. -/
def Early (srv : TcpServer) (s : ConnState) (e : Fault) : Prop :=
  (e = .exit ∨ ∃ g, e = .callback g) ∧ ¬ Silent srv s

/-- What the connection is to be like once the reference parser made `d` of its bytes. -/
structure Follows (srv : TcpServer) (s : ConnState) (d : Decoded UInt8 Msg) (s' : ConnState) :
    Prop where
  dispatched : s'.dispatched = s.dispatched ++ d.msgs
  not_empty : ¬ EndsEmpty d
  silent : Silent srv s → Silent srv s'
  state : match d.rest with
    | some r => ∃ off, Live s' off r
    | none => Cleaned s'

/-- A server whose callbacks do nothing. -/
def quietServer (table : List Int32) : TcpServer :=
  ⟨⟨table.map fun cmdid => (cmdid, fun _ _ => []), []⟩, none, none⟩

theorem lookup_quiet (table : List Int32) (cmdid : Int32) :
    (quietServer table).dispatcher.dispatcher.lookup cmdid =
      if table.contains cmdid then some (fun _ _ => []) else none := by
  unfold quietServer
  simp only
  induction table with
  | nil => rfl
  | cons c table ih =>
    rw [List.map_cons, List.lookup_cons, List.contains_cons]
    cases h : cmdid == c with
    | true => simp
    | false => simpa using ih

theorem exist_quiet (table : List Int32) :
    (quietServer table).dispatcher.exist = table.contains := by
  funext cmdid
  unfold MsgDispatcher.exist
  rw [lookup_quiet]
  cases table.contains cmdid <;> rfl

theorem silent_quiet {table : List Int32} {s : ConnState} (hobuf : s.conn.obuf = none)
    (hothers : s.others = []) : Silent (quietServer table) s := by
  refine ⟨?_, rfl, hobuf, hothers⟩
  intro cmdid func h hist usrData
  rw [lookup_quiet] at h
  split at h
  · obtain rfl := Option.some.inj h
    rfl
  · cases h

section Calls

variable {srv : TcpServer} {s : ConnState} {off : Nat} {pend : List UInt8}

theorem Early.of_silent {s' : ConnState} {e : Fault} (h : Early srv s' e)
    (hs : Silent srv s → Silent srv s') : Early srv s e :=
  ⟨h.1, fun hsil => h.2 (hs hsil)⟩

theorem Live.undisturbed {s' : ConnState} (h : Live s off pend) (ha : Attached s')
    (hu : Undisturbed s s') : Live s' off pend := by
  refine ⟨ha, hu.holds h.held, ?_⟩
  rw [hu.connfd]
  exact hu.watches _ _ h.reading

/-- `clean_conn` gives both buffers back. -/
theorem cleanConn_ends (h : Attached s) :
    Ends (s.cleanConn srv)
      (fun s' => Cleaned s' ∧ s'.dispatched = s.dispatched ∧ (Silent srv s → Silent srv s'))
      (Early srv s) := by
  unfold ConnState.cleanConn
  have hclose : Ends (s.callIf srv.connCloseCb)
      (fun s' => Attached s' ∧ s'.dispatched = s.dispatched ∧ (Silent srv s → s' = s))
      (Early srv s) := by
    apply (callIf_ends h srv.connCloseCb).imp
    · rintro s' ⟨h', hu, hnone⟩
      exact ⟨h', hu.dispatched, fun hs => hnone hs.close⟩
    · rintro e ⟨he, hne⟩
      exact ⟨.inr he, fun hs => hne hs.close⟩
  apply hclose.bind
  rintro s₁ ⟨h₁, hd₁, hs₁⟩
  have hfd := h₁.fd
  simp only
  cases hloop : s₁.conn.loop with
  | none => exact absurd hloop h₁.loop
  | some l =>
    simp only
    obtain ⟨p, hp, hk⟩ := TcpBuffer.clear_eq h₁.inv
    rw [hp, ok_bind]
    have hinv : PoolInv p (s₁.conn.obuf.toList ++ s₁.others) := hk.inv
    obtain ⟨q, hq, hk'⟩ := TcpBuffer.clear_eq hinv
    simp only [ConnState.setIbuf]
    rw [hq, ok_bind]
    refine ⟨⟨hk'.inv, rfl, rfl, rfl, rfl, ?_⟩, hd₁, ?_⟩
    · change ((s₁.evs.delIoev s₁.conn.connfd).closeFd s₁.conn.connfd).mask (-1) = 0
      rw [EventLoop.mask_closeFd, EventLoop.mask_delIoev]
      split
      · rfl
      · exact h₁.unwatched
    · intro hs
      refine ⟨hs.message, hs.close, rfl, ?_⟩
      have heq := hs₁ hs
      subst heq
      exact hs.others

/-- One message is handed over; the callback leaves `ibuf` alone. -/
theorem dispatch_ends (h : Live s off pend) {head : CommuHead} {n : Nat}
    (hlen : head.length.toInt = n) (hn : n ≤ pend.length)
    (hreg : srv.dispatcher.exist head.cmdid = true) :
    Ends (s.dispatch srv head)
      (fun s' => Live s' off pend ∧ s'.conn.ibuf = s.conn.ibuf ∧
        s'.dispatched = s.dispatched ++ [⟨head.cmdid, pend.take n⟩] ∧
        (Silent srv s → Silent srv s'))
      (Early srv s) := by
  unfold ConnState.dispatch
  rw [hlen, TcpBuffer.data_eq h.held hn, ok_bind]
  obtain ⟨func, usrData, hcb, hfunc⟩ := MsgDispatcher.cb_eq hreg
  rw [hcb, ok_bind]
  have ha := h.attached
  have h₁ : Attached { s with dispatched := s.dispatched ++ [⟨head.cmdid, pend.take n⟩] } :=
    ⟨ha.inv, ha.loop, ha.fd, ha.unwatched⟩
  apply (callback_ends h₁ _).imp
  · rintro s' ⟨h', hu, hnil⟩
    refine ⟨⟨h', hu.holds h.held, ?_⟩, hu.ibuf, hu.dispatched, ?_⟩
    · rw [hu.connfd]
      exact hu.watches _ _ h.reading
    · intro hs
      have heq := hnil (hs.message _ _ hfunc _ _)
      subst heq
      exact ⟨hs.message, hs.close, hs.obuf, hs.others⟩
  · rintro e ⟨he, hne⟩
    exact ⟨.inr he, fun hs => hne (hs.message _ _ hfunc _ _)⟩

/-- A pop from `ibuf`. -/
theorem popIbuf_eq (h : Live s off pend) (hbuf : s.conn.ibuf ≠ none) {n : Nat}
    (hn : n ≤ pend.length) :
    ∃ p buf, s.conn.ibuf.pop s.pool n = .ok (p, buf) ∧
      Live (s.setIbuf p buf) (off + n) (pend.drop n) ∧ (buf = none ↔ pend.drop n = []) := by
  obtain ⟨p, buf, hpop, hk, hold, hnone⟩ := TcpBuffer.pop_eq h.attached.inv h.held hbuf hn
  have ha := h.attached
  exact ⟨p, buf, hpop, ⟨⟨hk.inv, ha.loop, ha.fd, ha.unwatched⟩, hold, h.reading⟩, hnone⟩

/-- `ibuf` is there as long as it holds something. -/
theorem Live.ibuf_ne_none (h : Live s off pend) (hp : pend ≠ []) : s.conn.ibuf ≠ none := by
  intro hnone
  have hheld := h.held
  rw [hnone] at hheld
  exact hp hheld

/-- A frame is taken off `ibuf`, unless it is a header with nothing behind it: that pop
gives the buffer back, and the next one has nothing to pop from. -/
theorem takeFrame_ends {m : Msg} {body : List UInt8} (h : Live s off pend)
    (hlen : m.head.length.toInt = m.body.length)
    (hreg : srv.dispatcher.exist m.cmdid = true)
    (hpend : pend.drop commuHeadLength = m.body ++ body) (hle : commuHeadLength ≤ pend.length) :
    Ends (s.takeFrame srv m.head)
      (fun s' => (∃ off, Live s' off body) ∧ s'.dispatched = s.dispatched ++ [m] ∧
        pend.drop commuHeadLength ≠ [] ∧ (Silent srv s → Silent srv s'))
      (fun e => Early srv s e ∨ e = .assertion .popLength ∧ pend.drop commuHeadLength = []) := by
  have hne : pend ≠ [] := by
    intro hnil
    rw [hnil] at hle
    exact absurd hle (by decide)
  obtain ⟨p, buf, hpop, h₁, hnone⟩ := popIbuf_eq h (h.ibuf_ne_none hne) hle
  unfold ConnState.takeFrame
  rw [hpop, ok_bind]
  have hmsg : Msg.mk m.head.cmdid ((pend.drop commuHeadLength).take m.body.length) = m := by
    rw [hpend, List.take_left]
    rfl
  have hblen : m.body.length ≤ (pend.drop commuHeadLength).length := by
    rw [hpend, List.length_append]
    omega
  apply ((dispatch_ends h₁ hlen hblen hreg).imp (fun _ hs => hs) (fun e he =>
    .inl (he.of_silent fun hs => ⟨hs.message, hs.close, hs.obuf, hs.others⟩))).bind
  rintro s₂ ⟨h₂, hibuf, hd₂, hs₂⟩
  rw [hmsg] at hd₂
  rw [hlen]
  by_cases hnil : pend.drop commuHeadLength = []
  · have hibuf₂ : s₂.conn.ibuf = none := hibuf.trans (hnone.mpr hnil)
    rw [hibuf₂, TcpBuffer.pop_none]
    exact .inr ⟨rfl, hnil⟩
  · obtain ⟨p₃, buf₃, hpop₃, h₃, -⟩ := popIbuf_eq h₂ (h₂.ibuf_ne_none hnil) hblen
    rw [hpop₃, ok_bind]
    rw [hpend, List.drop_left] at h₃
    refine ⟨⟨_, h₃⟩, hd₂, hnil, ?_⟩
    intro hs
    have hs' := hs₂ ⟨hs.message, hs.close, hs.obuf, hs.others⟩
    exact ⟨hs'.message, hs'.close, hs'.obuf, hs'.others⟩

/-- The loop waits where the reference parser does. -/
theorem readLoop_wait (h : Live s off pend)
    (hnext : (reference srv.dispatcher.exist).next pend = .wait) (fuel : Nat) :
    ConnState.readLoop srv (fuel + 1) s = .ok s := by
  have hl := h.held.length
  unfold ConnState.readLoop
  rw [hl]
  cases parse_wait hnext with
  | inl hshort =>
    rw [if_neg (by omega)]
    rfl
  | inr hbody =>
    obtain ⟨hlen, hlo, hhi, hlt⟩ := hbody
    rw [if_pos (by omega), TcpBuffer.data_eq h.held hlen, ok_bind, CommuHead.ofBytes_take hlen]
    simp only
    rw [if_neg (by omega), if_pos hlt]
    rfl

/-- The connection is closed where the reference parser rejects. -/
theorem readLoop_reject (h : Live s off pend)
    (hnext : (reference srv.dispatcher.exist).next pend = .reject) (fuel : Nat) :
    ConnState.readLoop srv (fuel + 1) s = s.cleanConn srv := by
  have hl := h.held.length
  obtain ⟨hlen, hcase⟩ := parse_reject hnext
  unfold ConnState.readLoop
  rw [hl, if_pos (by omega), TcpBuffer.data_eq h.held hlen, ok_bind, CommuHead.ofBytes_take hlen]
  simp only
  cases hcase with
  | inl hrange => rw [if_pos hrange]
  | inr hunknown =>
    obtain ⟨hlo, hhi, hle, hreg⟩ := hunknown
    rw [if_neg (by omega), if_neg (by omega), if_pos (by simp [hreg])]

/-- A frame is taken where the reference parser finds one. -/
theorem readLoop_emit (h : Live s off pend) {m : Msg} {n : Nat}
    (hnext : (reference srv.dispatcher.exist).next pend = .emit m n) (fuel : Nat) :
    ConnState.readLoop srv (fuel + 1) s =
      s.takeFrame srv m.head >>= ConnState.readLoop srv fuel := by
  have hl := h.held.length
  have hmax := msgLengthLimit_eq
  obtain ⟨hle, rfl, hlimit, hreg, hhead, -⟩ := parse_emit hnext
  have hlen : commuHeadLength ≤ pend.length := by omega
  have hmlen : m.head.length.toInt = m.body.length := Msg.head_length (by omega)
  have hreg' : srv.dispatcher.exist m.head.cmdid = true := hreg
  rw [ConnState.readLoop, hl, if_pos (by omega), TcpBuffer.data_eq h.held hlen, ok_bind,
    CommuHead.ofBytes_take hlen, hhead]
  simp only
  rw [hmlen, if_neg (by omega), if_neg (by omega), if_neg (not_not.mpr hreg')]

/-- The loop of `handle_read` does what the reference parser does to the bytes held. -/
theorem readLoop_ends (fuel : Nat) (h : Live s off pend) (hfuel : pend.length < fuel) :
    Ends (ConnState.readLoop srv fuel s)
      (Follows srv s (refDecode srv.dispatcher.exist pend))
      (fun e => Early srv s e ∨
        e = .assertion .popLength ∧ EndsEmpty (refDecode srv.dispatcher.exist pend)) := by
  induction fuel generalizing s off pend with
  | zero => omega
  | succ fuel ih =>
    cases hnext : (reference srv.dispatcher.exist).next pend with
    | wait =>
      rw [refDecode, Decoder.decode_wait hnext, readLoop_wait h hnext]
      exact ⟨by simp, not_endsEmpty_of_nil rfl, id, ⟨off, h⟩⟩
    | reject =>
      rw [refDecode, Decoder.decode_reject hnext, readLoop_reject h hnext]
      apply (cleanConn_ends h.attached).imp
      · rintro s' ⟨hc, hd, hs⟩
        exact ⟨by simpa using hd, not_endsEmpty_of_nil rfl, hs, hc⟩
      · exact fun e he => .inl he
    | emit m n =>
      obtain ⟨hle, rfl, hlimit, hreg, -, hbody⟩ := parse_emit hnext
      have hhead := commuHeadLength_eq
      have hmax := msgLengthLimit_eq
      have hmlen : m.head.length.toInt = m.body.length := Msg.head_length (by omega)
      have hpend : pend.drop commuHeadLength =
          m.body ++ pend.drop (commuHeadLength + m.body.length) := by
        have hsplit := List.take_append_drop m.body.length (pend.drop commuHeadLength)
        rw [← hbody, List.drop_drop] at hsplit
        exact hsplit.symm
      rw [refDecode, Decoder.decode_emit hnext, readLoop_emit h hnext]
      -- the messages of the rest of the buffer follow `m`
      generalize hrest : pend.drop (commuHeadLength + m.body.length) = rest at hpend
      apply ((takeFrame_ends h hmlen hreg hpend (by omega)).imp (fun _ hs => hs) _).bind
      · rintro s₁ ⟨⟨off₁, h₁⟩, hd₁, hne, hs₁⟩
        have hshort : rest.length < fuel := by
          rw [← hrest, List.length_drop]
          omega
        have hpush : EndsEmpty ((refDecode srv.dispatcher.exist rest).push m) ↔
            EndsEmpty (refDecode srv.dispatcher.exist rest) := by
          rw [endsEmpty_push]
          refine ⟨fun he => he.resolve_right ?_, .inl⟩
          rintro ⟨hbnil, hdec⟩
          rw [hpend, hbnil, ← Decoder.decode_idle hdec] at hne
          exact hne rfl
        apply (ih h₁ hshort).imp
        · intro s' hf
          refine ⟨?_, hpush.not.mpr hf.not_empty, fun hs => hf.silent (hs₁ hs), hf.state⟩
          rw [hf.dispatched, hd₁, List.append_assoc]
          rfl
        · rintro e (he | ⟨he, hend⟩)
          · exact .inl (he.of_silent hs₁)
          · exact .inr ⟨he, hpush.mpr hend⟩
      · rintro e (he | ⟨he, hnil⟩)
        · exact .inl he
        · rw [hpend] at hnil
          obtain ⟨hbnil, hrnil⟩ := List.append_eq_nil_iff.mp hnil
          refine .inr ⟨he, endsEmpty_push.mpr (.inr ⟨hbnil, ?_⟩)⟩
          rw [hrnil]
          exact refDecode_nil _

/-- The last line of `handle_read` moves what is left to head 0. -/
theorem adjust_follows {s' : ConnState} {d : Decoded UInt8 Msg} (hf : Follows srv s d s') :
    ∃ q, s'.conn.ibuf.adjust s'.pool = .ok q ∧ Follows srv s d { s' with pool := q } ∧
      ∀ r, d.rest = some r → Live { s' with pool := q } 0 r := by
  have hstate := hf.state
  cases hrest : d.rest with
  | none =>
    rw [hrest] at hstate
    have hc : Cleaned s' := hstate
    refine ⟨s'.pool, ?_, hf, fun r hr => by cases hr⟩
    rw [hc.ibuf]
    rfl
  | some r =>
    rw [hrest] at hstate
    obtain ⟨off, hlive⟩ := hstate
    have ha := hlive.attached
    obtain ⟨q, hq, hk, hheld⟩ := TcpBuffer.adjust_eq ha.inv hlive.held
    have hlive' : Live { s' with pool := q } 0 r :=
      ⟨⟨hk.inv, ha.loop, ha.fd, ha.unwatched⟩, hheld, hlive.reading⟩
    refine ⟨q, hq, ⟨hf.dispatched, hf.not_empty, ?_, ?_⟩, ?_⟩
    · intro hs
      have hs' := hf.silent hs
      exact ⟨hs'.message, hs'.close, hs'.obuf, hs'.others⟩
    · rw [hrest]
      exact ⟨0, hlive'⟩
    · intro r' hr'
      obtain rfl := Option.some.inj hr'
      exact hlive'

/-- What one call of `handle_read` leaves of a connection that held `pend`. -/
inductive AfterRead (srv : TcpServer) (s : ConnState) (pend chunk : List UInt8)
    (s' : ConnState) : Prop where
  /-- the chunk went through the parser -/
  | parsed (hne : chunk ≠ []) (hfits : pend.length + chunk.length ≤ 8388608)
      (follows : Follows srv s (refDecode srv.dispatcher.exist (pend ++ chunk)) s')
      (live : ∀ r, (refDecode srv.dispatcher.exist (pend ++ chunk)).rest = some r → Live s' 0 r)
  /-- end of stream, or more than the largest buffer holds -/
  | dropped (hdrop : chunk = [] ∨ 8388608 < pend.length + chunk.length) (cleaned : Cleaned s')
      (dispatched : s'.dispatched = s.dispatched)

/-- How one call of `handle_read` can end the process. -/
inductive ReadFault (srv : TcpServer) (s : ConnState) (pend chunk : List UInt8)
    (e : Fault) : Prop where
  | early (h : Early srv s e)
  /-- the sum of the two lengths is not an `int` -/
  | overflow (he : e = .undefined) (hover : 2147483648 ≤ pend.length + chunk.length)
  | empty (he : e = .assertion .popLength) (hne : chunk ≠ [])
      (hfits : pend.length + chunk.length ≤ 8388608)
      (hend : EndsEmpty (refDecode srv.dispatcher.exist (pend ++ chunk)))

theorem handleRead_ends (h : Live s 0 pend) (chunk : List UInt8) :
    Ends (s.handleRead srv (.chunk chunk)) (AfterRead srv s pend chunk)
      (ReadFault srv s pend chunk) := by
  have ha := h.attached
  unfold ConnState.handleRead
  apply ((TcpBuffer.readData_ends ha.inv h.held chunk).imp (fun _ hr => hr) _).bind
  · rintro ⟨p, buf, ret⟩ ⟨hk, hcase⟩
    have h₁ : Attached (s.setIbuf p buf) := ⟨hk.inv, ha.loop, ha.fd, ha.unwatched⟩
    have hsilent : Silent srv s → Silent srv (s.setIbuf p buf) := fun hs =>
      ⟨hs.message, hs.close, hs.obuf, hs.others⟩
    have hclean (hdrop : chunk = [] ∨ 8388608 < pend.length + chunk.length) :
        Ends ((s.setIbuf p buf).cleanConn srv) (AfterRead srv s pend chunk)
          (ReadFault srv s pend chunk) :=
      (cleanConn_ends h₁).imp (fun s' hs' => .dropped hdrop hs'.1 hs'.2.1)
        (fun e he => .early (he.of_silent hsilent))
    simp only at hcase ⊢
    cases hcase with
    | inr hfull =>
      obtain ⟨rfl, hfull⟩ := hfull
      rw [if_pos rfl]
      exact hclean (.inr hfull)
    | inl hread =>
      obtain ⟨rfl, hheld, hfits⟩ := hread
      rw [if_neg (by omega)]
      by_cases hnil : chunk = []
      · rw [if_pos (by simp [hnil])]
        exact hclean (.inl hnil)
      · have hpos : 0 < chunk.length := List.length_pos_iff.mpr hnil
        have h₂ : Live (s.setIbuf p buf) 0 (pend ++ chunk) := ⟨h₁, hheld hnil, h.reading⟩
        have hl := h₂.held.length
        rw [if_neg (by omega), hl, Int.toNat_natCast]
        apply ((readLoop_ends _ h₂ (Nat.lt_succ_self _)).imp (fun _ hf => hf) _).bind
        · intro s' hf
          obtain ⟨q, hq, hf', hlive⟩ := adjust_follows hf
          rw [hq, ok_bind]
          refine .parsed hnil hfits ⟨hf'.dispatched, hf'.not_empty, ?_, hf'.state⟩ hlive
          exact fun hs => hf'.silent (hsilent hs)
        · rintro e (he | ⟨he, hend⟩)
          · exact .early (he.of_silent hsilent)
          · exact .empty he hnil hfits hend
  · rintro e (⟨he, hlen⟩ | ⟨he, hover⟩)
    · refine .early ⟨.inl he, fun hs => ?_⟩
      rw [hs.obuf, hs.others] at hlen
      exact absurd hlen (by decide)
    · exact .overflow he hover

end Calls

end EasyReactor.Server
