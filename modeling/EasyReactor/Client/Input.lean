import EasyReactor.Client.Calls

set_option autoImplicit false

/-!
# Client: what `handle_read` makes of the bytes that arrive

The loop of `handle_read` takes a frame off `ibuf` only when the frame reaches the end of
what is there, or beyond.  `turn` is what its first turn makes of the bytes it finds; a
second turn only finds out that there is nothing left.
-/

namespace EasyReactor.Client

open EasyReactor.Foundation EasyReactor.Buffer EasyReactor.Loop EasyReactor.Wire

/-- What the first turn of the loop makes of the bytes in `ibuf`. -/
inductive Turn where
  | wait
  /-- the header is popped, and the connection closed -/
  | unknown
  /-- the one message that is there is dispatched -/
  | whole (m : Msg)
  /-- a message is dispatched that is not there yet -/
  | short
  deriving DecidableEq

def turn (registered : Int32 → Bool) (bs : List UInt8) : Turn :=
  if bs.length < commuHeadLength then
    .wait
  else
    let head := CommuHead.ofBytes bs
    if wrap (head.length.toInt + commuHeadLength) < bs.length then
      .wait
    else if ¬ registered head.cmdid then
      .unknown
    else if head.length.toInt + commuHeadLength = bs.length then
      .whole ⟨head.cmdid, bs.drop commuHeadLength⟩
    else
      .short

/-- A length that is not waited for with `n` bytes there announces all of them, or more. -/
theorem announced_le (length : Int32) {n : Int}
    (h : ¬ wrap (length.toInt + commuHeadLength) < n) : n ≤ length.toInt + commuHeadLength := by
  have hhead := commuHeadLength_eq
  have hlo := length.le_toInt
  have hhi := length.toInt_lt
  by_cases hover : length.toInt + commuHeadLength < 2147483648
  · rw [wrap_of_range (by omega) hover] at h
    omega
  · -- the sum overflows, and wraps to a negative value
    rw [wrap_of_overflow (by omega) (by omega)] at h
    omega

/-- A header that is not waited for, in front of `bs`. -/
structure Headed (bs : List UInt8) : Prop where
  header : commuHeadLength ≤ bs.length
  ready : ¬ wrap ((CommuHead.ofBytes bs).length.toInt + commuHeadLength) < bs.length

theorem Headed.length_le {bs : List UInt8} (h : Headed bs) :
    (bs.length : Int) ≤ (CommuHead.ofBytes bs).length.toInt + commuHeadLength :=
  announced_le _ h.ready

/-- What a turn says about the bytes. -/
inductive TurnOf (registered : Int32 → Bool) (bs : List UInt8) : Turn → Prop where
  | wait (early : bs.length < commuHeadLength ∨
      wrap ((CommuHead.ofBytes bs).length.toInt + commuHeadLength) < bs.length) :
      TurnOf registered bs .wait
  | unknown (headed : Headed bs) (unknown : registered (CommuHead.ofBytes bs).cmdid = false) :
      TurnOf registered bs .unknown
  | whole (headed : Headed bs) (known : registered (CommuHead.ofBytes bs).cmdid = true)
      (length : (CommuHead.ofBytes bs).length.toInt + commuHeadLength = bs.length) :
      TurnOf registered bs (.whole ⟨(CommuHead.ofBytes bs).cmdid, bs.drop commuHeadLength⟩)
  | short (headed : Headed bs) (known : registered (CommuHead.ofBytes bs).cmdid = true)
      (length : (bs.length : Int) < (CommuHead.ofBytes bs).length.toInt + commuHeadLength) :
      TurnOf registered bs .short

theorem turn_of (registered : Int32 → Bool) (bs : List UInt8) :
    TurnOf registered bs (turn registered bs) := by
  unfold turn
  split
  next hlen => exact .wait (.inl hlen)
  next hlen =>
    simp only
    split
    next hwait => exact .wait (.inr hwait)
    next hwait =>
      have headed : Headed bs := ⟨by omega, hwait⟩
      split
      next hreg => exact .unknown headed (by simpa using hreg)
      next hreg =>
        split
        next heq => exact .whole headed (by simpa using hreg) heq
        next heq =>
          have := headed.length_le
          exact .short headed (by simpa using hreg) (by omega)

theorem turn_eq {registered : Int32 → Bool} {bs : List UInt8} {t : Turn}
    (h : turn registered bs = t) : TurnOf registered bs t := by
  rw [← h]
  exact turn_of registered bs

/-! ## Reading -/

/-- The connection goes on: `msgs` were dispatched, and `held` is left in `ibuf`. -/
structure Kept (s s' : ClientState) (bs : List UInt8) (msgs : List Msg) (held : List UInt8) :
    Prop where
  sockfd : s'.sockfd = s.sockfd
  session : s'.session = { s.session with
    reads := s.session.reads ++ [bs]
    dispatched := s.session.dispatched ++ msgs }
  past : s'.past = s.past
  held : Window s'.ibuf 0 held
  capacity : s'.ibuf.capacity = s.ibuf.capacity
  output : Extends s s'
  up : Up s'
  drained : Drained s → Drained s'
  reading : Reads s → Reads s'

/-- A client whose `read` returned `bs`, before the loop of `handle_read`. -/
def ClientState.filled (s : ClientState) (bs : List UInt8) : ClientState :=
  { s with
    ibuf := { s.ibuf with length := wrap (s.ibuf.length + bs.length) }
    session := { s.session with reads := s.session.reads ++ [bs] } }

theorem Up.filled {s : ClientState} (h : Up s) (bs : List UInt8) : Up (s.filled bs) :=
  h.congr rfl rfl rfl rfl

theorem received_eq (cli : TcpClient) (s : ClientState) (bs : List UInt8) (c : Connect) :
    s.received cli bs c = (do
      let (t, cleaned) ←
        ClientState.readLoop cli c ((s.filled bs).ibuf.length.toNat + 1) (s.filled bs)
      if cleaned then
        return t
      else
        let ibuf ← t.ibuf.adjust
        return { t with ibuf := ibuf }) := rfl

/-- What one `handle_read` that read `bs` does with the bytes `all` it then finds. -/
inductive AfterRead (cli : TcpClient) (s : ClientState) (bs all : List UInt8) :
    ClientState → Prop where
  | waits {s' : ClientState} (turn : turn cli.dispatcher.exist all = .wait)
      (kept : Kept s s' bs [] all) : AfterRead cli s bs all s'
  | whole {s' : ClientState} {m : Msg} (turn : turn cli.dispatcher.exist all = .whole m)
      (kept : Kept s s' bs [m] []) : AfterRead cli s bs all s'
  | dropped {s' : ClientState} {ibuf : IoBuffer} (turn : turn cli.dispatcher.exist all = .unknown)
      (renewed : Renewed { s with
        ibuf := ibuf
        session := { s.session with reads := s.session.reads ++ [bs] } } s') :
      AfterRead cli s bs all s'

/-- The faults of a `handle_read` that finds the bytes `all`. -/
inductive ReadFault (cli : TcpClient) (all : List UInt8) (e : Fault) : Prop where
  | exit (turn : turn cli.dispatcher.exist all = .unknown) (fault : e = .exit)
  | overflow (fault : Overflow cli e)
  | short (turn : turn cli.dispatcher.exist all = .short)

section

variable {cli : TcpClient} {s : ClientState} {pending bs all : List UInt8}

/-- A turn that finds less than a header is the last one. -/
theorem readLoop_idle (cli : TcpClient) (c : Connect) (fuel : Nat)
    (h : s.ibuf.length < commuHeadLength) :
    ClientState.readLoop cli c (fuel + 1) s = .ok (s, false) := by
  unfold ClientState.readLoop
  rw [if_neg (by omega)]
  rfl

theorem Called.kept {t s' : ClientState} {msgs : List Msg} {held : List UInt8} {x y : IoBuffer}
    (h : Called { s with
      ibuf := y
      session := { s.session with
        reads := s.session.reads ++ [bs]
        dispatched := s.session.dispatched ++ msgs } } t)
    (hup : Up s) (hs : s' = { t with ibuf := x }) (w : Window x 0 held)
    (hcap : x.capacity = s.ibuf.capacity) : Kept s s' bs msgs held := by
  subst hs
  have hup' := h.up (hup.congr rfl rfl rfl rfl)
  exact ⟨h.sockfd, h.session, h.past, w, hcap, h.output,
    hup'.congr rfl rfl rfl rfl, h.drained, h.reading⟩

/-- What the first turn does with a header that is not waited for. -/
theorem readLoop_headed (w : Window s.ibuf 0 all) (h : Headed all) (c : Connect) (fuel : Nat) :
    ClientState.readLoop cli c (fuel + 1) s =
      (if ¬ cli.dispatcher.exist (CommuHead.ofBytes all).cmdid then do
        let s ← { s with ibuf := s.ibuf.pop commuHeadLength }.cleanConn cli c
        return (s, true)
      else do
        let s ← { s with ibuf := s.ibuf.pop commuHeadLength }.dispatch cli (CommuHead.ofBytes all)
        ClientState.readLoop cli c fuel
          { s with ibuf := s.ibuf.pop (CommuHead.ofBytes all).length.toInt }) := by
  have hhead := h.header
  have hready := h.ready
  rw [← w.length] at hready
  rw [ClientState.readLoop, if_pos (by rw [w.length]; omega), w.load_front hhead, ok_bind,
    CommuHead.ofBytes_take hhead, if_neg hready]

/-- The loop waits with what it found. -/
theorem readLoop_wait (w : Window s.ibuf 0 all)
    (h : all.length < commuHeadLength ∨
      wrap ((CommuHead.ofBytes all).length.toInt + commuHeadLength) < all.length)
    (c : Connect) (fuel : Nat) :
    ClientState.readLoop cli c (fuel + 1) s = .ok (s, false) := by
  have hl := w.length
  by_cases hlen : all.length < commuHeadLength
  · exact readLoop_idle cli c fuel (by omega)
  · have hwait := h.resolve_left hlen
    rw [← hl] at hwait
    rw [ClientState.readLoop, if_pos (by omega), w.load_front (by omega), ok_bind,
      CommuHead.ofBytes_take (by omega), if_pos hwait]
    rfl

/-- The callback of a frame that lies in the memory of `ibuf`. -/
theorem dispatch_ends (w : Pending s pending) {head : CommuHead}
    (hreg : cli.dispatcher.exist head.cmdid = true) :
    Ends (s.dispatch cli head)
      (fun s' => ∃ body, s.ibuf.load s.ibuf.head head.length.toInt = .ok body ∧
        Called { s with session := { s.session with
          dispatched := s.session.dispatched ++ [⟨head.cmdid, body⟩] } } s')
      (fun e => s.ibuf.load s.ibuf.head head.length.toInt = .error e ∨ Overflow cli e) := by
  unfold ClientState.dispatch
  cases hload : s.ibuf.load s.ibuf.head head.length.toInt with
  | error e => exact .inl rfl
  | ok body =>
    obtain ⟨func, usrData, hcb, hlookup⟩ := MsgDispatcher.cb_eq hreg
    rw [ok_bind, hcb, ok_bind]
    have w' : Pending { s with session := { s.session with
        dispatched := s.session.dispatched ++ [⟨head.cmdid, body⟩] } } pending := w
    apply (callback_ends w' _).imp
    · exact fun s' hc => ⟨body, rfl, hc⟩
    · rintro e ⟨he, m, hm, hbig⟩
      refine .inr ⟨he, fun hmodest => ?_⟩
      have := hmodest.message _ _ hlookup _ _ m hm
      omega

/-- The two pops of a frame that is there leave nothing. -/
theorem pop_whole {x : IoBuffer} (w : Window x 0 all) (hhead : commuHeadLength ≤ all.length)
    {n : Int}
    (hn : n + commuHeadLength = all.length) :
    (x.pop commuHeadLength).load (x.pop commuHeadLength).head n =
        .ok (all.drop commuHeadLength) ∧
      Window ((x.pop commuHeadLength).pop n) all.length [] := by
  have hlen : (all.drop commuHeadLength).length = all.length - commuHeadLength := List.length_drop
  have w₁ := w.pop hhead
  obtain rfl : n = ((all.drop commuHeadLength).length : Nat) := by omega
  refine ⟨?_, ?_⟩
  · rw [w₁.load_front (Nat.le_refl _), List.take_length]
  · have w₂ := w₁.pop (Nat.le_refl _)
    rw [List.drop_length, Nat.zero_add, hlen, Nat.add_sub_cancel' hhead] at w₂
    rw [hlen]
    exact w₂

/-- The two pops of a frame that is not there leave a length below zero. -/
theorem pop_short {x : IoBuffer} (w : Window x 0 all) (hhead : commuHeadLength ≤ all.length)
    {n : Int} (hn : all.length < n + commuHeadLength) (hcap : n + commuHeadLength ≤ x.capacity) :
    ((x.pop commuHeadLength).pop n).head ≠ 0 ∧ ((x.pop commuHeadLength).pop n).length < 0 := by
  have heq := commuHeadLength_eq
  have hsmall := w.small
  have w₁ := w.pop hhead
  have hlen : (all.drop commuHeadLength).length = all.length - commuHeadLength := List.length_drop
  refine ⟨?_, ?_⟩
  · change wrap ((x.pop commuHeadLength).head + n) ≠ 0
    rw [w₁.head, wrap_of_range (by omega) (by omega)]
    omega
  · change wrap ((x.pop commuHeadLength).length - n) < 0
    rw [w₁.length, hlen, wrap_of_range (by omega) (by omega)]
    omega

/-- What the loop of `handle_read` leaves when it starts with the bytes `all`. -/
inductive LoopEnd (cli : TcpClient) (s : ClientState) (all : List UInt8) :
    ClientState × Bool → Prop where
  | waits (turn : turn cli.dispatcher.exist all = .wait) : LoopEnd cli s all (s, false)
  | whole {t : ClientState} {m : Msg} {x : IoBuffer}
      (turn : turn cli.dispatcher.exist all = .whole m)
      (called : Called { s with
        ibuf := s.ibuf.pop commuHeadLength
        session := { s.session with dispatched := s.session.dispatched ++ [m] } } t)
      (empty : Window x all.length []) (capacity : x.capacity = s.ibuf.capacity) :
      LoopEnd cli s all ({ t with ibuf := x }, false)
  | dropped {t : ClientState} {x : IoBuffer} (turn : turn cli.dispatcher.exist all = .unknown)
      (renewed : Renewed { s with ibuf := x } t) : LoopEnd cli s all (t, true)
  | short {t : ClientState} (turn : turn cli.dispatcher.exist all = .short)
      (head : t.ibuf.head ≠ 0) (length : t.ibuf.length < 0) : LoopEnd cli s all (t, false)

/-- A frame that is there is dispatched, and nothing is left for a second turn. -/
theorem readLoop_whole (hpend : Pending s pending) (w : Window s.ibuf 0 all) {m : Msg}
    (hturn : turn cli.dispatcher.exist all = .whole m) (c : Connect) (fuel : Nat) :
    Ends (ClientState.readLoop cli c (fuel + 2) s) (LoopEnd cli s all) (ReadFault cli all) := by
  cases turn_eq hturn with
  | whole headed known length =>
    have hhead := commuHeadLength_eq
    obtain ⟨hload, w₂⟩ := pop_whole w headed.header length
    have hdispatch :=
      dispatch_ends (s := { s with ibuf := s.ibuf.pop commuHeadLength }) hpend known
    simp only [hload] at hdispatch
    rw [readLoop_headed w headed, if_neg (by simp [known])]
    apply (hdispatch.imp (fun _ hs => hs) _).bind
    · rintro t ⟨body, hbody, hcall⟩
      obtain rfl := Except.ok.inj hbody
      have hibuf : t.ibuf = s.ibuf.pop commuHeadLength := hcall.ibuf
      rw [← hibuf] at w₂
      have hz := w₂.length
      rw [readLoop_idle cli c fuel (by simp only [hz, List.length_nil]; omega)]
      refine .whole hturn hcall w₂ ?_
      rw [IoBuffer.pop_capacity, hibuf, IoBuffer.pop_capacity]
    · intro e he
      cases he with
      | inl he => cases he
      | inr he => exact .overflow he

/-- The pops of a frame that is not all there leave a length below zero. -/
theorem readLoop_short (hpend : Pending s pending) (w : Window s.ibuf 0 all)
    (hturn : turn cli.dispatcher.exist all = .short) (c : Connect) (fuel : Nat) :
    Ends (ClientState.readLoop cli c (fuel + 2) s) (LoopEnd cli s all) (ReadFault cli all) := by
  cases turn_eq hturn with
  | short headed known length =>
    have hhead := commuHeadLength_eq
    have hlen := headed.header
    have hdispatch :=
      dispatch_ends (s := { s with ibuf := s.ibuf.pop commuHeadLength }) hpend known
    rw [readLoop_headed w headed, if_neg (by simp [known])]
    apply (hdispatch.imp (fun _ hs => hs) (fun _ _ => .short hturn)).bind
    rintro t ⟨body, hbody, hcall⟩
    have hibuf : t.ibuf = s.ibuf.pop commuHeadLength := hcall.ibuf
    -- the callback was given the body, so the announced frame fits the memory of `ibuf`
    have hbounds := (IoBuffer.load_bounds hbody).2.2
    simp only [IoBuffer.pop_capacity] at hbounds
    have hhead₁ := (w.pop hlen).head
    obtain ⟨hne, hneg⟩ := pop_short w hlen length (by omega)
    rw [← hibuf] at hne hneg
    rw [readLoop_idle cli c fuel (by simp only; omega)]
    exact .short hturn hne hneg

/-- The loop of `handle_read`, whatever its first turn finds. -/
theorem readLoop_ends (hup : Up s) (hpend : Pending s pending) (w : Window s.ibuf 0 all)
    (c : Connect) {fuel : Nat} (hfuel : all.length < fuel) :
    Ends (ClientState.readLoop cli c fuel s) (LoopEnd cli s all) (ReadFault cli all) := by
  have hhead := commuHeadLength_eq
  obtain ⟨fuel, rfl⟩ := Nat.exists_eq_succ_of_ne_zero (Nat.ne_zero_of_lt hfuel)
  -- a header that is there leaves fuel for a second turn
  have hsecond : Headed all → ∃ k, fuel + 1 = k + 2 := by
    intro headed
    have hlen := headed.header
    exact ⟨fuel - 1, by omega⟩
  cases hturn : turn cli.dispatcher.exist all with
  | wait =>
    cases turn_eq hturn with
    | wait early =>
      rw [readLoop_wait w early]
      exact .waits hturn
  | unknown =>
    cases turn_eq hturn with
    | unknown headed unknown =>
      rw [readLoop_headed w headed, if_pos (by simp [unknown])]
      have hup₁ : Up { s with ibuf := s.ibuf.pop commuHeadLength } := hup.congr rfl rfl rfl rfl
      apply ((cleanConn_ends hup₁ hpend c).imp (fun _ hs => hs) _).bind
      · exact fun t hr => .dropped hturn hr
      · intro e he
        cases he with
        | inl he => exact .exit hturn he
        | inr he => exact .overflow he
  | whole m =>
    cases turn_eq hturn with
    | whole headed =>
      obtain ⟨k, hk⟩ := hsecond headed
      rw [Nat.succ_eq_add_one, hk]
      exact readLoop_whole hpend w hturn c k
  | short =>
    cases turn_eq hturn with
    | short headed =>
      obtain ⟨k, hk⟩ := hsecond headed
      rw [Nat.succ_eq_add_one, hk]
      exact readLoop_short hpend w hturn c k

/-- One `handle_read` that read `bs` and then finds the bytes `all`. -/
theorem received_ends (hup : Up s) (hpend : Pending s pending)
    (w : Window { s.ibuf with length := wrap (s.ibuf.length + bs.length) } 0 all) (c : Connect) :
    Ends (s.received cli bs c) (AfterRead cli s bs all) (ReadFault cli all) := by
  have w₀ : Window (s.filled bs).ibuf 0 all := w
  have hl := w₀.length
  rw [received_eq]
  apply (readLoop_ends (hup.filled bs) hpend w₀ c (by omega)).bind
  rintro _ (⟨hturn⟩ | ⟨hturn, hcall, wx, hcap⟩ | ⟨hturn, hr⟩ | ⟨hturn, hne, hneg⟩)
  · obtain ⟨x, hx, wx⟩ := w₀.adjust
    simp only
    rw [if_neg (by simp), hx, ok_bind]
    refine .waits hturn (Called.kept (t := s.filled bs) (y := (s.filled bs).ibuf) ?_ hup rfl wx ?_)
    · rw [List.append_nil]
      exact .refl _
    · exact (IoBuffer.adjust_capacity hx).trans rfl
  · obtain ⟨y, hy, wy⟩ := wx.adjust
    simp only
    rw [if_neg (by simp), hy, ok_bind]
    refine .whole hturn
      (Called.kept (y := (s.filled bs).ibuf.pop commuHeadLength) hcall hup rfl wy ?_)
    exact (IoBuffer.adjust_capacity hy).trans hcap
  · simp only
    rw [if_pos trivial]
    exact .dropped hturn hr
  · simp only
    rw [if_neg (by simp), IoBuffer.adjust_negative hne hneg]
    exact .short hturn

/-- What one `handle_read` of a connected client that holds `held` can do. -/
inductive Handled (cli : TcpClient) (s : ClientState) (held : List UInt8) (r : Recv) :
    ClientState → Prop where
  /-- `ioctl` failed -/
  | ignored (fionread : r.fionread = none) : Handled cli s held r s
  | ended {s' : ClientState} {ibuf : IoBuffer} (fionread : r.fionread ≠ none)
      (read : r.read = .bytes [] ∨ r.read = .error) (kept : Window ibuf 0 held)
      (renewed : Renewed { s with ibuf := ibuf } s') : Handled cli s held r s'
  | read {s' : ClientState} (bs : List UInt8) (fionread : r.fionread ≠ none)
      (read : r.read = .bytes bs) (nonempty : bs ≠ [])
      (fits : (held.length : Int) + bs.length ≤ s.ibuf.capacity)
      (after : AfterRead cli s bs (held ++ bs) s') : Handled cli s held r s'

theorem AfterRead.congr {x : IoBuffer} {s' : ClientState}
    (h : AfterRead cli { s with ibuf := x } bs all s') (hcap : x.capacity = s.ibuf.capacity) :
    AfterRead cli s bs all s' := by
  cases h with
  | waits hturn k =>
    exact .waits hturn ⟨k.sockfd, k.session, k.past, k.held, k.capacity.trans hcap, k.output, k.up,
      k.drained, k.reading⟩
  | whole hturn k =>
    exact .whole hturn ⟨k.sockfd, k.session, k.past, k.held, k.capacity.trans hcap, k.output, k.up,
      k.drained, k.reading⟩
  | dropped hturn hr => exact .dropped hturn hr

theorem chunk_inj {fionread : Option Int} {read : ReadResult} {bs : List UInt8}
    (h : (⟨fionread, read⟩ : Recv) = .chunk bs) : fionread = some ↑bs.length ∧ read = .bytes bs :=
  Recv.mk.inj h

/-- A `handle_read` on a connected client. -/
theorem handleRead_ends (hup : Up s) (hpend : Pending s pending) {held : List UInt8}
    (w : Window s.ibuf 0 held) (r : Recv) (c : Connect) :
    Ends (s.handleRead cli r c) (Handled cli s held r)
      (fun e => ∀ bs, r = .chunk bs → bs ≠ [] →
        (held.length : Int) + bs.length ≤ s.ibuf.capacity → ReadFault cli (held ++ bs) e) := by
  have hfits := w.fits
  have hsmall := w.small
  have hl := w.length
  have hup' : ∀ x, Up { s with ibuf := x } := fun _ =>
    hup.congr rfl rfl rfl rfl
  obtain ⟨fionread, read⟩ := r
  unfold ClientState.handleRead
  rw [if_neg (by simp [hup.netOk])]
  cases fionread with
  | none => exact .ignored rfl
  | some rn =>
    simp only
    split
    next hspace =>
      cases read with
      | eagain =>
        intro bs heq
        cases (chunk_inj heq).2
      | error =>
        apply (cleanConn_ends hup hpend c).imp
        · exact fun s' hr => .ended (by simp) (.inr rfl) w hr
        · intro e _ bs heq
          cases (chunk_inj heq).2
      | bytes bs =>
        simp only
        apply ((w.append_ends bs).imp (fun _ hx => hx) (fun _ he bs' heq _ hfit => by
          obtain rfl := ReadResult.bytes.inj (chunk_inj heq).2
          omega)).bind_eq (fun _ he => he)
        rintro x hx ⟨wx, hfit⟩
        split
        next hnil =>
          subst hnil
          apply (cleanConn_ends (hup' x) hpend c).imp
          · exact fun s' hr => .ended (by simp) (.inl rfl) (w.save_nil hx) hr
          · intro e _ bs' heq hne
            obtain rfl := ReadResult.bytes.inj (chunk_inj heq).2
            exact absurd rfl hne
        next hne =>
          split
          next hlen =>
            apply (received_ends (hup' x) hpend wx c).imp
            · exact fun s' ha =>
                .read bs (by simp) rfl hne hfit (ha.congr (IoBuffer.save_capacity hx))
            · intro e he bs' heq _ _
              obtain rfl := ReadResult.bytes.inj (chunk_inj heq).2
              exact he
          next hlen =>
            intro bs' heq
            obtain rfl := ReadResult.bytes.inj (chunk_inj heq).2
            exact absurd (Option.some.inj (chunk_inj heq).1).symm hlen
    next hspace =>
      intro bs heq _ hfit
      obtain rfl := Option.some.inj (chunk_inj heq).1
      rw [hl, wrap_of_range (by omega) (by omega)] at hspace
      omega

end

end EasyReactor.Client
