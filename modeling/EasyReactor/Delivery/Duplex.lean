import EasyReactor.Client.Decoding
import EasyReactor.Delivery.EndToEnd

set_option autoImplicit false

/-!
# Delivery: both directions of a client's connection

While messages go out of `obuf`, the bytes of the other direction come into `ibuf`.  A chunk
is heard when the connection outlives it: the loop of `handle_read` waits, or dispatches the
one message that is there.  `Conversing` is what holds of a client whose chunks are all heard.
-/

namespace EasyReactor.Delivery

open EasyReactor.Foundation EasyReactor.Buffer EasyReactor.Loop EasyReactor.Wire
open EasyReactor.Client

/-- The bytes in `ibuf`. -/
def unread (s : ClientState) : List UInt8 := slice s.ibuf.data s.ibuf.head.toNat s.ibuf.length.toNat

/-- A client that finds `bs` behind what it has in `ibuf` does not close the connection. -/
def Hears (cli : TcpClient) (s : ClientState) (bs : List UInt8) : Prop :=
  turn cli.dispatcher.exist (unread s ++ bs) ≠ .unknown

instance (cli : TcpClient) (s : ClientState) (bs : List UInt8) : Decidable (Hears cli s bs) :=
  inferInstanceAs (Decidable (_ ≠ _))

/-- Whatever a callback of the client sends, `D` is true of it. -/
structure Utters (cli : TcpClient) (D : Msg → Prop) : Prop where
  message : ∀ cmdid func, cli.dispatcher.dispatcher.lookup cmdid = some func →
    ∀ s usrData, ∀ m ∈ func s usrData, D m
  connection : ∀ f, cli.onConnection = some f → ∀ s args, ∀ m ∈ f s args, D m
  close : ∀ f, cli.onClose = some f → ∀ s args, ∀ m ∈ f s args, D m

/-- The bytes read are the frames of the messages dispatched, and what `ibuf` holds. -/
def Hearing (s : ClientState) : Prop :=
  ∃ held, Window s.ibuf 0 held ∧ s.session.reads.flatten = frames s.session.dispatched ++ held

/-- The client's end of a connection: `arrived` is what the server has read of it. -/
structure Conversing (D : Msg → Prop) (arrived : List UInt8) (s : ClientState) : Prop where
  phase : Phase s
  outgoing : Outgoing D arrived s
  hearing : Hearing s
  capacity : s.ibuf.capacity = 4194304

/-- Nothing came in. -/
structure Deaf (s s' : ClientState) : Prop where
  ibuf : s'.ibuf = s.ibuf
  reads : s'.session.reads = s.session.reads
  dispatched : s'.session.dispatched = s.session.dispatched

section

variable {cli : TcpClient} {D : Msg → Prop} {arrived bs : List UInt8} {s s' s'' : ClientState}

theorem Deaf.refl (s : ClientState) : Deaf s s := ⟨rfl, rfl, rfl⟩

theorem Deaf.of_session (hibuf : s'.ibuf = s.ibuf) (hsession : s'.session = s.session) :
    Deaf s s' :=
  ⟨hibuf, congrArg Session.reads hsession, congrArg Session.dispatched hsession⟩

theorem Deaf.hearing (h : Deaf s s') (hs : Hearing s) : Hearing s' := by
  obtain ⟨held, w, hsum⟩ := hs
  refine ⟨held, ?_, ?_⟩
  · rw [h.ibuf]
    exact w
  · rw [h.reads, h.dispatched]
    exact hsum

theorem unread_eq {held : List UInt8} (w : Window s.ibuf 0 held) : unread s = held := by
  unfold unread
  rw [w.head, w.length]
  exact w.bytes

/-! ## What the client's callbacks send -/

theorem cleanConn_accepts (hcli : Utters cli D) (h : Accepts D s) (c : Connect) :
    Ends (s.cleanConn cli c) (Accepts D) (fun _ => True) := by
  have hclosed : Accepts D
      { (if s.sockfd ≠ -1 then { s with evs := s.evs.delIoev s.sockfd }.closeSockfd else s) with
        netOk := false } := by
    split
    · exact h
    · exact h
  unfold ClientState.cleanConn
  simp only
  generalize (if s.sockfd ≠ -1 then { s with evs := s.evs.delIoev s.sockfd }.closeSockfd else s) =
    t at hclosed
  unfold ClientState.callOnclose
  apply (callIf_accepts hclosed cli.onClose cli.onCloseArgs hcli.close).bind
  intro s₁ h₁
  exact doConnect_accepts h₁ c hcli.connection

theorem dispatch_accepts (hcli : Utters cli D) (h : Accepts D s) (head : CommuHead) :
    Ends (s.dispatch cli head) (Accepts D) (fun _ => True) := by
  unfold ClientState.dispatch
  apply (Ends.any _).bind
  rintro body -
  cases hcb : cli.dispatcher.cb head.cmdid with
  | error e => trivial
  | ok r =>
    obtain ⟨func, usrData⟩ := r
    have hlookup : cli.dispatcher.dispatcher.lookup head.cmdid = some func := by
      unfold MsgDispatcher.cb at hcb
      split at hcb
      next => cases hcb
      next func' hfunc' =>
        obtain ⟨rfl, -⟩ := Prod.mk.inj (Except.ok.inj hcb)
        exact hfunc'
    rw [ok_bind]
    have h₁ : Accepts D { s with session := { s.session with
        dispatched := s.session.dispatched ++ [⟨head.cmdid, body⟩] } } := h
    exact callIf_accepts h₁ (some fun s _ => func s usrData) none fun f hf t args m hm => by
      obtain rfl := Option.some.inj hf
      exact hcli.message _ _ hlookup t usrData m hm

theorem readLoop_accepts (hcli : Utters cli D) (c : Connect) (fuel : Nat) (h : Accepts D s) :
    Ends (ClientState.readLoop cli c fuel s) (fun r => Accepts D r.1) (fun _ => True) := by
  induction fuel generalizing s with
  | zero => trivial
  | succ fuel ih =>
    unfold ClientState.readLoop
    split
    · apply (Ends.any _).bind
      rintro bytes -
      simp only
      split
      · exact h
      · split
        · exact (cleanConn_accepts hcli (s := { s with ibuf := s.ibuf.pop commuHeadLength }) h
            c).bind fun _ h₁ => h₁
        · apply (dispatch_accepts hcli (s := { s with ibuf := s.ibuf.pop commuHeadLength }) h
            _).bind
          intro s₁ h₁
          exact ih h₁
    · exact h

theorem handleRead_accepts (hcli : Utters cli D) (h : Accepts D s) (r : Recv) (c : Connect) :
    Ends (s.handleRead cli r c) (Accepts D) (fun _ => True) := by
  unfold ClientState.handleRead
  split
  · trivial
  · split
    · exact h
    · split
      · split
        · apply (Ends.any _).bind
          rintro ibuf -
          have h₁ : Accepts D { s with ibuf := ibuf } := h
          simp only
          split
          · exact cleanConn_accepts hcli h₁ c
          · split
            · unfold ClientState.received
              simp only
              apply (readLoop_accepts hcli c _ _).bind
              · rintro ⟨s₂, cleaned⟩ h₂
                simp only
                split
                · exact h₂
                · apply (Ends.any _).bind
                  rintro x -
                  exact h₂
              · exact h₁
            · trivial
        · trivial
        · exact cleanConn_accepts hcli h c
      · trivial

/-! ## One event -/

/-- What comes in is as it was. -/
theorem Conversing.deaf (h : Conversing D arrived s) (hphase : Phase s')
    (hout : Outgoing D arrived s') (hdeaf : Deaf s s') : Conversing D arrived s' := by
  refine ⟨hphase, hout, hdeaf.hearing h.hearing, ?_⟩
  rw [hdeaf.ibuf]
  exact h.capacity

/-- A call of `send_data`. -/
theorem Conversing.send (h : Conversing D arrived s) {m : Msg} (hm : D m)
    (hbody : m.body.length < 2147483640) :
    Ends (s.step cli (.sendData m)) (fun s' => Conversing D arrived s' ∧ Deaf s s')
      (fun _ => False) := by
  obtain ⟨pending, w, -⟩ := h.outgoing.queued
  apply ((h.outgoing.send h.phase hm hbody).and (send_ends w m)).imp _ (fun _ he => he.1)
  rintro s' ⟨⟨hphase, hout⟩, hs⟩
  have hc := hs.called w
  have hdeaf := Deaf.of_session hc.ibuf hc.session
  exact ⟨h.deaf hphase hout hdeaf, hdeaf⟩

/-- `handle_write` does not touch the input. -/
theorem handleWrite_deaf (hup : Up s) {pending : List UInt8} (w : Pending s pending)
    {ws : List WriteResult} (hwrites : .error ∉ ws) (c : Connect) :
    Ends (s.handleWrite cli ws c) (Deaf s) (fun _ => True) := by
  apply (handleWrite_ends (P := Deaf s) (Q := Deaf s) (E := fun _ => False) hup (.refl s) w
    _ (fun _ _ hE => hE.elim) _ ws c _).imp (fun _ hs => hs.2) (fun _ _ => trivial)
  · exact fun ht _ _ => ⟨ht.ibuf, ht.reads, ht.dispatched⟩
  · exact fun ht => ⟨ht.ibuf, ht.reads, ht.dispatched⟩
  · intro left hleft
    rw [errorLeft_eq_none hwrites] at hleft
    cases hleft

/-- The end of `connect`, if it is still in progress, or a `handle_write`. -/
theorem Conversing.writable (h : Conversing D arrived s) (hcli : Utters cli D) {sys : SysCalls}
    (hwrites : .error ∉ sys.writes) :
    Ends (s.step cli (.io .output sys)) (fun s' => Conversing D arrived s' ∧ Deaf s s')
      (fun e => ∃ g, e = .callback g) := by
  have hdeaf : Ends (s.step cli (.io .output sys)) (Deaf s) (fun _ => True) := by
    obtain ⟨pending, w, -⟩ := h.outgoing.queued
    unfold ClientState.step
    simp only
    cases hev : s.evs.processEv s.sockfd .output with
    | none => exact .refl s
    | some cb =>
      simp only
      cases h.phase with
      | waiting hwait =>
        rw [hwait.bare.processEv] at hev
        cases hev
      | connecting hconn =>
        obtain rfl : cb = .connectionCb := by
          cases hconn.listens.processEv hev with
          | inl hread => cases hread
          | inr hcb => exact (Option.some.inj hcb).symm
        apply (connectionCb_ends hconn w sys.soError).imp _ (fun _ _ => trivial)
        rintro s' (⟨-, hs⟩ | ⟨-, -, rfl⟩)
        · exact .of_session hs.ibuf hs.session
        · exact .of_session rfl rfl
      | connected hup hdrained =>
        simp only [EventLoop.processEv] at hev
        split at hev
        next hwatch =>
          obtain rfl := Option.some.inj (hup.listens.write cb hev)
          exact handleWrite_deaf hup w hwrites sys.connect
        next => cases hev
  apply ((h.outgoing.writable h.phase sys hcli.connection hwrites).and_post hdeaf).imp _
    (fun _ he => he)
  rintro s' ⟨⟨hphase, hout⟩, hd⟩
  exact ⟨h.deaf hphase hout hd, hd⟩

/-- What a chunk that is heard does: nothing yet while `connect` is in progress; else it is
read, and dispatches the message that it completes. -/
inductive Heard (cli : TcpClient) (s : ClientState) (bs : List UInt8) : ClientState → Prop where
  | early : Heard cli s bs s
  | waits {s' : ClientState} (reads : s'.session.reads = s.session.reads ++ [bs])
      (dispatched : s'.session.dispatched = s.session.dispatched) : Heard cli s bs s'
  | message {s' : ClientState} (m : Msg)
      (turn : turn cli.dispatcher.exist (unread s ++ bs) = .whole m)
      (reads : s'.session.reads = s.session.reads ++ [bs])
      (dispatched : s'.session.dispatched = s.session.dispatched ++ [m]) : Heard cli s bs s'

/-- The frame of a message that is all there is everything that is there. -/
theorem turn_whole_frame {registered : Int32 → Bool} {all : List UInt8} {m : Msg}
    (h : turn registered all = .whole m) : all = m.frame := by
  cases turn_eq h with
  | whole headed known length =>
    have hhead := headed.header
    have hdrop : (all.drop commuHeadLength).length = all.length - commuHeadLength :=
      List.length_drop
    have hmhead : (Msg.mk (CommuHead.ofBytes all).cmdid (all.drop commuHeadLength)).head =
        CommuHead.ofBytes all := by
      unfold Msg.head
      have hlen : Int32.ofInt (all.drop commuHeadLength).length =
          (CommuHead.ofBytes all).length := by
        rw [hdrop, show ((all.length - commuHeadLength : Nat) : Int) =
          (CommuHead.ofBytes all).length.toInt by omega, Int32.ofInt_toInt]
      simp only [hlen]
    unfold Msg.frame
    rw [hmhead, CommuHead.bytes_ofBytes hhead]
    exact (List.take_append_drop commuHeadLength all).symm

/-- A chunk of the other direction arrives, and is heard. -/
theorem Conversing.hears (h : Conversing D arrived s) (hcli : Utters cli D) (hne : bs ≠ [])
    (hhears : Hears cli s bs) (sys : SysCalls) :
    Ends (s.step cli (arrival sys bs)) (fun s' => Conversing D arrived s' ∧ Heard cli s bs s')
      (fun _ => True) := by
  obtain ⟨pending, w, -⟩ := h.outgoing.queued
  obtain ⟨held, wheld, hsum⟩ := h.hearing
  have hunread := unread_eq wheld
  unfold ClientState.step arrival
  simp only
  cases hev : s.evs.processEv s.sockfd .input with
  | none => exact ⟨h, .early⟩
  | some cb =>
    simp only
    cases h.phase with
    | waiting hwait =>
      rw [hwait.bare.processEv] at hev
      cases hev
    | connecting hconn =>
      simp only [EventLoop.processEv] at hev
      split at hev
      next => cases hconn.listens.read cb hev
      next => cases hev
    | connected hup hdrained =>
      obtain rfl : cb = .readCb := by
        simp only [EventLoop.processEv] at hev
        split at hev
        next => exact (Option.some.inj (hup.listens.read cb hev)).symm
        next => cases hev
      apply ((handleRead_ends hup w wheld (.chunk bs) sys.connect).and
        (handleRead_accepts hcli h.outgoing.accepts (.chunk bs) sys.connect)).imp _
          (fun _ _ => trivial)
      rintro s' ⟨hs, hacc⟩
      have hkept : ∀ {msgs held'}, Kept s s' bs msgs held' →
          frames msgs ++ held' = held ++ bs → Conversing D arrived s' := by
        intro msgs held' hk hframes
        refine ⟨.connected hk.up (hk.drained hdrained), ?_, ⟨held', hk.held, ?_⟩,
          hk.capacity.trans h.capacity⟩
        · obtain ⟨more, hmore, hpend⟩ := hk.output
          obtain ⟨pending', w', hq⟩ := h.outgoing.queued
          refine ⟨hacc, ⟨pending' ++ frames more, hpend _ w', ?_⟩, ?_⟩
          · rw [hk.session, hmore, frames_append, ← hq, List.append_assoc]
          · rw [hk.session]
            exact h.outgoing.arrived
        · rw [hk.session]
          simp only [List.flatten_append, List.flatten_cons, List.flatten_nil, List.append_nil,
            frames_append, List.append_assoc, hsum, hframes]
      rw [Hears, hunread] at hhears
      cases hs with
      | ignored fionread => cases fionread
      | ended _ read _ _ =>
        cases read with
        | inl hnil => exact absurd (ReadResult.bytes.inj hnil) hne
        | inr herr => cases herr
      | read bs' _ read _ _ after =>
        obtain rfl := ReadResult.bytes.inj read
        cases after with
        | dropped hturn _ => exact absurd hturn hhears
        | waits hturn hk =>
          refine ⟨hkept hk rfl, .waits ?_ ?_⟩
          · rw [hk.session]
          · rw [hk.session]
            exact List.append_nil _
        | @whole m hturn hk =>
          refine ⟨hkept hk ?_, .message m ?_ ?_ ?_⟩
          · rw [turn_whole_frame hturn]
            simp
          · rw [hunread]
            exact hturn
          · rw [hk.session]
          · rw [hk.session]

/-- The first messages of a stream of frames were dispatched: the next chunk begins with the
header of the next one. -/
theorem turn_ne_unknown (registered : Int32 → Bool) {ms done : List Msg} {all : List UInt8}
    (hms : ∀ m ∈ ms, m.Sendable registered) (hdone : done <+: ms)
    (hpre : frames done ++ all <+: frames ms) : turn registered all ≠ .unknown := by
  obtain ⟨todo, rfl⟩ := hdone
  rw [frames_append, List.prefix_append_right_inj] at hpre
  obtain ⟨rest, hrest⟩ := hpre
  intro hturn
  cases turn_eq hturn with
  | unknown headed hunknown =>
    have hlen := headed.header
    cases todo with
    | nil =>
      have hcat := congrArg List.length hrest
      rw [List.length_append, frames_nil, List.length_nil, commuHeadLength_eq] at *
      omega
    | cons m todo =>
      have hm : m.Sendable registered := hms m (by simp)
      rw [head_of_frames hrest hlen] at hunknown
      cases hunknown.symm.trans hm.registered

/-- The next chunk completes a message: it is the next one of the stream. -/
theorem next_of_turn (registered : Int32 → Bool) {ms done : List Msg} {all : List UInt8} {m : Msg}
    (hms : ∀ m ∈ ms, m.Sendable registered) (hdone : done <+: ms)
    (hpre : frames done ++ all <+: frames ms) (hturn : turn registered all = .whole m) :
    done ++ [m] <+: ms := by
  obtain ⟨todo, rfl⟩ := hdone
  rw [frames_append, List.prefix_append_right_inj] at hpre
  obtain ⟨rest, hrest⟩ := hpre
  have hframe := turn_whole_frame hturn
  have hlen : commuHeadLength ≤ all.length := by
    rw [hframe, Msg.length_frame]
    omega
  cases todo with
  | nil =>
    have hcat := congrArg List.length hrest
    rw [List.length_append, frames_nil, List.length_nil, commuHeadLength_eq] at *
    omega
  | cons m' todo =>
    have hm' := hms m' (by simp)
    have hlimit : m'.body.length ≤ 65528 := hm'.length
    have hofBytes := head_of_frames hrest hlen
    have hlong : all.length = m'.frame.length := by
      cases turn_eq hturn with
      | whole headed known length =>
        rw [hofBytes, Msg.head_length (by omega)] at length
        rw [Msg.length_frame]
        omega
    -- a prefix as long as the next frame is the next frame
    rw [frames_cons] at hrest
    obtain ⟨hfirst, -⟩ := List.append_inj hrest hlong
    rw [hfirst, turn_frame hm'] at hturn
    obtain rfl := Turn.whole.inj hturn
    exact ⟨todo, by simp⟩

end

end EasyReactor.Delivery
