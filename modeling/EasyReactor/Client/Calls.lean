import EasyReactor.Client.TcpClient
import EasyReactor.Buffer.IoBuffer

set_option autoImplicit false

/-!
# Client: what calls of the user leave alone

A `send_data` appends one frame to `obuf`, or changes nothing.  `Called` says what any
user callback can do to a client, and `doConnect_ends` and `cleanConn_ends` what a new
socket finds.
-/

namespace EasyReactor.Client

open EasyReactor.Foundation EasyReactor.Buffer EasyReactor.Loop EasyReactor.Wire

/-- `obuf` holds `pending`, from its start on. -/
abbrev Pending (s : ClientState) (pending : List UInt8) : Prop := Window s.obuf 0 pending

/-- How a `send_data` that finds `pending` in `obuf` returns. -/
inductive Framed (s : ClientState) (pending data : List UInt8) (cmdid : Int32) :
    ClientState × Int → Prop where
  | refused (full : s.netOk = true →
      s.obuf.capacity - pending.length < wrap (data.length + commuHeadLength)) :
      Framed s pending data cmdid (s, -1)
  | accepted (obuf : IoBuffer) (netOk : s.netOk = true)
      (fits : (pending.length : Int) + commuHeadLength + data.length ≤ s.obuf.capacity)
      (appended : Window obuf 0 (pending ++ (Msg.mk cmdid data).frame)) :
      Framed s pending data cmdid ({ s with
        obuf := obuf
        evs := if s.obuf.length = 0 then s.evs.addIoev s.sockfd .writeCb epollOut none
          else s.evs }, 0)

/-- A `send_data` that does not return passed its check with a frame that does not fit. -/
structure Overrun (s : ClientState) (pending data : List UInt8) (e : Fault) : Prop where
  undefined : e = .undefined
  netOk : s.netOk = true
  passed : wrap (data.length + commuHeadLength) ≤ s.obuf.capacity - pending.length
  exceeds : s.obuf.capacity < (pending.length : Int) + commuHeadLength + data.length

/-- What one `send_data` can do. -/
inductive Sent (s : ClientState) (m : Msg) : ClientState → Prop where
  | refused : Sent s m { s with refused := s.refused + 1 }
  | accepted (obuf : IoBuffer) (netOk : s.netOk = true)
      (appended : ∀ pending, Pending s pending → Window obuf 0 (pending ++ m.frame)) :
      Sent s m { s with
        obuf := obuf
        evs := if s.obuf.length = 0 then s.evs.addIoev s.sockfd .writeCb epollOut none else s.evs
        accepted := s.accepted ++ [m] }

section Sending

variable {s : ClientState} {pending : List UInt8}

theorem sendData_ends (w : Pending s pending) (data : List UInt8) (cmdid : Int32) :
    Ends (s.sendData data cmdid) (Framed s pending data cmdid) (Overrun s pending data) := by
  have hfits := w.fits
  have hsmall := w.small
  have hlen := w.length
  have hwidth := commuHeadLength_eq
  have hhead := CommuHead.length_bytes ⟨cmdid, .ofInt data.length⟩
  unfold ClientState.sendData
  split
  next hnet => exact .refused fun hup => absurd hup hnet
  next hnet =>
    have hup : s.netOk = true := by simpa using hnet
    simp only
    rw [hlen, wrap_of_range (x := s.obuf.capacity - _) (by omega) (by omega)]
    split
    next hfull => exact .refused fun _ => hfull
    next hpassed =>
      rw [← hlen]
      -- the header
      apply (w.append_ends (CommuHead.bytes ⟨cmdid, .ofInt data.length⟩)).bind_eq
      · rintro e ⟨he, hover⟩
        exact ⟨he, hup, by omega, by omega⟩
      intro x hx ⟨wx, hroom⟩
      have hxcap : x.capacity = s.obuf.capacity := IoBuffer.save_capacity hx
      -- the data behind it
      apply (wx.append_ends data).bind_eq
      · rintro e ⟨he, hover⟩
        rw [List.length_append] at hover
        exact ⟨he, hup, by omega, by simp only at hover; omega⟩
      rintro y - ⟨wy, hrest⟩
      rw [List.length_append] at hrest
      simp only at hrest
      rw [List.append_assoc] at wy
      have hout : Framed s pending data cmdid _ := .accepted _ hup (by omega) wy
      split
      next hneed =>
        rw [if_pos hneed] at hout
        exact hout
      next hneed =>
        rw [if_neg hneed] at hout
        exact hout

/-- `send_data` ends the process only when `datlen + COMMU_HEAD_LENGTH` overflows. -/
theorem send_ends (w : Pending s pending) (m : Msg) :
    Ends (s.send m) (Sent s m) (fun _ => 2147483640 ≤ m.body.length) := by
  have hwidth := commuHeadLength_eq
  unfold ClientState.send
  apply (sendData_ends w m.body m.cmdid).bind_eq
  · intro e he
    have hover := he.exceeds
    have hpassed := he.passed
    by_contra hlt
    rw [wrap_of_range (by omega) (by omega)] at hpassed
    omega
  · intro r _ hr
    cases hr with
    | refused => exact .refused
    | accepted obuf netOk fits appended =>
      refine .accepted obuf netOk ?_
      intro pending' w'
      obtain rfl := w.unique w'
      exact appended

end Sending

/-! ## Phases -/

/-- No socket is in use, and nothing is registered. -/
structure Down (s : ClientState) : Prop where
  netOk : s.netOk = false
  timers : s.timers = 0
  bare : s.evs.Bare

/-- A connected client. -/
structure Up (s : ClientState) : Prop where
  netOk : s.netOk = true
  timers : s.timers = 0
  sockfd : s.sockfd ≠ -1
  listens : s.evs.Listens s.sockfd (some .readCb) (some .writeCb)

/-- Neither the buffers nor the log of the socket matter to the connection. -/
theorem Up.congr {s s' : ClientState} (h : Up s) (hnet : s'.netOk = s.netOk)
    (htimers : s'.timers = s.timers) (hfd : s'.sockfd = s.sockfd) (hevs : s'.evs = s.evs) :
    Up s' := by
  refine ⟨hnet.trans h.netOk, htimers.trans h.timers, ?_, ?_⟩
  · rw [hfd]
    exact h.sockfd
  · rw [hfd, hevs]
    exact h.listens

/-- `EPOLLOUT` is watched only while there are bytes to write. -/
def Drained (s : ClientState) : Prop := s.evs.Watches s.sockfd epollOut → s.obuf.length ≠ 0

/-- What arrives is read. -/
def Reads (s : ClientState) : Prop := s.evs.processEv s.sockfd .input = some .readCb

/-- `connect` is in progress.  Nothing went through the socket yet. -/
structure Connecting (s : ClientState) : Prop where
  netOk : s.netOk = false
  timers : s.timers = 0
  sockfd : s.sockfd ≠ -1
  listens : s.evs.Listens s.sockfd none (some .connectionCb)
  idle : s.session = .new s.sockfd

/-- `connect` failed, and the next try is due. -/
structure Waiting (s : ClientState) : Prop where
  netOk : s.netOk = false
  timers : s.timers = 1
  bare : s.evs.Bare
  idle : s.session = .new s.sockfd

/-- What a client is doing between two events. -/
inductive Phase (s : ClientState) : Prop where
  | connecting (h : Connecting s)
  | waiting (h : Waiting s)
  | connected (up : Up s) (drained : Drained s)

/-! ## Callbacks -/

/-- No callback passes on a `datlen` that overflows with a header. -/
structure TcpClient.Modest (cli : TcpClient) : Prop where
  message : ∀ cmdid func, cli.dispatcher.dispatcher.lookup cmdid = some func →
    ∀ s usrData, ∀ m ∈ func s usrData, m.body.length < 2147483640
  connection : ∀ cb, cli.onConnection = some cb →
    ∀ s args, ∀ m ∈ cb s args, m.body.length < 2147483640
  close : ∀ cb, cli.onClose = some cb → ∀ s args, ∀ m ∈ cb s args, m.body.length < 2147483640

/-- A client whose callbacks do nothing. -/
def quietClient (table : List Int32) : TcpClient :=
  ⟨⟨table.map fun cmdid => (cmdid, fun _ _ => []), []⟩, none, none, none, none⟩

theorem modest_quiet (table : List Int32) : (quietClient table).Modest := by
  refine ⟨?_, by simp [quietClient], by simp [quietClient]⟩
  intro cmdid func h s usrData m hm
  have hfunc : func = fun _ _ => [] := by
    unfold quietClient at h
    simp only at h
    induction table with
    | nil => cases h
    | cons c table ih =>
      rw [List.map_cons, List.lookup_cons] at h
      cases hc : cmdid == c with
      | true =>
        rw [hc] at h
        exact (Option.some.inj h).symm
      | false =>
        rw [hc] at h
        exact ih h
  rw [hfunc] at hm
  cases hm

/-- The process ended inside a callback. -/
def Overflow (cli : TcpClient) (e : Fault) : Prop := (∃ g, e = .callback g) ∧ ¬ cli.Modest

/-- More was accepted, and appended to `obuf`. -/
def Extends (s s' : ClientState) : Prop :=
  ∃ more, s'.accepted = s.accepted ++ more ∧
    ∀ pending, Pending s pending → Pending s' (pending ++ frames more)

/-- What user code can do to a client. -/
structure Called (s s' : ClientState) : Prop where
  netOk : s'.netOk = s.netOk
  ibuf : s'.ibuf = s.ibuf
  sockfd : s'.sockfd = s.sockfd
  timers : s'.timers = s.timers
  session : s'.session = s.session
  past : s'.past = s.past
  output : Extends s s'
  down : s.netOk = false → s'.evs = s.evs
  listens : ∀ r, s.evs.Listens s.sockfd r (some .writeCb) →
    s'.evs.Listens s.sockfd r (some .writeCb)
  drained : Drained s → Drained s'
  reading : Reads s → Reads s'

section Calling

variable {cli : TcpClient} {s s' s'' : ClientState} {pending : List UInt8}

theorem Extends.refl (s : ClientState) : Extends s s :=
  ⟨[], by simp, fun pending h => by simpa using h⟩

theorem Extends.trans (h : Extends s s') (h' : Extends s' s'') : Extends s s'' := by
  obtain ⟨more, hacc, hpend⟩ := h
  obtain ⟨more', hacc', hpend'⟩ := h'
  refine ⟨more ++ more', ?_, ?_⟩
  · rw [hacc', hacc, List.append_assoc]
  · intro pending w
    have w'' := hpend' _ (hpend _ w)
    rw [List.append_assoc, ← frames_append] at w''
    exact w''

theorem Called.refl (s : ClientState) : Called s s :=
  ⟨rfl, rfl, rfl, rfl, rfl, rfl, .refl s, fun _ => rfl, fun _ h => h, fun h => h, fun h => h⟩

theorem Called.trans (h : Called s s') (h' : Called s' s'') : Called s s'' where
  netOk := h'.netOk.trans h.netOk
  ibuf := h'.ibuf.trans h.ibuf
  sockfd := h'.sockfd.trans h.sockfd
  timers := h'.timers.trans h.timers
  session := h'.session.trans h.session
  past := h'.past.trans h.past
  output := h.output.trans h'.output
  down hnet := (h'.down (h.netOk.trans hnet)).trans (h.down hnet)
  listens r hl := by
    have := h'.listens r
    rw [h.sockfd] at this
    exact this (h.listens r hl)
  drained hd := h'.drained (h.drained hd)
  reading hr := h'.reading (h.reading hr)

theorem Called.up (h : Called s s') (hu : Up s) : Up s' := by
  refine ⟨h.netOk.trans hu.netOk, h.timers.trans hu.timers, ?_, ?_⟩
  · rw [h.sockfd]
    exact hu.sockfd
  · rw [h.sockfd]
    exact h.listens _ hu.listens

theorem Extends.window (h : Extends s s') (w : Pending s pending) :
    ∃ pending', Pending s' pending' := by
  obtain ⟨more, -, hpend⟩ := h
  exact ⟨_, hpend _ w⟩

/-- One `send_data` is something user code can do. -/
theorem Sent.called {m : Msg} (w : Pending s pending) (h : Sent s m s') : Called s s' := by
  cases h with
  | refused =>
    exact ⟨rfl, rfl, rfl, rfl, rfl, rfl, .refl s, fun _ => rfl, fun _ h => h, fun h => h,
      fun h => h⟩
  | accepted obuf netOk appended =>
    refine ⟨rfl, rfl, rfl, rfl, rfl, rfl, ⟨[m], rfl, ?_⟩, ?_, ?_, ?_, ?_⟩
    · intro bs hbs
      simpa using appended bs hbs
    · intro hnet
      rw [netOk] at hnet
      cases hnet
    · intro r hl
      change EventLoop.Listens (if _ then _ else _) _ _ _
      split
      · exact hl.addIoev_out _ _
      · exact hl
    · intro _ _
      have hlen := (appended pending w).length
      rw [List.length_append, Msg.length_frame] at hlen
      have hhead := commuHeadLength_eq
      change obuf.length ≠ 0
      omega
    · intro hr
      change EventLoop.processEv (if _ then _ else _) _ _ = _
      split
      · exact EventLoop.processEv_addIoev_out _ _ hr
      · exact hr

/-- The rule for a user callback. -/
theorem callback_ends (w : Pending s pending) (msgs : List Msg) :
    Ends (s.callback msgs) (Called s)
      (fun e => (∃ g, e = .callback g) ∧ ∃ m ∈ msgs, 2147483640 ≤ m.body.length) := by
  have hrun : Ends (msgs.foldlM ClientState.send s) (Called s)
      (fun _ => ∃ m ∈ msgs, 2147483640 ≤ m.body.length) := by
    apply Ends.foldlM (P := fun _ s' => Called s s') _ (.refl s)
    intro done m post s' hsplit h
    obtain ⟨pending', w'⟩ := h.output.window w
    apply (send_ends w' m).imp
    · exact fun s'' hsent => h.trans (hsent.called w')
    · exact fun _ hbig => ⟨m, by simp [hsplit], hbig⟩
  unfold ClientState.callback
  cases hf : msgs.foldlM ClientState.send s with
  | ok s' => exact hrun.of_ok hf
  | error g => exact ⟨⟨g, rfl⟩, hrun.of_error hf⟩

theorem callIf_ends (w : Pending s pending) (cb : Option ConnCallback) (args : Ptr)
    (hcb : cli.Modest → ∀ f, cb = some f → ∀ s args, ∀ m ∈ f s args, m.body.length < 2147483640) :
    Ends (s.callIf cb args) (Called s) (Overflow cli) := by
  cases cb with
  | none => exact .refl s
  | some f =>
    apply (callback_ends w _).imp (fun _ hs => hs)
    rintro e ⟨he, m, hm, hbig⟩
    refine ⟨he, fun hmodest => ?_⟩
    have := hcb hmodest f rfl s args m hm
    omega

theorem callOnconnect_ends (w : Pending s pending) :
    Ends (s.callOnconnect cli) (Called s) (Overflow cli) :=
  callIf_ends w _ _ fun h => h.connection

theorem callOnclose_ends (w : Pending s pending) :
    Ends (s.callOnclose cli) (Called s) (Overflow cli) :=
  callIf_ends w _ _ fun h => h.close

/-! ## New sockets -/

/-- A new socket is in use.  The buffers are as they were, but for what `onConnection`
sent. -/
structure Renewed (s s' : ClientState) : Prop where
  ibuf : s'.ibuf = s.ibuf
  past : s'.past = s.past ++ [s.session]
  session : s'.session = .new s'.sockfd
  output : Extends s s'
  phase : Phase s'

/-- `do_connect` ends the process when `socket` or `connect` fails. -/
theorem doConnect_ends (h : Down s) (w : Pending s pending) (c : Connect) :
    Ends (s.doConnect cli c) (Renewed s) (fun e => e = .exit ∨ Overflow cli e) := by
  -- closing the old socket touches nothing that matters here
  have hclose : ∃ evs closed, evs.Bare ∧
      (if s.sockfd ≠ -1 then s.closeSockfd else s) = { s with evs := evs, closed := closed } := by
    split
    · exact ⟨_, _, h.bare.closeFd _, rfl⟩
    · exact ⟨_, _, h.bare, rfl⟩
  obtain ⟨evs, closed, hbare, heq⟩ := hclose
  unfold ClientState.doConnect
  rw [heq]
  cases c.socket with
  | none => exact .inl rfl
  | some fd =>
    have hfd : (fd : Int) ≠ -1 := by omega
    simp only
    cases c.connect with
    | error => exact .inl rfl
    | inProgress =>
      refine ⟨rfl, rfl, rfl, .refl s, ?_⟩
      exact .connecting
        ⟨h.netOk, h.timers, hfd, (hbare.listens _ _ none).addIoev_out _ _, rfl⟩
    | connected =>
      simp only
      have w' : Pending { s with
          netOk := true, sockfd := fd, evs := evs, closed := closed,
          past := s.past ++ [s.session], session := .new fd } pending := w
      apply (callOnconnect_ends w').imp
      · intro s' hc
        refine ⟨hc.ibuf, hc.past, ?_, hc.output, ?_⟩
        · rw [hc.session, hc.sockfd]
        · refine .connected (hc.up ⟨rfl, h.timers, hfd, hbare.listens _ _ _⟩) (hc.drained ?_)
          exact fun hw => absurd hw hbare.not_watches
      · exact fun e he => .inr he

theorem modest_unset : TcpClient.unset.Modest := modest_quiet []

/-- A client whose constructor has not connected it yet. -/
theorem down_new (rawIn rawOut : Nat → UInt8) : Down (.new rawIn rawOut) := ⟨rfl, rfl, fun _ => rfl⟩

theorem pending_new (rawIn rawOut : Nat → UInt8) : Pending (.new rawIn rawOut) [] :=
  .of_new (by decide) (by decide) rawOut

/-- The constructor calls nothing back, so it ends the process only through `exit`. -/
theorem construct_ends (rawIn rawOut : Nat → UInt8) (c : Connect) :
    Ends (ClientState.construct rawIn rawOut c) (Renewed (.new rawIn rawOut))
      (fun e => e = .exit) := by
  apply (doConnect_ends (down_new rawIn rawOut) (pending_new rawIn rawOut) c).imp
    (fun _ hr => hr)
  rintro e (he | ⟨-, hover⟩)
  · exact he
  · exact absurd modest_unset hover

/-- `clean_conn` leaves both buffers as they are. -/
theorem cleanConn_ends (h : Up s) (w : Pending s pending) (c : Connect) :
    Ends (s.cleanConn cli c) (Renewed s) (fun e => e = .exit ∨ Overflow cli e) := by
  unfold ClientState.cleanConn
  rw [if_pos h.sockfd]
  have w' : Pending { { s with evs := s.evs.delIoev s.sockfd }.closeSockfd with netOk := false }
      pending := w
  apply ((callOnclose_ends w').imp (fun _ hs => hs) (fun _ he => .inr he)).bind
  intro s₁ hc
  obtain ⟨pending₁, w₁⟩ := hc.output.window w'
  have hbare : s₁.evs.Bare := by
    rw [hc.down rfl]
    exact h.listens.delIoev.closeFd _
  apply (doConnect_ends ⟨hc.netOk, hc.timers.trans h.timers, hbare⟩ w₁ c).imp
  · intro s' hr
    refine ⟨hr.ibuf.trans hc.ibuf, ?_, hr.session, hc.output.trans hr.output, hr.phase⟩
    rw [hr.past, hc.past, hc.session]
    rfl
  · exact fun e he => he

/-- The connection is established.  `ibuf` and the socket are as they were. -/
structure Established (s s' : ClientState) : Prop where
  ibuf : s'.ibuf = s.ibuf
  sockfd : s'.sockfd = s.sockfd
  session : s'.session = s.session
  past : s'.past = s.past
  output : Extends s s'
  up : Up s'
  drained : Drained s'
  reading : Reads s'

/-- `connection_cb` starts a connection, or a timer for the next try. -/
theorem connectionCb_ends (h : Connecting s) (w : Pending s pending) (result : Int) :
    Ends (s.connectionCb cli s.sockfd result)
      (fun s' => result = 0 ∧ Established s s' ∨
        result ≠ 0 ∧ Waiting s' ∧
          s' = { s with evs := s.evs.delIoev s.sockfd, timers := s.timers + 1 })
      (Overflow cli) := by
  unfold ClientState.connectionCb
  have hbare : (s.evs.delIoev s.sockfd).Bare := h.listens.delIoev
  simp only
  split
  next hok =>
    have w' : Pending { s with evs := s.evs.delIoev s.sockfd, netOk := true } pending := w
    apply ((callOnconnect_ends w').imp (fun _ hs => hs) (fun _ he => he)).bind
    intro s₁ hc
    have hup := hc.up ⟨rfl, h.timers, h.sockfd, hbare.listens _ _ _⟩
    have hdrained := hc.drained fun hw => absurd hw hbare.not_watches
    have hfd : s₁.sockfd = s.sockfd := hc.sockfd
    rw [← hfd]
    have hin := hup.listens.addIoev_in .readCb none
    split
    next hlen =>
      refine .inl ⟨hok, ⟨hc.ibuf, hc.sockfd, hc.session, hc.past, hc.output, ?_, ?_, ?_⟩⟩
      · exact ⟨hup.netOk, hup.timers, hup.sockfd, hin.addIoev_out .writeCb none⟩
      · exact fun _ => hlen
      · exact EventLoop.processEv_addIoev_out _ _ (EventLoop.processEv_addIoev_in _ _ _ _)
    next hlen =>
      refine .inl ⟨hok, ⟨hc.ibuf, hc.sockfd, hc.session, hc.past, hc.output, ?_, ?_, ?_⟩⟩
      · exact ⟨hup.netOk, hup.timers, hup.sockfd, hin⟩
      · exact fun hw => hdrained (EventLoop.watches_addIoev_in hw)
      · exact EventLoop.processEv_addIoev_in _ _ _ _
  next hno =>
    refine .inr ⟨hno, ⟨h.netOk, ?_, hbare, h.idle⟩, rfl⟩
    change s.timers + 1 = 1
    rw [h.timers]

/-- A client that was just constructed, while its first `connect` is in progress. -/
theorem construct_new (rawIn rawOut : Nat → UInt8) (fd : Nat) :
    ∃ s, ClientState.construct rawIn rawOut ⟨some fd, .inProgress⟩ = .ok s ∧
      Connecting s ∧ s.evs.processEv s.sockfd .output = some .connectionCb ∧
      s.ibuf = .new 4194304 rawIn ∧ s.obuf = .new 4194304 rawOut ∧ s.accepted = [] := by
  have hbare : (EventLoop.empty ClientIo).Bare := fun _ => rfl
  refine ⟨_, rfl, ⟨rfl, rfl, ?_, ?_, rfl⟩, ?_, rfl, rfl, rfl⟩
  · change (fd : Int) ≠ -1
    omega
  · exact (hbare.listens _ _ none).addIoev_out _ _
  · exact EventLoop.processEv_addIoev_write _ _ _ _

end Calling

/-! ## What is accepted -/

/-- Everything that was accepted is one of the messages `D` is about. -/
def Accepts (D : Msg → Prop) (s : ClientState) : Prop := ∀ m ∈ s.accepted, D m

section Accepting

variable {cli : TcpClient} {s : ClientState} {D : Msg → Prop}

theorem sendData_accepted (s : ClientState) (data : List UInt8) (cmdid : Int32) :
    Ends (s.sendData data cmdid) (fun r => r.1.accepted = s.accepted) (fun _ => True) := by
  unfold ClientState.sendData
  split
  · rfl
  · simp only
    split
    · rfl
    · apply (Ends.any _).bind
      intro b₁ _
      apply (Ends.any _).bind
      intro b₂ _
      split
      · rfl
      · rfl

theorem send_accepts (h : Accepts D s) {m : Msg} (hm : D m) :
    Ends (s.send m) (Accepts D) (fun _ => True) := by
  unfold ClientState.send
  apply (sendData_accepted s m.body m.cmdid).bind
  rintro ⟨s', ret⟩ hacc
  have h' : Accepts D s' := by
    unfold Accepts
    rw [hacc]
    exact h
  simp only
  split
  · intro x hx
    rw [List.mem_append, List.mem_singleton] at hx
    cases hx with
    | inl hx => exact h' x hx
    | inr hx =>
      subst hx
      exact hm
  · exact h'

theorem callIf_accepts (h : Accepts D s) (cb : Option ConnCallback) (args : Ptr)
    (hcb : ∀ f, cb = some f → ∀ s args, ∀ m ∈ f s args, D m) :
    Ends (s.callIf cb args) (Accepts D) (fun _ => True) := by
  cases cb with
  | none => exact h
  | some f =>
    have hrun : Ends ((f s args).foldlM ClientState.send s) (Accepts D) (fun _ => True) := by
      apply Ends.foldlM (P := fun _ => Accepts D) _ h
      intro done m post s' hsplit h'
      apply send_accepts h'
      apply hcb f rfl s args
      rw [hsplit]
      simp
    unfold ClientState.callIf
    simp only
    unfold ClientState.callback
    cases hf : (f s args).foldlM ClientState.send s with
    | ok s' => exact hrun.of_ok hf
    | error g => trivial

theorem doConnect_accepts (h : Accepts D s) (c : Connect)
    (hcb : ∀ f, cli.onConnection = some f → ∀ s args, ∀ m ∈ f s args, D m) :
    Ends (s.doConnect cli c) (Accepts D) (fun _ => True) := by
  have hclose : Accepts D (if s.sockfd ≠ -1 then s.closeSockfd else s) := by
    split
    · exact h
    · exact h
  unfold ClientState.doConnect
  cases c.socket with
  | none => trivial
  | some fd =>
    simp only
    generalize (if s.sockfd ≠ -1 then s.closeSockfd else s) = t at hclose
    cases c.connect with
    | inProgress => exact hclose
    | error => trivial
    | connected =>
      simp only
      unfold ClientState.callOnconnect
      apply callIf_accepts _ _ _ hcb
      exact hclose

/-- The constructor accepts nothing. -/
theorem construct_accepts (D : Msg → Prop) (rawIn rawOut : Nat → UInt8) (c : Connect) :
    Ends (ClientState.construct rawIn rawOut c) (Accepts D) (fun _ => True) :=
  doConnect_accepts (fun m hm => by cases hm) c (fun f hf => by cases hf)

theorem connectionCb_accepts (h : Accepts D s) (fd result : Int)
    (hcb : ∀ f, cli.onConnection = some f → ∀ s args, ∀ m ∈ f s args, D m) :
    Ends (s.connectionCb cli fd result) (Accepts D) (fun _ => True) := by
  unfold ClientState.connectionCb
  simp only
  split
  · have h' : Accepts D { s with evs := s.evs.delIoev fd, netOk := true } := h
    apply (callIf_accepts h' cli.onConnection cli.onConnArgs hcb).bind
    intro s₁ h₁
    split
    · exact h₁
    · exact h₁
  · exact h

end Accepting

end EasyReactor.Client
