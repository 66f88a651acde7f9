import EasyReactor.Reactor.Connections
import EasyReactor.Server.Blame
import EasyReactor.Server.Eager

set_option autoImplicit false

/-!
# Reactor: every connection on its own

`Orderly` is the invariant of a whole run: the pool accounts for the buffers of all
connections, each open connection has made of its own bytes what the reference parser makes
of them, and `_curr_conns` counts the open ones.  A step on one connection keeps it for the
others because it spares their buffers and registrations.
-/

namespace EasyReactor.Reactor

open EasyReactor.Foundation EasyReactor.Buffer EasyReactor.Loop EasyReactor.Wire
open EasyReactor.Server

/-- An open connection. -/
structure Serving (srv : TcpServer) (r : TcpReactor) (fd : Nat) (c : Session) : Prop where
  connfd : c.conn.connfd = fd
  tracks : Tracks srv c.arrived (r.view fd c)
  output : Open (r.view fd c)
  eager : Eager (r.view fd c)

/-- The object of a connection that was cleaned. -/
structure Retired (srv : TcpServer) (c : Session) : Prop where
  connfd : c.conn.connfd = -1
  ibuf : c.conn.ibuf = none
  obuf : c.conn.obuf = none
  dispatched : c.dispatched = (refDecode srv.dispatcher.exist c.arrived).msgs
  sends : c.refused = 0 → c.sent <+: frames c.accepted

/-- The invariant. -/
structure Orderly (srv : TcpServer) (r : TcpReactor) : Prop where
  inv : PoolInv r.pool (r.conns.flatMap held)
  each : ∀ fd c, r.conns[fd]? = some (some c) → Serving srv r fd c ∨ Retired srv c
  unwatched : r.evs.mask (-1) = 0
  idle : ∀ fd : Nat, r.live fd = none → r.evs.mask fd = 0
  count : r.currConns = r.opened
  capped : r.currConns ≤ max r.maxConns 0

variable {srv : TcpServer} {r r' : TcpReactor} {fd : Nat} {c : Session}

/-- The other objects are as they were. -/
def OthersKept (fd : Nat) (r r' : TcpReactor) : Prop := ∀ j, j ≠ fd → r'.conns[j]? = r.conns[j]?

theorem put_othersKept (r : TcpReactor) (fd : Nat) (arrived : List UInt8) (s : ConnState) :
    OthersKept fd r (r.put fd arrived s) :=
  fun _ hne => List.getElem?_set_ne (Ne.symm hne)

theorem put_conns_self {c : Option Session} (hget : r.conns[fd]? = some c)
    (arrived : List UInt8) (s : ConnState) : (r.put fd arrived s).conns[fd]? =
      some (some ⟨s.conn, arrived, s.dispatched, s.accepted, s.refused, s.sent⟩) :=
  List.getElem?_set_self (List.getElem?_eq_some_iff.mp hget).1

theorem live_congr (h : r'.conns[fd]? = r.conns[fd]?) : r'.live fd = r.live fd := by
  unfold TcpReactor.live
  rw [h]

theorem Serving.isOpen (h : Serving srv r fd c) : c.isOpen = true := by
  unfold Session.isOpen
  rw [h.connfd]
  simp

theorem Retired.not_isOpen (h : Retired srv c) : c.isOpen = false := by
  unfold Session.isOpen
  rw [h.connfd]
  rfl

theorem Serving.rest (h : Serving srv r fd c) :
    ∃ bs, (refDecode srv.dispatcher.exist c.arrived).rest = some bs := by
  cases hr : (refDecode srv.dispatcher.exist c.arrived).rest with
  | some bs => exact ⟨bs, rfl⟩
  | none =>
    have hclosed : c.conn.connfd = -1 := (h.tracks.cleaned hr).connfd
    rw [h.connfd] at hclosed
    omega

theorem Orderly.serving (h : Orderly srv r) (hc : r.live fd = some c) : Serving srv r fd c := by
  obtain ⟨hget, hopen⟩ := TcpReactor.live_eq_some.mp hc
  cases h.each fd c hget with
  | inl hs => exact hs
  | inr hret => exact absurd hopen (by simp [hret.not_isOpen])

/-- What a step on another connection leaves of an open one. -/
theorem Serving.carry (h : Serving srv r fd c) (hget : r'.conns[fd]? = some (some c))
    (hinv : PoolInv r'.pool (r'.conns.flatMap held))
    (hmem : ∀ b ∈ c.buffers, r'.pool.bufs b = r.pool.bufs b)
    (hmask : r'.evs.mask fd = r.evs.mask fd) (hneg : r'.evs.mask (-1) = 0) :
    Serving srv r' fd c := by
  obtain ⟨bs, hbs⟩ := h.rest
  have hlive := h.tracks.live hbs
  have hfd := h.connfd
  have hattached : Attached (r'.view fd c) := by
    refine ⟨?_, hlive.attached.loop, hlive.attached.fd, hneg⟩
    apply hinv.perm
    apply (flatMap_perm_of_getElem? held hget).trans
    change (c.conn.ibuf.toList ++ c.conn.obuf.toList ++ _).Perm _
    rw [List.append_assoc]
    exact List.Perm.refl _
  have hibuf : ∀ b ∈ c.conn.ibuf.toList, r'.pool.bufs b = r.pool.bufs b := fun b hb =>
    hmem b (List.mem_append_left _ hb)
  have hobuf : ∀ b ∈ c.conn.obuf.toList, r'.pool.bufs b = r.pool.bufs b := fun b hb =>
    hmem b (List.mem_append_right _ hb)
  have hown : r'.evs.mask c.conn.connfd = r.evs.mask c.conn.connfd := by
    rw [hfd, hmask]
  refine ⟨hfd, ⟨h.tracks.dispatched, ?_⟩, ⟨hattached, fun href => ?_⟩,
    h.eager.of_same hattached rfl hobuf hown⟩
  · rw [hbs]
    refine ⟨hattached, hlive.held.congr hibuf, ?_⟩
    have hreading := hlive.reading
    unfold EventLoop.Watches at hreading ⊢
    change r'.evs.mask c.conn.connfd &&& _ ≠ 0
    rw [hown]
    exact hreading
  · obtain ⟨pending, hheld, hsent⟩ := h.output.outflow href
    exact ⟨pending, hheld.congr hobuf, hsent⟩

/-! ## One step -/

/-- How the connection of descriptor `fd` is left by a step. -/
inductive Outcome (srv : TcpServer) (fd : Nat) (arrived : List UInt8) (s : ConnState) : Prop where
  | serving (connfd : s.conn.connfd = fd) (tracks : Tracks srv arrived s) (output : Open s)
  | retired (cleaned : Cleaned s)
      (dispatched : s.dispatched = (refDecode srv.dispatcher.exist arrived).msgs)
      (sends : Sends s) (unregistered : s.evs.mask fd = 0)

/-- What a step on the connection of descriptor `fd` leaves alone. -/
structure Beside (r : TcpReactor) (fd : Nat) (s : ConnState) : Prop where
  others : s.others = (r.conns.eraseIdx fd).flatMap held
  memory : ∀ b ∈ (r.conns.eraseIdx fd).flatMap held, s.pool.bufs b = r.pool.bufs b
  mask : ∀ e : Int, e ≠ fd → s.evs.mask e = r.evs.mask e

theorem live_isSome (hlt : fd < r.conns.length) :
    (r.live fd).isSome = entryOpen r.conns[fd] := by
  unfold TcpReactor.live entryOpen
  rw [List.getElem?_eq_getElem hlt]
  cases r.conns[fd] with
  | none => rfl
  | some c => cases hopen : c.isOpen <;> simp [hopen]

/-- How many connections are open after `fd` was given another object. -/
theorem opened_put (hlt : fd < r.conns.length) (arrived : List UInt8) (s : ConnState) :
    ((r.put fd arrived s).opened : Int) =
      r.opened - (if (r.live fd).isSome then 1 else 0) + (if s.conn.connfd = -1 then 0 else 1) := by
  have hset := countP_set_eq entryOpen hlt
    (some ⟨s.conn, arrived, s.dispatched, s.accepted, s.refused, s.sent⟩)
  rw [← live_isSome hlt] at hset
  refine hset.trans ?_
  congr 1
  by_cases hnew : s.conn.connfd = -1
  · simp [entryOpen, Session.isOpen, hnew]
  · simp [entryOpen, Session.isOpen, hnew]

/-- The state after a step is what the calls left. -/
theorem view_put {s : ConnState} (h : Beside r fd s)
    (arrived : List UInt8) :
    (r.put fd arrived s).view fd
      ⟨s.conn, arrived, s.dispatched, s.accepted, s.refused, s.sent⟩ = s := by
  have hothers := h.others
  unfold TcpReactor.view TcpReactor.put
  simp only [List.eraseIdx_set_eq, ← hothers]

/-- A step on one connection keeps the invariant. -/
theorem Orderly.put (h : Orderly srv r) (hlt : fd < r.conns.length) {s : ConnState}
    {arrived : List UInt8} (hbeside : Beside r fd s) (hout : Outcome srv fd arrived s)
    (hheeds : Heeds s) (hcount : s.currConns = r.currConns - (if (r.live fd).isSome then 1 else 0) +
      (if s.conn.connfd = -1 then 0 else 1))
    (hcap : s.currConns ≤ max r.maxConns 0) : Orderly srv (r.put fd arrived s) := by
  have hmine : PoolInv s.pool (s.conn.ibuf.toList ++ (s.conn.obuf.toList ++ s.others)) := by
    cases hout with
    | serving _ _ output => exact output.attached.inv
    | retired cleaned _ _ _ =>
      rw [cleaned.ibuf, cleaned.obuf]
      exact cleaned.inv
  have hinv : PoolInv s.pool ((r.put fd arrived s).conns.flatMap held) := by
    apply hmine.perm
    rw [hbeside.others, ← List.append_assoc]
    exact (flatMap_set_perm held hlt
      (some ⟨s.conn, arrived, s.dispatched, s.accepted, s.refused, s.sent⟩)).symm
  have hneg : s.evs.mask (-1) = 0 := by
    rw [hbeside.mask (-1) (by omega)]
    exact h.unwatched
  have hget := put_conns_self (List.getElem?_eq_getElem hlt) arrived s
  have hother : ∀ {j : Nat}, j ≠ fd → (r.put fd arrived s).conns[j]? = r.conns[j]? :=
    put_othersKept r fd arrived s _
  refine ⟨hinv, fun j c hc => ?_, hneg, fun j hj => ?_, ?_, hcap⟩
  · by_cases hne : j = fd
    · subst hne
      obtain rfl := Option.some.inj (Option.some.inj (hget.symm.trans hc))
      cases hout with
      | serving connfd tracks output =>
        refine .inl ⟨connfd, ?_, ?_, ?_⟩
        · rw [view_put hbeside]
          exact tracks
        · rw [view_put hbeside]
          exact output
        · rw [view_put hbeside]
          exact hheeds.resolve_right output.attached.not_cleaned
      | retired cleaned dispatched sends _ =>
        exact .inr ⟨cleaned.connfd, cleaned.ibuf, cleaned.obuf, dispatched, sends⟩
    · rw [hother hne] at hc
      cases h.each j c hc with
      | inr hret => exact .inr hret
      | inl hserv =>
        refine .inl (hserv.carry ((hother hne).trans hc) hinv (fun b hb => ?_) ?_ hneg)
        · exact hbeside.memory b (mem_flatMap_eraseIdx held hne hc hb)
        · exact hbeside.mask j (by omega)
  · by_cases hne : j = fd
    · subst hne
      cases hout with
      | retired _ _ _ unregistered => exact unregistered
      | serving connfd _ _ =>
        have hlive : (r.put j arrived s).live j =
            some ⟨s.conn, arrived, s.dispatched, s.accepted, s.refused, s.sent⟩ := by
          refine TcpReactor.live_eq_some.mpr ⟨hget, ?_⟩
          simp [Session.isOpen, connfd]
        rw [hlive] at hj
        cases hj
    · rw [live_congr (hother hne)] at hj
      exact (hbeside.mask j (by omega)).trans (h.idle j hj)
  · change s.currConns = _
    rw [hcount, opened_put hlt, h.count]

/-! ## What happens to an open connection -/

section Outcomes

variable {s s' : ConnState} {S : List UInt8}

theorem outcome_of_rests (hfd : s.conn.connfd = fd) (hrests : Rests s s') (hsound : Sound s')
    (hsends : Sends s') (hstays : Stays s s' → Tracks srv S s')
    (hleaves : Leaves s s' → s'.dispatched = (refDecode srv.dispatcher.exist S).msgs) :
    Outcome srv fd S s' := by
  cases hrests with
  | inl h =>
    cases hsound with
    | inl hopen => exact .serving (h.connfd.trans hfd) (hstays h) hopen
    | inr hshut =>
      have hneg := h.attached.fd
      rw [hshut.connfd] at hneg
      omega
  | inr h =>
    refine .retired h.cleaned (hleaves h) hsends ?_
    have := h.unregistered
    rwa [hfd] at this

/-- How a step on an open connection can end the process: at the memory limit, in a callback,
with a frame without a body, or on a connection that refused a message. -/
inductive Culprit (srv : TcpServer) (S : List UInt8) (s : ConnState) : ConnEvent → Fault → Prop
    where
  | early {e : ConnEvent} {f : Fault} (h : f = .exit ∨ ∃ g, f = .callback g) : Culprit srv S s e f
  | emptyFrame {bs : List UInt8} {recv : Recv} (hrecv : recv = .chunk bs)
      (hend : EndsEmpty (refDecode srv.dispatcher.exist (S ++ bs))) :
      Culprit srv S s (.readable recv) (.assertion .popLength)
  | writable {ws : List WriteResult} (href : s.refused ≠ 0) (f : Fault) :
      Culprit srv S s (.writable ws) f
  | sendData {data : List UInt8} {cmdid : Int32} (href : s.refused ≠ 0) (f : Fault) :
      Culprit srv S s (.sendData data cmdid) f

/-- What is asked of a step on the connection of descriptor `fd` that has read `S`. -/
abbrev StepEnds (srv : TcpServer) (fd : Nat) (S bs : List UInt8) (s : ConnState) (e : ConnEvent) :
    Prop :=
  Ends (s.step srv e) (fun s' => Rests s s' ∧ Outcome srv fd (S ++ bs) s') (Culprit srv S s e)

/-- A chunk that fits, or the end of the stream. -/
theorem readable_outcome (hsrv : srv.Private) (hfd : s.conn.connfd = fd) (h : Tracks srv S s)
    (hopen : Open s) {bs : List UInt8} (hsmall : bs.length ≤ 8388608 - 65536) {r : List UInt8}
    (hr : (refDecode srv.dispatcher.exist S).rest = some r) :
    StepEnds srv fd S bs s (.readable (.chunk bs)) := by
  have hlive := h.live hr
  have hcall : s.step srv (.readable (.chunk bs)) = s.handleRead srv (.chunk bs) :=
    step_chunk_live hlive bs
  have hrlen : r.length < 65536 := parse_wait_length (Decoder.decode_rest hr).1
  have hrests : Ends (s.step srv (.readable (.chunk bs))) (Rests s) (fun _ => True) := by
    rw [hcall]
    exact handleRead_rests hsrv hopen.attached _
  have hsends : Ends (s.step srv (.readable (.chunk bs))) Sends (fun _ => True) := by
    rw [hcall]
    exact handleRead_sends hopen _
  apply ((((h.step_chunk hr bs).and_post hrests).and_post
    (step_sound (.inl hopen) _)).and_post hsends).imp
  · rintro s' ⟨⟨⟨htracks, hrests⟩, hsound⟩, hsends⟩
    refine ⟨hrests, outcome_of_rests hfd hrests hsound hsends (fun hst => ?_) (fun _ => ?_)⟩
    · rcases htracks with ⟨-, -, htracks, -⟩ | ⟨-, hc, -⟩
      · exact htracks
      · exact absurd hc hst.attached.not_cleaned
    · rcases htracks with ⟨-, -, htracks, -⟩ | ⟨hdrop, -, hd⟩
      · exact htracks.dispatched
      · obtain rfl := hdrop.resolve_right (by omega)
        rw [List.append_nil, hd, h.dispatched]
  · intro f hf
    cases hf with
    | early he => exact .early he.1
    | overflow he hover => omega
    | empty he hne hfits hend =>
      subst he
      exact .emptyFrame rfl ((endsEmpty_stream _ hr hne).mpr hend)

theorem broken_outcome (hsrv : srv.Private) (hfd : s.conn.connfd = fd) (h : Tracks srv S s)
    (hopen : Open s) {r : List UInt8} (hr : (refDecode srv.dispatcher.exist S).rest = some r)
    {rn : Nat} (hsmall : rn ≤ 8388608 - 65536) :
    StepEnds srv fd S [] s (.readable ⟨some rn, .error⟩) := by
  have hlive := h.live hr
  have hrlen : r.length < 65536 := parse_wait_length (Decoder.decode_rest hr).1
  have hcall : s.step srv (.readable ⟨some rn, .error⟩) = s.handleRead srv ⟨some rn, .error⟩ :=
    if_pos hlive.reading
  have hbroken := handleRead_broken srv hopen.attached hlive.held rn (by omega)
  unfold StepEnds
  rw [List.append_nil, hcall]
  apply (((hbroken.and_post (handleRead_rests hsrv hopen.attached _)).and_post
    (handleRead_sound hopen _)).and_post (handleRead_sends hopen _)).imp
  · rintro s' ⟨⟨⟨⟨hc, hd⟩, hrests⟩, hsound⟩, hsends⟩
    refine ⟨hrests, outcome_of_rests hfd hrests hsound hsends (fun hst => ?_) (fun _ => ?_)⟩
    · exact absurd hc hst.attached.not_cleaned
    · exact hd.trans h.dispatched
  · exact fun f hf => .early hf

theorem writable_outcome (hsrv : srv.Private) (hfd : s.conn.connfd = fd) (h : Tracks srv S s)
    (hopen : Open s) {r : List UInt8} (hr : (refDecode srv.dispatcher.exist S).rest = some r)
    (ws : List WriteResult) : StepEnds srv fd S [] s (.writable ws) := by
  have hlive := h.live hr
  unfold StepEnds ConnState.step
  rw [List.append_nil]
  simp only
  split
  next =>
    have hpasses : Ends (s.handleWrite srv ws) (fun _ => True)
        (Culprit srv S s (.writable ws)) := by
      by_cases href : s.refused = 0
      · obtain ⟨pending, hheld, -⟩ := hopen.outflow href
        exact (handleWrite_passes hopen.attached hheld ws).imp (fun _ _ => trivial)
          (fun _ he => .early he)
      · exact (Ends.any _).imp (fun _ _ => trivial) (fun f _ => .writable href f)
    apply (((hpasses.and_post (handleWrite_rests hsrv hopen ws)).and_post
      (handleWrite_sound hopen ws)).and_post (handleWrite_sends hopen ws)).imp _ (fun _ he => he)
    rintro s' ⟨⟨⟨-, hw⟩, hsound⟩, hsends⟩
    have hrests : Rests s s' := by
      cases hw with
      | inl hw => exact .inl hw.toStays
      | inr hw => exact .inr hw.1
    have hd : s'.dispatched = (refDecode srv.dispatcher.exist S).msgs := by
      cases hw with
      | inl hw => exact hw.dispatched.trans h.dispatched
      | inr hw => exact hw.2.trans h.dispatched
    refine ⟨hrests, outcome_of_rests hfd hrests hsound hsends (fun hst => ⟨hd, ?_⟩) fun _ => hd⟩
    cases hw with
    | inr hw => exact absurd hw.1.cleaned hst.attached.not_cleaned
    | inl hw =>
      rw [hr]
      refine ⟨hw.attached, ?_, hw.reading hlive.reading⟩
      rw [hw.ibuf]
      exact hlive.held.congr hw.memory_ibuf
  next => exact ⟨.inl (.refl hopen.attached), .serving hfd h hopen⟩

theorem sendData_outcome (hfd : s.conn.connfd = fd) (h : Tracks srv S s) (hopen : Open s)
    {r : List UInt8} (hr : (refDecode srv.dispatcher.exist S).rest = some r) {data : List UInt8}
    (hsmall : data.length + 8388608 + 8 < 2147483648) (cmdid : Int32) :
    StepEnds srv fd S [] s (.sendData data cmdid) := by
  have hpasses : Ends (s.send data cmdid) (fun _ => True)
      (Culprit srv S s (.sendData data cmdid)) := by
    by_cases href : s.refused = 0
    · obtain ⟨pending, hheld, -⟩ := hopen.outflow href
      have hroom : pending.length ≤ 8388608 := hopen.attached.pending_le hheld
      unfold ConnState.send
      apply ((sendData_outflow hopen.attached hheld data cmdid).imp (fun _ _ => trivial) _).bind
      · rintro ⟨s', ret⟩ (_ : True)
        simp only
        split <;> trivial
      · intro f hf
        exact .early (.inl (hf (by omega)))
    · exact (Ends.any _).imp (fun _ _ => trivial) (fun f _ => .sendData href f)
  unfold StepEnds
  rw [List.append_nil]
  apply (((hpasses.and_post (send_stays hopen.attached data cmdid)).and_post
    (send_open hopen data cmdid)).and_post (send_undisturbed hopen.attached data cmdid)).imp _
      (fun _ he => he)
  rintro s' ⟨⟨⟨-, hst⟩, hopen'⟩, ha, hu⟩
  refine ⟨.inl hst, .serving (hst.connfd.trans hfd) ⟨?_, ?_⟩ hopen'⟩
  · exact hu.dispatched.trans h.dispatched
  · rw [hr]
    exact (h.live hr).undisturbed ha hu

end Outcomes

/-! ## The steps of a run -/

/-- What an event makes of the connection of its descriptor. -/
def Event.served : Event → Option (Nat × ConnEvent)
  | .accept _ => none
  | .readable fd bs => some (fd, .readable (.chunk bs))
  | .broken fd rn => some (fd, .readable ⟨some rn, .error⟩)
  | .writable fd ws => some (fd, .writable ws)
  | .sendData fd data cmdid => some (fd, .sendData data cmdid)

/-- What brings the process down. -/
inductive Stops (srv : TcpServer) (r : TcpReactor) : Event → Fault → Prop where
  /-- the event asks for a buffer that the pool refuses -/
  | memory {e : Event} {fd : Nat} {call : ConnEvent} {c : Session}
      (hserved : e.served = some (fd, call)) (hc : r.live fd = some c)
      (hstarved : (r.view fd c).Starved call) : Stops srv r e .exit
  /-- the event runs a callback of the user -/
  | callback {e : Event} {fd : Nat} {call : ConnEvent} {c : Session}
      (hserved : e.served = some (fd, call)) (hc : r.live fd = some c)
      (hcalls : call.CallsBack srv) (g : Fault) : Stops srv r e (.callback g)
  /-- a new connection runs `connBuildCb` -/
  | built {fd : Nat} (hcb : srv.connBuildCb ≠ none) (g : Fault) :
      Stops srv r (.accept fd) (.callback g)
  /-- `conns` has no entry for the descriptor -/
  | range {fd : Nat} (hfd : r.conns.length ≤ fd) :
      Stops srv r (.accept fd) (.assertion .connfdRange)
  /-- a frame without a body ends what a connection has read -/
  | emptyFrame {fd : Nat} {bs : List UInt8} {c : Session} (hc : r.live fd = some c)
      (hend : EndsEmpty (refDecode srv.dispatcher.exist (c.arrived ++ bs))) :
      Stops srv r (.readable fd bs) (.assertion .popLength)
  /-- a connection that refused a message writes -/
  | writable {fd : Nat} {ws : List WriteResult} {c : Session} (hc : r.live fd = some c)
      (href : c.refused ≠ 0) (f : Fault) : Stops srv r (.writable fd ws) f
  /-- or is to send another -/
  | sendData {fd : Nat} {data : List UInt8} {cmdid : Int32} {c : Session}
      (hc : r.live fd = some c) (href : c.refused ≠ 0) (f : Fault) :
      Stops srv r (.sendData fd data cmdid) f

/-- An early end of a step is blamed on the event that it takes. -/
theorem Stops.early {e : Event} {call : ConnEvent} {f : Fault}
    (hserved : e.served = some (fd, call)) (hc : r.live fd = some c)
    (h : f = .exit ∨ ∃ g, f = .callback g) (hblame : Blame srv (r.view fd c) call f) :
    Stops srv r e f := by
  rcases h with rfl | ⟨g, rfl⟩
  · rcases hblame with hown | ⟨-, hstarved⟩ | ⟨-, g, hg⟩
    · exact hown.elim
    · exact .memory hserved hc hstarved
    · cases hg
  · rcases hblame with hown | ⟨hexit, -⟩ | ⟨hcalls, -⟩
    · exact hown.elim
    · cases hexit
    · exact .callback hserved hc hcalls g

/-- Something happens to an open connection. -/
theorem Orderly.serve (hsrv : srv.Private) (h : Orderly srv r) {bs : List UInt8} {e : ConnEvent}
    {fail : Fault → Prop} (hown : ∀ c, e ≠ .others c)
    (hstep : ∀ c, Serving srv r fd c → StepEnds srv fd c.arrived bs (r.view fd c) e)
    (hfail : ∀ c f, r.live fd = some c → Culprit srv c.arrived (r.view fd c) e f →
      Blame srv (r.view fd c) e f → fail f) :
    Ends (r.serve srv fd bs e) (Orderly srv) fail := by
  unfold TcpReactor.serve
  cases hc : r.live fd with
  | none => exact h
  | some c =>
    have hserv := h.serving hc
    have hlt : fd < r.conns.length :=
      (List.getElem?_eq_some_iff.mp (TcpReactor.live_eq_some.mp hc).1).1
    have hfd : (r.view fd c).conn.connfd = fd := hserv.connfd
    have hcap := h.capped
    apply ((((hstep c hserv).and (step_blame (r.view fd c) e)).imp (fun _ hs => hs.1)
      (fun f hf => hfail c f hc hf.1 hf.2)).and_post (step_heeds hsrv hserv.eager hown)).bind
    rintro s' ⟨⟨hrests, hout⟩, hheeds⟩
    cases hrests with
    | inl hst =>
      have hcount : s'.currConns = r.currConns := hst.currConns
      refine h.put hlt ⟨hst.others, hst.memory, fun e he => hst.mask e (by rwa [hfd])⟩ hout
        hheeds ?_ (by omega)
      rw [hc, hst.connfd, hfd, if_neg (show ¬ (fd : Int) = -1 by omega), hcount]
      simp
    | inr hl =>
      have hcount : s'.currConns = r.currConns - 1 := hl.currConns
      refine h.put hlt ⟨hl.others, hl.memory, fun e he => hl.mask e (by rwa [hfd])⟩ hout hheeds ?_
        (by omega)
      rw [hc, hl.cleaned.connfd, if_pos rfl, hcount]
      simp

/-- The object that a new connection with descriptor `fd` gets. -/
theorem Orderly.blank (h : Orderly srv r) (hfree : r.live fd = none) {c : Option Session}
    (hget : r.conns[fd]? = some c) : Blank (r.view fd (.start (c.elim .new Session.conn))) := by
  have hempty : (c.elim TcpConn.new Session.conn).ibuf = none ∧
      (c.elim TcpConn.new Session.conn).obuf = none ∧ held c = [] := by
    cases c with
    | none => exact ⟨rfl, rfl, rfl⟩
    | some c =>
      have hret : Retired srv c := by
        cases h.each fd c hget with
        | inr hret => exact hret
        | inl hserv =>
          rw [TcpReactor.live_eq_some.mpr ⟨hget, hserv.isOpen⟩] at hfree
          cases hfree
      refine ⟨hret.ibuf, hret.obuf, ?_⟩
      show c.conn.ibuf.toList ++ c.conn.obuf.toList = []
      rw [hret.ibuf, hret.obuf]
      rfl
  obtain ⟨hibuf, hobuf, hheld⟩ := hempty
  refine ⟨?_, hibuf, hobuf, h.unwatched, rfl, rfl⟩
  have hperm := flatMap_perm_of_getElem? held hget
  rw [hheld] at hperm
  exact h.inv.perm hperm

/-- A connection comes in. -/
theorem Orderly.accept (hsrv : srv.Private) (h : Orderly srv r) (hfree : r.live fd = none)
    (loop : Nat) : Ends (r.accept srv loop fd) (Orderly srv) (Stops srv r (.accept fd)) := by
  unfold TcpReactor.accept
  split
  next =>
    -- only the list of closed descriptors is longer
    refine ⟨h.inv, fun j c hc => ?_, h.unwatched, h.idle, h.count, h.capped⟩
    cases h.each j c hc with
    | inr hret => exact .inr hret
    | inl hserv => exact .inl (hserv.carry hc h.inv (fun _ _ => rfl) rfl h.unwatched)
  next =>
    cases hget : r.conns[fd]? with
    | none => exact .range (List.getElem?_eq_none_iff.mp hget)
    | some c =>
      have hlt := (List.getElem?_eq_some_iff.mp hget).1
      have hblank := h.blank hfree hget
      have hinit := (init_joins hsrv hblank fd loop).and (init_blame _ fd loop)
      apply ((hinit.imp (fun _ hs => hs.1) _).and_post
        (init_eager hsrv hblank fd loop (h.idle fd hfree))).bind
      · rintro s' ⟨hj, heager⟩
        have hcount : s'.currConns = r.currConns + 1 := hj.currConns
        refine h.put hlt ⟨hj.others, hj.memory, hj.mask⟩
          (.serving hj.connfd (hj.live.tracks hj.dispatched) hj.isOpen) (.inl heager) ?_ (by omega)
        rw [hfree, hj.connfd, if_neg (show ¬ (fd : Int) = -1 by omega), hcount]
        simp
      · rintro f ⟨-, hcb, g, rfl⟩
        exact .built hcb g

theorem Orderly.step (hsrv : srv.Private) (h : Orderly srv r) (loop : Nat) {e : Event}
    (hmodest : e.Modest) : Ends (r.step srv loop e) (Orderly srv) (Stops srv r e) := by
  cases e with
  | accept fd =>
    unfold TcpReactor.step
    simp only
    split
    next => exact h
    next hc => exact h.accept hsrv hc loop
  | readable fd bs =>
    refine h.serve hsrv (fun _ he => by cases he) ?_ ?_
    · intro c hserv
      obtain ⟨rest, hrest⟩ := hserv.rest
      exact readable_outcome hsrv hserv.connfd hserv.tracks hserv.output hmodest hrest
    · intro c f hc hf hblame
      cases hf with
      | early he => exact .early rfl hc he hblame
      | emptyFrame hrecv hend =>
        injection hrecv with _ hread
        injection hread with hbs
        rw [← hbs] at hend
        exact .emptyFrame hc hend
  | broken fd rn =>
    refine h.serve hsrv (fun _ he => by cases he) ?_ ?_
    · intro c hserv
      obtain ⟨rest, hrest⟩ := hserv.rest
      exact broken_outcome hsrv hserv.connfd hserv.tracks hserv.output hrest hmodest
    · intro c f hc hf hblame
      cases hf with
      | early he => exact .early rfl hc he hblame
      | emptyFrame hrecv _ =>
        injection hrecv with _ hread
        cases hread
  | writable fd ws =>
    refine h.serve hsrv (fun _ he => by cases he) ?_ ?_
    · intro c hserv
      obtain ⟨rest, hrest⟩ := hserv.rest
      exact writable_outcome hsrv hserv.connfd hserv.tracks hserv.output hrest ws
    · intro c f hc hf hblame
      cases hf with
      | early he => exact .early rfl hc he hblame
      | writable href => exact .writable hc href f
  | sendData fd data cmdid =>
    refine h.serve hsrv (fun _ he => by cases he) ?_ ?_
    · intro c hserv
      obtain ⟨rest, hrest⟩ := hserv.rest
      exact sendData_outcome hserv.connfd hserv.tracks hserv.output hrest hmodest cmdid
    · intro c f hc hf hblame
      cases hf with
      | early he => exact .early rfl hc he hblame
      | sendData href => exact .sendData hc href f

theorem start_orderly (srv : TcpServer) (raw : BufId → Nat → UInt8) (size : Nat)
    (maxConns : Int) : Orderly srv (.start raw size maxConns) := by
  refine ⟨?_, ?_, rfl, fun _ _ => rfl, ?_, Int.le_max_right _ _⟩
  · have hnone : (TcpReactor.start raw size maxConns).conns.flatMap held = [] := by
      simp [TcpReactor.start, held]
    rw [hnone]
    exact init_inv raw
  · intro fd c hc
    have hmem : some c ∈ List.replicate size (none : Option Session) := List.mem_of_getElem? hc
    cases List.eq_of_mem_replicate hmem
  · unfold TcpReactor.opened TcpReactor.start
    simp [List.countP_replicate, entryOpen]

theorem run_orderly (hsrv : srv.Private) (raw : BufId → Nat → UInt8) (size : Nat)
    (maxConns : Int) (loop : Nat) (events : List Event) (hmodest : ∀ e ∈ events, e.Modest) :
    Ends (TcpReactor.run srv raw size maxConns loop events) (Orderly srv)
      (fun f => ∃ done e post r, events = done ++ e :: post ∧
        TcpReactor.run srv raw size maxConns loop done = .ok r ∧
          r.step srv loop e = .error f ∧ Stops srv r e f) := by
  suffices h : Ends (TcpReactor.run srv raw size maxConns loop events)
      (fun r => TcpReactor.run srv raw size maxConns loop events = .ok r ∧ Orderly srv r)
      (fun f => ∃ done e post r, events = done ++ e :: post ∧
        TcpReactor.run srv raw size maxConns loop done = .ok r ∧
          r.step srv loop e = .error f ∧ Stops srv r e f) from h.imp (fun _ hr => hr.2) (fun _ hf => hf)
  refine Ends.foldlM (P := fun done r =>
    TcpReactor.run srv raw size maxConns loop done = .ok r ∧ Orderly srv r) ?_
    ⟨rfl, start_orderly srv raw size maxConns⟩
  rintro done e post r hevents ⟨hrun, h⟩
  apply Ends.intro
  · intro r' hr'
    refine ⟨foldlM_concat_eq_ok.mpr ⟨r, hrun, hr'⟩, ?_⟩
    exact (h.step hsrv loop (hmodest e (by simp [hevents]))).of_ok hr'
  · intro f hf
    refine ⟨done, e, post, r, hevents, hrun, hf, ?_⟩
    exact (h.step hsrv loop (hmodest e (by simp [hevents]))).of_error hf

/-! ## Every connection on its own -/

/-- The connection has dispatched what the reference parser makes of its own bytes and sent the
frames of its own messages in order; while it is open, its buffers hold the rest of both. -/
structure Alone (srv : TcpServer) (r : TcpReactor) (c : Session) : Prop where
  dispatched : c.dispatched = (refDecode srv.dispatcher.exist c.arrived).msgs
  sent : c.refused = 0 → c.sent <+: frames c.accepted
  unread : c.isOpen = true →
    ∃ bs, (refDecode srv.dispatcher.exist c.arrived).rest = some bs ∧ r.Unread c bs
  unsent : c.isOpen = true → c.refused = 0 →
    ∃ pending, r.Unsent c pending ∧ c.sent ++ pending = frames c.accepted

theorem Orderly.alone (h : Orderly srv r) {fd : Nat} {c : Session}
    (hc : r.conns[fd]? = some (some c)) : Alone srv r c := by
  cases h.each fd c hc with
  | inl hserv =>
    refine ⟨hserv.tracks.dispatched, hserv.output.sends, fun _ => ?_, fun _ href => ?_⟩
    · obtain ⟨bs, hbs⟩ := hserv.rest
      exact ⟨bs, hbs, (hserv.tracks.live hbs).held⟩
    · exact hserv.output.outflow href
  | inr hret =>
    have hshut := hret.not_isOpen
    exact ⟨hret.dispatched, hret.sends, by simp [hshut], by simp [hshut]⟩

/-- However the events of the connections are interleaved, what a connection dispatches and
sends depends on its own bytes and its own messages. -/
theorem connections_isolated (hsrv : srv.Private) {raw : BufId → Nat → UInt8} {size : Nat}
    {maxConns : Int} {loop : Nat} {events : List Event} (hmodest : ∀ e ∈ events, e.Modest)
    {r : TcpReactor} (hrun : TcpReactor.run srv raw size maxConns loop events = .ok r) {fd : Nat}
    {c : Session} (hc : r.conns[fd]? = some (some c)) : Alone srv r c :=
  ((run_orderly hsrv raw size maxConns loop events hmodest).of_ok hrun).alone hc

/-- Two connections at a time: the first has half a frame when the second has a whole one. -/
def twoPeers : List Event :=
  [.accept 3, .readable 3 [1, 0, 0, 0, 1], .accept 4, .sendData 3 [5] 1,
    .readable 4 (Msg.mk 1 [9]).frame, .readable 3 [0, 0, 0, 7], .readable 4 [],
    .writable 3 [.wrote 9]]

theorem twoPeers_modest : ∀ e ∈ twoPeers, e.Modest := by
  intro e he
  simp only [twoPeers, List.mem_cons, List.not_mem_nil, or_false] at he
  rcases he with rfl | rfl | rfl | rfl | rfl | rfl | rfl | rfl <;>
    simp [Event.Modest, Msg.frame, commuHeadLength]

theorem twoPeers_runs : ∃ r,
    TcpReactor.run (quietServer [1]) (fun _ _ => 0) 8 5 0 twoPeers = .ok r ∧ r.closed = [4] := by
  apply ok_of_observed
  decide +kernel

theorem connections_isolated_twoPeers : ∃ r,
    TcpReactor.run (quietServer [1]) (fun _ _ => 0) 8 5 0 twoPeers = .ok r ∧
      ∀ (fd : Nat) (c : Session), r.conns[fd]? = some (some c) → Alone (quietServer [1]) r c := by
  obtain ⟨r, hrun, -⟩ := twoPeers_runs
  exact ⟨r, hrun, fun _ _ hc => connections_isolated (private_quiet [1]) twoPeers_modest hrun hc⟩

/-- Nothing is kept for a connection that is not open: `_curr_conns` counts the open ones, up to
the limit, only their descriptors are registered, and the pool's buffers are theirs or free.
An open one is called when there is something to read, and exactly while it has something to
write when it can. -/
structure Reckoned (r : TcpReactor) (maxConns : Int) : Prop where
  count : r.currConns = r.opened
  capped : r.currConns ≤ max maxConns 0
  watched : ∀ fd : Nat, r.evs.mask fd ≠ 0 → ∃ c, r.live fd = some c
  reading : ∀ (fd : Nat) (c : Session), r.live fd = some c → r.evs.Watches fd epollIn
  writing : ∀ (fd : Nat) (c : Session), r.live fd = some c →
    (r.evs.Watches fd epollOut ↔ c.conn.obuf.length r.pool ≠ 0)
  buffers : PoolInv r.pool (r.conns.flatMap held)
  released : r.opened = 0 → PoolInv r.pool []

theorem held_of_not_open (h : Orderly srv r) {x : Option Session} (hx : x ∈ r.conns)
    (hshut : entryOpen x = false) : held x = [] := by
  cases x with
  | none => rfl
  | some c =>
    obtain ⟨fd, hfd⟩ := List.getElem?_of_mem hx
    cases h.each fd c hfd with
    | inl hserv => exact absurd hserv.isOpen (by simpa [entryOpen] using hshut)
    | inr hret =>
      change c.conn.ibuf.toList ++ c.conn.obuf.toList = []
      rw [hret.ibuf, hret.obuf]
      rfl

theorem Orderly.reckoned (h : Orderly srv r) : Reckoned r r.maxConns := by
  refine ⟨h.count, h.capped, fun fd hmask => ?_, fun fd c hc => ?_, fun fd c hc => ?_, h.inv,
    fun hnone => ?_⟩
  · cases hlive : r.live fd with
    | none => exact absurd (h.idle fd hlive) hmask
    | some c => exact ⟨c, rfl⟩
  · have hserv := h.serving hc
    obtain ⟨bs, hbs⟩ := hserv.rest
    have hreading := (hserv.tracks.live hbs).reading
    change r.evs.Watches c.conn.connfd epollIn at hreading
    rwa [hserv.connfd] at hreading
  · have hserv := h.serving hc
    have hwriting := hserv.eager.interest
    change r.evs.Watches c.conn.connfd epollOut ↔ _ at hwriting
    rwa [hserv.connfd] at hwriting
  · have hempty : r.conns.flatMap held = [] := by
      rw [List.flatMap_eq_nil_iff]
      intro x hx
      have hshut := List.countP_eq_zero.mp hnone x hx
      exact held_of_not_open h hx (by simpa using hshut)
    have hinv := h.inv
    rwa [hempty] at hinv

theorem serve_maxConns (r : TcpReactor) (fd : Nat) (bs : List UInt8) (e : ConnEvent) :
    Ends (r.serve srv fd bs e) (fun r' => r'.maxConns = r.maxConns) (fun _ => True) := by
  unfold TcpReactor.serve
  split
  next => rfl
  next => exact (Ends.any _).bind fun _ _ => rfl

theorem step_maxConns (r : TcpReactor) (loop : Nat) (e : Event) :
    Ends (r.step srv loop e) (fun r' => r'.maxConns = r.maxConns) (fun _ => True) := by
  cases e with
  | accept fd =>
    unfold TcpReactor.step TcpReactor.accept
    simp only
    split
    next => rfl
    next =>
      split
      next => rfl
      next =>
        split
        next => trivial
        next => exact (Ends.any _).bind fun _ _ => rfl
  | readable fd bs => exact serve_maxConns r fd bs _
  | broken fd rn => exact serve_maxConns r fd [] _
  | writable fd ws => exact serve_maxConns r fd [] _
  | sendData fd data cmdid => exact serve_maxConns r fd [] _

theorem run_maxConns (raw : BufId → Nat → UInt8) (size : Nat) (maxConns : Int) (loop : Nat)
    (events : List Event) :
    Ends (TcpReactor.run srv raw size maxConns loop events) (fun r => r.maxConns = maxConns)
      (fun _ => True) := by
  refine Ends.foldlM (P := fun _ (r : TcpReactor) => r.maxConns = maxConns) ?_ rfl
  intro done e post r _ h
  exact (step_maxConns r loop e).imp (fun _ h' => h'.trans h) (fun _ _ => trivial)

/-- What a peer, the kernel or the user can bring the process down with. -/
theorem run_stops (hsrv : srv.Private) (raw : BufId → Nat → UInt8) (size : Nat)
    (maxConns : Int) (loop : Nat) (events : List Event) (hmodest : ∀ e ∈ events, e.Modest)
    {f : Fault} (hrun : TcpReactor.run srv raw size maxConns loop events = .error f) :
    ∃ done e post r, events = done ++ e :: post ∧
      TcpReactor.run srv raw size maxConns loop done = .ok r ∧
        r.step srv loop e = .error f ∧ Stops srv r e f := by
  obtain ⟨done, e, post, r, hevents, hok, hfails, hstops⟩ :=
    (run_orderly hsrv raw size maxConns loop events hmodest).of_error hrun
  exact ⟨done, e, post, r, hevents, hok, hfails, hstops⟩

/-- A second connection stands in the middle of a frame when the first ends in an empty one. -/
def emptyBeside : List Event :=
  [.accept 3, .accept 4, .readable 3 [1, 0, 0, 0, 1], .readable 4 (Msg.mk 1 []).frame]

theorem run_stops_emptyBeside :
    ∃ f done e post r, emptyBeside = done ++ e :: post ∧
      TcpReactor.run (quietServer [1]) (fun _ _ => 0) 8 5 0 done = .ok r ∧
        r.step (quietServer [1]) 0 e = .error f ∧ Stops (quietServer [1]) r e f := by
  have hmodest : ∀ e ∈ emptyBeside, e.Modest := by
    intro e he
    simp only [emptyBeside, List.mem_cons, List.not_mem_nil, or_false] at he
    rcases he with rfl | rfl | rfl | rfl <;> simp [Event.Modest, Msg.frame, commuHeadLength]
  have hobs : (TcpReactor.run (quietServer [1]) (fun _ _ => 0) 8 5 0 emptyBeside).toOption.isNone =
      true := by
    decide +kernel
  cases hrun : TcpReactor.run (quietServer [1]) (fun _ _ => 0) 8 5 0 emptyBeside with
  | ok r =>
    rw [hrun] at hobs
    cases hobs
  | error f =>
    exact ⟨f, run_stops (private_quiet [1]) (fun _ _ => 0) 8 5 0 emptyBeside hmodest hrun⟩

end EasyReactor.Reactor
