import EasyReactor.Server.Interest

set_option autoImplicit false

/-!
# Server: the life of a connection object

`tcp_server` keeps its connection objects and initialises them again for the next
connection with the same descriptor.  A run here is over one object: `init`, the events of
its descriptor, calls of the user, `clean_conn`, and `init` again.
-/

namespace EasyReactor.Server

open EasyReactor.Foundation EasyReactor.Buffer EasyReactor.Loop EasyReactor.Wire

/-- What can happen to a connection object. -/
inductive ObjectEvent where
  /-- `accept` returned a descriptor for it -/
  | init (connfd loop : Nat)
  | event (e : ConnEvent)
  /-- `commu->parameter = v`, outside its callbacks -/
  | setParameter (v : Ptr)
  | cleanConn

namespace ConnState

/-- One event; `accept` returns no descriptor that is still open. -/
def lifeStep (srv : TcpServer) (s : ConnState) : ObjectEvent → Except Fault ConnState
  | .init connfd loop =>
    match s.conn.loop with
    | some _ => return s
    | none => s.init srv connfd loop
  | .event e => s.step srv e
  | .setParameter v => return { s with conn := { s.conn with parameter := v } }
  | .cleanConn => s.cleanConn srv

/-- A process runs for a while, and then one object lives in it. -/
@[irreducible] def lifeRun (srv : TcpServer) (raw : BufId → Nat → UInt8) (before : List PoolCommand)
    (events : List ObjectEvent) : Except Fault ConnState := do
  let s ← before.foldlM poolCommand (boot raw)
  events.foldlM (lifeStep srv) s

/-- The same process with a new object: `new tcp_conn`, up to its call of `init`. -/
def fresh (s : ConnState) : ConnState := { s with conn := .new }

end ConnState

variable {srv : TcpServer} {s : ConnState} {thrifty : Prop}

/-! ## A cleaned connection -/

/-- A call on a cleaned connection runs into the `_loop` that is not there, or is refused. -/
theorem sendData_released (h : Released s) (data : List UInt8) (cmdid : Int32) :
    Ends (s.sendData data cmdid) (fun r => Released r.1) (fun _ => True) := by
  have hinv : PoolInv s.pool (s.conn.obuf.toList ++ s.others) := by
    rw [h.obuf]
    exact h.inv
  have hheld : Holds s.pool s.conn.obuf 0 [] := by
    rw [h.obuf]
    rfl
  apply (sendData_ends hinv hheld data cmdid).imp _ (fun _ _ => trivial)
  intro r hr
  cases hr with
  | refused => exact h
  | takenBack hk _ hemptied =>
    have hnone := hemptied.mpr rfl
    subst hnone
    exact ⟨⟨hk.inv, h.connfd, h.loop, h.ibuf, rfl, h.unwatched⟩, h.bare⟩
  | accepted _ _ _ hloop => exact absurd h.loop (hloop rfl)

theorem perform_released (h : Released s) (act : UserAct) :
    Ends (s.perform act) Released (fun _ => True) := by
  cases act with
  | sendData data cmdid =>
    show Ends (s.send data cmdid) Released (fun _ => True)
    unfold ConnState.send
    apply (sendData_released h data cmdid).bind
    rintro ⟨s', ret⟩ h'
    have hrel : ∀ accepted refused,
        Released { s' with accepted := accepted, refused := refused } := fun _ _ =>
      ⟨⟨h'.inv, h'.connfd, h'.loop, h'.ibuf, h'.obuf, h'.unwatched⟩, h'.bare⟩
    simp only
    split
    · exact hrel _ s'.refused
    · exact hrel s'.accepted _
  | setParameter v => exact ⟨⟨h.inv, h.connfd, h.loop, h.ibuf, h.obuf, h.unwatched⟩, h.bare⟩
  | others c =>
    have hinv : PoolInv s.pool ([] ++ s.others) := h.inv
    apply (poolCommand_ends hinv c).imp _ (fun _ _ => trivial)
    rintro _ ⟨p, os, rfl, hp, -⟩
    exact ⟨⟨hp, h.connfd, h.loop, h.ibuf, h.obuf, h.unwatched⟩, h.bare⟩

theorem callIf_released (h : Released s) (cb : Option ConnCallback) :
    Ends (s.callIf cb) Released (fun _ => True) := by
  cases cb with
  | none => exact h
  | some cb =>
    have hrun : Ends ((cb s.dispatched).foldlM ConnState.perform s) Released (fun _ => True) :=
      Ends.foldlM (P := fun _ => Released) (fun _ act _ _ _ hs => perform_released hs act) h
    show Ends (s.callback (cb s.dispatched)) Released (fun _ => True)
    unfold ConnState.callback
    cases hf : (cb s.dispatched).foldlM ConnState.perform s with
    | ok s' => exact hrun.of_ok hf
    | error g => trivial

/-- `clean_conn` does not return a second time. -/
theorem cleanConn_again (h : Released s) :
    Ends (s.cleanConn srv) (fun _ => False) (fun _ => True) := by
  unfold ConnState.cleanConn
  apply (callIf_released h srv.connCloseCb).bind
  intro s₁ h₁
  simp only [h₁.loop]
  trivial

/-! ## One event -/

/-- The object of a descriptor that `accept` just returned. -/
theorem init_settled (h : Released s) (connfd loop : Nat) :
    Ends (s.init srv connfd loop) (Settled thrifty) (fun _ => True) := by
  unfold ConnState.init
  have h₀ : Tracked thrifty
      { s with conn := { s.conn with connfd := connfd, loop := some loop } } := by
    refine ⟨⟨⟨?_, by simp, Int.natCast_nonneg _, h.unwatched⟩, ⟨0, [], ?_⟩, ?_⟩, ?_, ?_⟩
    · change PoolInv s.pool (s.conn.ibuf.toList ++ (s.conn.obuf.toList ++ s.others))
      rw [h.ibuf, h.obuf]
      exact h.inv
    · change Holds s.pool s.conn.obuf 0 []
      rw [h.obuf]
      rfl
    · exact fun fd _ => h.bare fd
    · change _ ↔ s.conn.obuf.length s.pool ≠ 0
      rw [h.obuf]
      exact ⟨fun hw => absurd hw h.bare.not_watches, fun hne => absurd rfl hne⟩
    · exact fun _ hne => absurd h.obuf hne
  apply (callIf_tracked h₀ srv.connBuildCb).bind
  rintro s₁ ⟨h₁, hu⟩
  have hflow := h₁.toFlowing.addIoev .tcpRcb epollIn
  have ha := hflow.attached
  refine .inl ⟨⟨⟨⟨ha.inv, ha.loop, ha.fd, ha.unwatched⟩, h₁.output, hflow.lone⟩, ?_, h₁.filled⟩,
    EventLoop.watches_addIoev_self (by decide), ?_⟩
  · exact ⟨fun hw => h₁.interest.mp (EventLoop.watches_addIoev_in hw),
      fun hne => (h₁.interest.mpr hne).addIoev⟩
  · change s₁.conn.ibuf.Filled s₁.pool
    rw [hu.ibuf.trans h.ibuf]
    exact TcpBuffer.filled_none s₁.pool

/-- If it is a `handle_write`, it leaves something in `obuf`. -/
def LeavesOutput (s : ConnState) : ObjectEvent → Prop
  | .event (.writable ws) => s.evs.Watches s.conn.connfd epollOut →
      drains (s.conn.obuf.length s.pool).toNat ws = false
  | _ => True

theorem step_settled (h : Settled thrifty s) {e : ConnEvent}
    (hleaves : thrifty → LeavesOutput s (.event e)) :
    Ends (s.step srv e) (Settled thrifty) (fun _ => True) := by
  unfold ConnState.step
  cases e with
  | readable r =>
    simp only
    split
    next hw =>
      cases h with
      | inl h => exact handleRead_settled h r
      | inr h => exact absurd hw h.bare.not_watches
    next => exact h
  | writable ws =>
    simp only
    split
    next hw =>
      cases h with
      | inl h => exact handleWrite_settled h hw fun ht => hleaves ht hw
      | inr h => exact absurd hw h.bare.not_watches
    next => exact h
  | sendData data cmdid =>
    cases h with
    | inl h =>
      apply ((send_tracked h.toTracked data cmdid).and_post _).imp
        (fun s' hs => .inl (h.undisturbed hs.1 hs.2)) (fun _ _ => trivial)
      exact (send_undisturbed h.attached data cmdid).imp (fun _ hs => hs.2) (fun _ _ => trivial)
    | inr h =>
      exact (perform_released h (.sendData data cmdid)).imp (fun _ hs => .inr hs) (fun _ he => he)
  | others c =>
    cases h with
    | inl h =>
      apply ((poolCommand_tracked h.toTracked c).and_post _).imp
        (fun s' hs => .inl (h.undisturbed hs.1 hs.2)) (fun _ _ => trivial)
      exact (poolCommand_undisturbed h.attached c).imp (fun _ hs => hs.2) (fun _ _ => trivial)
    | inr h =>
      exact (perform_released h (.others c)).imp (fun _ hs => .inr hs) (fun _ he => he)

theorem lifeStep_settled (h : Settled thrifty s) {e : ObjectEvent}
    (hleaves : thrifty → LeavesOutput s e) :
    Ends (s.lifeStep srv e) (Settled thrifty) (fun _ => True) := by
  cases e with
  | init connfd loop =>
    show Ends (match s.conn.loop with
      | some _ => pure s
      | none => s.init srv connfd loop) _ _
    split
    next => exact h
    next hloop =>
      cases h with
      | inl h => exact absurd hloop h.attached.loop
      | inr h => exact init_settled h connfd loop
  | event e => exact step_settled h hleaves
  | setParameter v =>
    cases h with
    | inl h =>
      have ha := h.attached
      exact .inl ⟨⟨⟨⟨ha.inv, ha.loop, ha.fd, ha.unwatched⟩, h.output, h.lone⟩, h.interest,
        h.filled⟩, h.reading, h.input⟩
    | inr h => exact .inr ⟨⟨h.inv, h.connfd, h.loop, h.ibuf, h.obuf, h.unwatched⟩, h.bare⟩
  | cleanConn =>
    cases h with
    | inl h => exact cleanConn_settled h.toTracked
    | inr h => exact (cleanConn_again h).imp (fun _ hf => hf.elim) (fun _ _ => trivial)

/-! ## Runs -/

/-- An object that was never initialised is like one that was cleaned. -/
theorem Unconnected.released (h : Unconnected s) : Released s := by
  refine ⟨⟨h.inv, ?_, ?_, ?_, ?_, ?_⟩, ?_⟩
  · rw [h.conn]
    rfl
  · rw [h.conn]
    rfl
  · rw [h.conn]
    rfl
  · rw [h.conn]
    rfl
  · rw [h.evs]
    rfl
  · rw [h.evs]
    exact fun _ => rfl

theorem boot_released (raw : BufId → Nat → UInt8) : Released (.boot raw) :=
  ((before_ends raw []).of_ok (foldlM_nil_eq _ _)).1.released

/-- What every run keeps, whether or not `obuf` is drained on the way. -/
theorem events_settled (h : Settled False s) (events : List ObjectEvent) :
    Ends (events.foldlM (ConnState.lifeStep srv) s) (Settled False) (fun _ => True) :=
  Ends.foldlM (P := fun _ => Settled False)
    (fun _ _ _ _ _ hs => lifeStep_settled hs fun hf => hf.elim) h

theorem lifeRun_settled (srv : TcpServer) (raw : BufId → Nat → UInt8)
    (before : List PoolCommand) (events : List ObjectEvent) :
    Ends (ConnState.lifeRun srv raw before events) (Settled False) (fun _ => True) := by
  unfold ConnState.lifeRun
  apply ((before_ends raw before).imp (fun _ hs => hs) (fun _ _ => trivial)).bind
  rintro s ⟨h, -⟩
  exact events_settled (.inr h.released) events

/-- In every state between callbacks: a live connection is registered for `EPOLLIN`, and for
`EPOLLOUT` exactly when `obuf` holds something; a cleaned one has no registration and no
buffer. -/
theorem write_interest_tracks_output (srv : TcpServer) (raw : BufId → Nat → UInt8)
    (before : List PoolCommand) (events : List ObjectEvent) :
    Ends (ConnState.lifeRun srv raw before events)
      (fun s => (s.conn.loop ≠ none →
          (s.evs.Watches s.conn.connfd epollOut ↔ 0 < s.conn.obuf.length s.pool) ∧
            s.evs.Watches s.conn.connfd epollIn) ∧
        (s.conn.loop = none →
          (∀ fd, s.evs.ioEvs fd = none) ∧ s.conn.ibuf = none ∧ s.conn.obuf = none))
      (fun _ => True) := by
  apply (lifeRun_settled srv raw before events).imp _ (fun _ he => he)
  intro s hs
  refine ⟨fun hlive => ?_, fun hdead => ?_⟩
  · cases hs with
    | inl h =>
      obtain ⟨off, pending, hheld⟩ := h.output
      have hlen := hheld.length
      exact ⟨h.interest.trans (by omega), h.reading⟩
    | inr h => exact absurd h.loop hlive
  · cases hs with
    | inl h => exact absurd hdead h.attached.loop
    | inr h => exact ⟨h.bare, h.ibuf, h.obuf⟩

/-- A connection has a buffer for reading exactly while it holds unconsumed bytes, and one for
writing exactly while it holds unsent ones, as long as no `handle_write` drains `obuf`. -/
theorem buffers_held_while_needed (srv : TcpServer) (raw : BufId → Nat → UInt8)
    (before : List PoolCommand) {s₀ : ConnState}
    (hbefore : before.foldlM ConnState.poolCommand (.boot raw) = .ok s₀)
    (events : List ObjectEvent)
    (hleaves : Meets (ConnState.lifeStep srv) LeavesOutput s₀ events) :
    Ends (events.foldlM (ConnState.lifeStep srv) s₀)
      (fun s => (s.conn.ibuf ≠ none ↔ 0 < s.conn.ibuf.length s.pool) ∧
        (s.conn.obuf ≠ none ↔ 0 < s.conn.obuf.length s.pool))
      (fun _ => True) := by
  have h₀ := ((before_ends raw before).of_ok hbefore).1.released
  have hrun : Ends (events.foldlM (ConnState.lifeStep srv) s₀) (Settled True) (fun _ => True) :=
    Ends.foldlM_meets (fun _ _ hs hc => lifeStep_settled hs fun _ => hc) events s₀ (.inr h₀) hleaves
  apply hrun.imp _ (fun _ he => he)
  intro s hs
  cases hs with
  | inl h =>
    refine ⟨h.input.length_pos, ?_⟩
    obtain ⟨off, pending, hheld⟩ := h.output
    have hlen := hheld.length
    refine ⟨fun hne => ?_, fun hpos hnone => ?_⟩
    · have hfilled := h.filled trivial hne
      omega
    · rw [hnone] at hpos
      exact absurd hpos (Int.lt_irrefl 0)
  | inr h =>
    rw [h.ibuf, h.obuf]
    exact ⟨by simp [TcpBuffer.length], by simp [TcpBuffer.length]⟩

/-- A process whose memory holds zeros. -/
@[irreducible] def zeroed : ConnState := .boot fun _ _ => 0

theorem zeroed_eq : zeroed = .boot fun _ _ => 0 := by
  unfold zeroed
  rfl

theorem zeroed_released : Released zeroed := by
  rw [zeroed_eq]
  exact boot_released _

/-- A connection is made, and a frame of nine bytes is sent on it. -/
def oneSent : List ObjectEvent := [.init 7 0, .event (.sendData [7] 1)]

theorem oneSent_output :
    (oneSent.foldlM (ConnState.lifeStep (quietServer [1])) zeroed).toOption.map
        (fun s => (s.conn.loop.isSome, s.refused, s.conn.obuf.length s.pool,
          s.conn.obuf.map fun b => (s.pool.bufs b).head)) =
      some (true, 0, 9, some 0) := by
  decide +kernel

/-- The socket takes the first five bytes. -/
theorem buffers_held_while_needed_partly :
    Ends ((oneSent ++ [ObjectEvent.event (.writable [.wrote 5])]).foldlM
        (ConnState.lifeStep (quietServer [1])) zeroed)
      (fun s => (s.conn.ibuf ≠ none ↔ 0 < s.conn.ibuf.length s.pool) ∧
        (s.conn.obuf ≠ none ↔ 0 < s.conn.obuf.length s.pool))
      (fun _ => True) := by
  have hbefore : [].foldlM ConnState.poolCommand (.boot fun _ _ => 0) = .ok zeroed := by
    rw [zeroed_eq, foldlM_nil_eq]
  apply buffers_held_while_needed (quietServer [1]) (fun _ _ => 0) [] hbefore
  apply Meets.concat
  · refine ⟨trivial, ?_⟩
    split
    · refine ⟨trivial, ?_⟩
      split <;> trivial
    · trivial
  · intro s hrun _
    have hobs := oneSent_output
    rw [hrun] at hobs
    have hlen : s.conn.obuf.length s.pool = 9 :=
      congrArg (fun o => o.2.2.1) (Option.some.inj hobs)
    rw [hlen]
    rfl

/-- The socket takes all nine bytes, and `obuf` keeps its buffer. -/
theorem drained_buffer_kept :
    ¬ Ends ((oneSent ++ [ObjectEvent.event (.writable [.wrote 9])]).foldlM
        (ConnState.lifeStep (quietServer [1])) zeroed)
      (fun s => s.conn.loop ≠ none → s.refused = 0 →
        (s.conn.ibuf ≠ none ↔ 0 < s.conn.ibuf.length s.pool) ∧
        (s.conn.obuf ≠ none ↔ 0 < s.conn.obuf.length s.pool))
      (fun _ => True) := by
  intro h
  have hobs := oneSent_output
  obtain ⟨s, hrun, hobs⟩ := ok_of_observed hobs
  obtain ⟨hlive, hobs⟩ := Prod.mk.inj hobs
  obtain ⟨href, hobs⟩ := Prod.mk.inj hobs
  obtain ⟨hlen, hhead⟩ := Prod.mk.inj hobs
  have hsettled : Settled False s :=
    (events_settled (.inr zeroed_released) oneSent).of_ok hrun
  cases hsettled with
  | inr hrel =>
    rw [hrel.loop] at hlive
    cases hlive
  | inl hlist =>
    obtain ⟨off, pending, hheld⟩ := hlist.output
    cases hb : s.conn.obuf with
    | none =>
      rw [hb] at hhead
      cases hhead
    | some b =>
      rw [hb] at hhead hlen hheld
      have hhead₀ : (s.pool.bufs b).head = 0 := Option.some.inj hhead
      rw [Window.head hheld] at hhead₀
      obtain rfl : off = 0 := by omega
      have hpending : pending.length = 9 := by
        have hl := Window.length hheld
        change (s.pool.bufs b).length = 9 at hlen
        omega
      have hdrains : drains pending.length [.wrote 9] = true := by
        rw [hpending]
        rfl
      obtain ⟨s', hwrite, hconn, href', hzero⟩ :=
        @handleWrite_drained (quietServer [1]) s hlist.attached b hb pending hheld _ hdrains
      have hwatch : s.evs.Watches s.conn.connfd epollOut := by
        rw [hlist.interest, hb, hlen]
        decide
      have hstep : s.lifeStep (quietServer [1]) (.event (.writable [.wrote 9])) = .ok s' := by
        show s.step (quietServer [1]) (.writable [.wrote 9]) = .ok s'
        unfold ConnState.step
        simp only
        rw [if_pos hwatch]
        exact hwrite
      have hend := h.of_ok (foldlM_concat_eq_ok.mpr ⟨s, hrun, hstep⟩)
      rw [hconn, href', href, hb] at hend
      rw [hconn, hb] at hzero
      have hheld_pos := (hend hlist.attached.loop rfl).2.mp (by simp)
      rw [hzero] at hheld_pos
      exact absurd hheld_pos (Int.lt_irrefl 0)

/-! ## Recycled objects -/

theorem init_conn (hbuild : srv.connBuildCb = none) (s : ConnState) (connfd loop : Nat) :
    ∃ s', s.init srv connfd loop = .ok s' ∧
      s'.conn = ⟨connfd, some loop, s.conn.ibuf, s.conn.obuf, s.conn.parameter⟩ := by
  unfold ConnState.init ConnState.callIf
  rw [hbuild]
  exact ⟨_, rfl, rfl⟩

/-- Without a `connBuildCb`, an object that was cleaned is initialised to what a new one is
exactly when `parameter` is `NULL`. -/
theorem recycled_like_fresh_iff (srv : TcpServer) (hbuild : srv.connBuildCb = none)
    (raw : BufId → Nat → UInt8) (before : List PoolCommand) (events : List ObjectEvent)
    (connfd loop : Nat) :
    Ends (ConnState.lifeRun srv raw before events)
      (fun s => s.conn.loop = none → ∃ r f, s.init srv connfd loop = .ok r ∧
        s.fresh.init srv connfd loop = .ok f ∧ (r.conn = f.conn ↔ s.conn.parameter = none))
      (fun _ => True) := by
  apply (lifeRun_settled srv raw before events).imp _ (fun _ he => he)
  intro s hs hcleaned
  obtain ⟨r, hr, hrconn⟩ := init_conn hbuild s connfd loop
  obtain ⟨f, hf, hfconn⟩ := init_conn hbuild s.fresh connfd loop
  refine ⟨r, f, hr, hf, ?_⟩
  cases hs with
  | inl h => exact absurd hcleaned h.attached.loop
  | inr h =>
    rw [hrconn, hfconn, h.ibuf, h.obuf, TcpConn.mk.injEq]
    exact ⟨fun heq => heq.2.2.2.2, fun hp => ⟨rfl, rfl, rfl, rfl, hp⟩⟩

/-- A connection that read one message, until its peer closed. -/
def oneRead : List ObjectEvent :=
  [.init 7 0, .event (.readable (.chunk (Msg.mk 1 [9]).frame)), .event (.readable (.chunk []))]

/-- The message callback does not store anything. -/
theorem recycled_like_fresh_quiet :
    Ends (ConnState.lifeRun (quietServer [1]) (fun _ _ => 0) [] oneRead)
      (fun s => s.conn.loop = none → ∃ r f, s.init (quietServer [1]) 7 0 = .ok r ∧
        s.fresh.init (quietServer [1]) 7 0 = .ok f ∧ (r.conn = f.conn ↔ s.conn.parameter = none))
      (fun _ => True) :=
  recycled_like_fresh_iff (quietServer [1]) rfl (fun _ _ => 0) [] oneRead 7 0

/-- A server whose message callback stores a session in `parameter`. -/
def sessionServer : TcpServer :=
  ⟨⟨[(1, fun _ _ => [.setParameter (some 42)])], []⟩, none, none⟩

/-- The next connection with the same descriptor finds the session of the last one. -/
theorem session_survives :
    ¬ Ends (ConnState.lifeRun sessionServer (fun _ _ => 0) [] oneRead)
      (fun s => s.conn.loop = none → ∃ r f, s.init sessionServer 7 0 = .ok r ∧
        s.fresh.init sessionServer 7 0 = .ok f ∧ r.conn = f.conn)
      (fun _ => True) := by
  intro h
  have hobs : (ConnState.lifeRun sessionServer (fun _ _ => 0) [] oneRead).toOption.map
      (fun s => (s.conn.loop, s.conn.parameter)) = some (none, some 42) := by
    decide +kernel
  obtain ⟨s, hrun, hobs⟩ := ok_of_observed hobs
  obtain ⟨hloop, hparameter⟩ := Prod.mk.inj hobs
  obtain ⟨r, f, hr, hf, heq⟩ := h.of_ok hrun hloop
  obtain ⟨r', hr', hrconn⟩ := @init_conn sessionServer rfl s 7 0
  obtain ⟨f', hf', hfconn⟩ := @init_conn sessionServer rfl s.fresh 7 0
  obtain rfl := Except.ok.inj (hr.symm.trans hr')
  obtain rfl := Except.ok.inj (hf.symm.trans hf')
  rw [hrconn, hfconn, hparameter, TcpConn.mk.injEq] at heq
  cases heq.2.2.2.2

end EasyReactor.Server
