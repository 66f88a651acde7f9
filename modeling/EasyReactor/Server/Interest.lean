import EasyReactor.Server.Output

set_option autoImplicit false

/-!
# Server: write interest and pending output

`send_data` registers `EPOLLOUT` on the edge from an empty `obuf` to one that holds
something, and `handle_write` deletes it once `obuf` is drained.  `Tracked` says that the
registration and the queue agree; every call keeps it, whatever it returns.
-/

namespace EasyReactor.Server

open EasyReactor.Foundation EasyReactor.Buffer EasyReactor.Loop EasyReactor.Wire

/-- The results of `write` in the script take all of the `n` bytes offered. -/
def drains : Nat → List WriteResult → Bool
  | 0, _ => true
  | _ + 1, [] => false
  | n + 1, .wrote k :: ws => k ≠ 0 && drains (n + 1 - k) ws
  | n + 1, .eintr :: ws => drains (n + 1) ws
  | _ + 1, _ :: _ => false

theorem drains_zero (ws : List WriteResult) : drains 0 ws = true := by
  unfold drains
  rfl

theorem drains_of_wrote {ws ws' : List WriteResult} {n k : Nat} (hn : n ≠ 0)
    (h : uninterrupted ws = (.wrote k, ws')) :
    drains n ws = (decide (k ≠ 0) && drains (n - k) ws') := by
  obtain ⟨m, rfl⟩ := Nat.exists_eq_succ_of_ne_zero hn
  induction ws with
  | nil => cases h
  | cons w ws ih =>
    cases w with
    | wrote n =>
      obtain ⟨hk, rfl⟩ := Prod.mk.inj h
      obtain rfl := WriteResult.wrote.inj hk
      rfl
    | eintr => exact ih h
    | eagain => cases h
    | error => cases h

/-- A script that takes something goes on with a `write` that does. -/
theorem exists_wrote_of_drains {ws : List WriteResult} {n : Nat} (hn : n ≠ 0)
    (h : drains n ws = true) : ∃ k ws', uninterrupted ws = (.wrote k, ws') ∧ k ≠ 0 := by
  obtain ⟨m, rfl⟩ := Nat.exists_eq_succ_of_ne_zero hn
  induction ws with
  | nil => cases h
  | cons w ws ih =>
    cases w with
    | wrote k =>
      refine ⟨k, ws, rfl, ?_⟩
      rintro rfl
      cases h
    | eintr => exact ih h
    | eagain => cases h
    | error => cases h

/-- An open connection whose loop knows of no other descriptor. -/
structure Flowing (s : ConnState) : Prop where
  attached : Attached s
  output : ∃ off pending, Holds s.pool s.conn.obuf off pending
  lone : ∀ fd, fd ≠ s.conn.connfd → s.evs.ioEvs fd = none

/-- The registration for `EPOLLOUT` follows `obuf`.  `thrifty` says that no `handle_write`
has drained `obuf` so far; then `obuf` is not kept empty. -/
structure Tracked (thrifty : Prop) (s : ConnState) : Prop extends Flowing s where
  interest : s.evs.Watches s.conn.connfd epollOut ↔ s.conn.obuf.length s.pool ≠ 0
  filled : thrifty → s.conn.obuf ≠ none → s.conn.obuf.length s.pool ≠ 0

/-- A connection between callbacks. -/
structure Listening (thrifty : Prop) (s : ConnState) : Prop extends Tracked thrifty s where
  reading : s.evs.Watches s.conn.connfd epollIn
  input : s.conn.ibuf.Filled s.pool

/-- What `clean_conn` leaves behind, on a loop that knew of no other descriptor. -/
structure Released (s : ConnState) : Prop extends Cleaned s where
  bare : EventLoop.Bare s.evs

variable {srv : TcpServer} {s : ConnState} {thrifty : Prop}

/-! ## Sending -/

theorem Flowing.setObuf (h : Flowing s) {p : BufferPool} {buf : TcpBuffer}
    (hk : Keeps (s.conn.ibuf.toList ++ s.others) s.pool p buf) {off : Nat}
    {pending : List UInt8} (hheld : Holds p buf off pending) : Flowing (s.setObuf p buf) :=
  ⟨(h.attached.setObuf hk).1, ⟨off, pending, hheld⟩, h.lone⟩

/-- The connection registers itself for one more event. -/
theorem Flowing.addIoev (h : Flowing s) (proc : ConnIo) (m : Mask) :
    Flowing { s with evs := s.evs.addIoev s.conn.connfd proc m none } := by
  have ha := h.attached
  have hfd := ha.fd
  refine ⟨⟨ha.inv, ha.loop, ha.fd, ?_⟩, h.output, ?_⟩
  · change (s.evs.addIoev s.conn.connfd proc m none).mask (-1) = 0
    rw [EventLoop.mask_addIoev, if_neg (by omega)]
    exact ha.unwatched
  · intro fd hne
    obtain ⟨ev, hev, -⟩ := s.evs.addIoev_ioEvs s.conn.connfd proc m none
    change (s.evs.addIoev s.conn.connfd proc m none).ioEvs fd = none
    rw [hev, Function.update_of_ne hne]
    exact h.lone fd hne

/-- `EPOLLOUT` is registered for a connection with something to write. -/
theorem Flowing.addWrite (h : Flowing s) (hlen : s.conn.obuf.length s.pool ≠ 0) :
    Tracked thrifty { s with evs := s.evs.addIoev s.conn.connfd .tcpWcb epollOut none } :=
  ⟨h.addIoev .tcpWcb epollOut,
    ⟨fun _ => hlen, fun _ => EventLoop.watches_addIoev_self (by decide)⟩, fun _ _ => hlen⟩

/-- `send_data`, whether it appends the frame or takes the header back. -/
theorem sendData_tracked (h : Tracked thrifty s) (data : List UInt8) (cmdid : Int32) :
    Ends (s.sendData data cmdid) (fun r => Tracked thrifty r.1) (fun _ => True) := by
  have hhead := CommuHead.length_bytes ⟨cmdid, .ofInt data.length⟩
  have hwidth := commuHeadLength_eq
  obtain ⟨off, pending, hheld⟩ := h.output
  have hpending := hheld.length
  apply (sendData_ends h.attached.inv_obuf hheld data cmdid).imp _ (fun _ _ => trivial)
  intro r hr
  cases hr with
  | refused => exact h
  | @takenBack p buf hk hheld₁ hemptied =>
    have hlen₁ : buf.length p = s.conn.obuf.length s.pool := by
      rw [hheld₁.length, hpending, List.length_drop, List.length_append, hhead]
      omega
    refine ⟨h.toFlowing.setObuf hk hheld₁, ?_, ?_⟩
    · change s.evs.Watches s.conn.connfd epollOut ↔ buf.length p ≠ 0
      rw [hlen₁]
      exact h.interest
    · intro _ hne hzero
      change buf.length p = 0 at hzero
      rw [hlen₁, hpending] at hzero
      exact hne (hemptied.mpr (List.eq_nil_of_length_eq_zero (by omega)))
  | @accepted p buf hk hheld₁ =>
    have h₁ := h.toFlowing.setObuf hk hheld₁
    have hlen₁ : buf.length p ≠ 0 := by
      rw [hheld₁.length, List.length_append, Msg.length_frame]
      omega
    simp only
    split
    next hneed => exact h₁.addWrite hlen₁
    next hneed =>
      refine ⟨h₁, ?_, fun _ _ => hlen₁⟩
      exact ⟨fun _ => hlen₁, fun _ => h.interest.mpr hneed⟩

theorem send_tracked (h : Tracked thrifty s) (data : List UInt8) (cmdid : Int32) :
    Ends (s.send data cmdid) (Tracked thrifty) (fun _ => True) := by
  unfold ConnState.send
  apply (sendData_tracked h data cmdid).bind
  rintro ⟨s', ret⟩ h'
  have ha := h'.attached
  have hflow : ∀ accepted refused,
      Tracked thrifty { s' with accepted := accepted, refused := refused } := fun _ _ =>
    ⟨⟨⟨ha.inv, ha.loop, ha.fd, ha.unwatched⟩, h'.output, h'.lone⟩, h'.interest, h'.filled⟩
  simp only
  split
  · exact hflow _ s'.refused
  · exact hflow s'.accepted _

/-! ## Callbacks -/

/-- The rest of the process does not touch the buffers of the connection. -/
theorem poolCommand_tracked (h : Tracked thrifty s) (c : PoolCommand) :
    Ends (s.poolCommand c) (Tracked thrifty) (fun _ => True) := by
  have hinv := h.attached.inv
  rw [← List.append_assoc] at hinv
  apply ((poolCommand_ends hinv c).and (poolCommand_undisturbed h.attached c)).imp _
    (fun _ _ => trivial)
  rintro _ ⟨⟨p, os, rfl, -, hmine⟩, ha, -⟩
  obtain ⟨off, pending, hheld⟩ := h.output
  have hheld' : Holds p s.conn.obuf off pending :=
    hheld.congr fun b hb => hmine b (List.mem_append_right _ hb)
  have hlen : s.conn.obuf.length p = s.conn.obuf.length s.pool := by
    rw [hheld'.length, hheld.length]
  refine ⟨⟨ha, ⟨off, pending, hheld'⟩, h.lone⟩, ?_, ?_⟩
  · change _ ↔ s.conn.obuf.length p ≠ 0
    rw [hlen]
    exact h.interest
  · change thrifty → _ → s.conn.obuf.length p ≠ 0
    rw [hlen]
    exact h.filled

theorem perform_tracked (h : Tracked thrifty s) (act : UserAct) :
    Ends (s.perform act) (Tracked thrifty) (fun _ => True) := by
  cases act with
  | sendData data cmdid => exact send_tracked h data cmdid
  | setParameter v =>
    have ha := h.attached
    exact ⟨⟨⟨ha.inv, ha.loop, ha.fd, ha.unwatched⟩, h.output, h.lone⟩, h.interest, h.filled⟩
  | others c => exact poolCommand_tracked h c

theorem callback_tracked (h : Tracked thrifty s) (acts : List UserAct) :
    Ends (s.callback acts) (fun s' => Tracked thrifty s' ∧ Undisturbed s s')
      (fun _ => True) := by
  have hrun : Ends (acts.foldlM ConnState.perform s) (Tracked thrifty) (fun _ => True) :=
    Ends.foldlM (P := fun _ => Tracked thrifty) (fun _ act _ _ _ hs => perform_tracked hs act) h
  have hcb : Ends (s.callback acts) (Tracked thrifty) (fun _ => True) := by
    unfold ConnState.callback
    cases hf : acts.foldlM ConnState.perform s with
    | ok s' => exact hrun.of_ok hf
    | error g => trivial
  exact (hcb.and (callback_ends h.attached acts)).imp (fun _ hr => ⟨hr.1, hr.2.2.1⟩)
    (fun _ _ => trivial)

theorem callIf_tracked (h : Tracked thrifty s) (cb : Option ConnCallback) :
    Ends (s.callIf cb) (fun s' => Tracked thrifty s' ∧ Undisturbed s s') (fun _ => True) := by
  cases cb with
  | none => exact ⟨h, .refl s⟩
  | some cb => exact callback_tracked h _

/-- `clean_conn` takes the registration away before it closes the descriptor. -/
theorem cleanConn_released (h : Tracked thrifty s) :
    Ends (s.cleanConn srv) Released (fun _ => True) := by
  have hbare : Ends (s.cleanConn srv) (fun s' => EventLoop.Bare s'.evs) (fun _ => True) := by
    unfold ConnState.cleanConn
    apply (callIf_tracked h srv.connCloseCb).bind
    rintro s₁ ⟨h₁, -⟩
    simp only
    cases s₁.conn.loop with
    | none => trivial
    | some l =>
      simp only
      apply (Ends.any _).bind
      rintro ⟨p, ibuf⟩ -
      apply (Ends.any _).bind
      rintro ⟨q, obuf⟩ -
      intro fd
      change Function.update s₁.evs.ioEvs s₁.conn.connfd none fd = none
      by_cases hfd : fd = s₁.conn.connfd
      · rw [hfd, Function.update_self]
      · rw [Function.update_of_ne hfd]
        exact h₁.lone fd hfd
  exact ((cleanConn_ends h.attached).and hbare).imp (fun _ hr => ⟨hr.1.1, hr.2⟩)
    (fun _ _ => trivial)

/-! ## Reading -/

/-- A call that keeps to `ibuf` does not touch the output. -/
theorem Tracked.setIbuf (h : Tracked thrifty s) {p : BufferPool} {buf : TcpBuffer}
    (hk : Keeps (s.conn.obuf.toList ++ s.others) s.pool p buf) :
    Tracked thrifty (s.setIbuf p buf) := by
  have ha := h.attached
  obtain ⟨off, pending, hheld⟩ := h.output
  have hheld' : Holds p s.conn.obuf off pending :=
    hheld.congr fun b hb => hk.others b (List.mem_append_left _ hb)
  have hlen : s.conn.obuf.length p = s.conn.obuf.length s.pool := by
    rw [hheld'.length, hheld.length]
  refine ⟨⟨⟨hk.inv, ha.loop, ha.fd, ha.unwatched⟩, ⟨off, pending, hheld'⟩, h.lone⟩, ?_, ?_⟩
  · change _ ↔ s.conn.obuf.length p ≠ 0
    rw [hlen]
    exact h.interest
  · change thrifty → _ → s.conn.obuf.length p ≠ 0
    rw [hlen]
    exact h.filled

/-- A callback leaves `ibuf` and the registration for `EPOLLIN` as they are. -/
theorem Listening.undisturbed {s' : ConnState} (h : Listening thrifty s)
    (h' : Tracked thrifty s') (hu : Undisturbed s s') : Listening thrifty s' := by
  refine ⟨h', ?_, ?_⟩
  · rw [hu.connfd]
    exact hu.watches _ _ h.reading
  · rw [hu.ibuf]
    intro b hb
    rw [hu.memory b hb]
    exact h.input b hb

theorem dispatch_listening (h : Listening thrifty s) (head : CommuHead) :
    Ends (s.dispatch srv head) (Listening thrifty) (fun _ => True) := by
  have ha := h.attached
  unfold ConnState.dispatch
  apply (Ends.any _).bind
  rintro body -
  apply (Ends.any _).bind
  rintro ⟨func, usrData⟩ -
  have h₁ : Listening thrifty
      { s with dispatched := s.dispatched ++ [⟨head.cmdid, body⟩] } :=
    ⟨⟨⟨⟨ha.inv, ha.loop, ha.fd, ha.unwatched⟩, h.output, h.lone⟩, h.interest, h.filled⟩,
      h.reading, h.input⟩
  exact (callback_tracked h₁.toTracked _).imp (fun _ hr => h₁.undisturbed hr.1 hr.2)
    (fun _ _ => trivial)

theorem popIbuf_listening (h : Listening thrifty s) {len : Int} (hlen : 0 ≤ len) :
    Ends (s.conn.ibuf.pop s.pool len) (fun r => Listening thrifty (s.setIbuf r.1 r.2))
      (fun _ => True) :=
  ((TcpBuffer.pop_keeps h.attached.inv len).and (h.input.pop hlen)).imp
    (fun _ hr => ⟨h.setIbuf hr.1, h.reading, hr.2⟩) (fun _ _ => trivial)

theorem takeFrame_listening (h : Listening thrifty s) {head : CommuHead}
    (hlen : 0 ≤ head.length.toInt) :
    Ends (s.takeFrame srv head) (Listening thrifty) (fun _ => True) := by
  unfold ConnState.takeFrame
  apply (popIbuf_listening h (Int.natCast_nonneg _)).bind
  rintro ⟨p, buf⟩ h₁
  apply (dispatch_listening h₁ head).bind
  intro s₂ h₂
  apply (popIbuf_listening h₂ hlen).bind
  rintro ⟨p₃, buf₃⟩ h₃
  exact h₃

/-- A connection between callbacks, or no connection any more. -/
def Settled (thrifty : Prop) (s : ConnState) : Prop := Listening thrifty s ∨ Released s

theorem cleanConn_settled (h : Tracked thrifty s) :
    Ends (s.cleanConn srv) (Settled thrifty) (fun _ => True) :=
  (cleanConn_released h).imp (fun _ hs => .inr hs) (fun _ _ => trivial)

theorem readLoop_settled (fuel : Nat) (h : Listening thrifty s) :
    Ends (ConnState.readLoop srv fuel s) (Settled thrifty) (fun _ => True) := by
  induction fuel generalizing s with
  | zero => trivial
  | succ fuel ih =>
    unfold ConnState.readLoop
    split
    · apply (Ends.any _).bind
      rintro bs -
      simp only
      split
      next => exact cleanConn_settled h.toTracked
      next hrange =>
        split
        · exact .inl h
        · split
          · exact cleanConn_settled h.toTracked
          · apply (takeFrame_listening h (by omega)).bind
            intro s₁ h₁
            exact ih h₁
    · exact .inl h

theorem handleRead_settled (h : Listening thrifty s) (r : Recv) :
    Ends (s.handleRead srv r) (Settled thrifty) (fun _ => True) := by
  unfold ConnState.handleRead
  apply ((TcpBuffer.readData_keeps h.attached.inv r).and_post
    (TcpBuffer.readData_filled h.attached.inv r)).bind
  rintro ⟨p, buf, ret⟩ ⟨hk, hfilled⟩
  have h₁ := h.toTracked.setIbuf hk
  simp only
  split
  next => exact cleanConn_settled h₁
  next hne =>
    split
    next => exact cleanConn_settled h₁
    next hne' =>
      have h₁' : Listening thrifty (s.setIbuf p buf) :=
        ⟨h₁, h.reading, hfilled hne hne'⟩
      apply (readLoop_settled _ h₁').bind
      intro s₂ hs₂
      cases hs₂ with
      | inl h₂ =>
        apply ((TcpBuffer.adjust_keeps h₂.attached.inv).and_post h₂.input.adjust).bind
        rintro q ⟨hq, hfilled⟩
        exact .inl ⟨h₂.toTracked.setIbuf hq, h₂.reading, hfilled⟩
      | inr hrel =>
        rw [hrel.ibuf]
        exact .inr ⟨⟨hrel.inv, hrel.connfd, hrel.loop, hrel.ibuf, hrel.obuf, hrel.unwatched⟩,
          hrel.bare⟩

/-! ## Writing -/

/-- What the loop of `handle_write` leaves when it does not clean the connection. -/
structure Written (s : ConnState) (n : Nat) (ws : List WriteResult) (s' : ConnState) : Prop where
  flowing : Flowing s'
  conn : s'.conn = s.conn
  evs : s'.evs = s.evs
  ibuf : ∀ b ∈ s.conn.ibuf.toList, s'.pool.bufs b = s.pool.bufs b
  drained : s'.conn.obuf.length s'.pool = 0 → drains n ws = true

/-- One `write_fd`. -/
theorem Flowing.written (h : Flowing s) {b : BufId} (hb : s.conn.obuf = some b)
    {w : TcpBuffer.Written} (hk : Keeps (s.conn.ibuf.toList ++ s.others) s.pool w.pool (some b))
    {left : List UInt8} (hleft : Holds w.pool (some b) 0 left) (sent : List UInt8) :
    Flowing { s with pool := w.pool, sent := sent } := by
  refine ⟨h.attached.written hb hk sent, ⟨0, left, ?_⟩, h.lone⟩
  change Holds w.pool s.conn.obuf 0 left
  rw [hb]
  exact hleft

/-- One turn of the loop, on an `obuf` with `n` bytes: `write_fd` takes none and ends the loop,
or takes what the socket offers to. -/
theorem Flowing.writeFd (h : Flowing s) {b : BufId} (hb : s.conn.obuf = some b) {n : Nat}
    (hn : s.conn.obuf.length s.pool = n) (ws : List WriteResult) :
    Ends (TcpBuffer.writeFd s.pool (some b) ws)
      (fun w => Flowing { s with pool := w.pool, sent := s.sent ++ w.taken } ∧
        (∀ a ∈ s.conn.ibuf.toList, w.pool.bufs a = s.pool.bufs a) ∧
        ((w.ret = -1 ∨ w.ret = 0) ∧ s.conn.obuf.length w.pool = n ∨
          w.ret ≠ -1 ∧ w.ret ≠ 0 ∧ w.script.length < ws.length ∧
            ∃ k, k ≠ 0 ∧ uninterrupted ws = (.wrote k, w.script) ∧
              s.conn.obuf.length w.pool = (n - k : Nat)))
      (fun _ => True) := by
  have hinv := h.attached.inv_obuf
  rw [hb] at hinv
  refine .intro (fun w hwrite => ?_) (fun _ _ => trivial)
  obtain ⟨hk, -, hret, hmove⟩ := (TcpBuffer.writeFd_ends hinv ws).of_ok hwrite
  have hk : Keeps (s.conn.ibuf.toList ++ s.others) s.pool w.pool (some b) := hk
  obtain ⟨off, pending, hheld⟩ := h.output
  have hnlen : pending.length = n := by
    have hl := hheld.length
    omega
  rw [hb] at hheld
  have hhead := Window.head hheld
  rw [TcpBuffer.writeFd_head hwrite] at hhead
  obtain rfl : off = 0 := by omega
  obtain ⟨left, hpending, hleft⟩ := hmove pending hheld
  have hlen : s.conn.obuf.length w.pool = left.length := by
    rw [hb]
    exact hleft.length
  refine ⟨h.written hb hk hleft _, fun a ha => hk.others a (List.mem_append_left _ ha), ?_⟩
  rw [hlen]
  have hnone : w.taken = [] → (left.length : Int) = n := by
    intro htaken
    rw [htaken, List.nil_append] at hpending
    rw [← hpending, hnlen]
  rcases hret with ⟨hr, htaken, hlt⟩ | ⟨hr, htaken⟩ | ⟨hr, htaken, -⟩
  · obtain ⟨k, hws, htake⟩ := TcpBuffer.writeFd_taken hheld hwrite htaken
    have hsome := List.length_pos_iff.mpr htaken
    refine .inr ⟨by omega, by omega, hlt, k, ?_, hws, ?_⟩
    · rintro rfl
      exact htaken (by rw [htake, List.take_zero])
    · have hl := congrArg List.length hpending
      rw [htake, List.length_append, List.length_take] at hl
      omega
  · exact .inl ⟨.inr hr, hnone htaken⟩
  · exact .inl ⟨.inl hr, hnone htaken⟩

/-- The loop of `handle_write` empties `obuf` only when the script takes all it held. -/
theorem writeLoop_written {fuel : Nat} (h : Flowing s)
    (hw : s.evs.Watches s.conn.connfd epollOut) {n : Nat}
    (hn : s.conn.obuf.length s.pool = n) {ws : List WriteResult} (hfuel : ws.length < fuel) :
    Ends (ConnState.writeLoop srv fuel s ws)
      (fun r => if r.2 then Released r.1 else Written s n ws r.1) (fun _ => True) := by
  -- the script left drains what is left only if the whole one drains all of it
  apply writeLoop_rule (I := fun s' ws' => Flowing s' ∧ s'.conn = s.conn ∧ s'.evs = s.evs ∧
    (∀ b ∈ s.conn.ibuf.toList, s'.pool.bufs b = s.pool.bufs b) ∧
      ∃ m : Nat, s'.conn.obuf.length s'.pool = m ∧ (drains m ws' = true → drains n ws = true))
    _ _ hfuel ⟨h, rfl, rfl, fun _ _ => rfl, n, hn, id⟩
  · rintro s' ws' ⟨h', hconn, hevs, hibuf, m, hm, hall⟩ hzero
    obtain rfl : m = 0 := by omega
    exact ⟨h', hconn, hevs, hibuf, fun _ => hall (drains_zero ws')⟩
  · rintro s' ws' b ⟨h', hconn, hevs, hibuf, m, hm, hall⟩ hb hlen
    have hpos : m ≠ 0 := by omega
    apply (h'.writeFd hb hm ws').imp _ (fun _ _ => trivial)
    rintro w ⟨h₁, hsame, hturn⟩
    have hibuf₁ : ∀ a ∈ s.conn.ibuf.toList, w.pool.bufs a = s.pool.bufs a := by
      intro a ha
      rw [hsame a (hconn ▸ ha), hibuf a ha]
    rcases hturn with ⟨hret, hleft⟩ | ⟨hfail, hzero, hshort, k, hk, hws, hleft⟩
    · -- nothing was taken
      refine ⟨fun _ => ?_, fun _ => ⟨h₁, hconn, hevs, hibuf₁, fun hz => ?_⟩, fun hfail hzero => ?_⟩
      · have htracked :
            Tracked False { s' with pool := w.pool, sent := s'.sent ++ w.taken } := by
          refine ⟨h₁, ⟨fun _ => ?_, fun _ => ?_⟩, fun hf => hf.elim⟩
          · change s'.conn.obuf.length w.pool ≠ 0
            omega
          · change s'.evs.Watches s'.conn.connfd epollOut
            rw [hevs, hconn]
            exact hw
        exact cleanConn_released htracked
      · change s'.conn.obuf.length w.pool = 0 at hz
        omega
      · exact absurd (hret.resolve_left hfail) hzero
    · refine ⟨fun hr => absurd hr hfail, fun hr => absurd hr hzero, fun _ _ => ⟨hshort, h₁, hconn,
        hevs, hibuf₁, m - k, hleft, fun hd => hall ?_⟩⟩
      rw [drains_of_wrote hpos hws, hd]
      simpa using hk

/-- A script that takes all of `obuf` leaves an empty buffer there: `io_buffer::pop` does not
give it back. -/
theorem writeLoop_drained (fuel : Nat) {b : BufId} (hb : s.conn.obuf = some b)
    {pending : List UInt8} (w : Window (s.pool.bufs b) 0 pending) {ws : List WriteResult}
    (hd : drains pending.length ws = true) (hfuel : ws.length < fuel) :
    ∃ s', ConnState.writeLoop srv fuel s ws = .ok (s', false) ∧ s'.conn = s.conn ∧
      s'.refused = s.refused ∧ s'.conn.obuf.length s'.pool = 0 := by
  induction fuel generalizing s pending ws with
  | zero => omega
  | succ fuel ih =>
    have hlen : s.conn.obuf.length s.pool = pending.length := by
      rw [hb]
      exact w.length
    unfold ConnState.writeLoop
    by_cases hnil : pending = []
    · have hzero : s.conn.obuf.length s.pool = 0 := by
        rw [hlen, hnil]
        rfl
      rw [if_neg (not_not.mpr hzero)]
      exact ⟨s, rfl, rfl, rfl, hzero⟩
    · have hpos : pending.length ≠ 0 := fun hz => hnil (List.eq_nil_of_length_eq_zero hz)
      obtain ⟨k, ws', hws, hk⟩ := exists_wrote_of_drains hpos hd
      have htake : (pending.take k).length ≠ 0 := by
        rw [List.length_take]
        omega
      obtain ⟨q, hwrite, w'⟩ := TcpBuffer.writeFd_wrote w hnil hk hws
      rw [drains_of_wrote hpos hws, decide_eq_true hk, Bool.true_and, ← List.length_drop] at hd
      have hshort := uninterrupted_fst ws
      rw [hws] at hshort
      have hlt : ws'.length < ws.length := (hshort.resolve_left (by simp)).2
      rw [if_pos (by omega), hb, hwrite, ok_bind]
      simp only
      rw [if_neg (by omega), if_neg (by omega)]
      have hb' : ({ s with pool := q, sent := s.sent ++ pending.take k } :
          ConnState).conn.obuf = some b := hb
      exact ih hb' w' hd (by omega)

theorem handleWrite_drained (h : Attached s) {b : BufId} (hb : s.conn.obuf = some b)
    {pending : List UInt8} (w : Window (s.pool.bufs b) 0 pending) {ws : List WriteResult}
    (hd : drains pending.length ws = true) :
    ∃ s', s.handleWrite srv ws = .ok s' ∧ s'.conn = s.conn ∧ s'.refused = s.refused ∧
      s'.conn.obuf.length s'.pool = 0 := by
  obtain ⟨s₁, hrun, hconn, hrefused, hzero⟩ :=
    @writeLoop_drained srv s (ws.length + 1) b hb pending w ws hd (Nat.lt_succ_self _)
  unfold ConnState.handleWrite
  rw [hrun, ok_bind]
  simp only [Bool.false_eq_true, if_false]
  rw [if_pos hzero]
  cases hloop : s₁.conn.loop with
  | none => exact absurd (hconn ▸ hloop) h.loop
  | some l => exact ⟨_, rfl, hconn, hrefused, hzero⟩

/-- `handle_write` stops listening once `obuf` is drained. -/
theorem handleWrite_settled (h : Listening thrifty s)
    (hw : s.evs.Watches s.conn.connfd epollOut) {ws : List WriteResult}
    (hleaves : thrifty → drains (s.conn.obuf.length s.pool).toNat ws = false) :
    Ends (s.handleWrite srv ws) (Settled thrifty) (fun _ => True) := by
  obtain ⟨off, pending, hheld⟩ := h.output
  have hn := hheld.length
  rw [hn, Int.toNat_natCast] at hleaves
  unfold ConnState.handleWrite
  apply (writeLoop_written h.toFlowing hw hn (Nat.lt_succ_self _)).bind
  rintro ⟨s', cleaned⟩ hr
  cases cleaned with
  | true => exact .inr hr
  | false =>
    have hr : Written s pending.length ws s' := hr
    have hflow := hr.flowing
    have ha := hflow.attached
    have hread : s'.evs.Watches s'.conn.connfd epollIn := by
      rw [hr.evs, hr.conn]
      exact h.reading
    have hinput : s'.conn.ibuf.Filled s'.pool := by
      rw [hr.conn]
      intro b hb
      rw [hr.ibuf b hb]
      exact h.input b hb
    simp only [Bool.false_eq_true, if_false]
    split
    next hz =>
      split
      next => trivial
      next =>
        have hfd := ha.fd
        refine .inl ⟨⟨⟨⟨ha.inv, ha.loop, ha.fd, ?_⟩, hflow.output, ?_⟩, ?_, ?_⟩, ?_, hinput⟩
        · change (s'.evs.delIoevMask s'.conn.connfd epollOut).mask (-1) = 0
          rw [EventLoop.mask_delIoevMask, if_neg (by omega)]
          exact ha.unwatched
        · intro fd hne
          rcases s'.evs.delIoevMask_ioEvs s'.conn.connfd epollOut fd with hnone | ⟨ev, o, hev, -⟩
          · exact hnone
          · rw [hflow.lone fd hne] at hev
            cases hev
        · exact ⟨fun hwatch => absurd hwatch EventLoop.not_watches_delIoevMask,
            fun hne => absurd hz hne⟩
        · intro ht
          rw [hr.drained hz] at hleaves
          exact absurd (hleaves ht) (by decide)
        · exact hread.delIoevMask (by decide)
    next hz =>
      refine .inl ⟨⟨hflow, ⟨fun _ => hz, fun _ => ?_⟩, fun _ _ => hz⟩, hread, hinput⟩
      rw [hr.evs, hr.conn]
      exact hw

end EasyReactor.Server
