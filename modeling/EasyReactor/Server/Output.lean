import EasyReactor.Server.Decoding

set_option autoImplicit false

/-!
# Server: the output stream

`Outflow` is the invariant: as long as no `send_data` was refused, what the socket took
followed by what `obuf` holds is the frames accepted so far.  It holds in every state a
connection can get into, whatever comes in, goes out, or is called back.
-/

namespace EasyReactor.Server

open EasyReactor.Foundation EasyReactor.Buffer EasyReactor.Loop EasyReactor.Wire

/-- What the socket took and what `obuf` holds are the frames accepted, unless one was
refused. -/
def Outflow (s : ConnState) : Prop :=
  s.refused = 0 → ∃ pending, Holds s.pool s.conn.obuf 0 pending ∧
    s.sent ++ pending = frames s.accepted

/-- An open connection with its output in order. -/
structure Open (s : ConnState) : Prop where
  attached : Attached s
  outflow : Outflow s

/-- What stays true of a cleaned connection, even if somebody still calls it. -/
structure Shut (s : ConnState) : Prop where
  connfd : s.conn.connfd = -1
  loop : s.conn.loop = none
  unwatched : s.evs.mask (-1) = 0

variable {srv : TcpServer} {s : ConnState}

theorem Cleaned.shut (h : Cleaned s) : Shut s := ⟨h.connfd, h.loop, h.unwatched⟩

/-- A call that keeps to `ibuf` does not touch the output. -/
theorem Open.setIbuf (h : Open s) {p : BufferPool} {buf : TcpBuffer}
    (hk : Keeps (s.conn.obuf.toList ++ s.others) s.pool p buf) : Open (s.setIbuf p buf) := by
  have ha := h.attached
  refine ⟨⟨hk.inv, ha.loop, ha.fd, ha.unwatched⟩, ?_⟩
  intro href
  obtain ⟨pending, hheld, hsent⟩ := h.outflow href
  refine ⟨pending, hheld.congr ?_, hsent⟩
  intro b hb
  exact hk.others b (List.mem_append_left _ hb)

/-! ## Sending -/

/-- `send_data` on a buffer that holds `pending`: the frame is appended if it returns 0,
and only the memory limit ends the process. -/
theorem sendData_outflow (h : Attached s) {pending : List UInt8}
    (hheld : Holds s.pool s.conn.obuf 0 pending) (data : List UInt8) (cmdid : Int32) :
    Ends (s.sendData data cmdid)
      (fun r => r.2 = 0 →
        Holds r.1.pool r.1.conn.obuf 0 (pending ++ (Msg.mk cmdid data).frame))
      (fun e => data.length + pending.length + 8 < 2147483648 → e = .exit) := by
  apply (sendData_ends h.inv_obuf hheld data cmdid).imp
  · intro r hr hzero
    cases hr with
    | refused => exact absurd hzero (by simp)
    | takenBack => exact absurd hzero (by simp)
    | accepted hk hheld' => exact hheld'
  · exact fun e he hlt => (he h.loop rfl hlt).1

/-- A send keeps the output in order. -/
theorem send_open (h : Open s) (data : List UInt8) (cmdid : Int32) :
    Ends (s.send data cmdid) Open (fun _ => True) := by
  have ha := h.attached
  unfold ConnState.send
  apply ((sendData_undisturbed ha data cmdid).and (sendData_untouched s data cmdid)).bind_eq
    (fun _ _ => trivial)
  rintro ⟨s', ret⟩ hr ⟨⟨h', -⟩, hu⟩
  simp only
  split
  next hret =>
    refine ⟨⟨h'.inv, h'.loop, h'.fd, h'.unwatched⟩, ?_⟩
    intro href
    obtain ⟨pending, hheld, hsent⟩ := h.outflow (hu.refused.symm.trans href)
    refine ⟨pending ++ (Msg.mk cmdid data).frame, ?_, ?_⟩
    · exact (sendData_outflow ha hheld data cmdid).of_ok hr hret
    · change s'.sent ++ _ = frames (s'.accepted ++ [⟨cmdid, data⟩])
      rw [hu.sent, hu.accepted, frames_concat, ← hsent, List.append_assoc]
  next hret =>
    refine ⟨⟨h'.inv, h'.loop, h'.fd, h'.unwatched⟩, ?_⟩
    intro href
    exact absurd href (Nat.succ_ne_zero _)

/-! ## Callbacks -/

theorem poolCommand_open (h : Open s) (c : PoolCommand) :
    Ends (s.poolCommand c) Open (fun _ => True) := by
  have hinv := h.attached.inv
  rw [← List.append_assoc] at hinv
  apply ((poolCommand_ends hinv c).and (poolCommand_undisturbed h.attached c)).imp _
    (fun _ _ => trivial)
  rintro _ ⟨⟨p, os, rfl, -, hmine⟩, ha, -⟩
  refine ⟨ha, ?_⟩
  intro href
  obtain ⟨pending, hheld, hsent⟩ := h.outflow href
  refine ⟨pending, hheld.congr ?_, hsent⟩
  intro b hb
  exact hmine b (List.mem_append_right _ hb)

theorem perform_open (h : Open s) (act : UserAct) :
    Ends (s.perform act) Open (fun _ => True) := by
  cases act with
  | sendData data cmdid => exact send_open h data cmdid
  | setParameter v =>
    have ha := h.attached
    exact ⟨⟨ha.inv, ha.loop, ha.fd, ha.unwatched⟩, h.outflow⟩
  | others c => exact poolCommand_open h c

theorem callback_open (h : Open s) (acts : List UserAct) :
    Ends (s.callback acts) Open (fun e => ∃ g, e = .callback g) := by
  have hrun : Ends (acts.foldlM ConnState.perform s) Open (fun _ => True) :=
    Ends.foldlM (P := fun _ => Open) (fun _ act _ _ _ hs => perform_open hs act) h
  unfold ConnState.callback
  cases hf : acts.foldlM ConnState.perform s with
  | ok s' => exact hrun.of_ok hf
  | error g => exact ⟨g, rfl⟩

theorem callIf_open (h : Open s) (cb : Option ConnCallback) :
    Ends (s.callIf cb) Open (fun e => ∃ g, e = .callback g) := by
  cases cb with
  | none => exact h
  | some cb => exact callback_open h _

theorem cleanConn_shut (h : Attached s) :
    Ends (s.cleanConn srv) Shut (fun e => e = .exit ∨ ∃ g, e = .callback g) :=
  (cleanConn_ends h).imp (fun _ hs => hs.1.shut) (fun _ he => he.1)

/-! ## Reading -/

theorem dispatch_open (h : Open s) (head : CommuHead) :
    Ends (s.dispatch srv head) Open (fun _ => True) := by
  have ha := h.attached
  unfold ConnState.dispatch
  apply (Ends.any _).bind
  rintro body -
  apply (Ends.any _).bind
  rintro ⟨func, usrData⟩ -
  apply (callback_open _ _).imp (fun _ hs => hs) (fun _ _ => trivial)
  exact ⟨⟨ha.inv, ha.loop, ha.fd, ha.unwatched⟩, h.outflow⟩

theorem popIbuf_open (h : Open s) (len : Int) :
    Ends (s.conn.ibuf.pop s.pool len) (fun r => Open (s.setIbuf r.1 r.2)) (fun _ => True) :=
  (TcpBuffer.pop_keeps h.attached.inv len).imp (fun _ hk => h.setIbuf hk) (fun _ _ => trivial)

theorem takeFrame_open (h : Open s) (head : CommuHead) :
    Ends (s.takeFrame srv head) Open (fun _ => True) := by
  unfold ConnState.takeFrame
  apply (popIbuf_open h _).bind
  rintro ⟨p, buf⟩ h₁
  apply (dispatch_open h₁ head).bind
  intro s₂ h₂
  apply (popIbuf_open h₂ _).bind
  rintro ⟨p₃, buf₃⟩ h₃
  exact h₃

/-- A connection with its output in order, or no connection any more. -/
def Sound (s : ConnState) : Prop := Open s ∨ Shut s

theorem cleanConn_sound (h : Open s) : Ends (s.cleanConn srv) Sound (fun _ => True) :=
  (cleanConn_shut h.attached).imp (fun _ hs => .inr hs) (fun _ _ => trivial)

theorem readLoop_sound (fuel : Nat) (h : Open s) :
    Ends (ConnState.readLoop srv fuel s) Sound (fun _ => True) := by
  induction fuel generalizing s with
  | zero => trivial
  | succ fuel ih =>
    unfold ConnState.readLoop
    split
    · apply (Ends.any _).bind
      rintro bs -
      simp only
      split
      · exact cleanConn_sound h
      · split
        · exact .inl h
        · split
          · exact cleanConn_sound h
          · apply (takeFrame_open h _).bind
            intro s₁ h₁
            exact ih h₁
    · exact .inl h

theorem handleRead_sound (h : Open s) (r : Recv) :
    Ends (s.handleRead srv r) Sound (fun _ => True) := by
  unfold ConnState.handleRead
  apply (TcpBuffer.readData_keeps h.attached.inv r).bind
  rintro ⟨p, buf, ret⟩ hk
  have h₁ := h.setIbuf hk
  simp only
  split
  · exact cleanConn_sound h₁
  · split
    · exact cleanConn_sound h₁
    · apply (readLoop_sound _ h₁).bind
      intro s₂ hs₂
      cases hs₂ with
      | inl h₂ =>
        apply (TcpBuffer.adjust_keeps h₂.attached.inv).bind
        intro q hq
        exact .inl (h₂.setIbuf hq)
      | inr hshut =>
        apply (Ends.any _).bind
        intro q _
        exact .inr ⟨hshut.connfd, hshut.loop, hshut.unwatched⟩

/-! ## Writing -/

/-- One `write_fd` keeps the pool accounted for. -/
theorem Attached.written (h : Attached s) {b : BufId} (hb : s.conn.obuf = some b)
    {p : BufferPool} (hk : Keeps (s.conn.ibuf.toList ++ s.others) s.pool p (some b))
    (sent : List UInt8) : Attached { s with pool := p, sent := sent } := by
  have hinv := (h.setObuf hk).1.inv
  refine ⟨?_, h.loop, h.fd, h.unwatched⟩
  change PoolInv p (s.conn.ibuf.toList ++ (s.conn.obuf.toList ++ s.others))
  rw [hb]
  exact hinv

/-- One `write_fd` moves bytes from `obuf` to the socket. -/
theorem Open.written (h : Open s) {b : BufId} (hb : s.conn.obuf = some b) {w : TcpBuffer.Written}
    (hk : Keeps (s.conn.ibuf.toList ++ s.others) s.pool w.pool (some b))
    (hmove : ∀ bs, Window (s.pool.bufs b) 0 bs →
      ∃ left, bs = w.taken ++ left ∧ Holds w.pool (some b) 0 left) :
    Open { s with pool := w.pool, sent := s.sent ++ w.taken } := by
  refine ⟨h.attached.written hb hk _, ?_⟩
  intro href
  obtain ⟨pending, hheld, hsent⟩ := h.outflow href
  rw [hb] at hheld
  obtain ⟨left, hpending, hleft⟩ := hmove pending hheld
  refine ⟨left, ?_, ?_⟩
  · change Holds w.pool s.conn.obuf 0 left
    rw [hb]
    exact hleft
  · change s.sent ++ w.taken ++ left = _
    rw [List.append_assoc, ← hpending]
    exact hsent

/-- The rule for the loop of `handle_write`.  A `write_fd` that fails cleans the connection, one
that takes nothing ends the loop, and any other keeps `I` and uses up results. -/
theorem writeLoop_rule {I : ConnState → List WriteResult → Prop}
    {post : ConnState × Bool → Prop} {fail : Fault → Prop}
    (hdone : ∀ s ws, I s ws → s.conn.obuf.length s.pool = 0 → post (s, false))
    (hturn : ∀ s ws b, I s ws → s.conn.obuf = some b → s.conn.obuf.length s.pool ≠ 0 →
      Ends (TcpBuffer.writeFd s.pool (some b) ws)
        (fun w =>
          (w.ret = -1 → Ends (ConnState.cleanConn srv
            { s with pool := w.pool, sent := s.sent ++ w.taken }) (fun s' => post (s', true)) fail) ∧
          (w.ret = 0 → post ({ s with pool := w.pool, sent := s.sent ++ w.taken }, false)) ∧
          (w.ret ≠ -1 → w.ret ≠ 0 → w.script.length < ws.length ∧
            I { s with pool := w.pool, sent := s.sent ++ w.taken } w.script))
        fail)
    {fuel : Nat} {s : ConnState} {ws : List WriteResult} (hfuel : ws.length < fuel)
    (h : I s ws) : Ends (ConnState.writeLoop srv fuel s ws) post fail := by
  induction fuel generalizing s ws with
  | zero => omega
  | succ fuel ih =>
    unfold ConnState.writeLoop
    split
    next hlen =>
      cases hb : s.conn.obuf with
      | none =>
        rw [hb] at hlen
        exact absurd rfl hlen
      | some b =>
        apply (hturn s ws b h hb hlen).bind
        rintro w ⟨hclean, hend, hgo⟩
        simp only
        split
        next hfail => exact (hclean hfail).bind fun s₂ h₂ => h₂
        next hfail =>
          split
          next hzero => exact hend hzero
          next hzero =>
            obtain ⟨hshort, h₁⟩ := hgo hfail hzero
            exact ih (by omega) h₁
    next hlen => exact hdone s ws h (not_not.mp hlen)

/-- On an `obuf` that holds its bytes at head 0, the loop of `handle_write` fails no
`assert`. -/
theorem writeLoop_passes {fuel : Nat} (h : Attached s) {pending : List UInt8}
    (hheld : Holds s.pool s.conn.obuf 0 pending) {ws : List WriteResult}
    (hfuel : ws.length < fuel) :
    Ends (ConnState.writeLoop srv fuel s ws) (fun r => r.2 = false → Attached r.1)
      (fun e => e = .exit ∨ ∃ g, e = .callback g) := by
  apply writeLoop_rule (I := fun s _ => Attached s ∧ ∃ pending,
    Holds s.pool s.conn.obuf 0 pending) _ _ hfuel ⟨h, pending, hheld⟩
  · exact fun s ws h _ _ => h.1
  · rintro s ws b ⟨h, pending, hheld⟩ hb -
    have hinv := h.inv_obuf
    rw [hb] at hinv hheld
    apply (TcpBuffer.writeFd_ends hinv ws).imp
    · rintro w ⟨hk, -, hret, hmove⟩
      obtain ⟨left, -, hleft⟩ := hmove pending hheld
      have h₁ := h.written hb hk (s.sent ++ w.taken)
      refine ⟨fun _ => ?_, fun _ _ => h₁, fun hfail hzero => ⟨?_, h₁, left, ?_⟩⟩
      · apply (cleanConn_shut h₁).imp _ (fun _ he => he)
        intro s₂ _ hf
        cases hf
      · rcases hret with ⟨-, -, hlt⟩ | ⟨h0, -⟩ | ⟨h1, -⟩
        · exact hlt
        · exact absurd h0 hzero
        · exact absurd h1 hfail
      · rw [hb]
        exact hleft
    · exact fun e he => absurd hheld (he pending)

theorem handleWrite_passes (h : Attached s) {pending : List UInt8}
    (hheld : Holds s.pool s.conn.obuf 0 pending) (ws : List WriteResult) :
    Ends (s.handleWrite srv ws) (fun _ => True) (fun e => e = .exit ∨ ∃ g, e = .callback g) := by
  unfold ConnState.handleWrite
  apply (writeLoop_passes h hheld (Nat.lt_succ_self _)).bind
  rintro ⟨s', cleaned⟩ hr
  simp only
  split
  next => trivial
  next hc =>
    have h' : Attached s' := hr (Bool.eq_false_iff.mpr hc)
    split
    · split
      next hloop => exact absurd hloop h'.loop
      next => trivial
    · trivial

/-- The loop of `handle_write` keeps the output in order, or cleans the connection. -/
theorem writeLoop_ends {fuel : Nat} (h : Open s) {ws : List WriteResult}
    (hfuel : ws.length < fuel) :
    Ends (ConnState.writeLoop srv fuel s ws)
      (fun r => if r.2 then Shut r.1 else Open r.1) (fun _ => True) := by
  apply writeLoop_rule (I := fun s _ => Open s) _ _ hfuel h
  · exact fun s ws h _ => h
  · intro s ws b h hb _
    have hinv := h.attached.inv_obuf
    rw [hb] at hinv
    apply (TcpBuffer.writeFd_ends hinv ws).imp _ (fun _ _ => trivial)
    rintro w ⟨hk, -, hret, hmove⟩
    have h₁ := h.written hb hk hmove
    refine ⟨fun _ => ?_, fun _ => h₁, fun hfail hzero => ⟨?_, h₁⟩⟩
    · exact (cleanConn_shut h₁.attached).imp (fun _ hs => hs) (fun _ _ => trivial)
    · rcases hret with ⟨-, -, hlt⟩ | ⟨h0, -⟩ | ⟨h1, -⟩
      · exact hlt
      · exact absurd h0 hzero
      · exact absurd h1 hfail

theorem handleWrite_sound (h : Open s) (ws : List WriteResult) :
    Ends (s.handleWrite srv ws) Sound (fun _ => True) := by
  unfold ConnState.handleWrite
  apply (writeLoop_ends h (Nat.lt_succ_self _)).bind
  rintro ⟨s', cleaned⟩ hr
  simp only
  split
  next hc =>
    subst hc
    exact .inr hr
  next hc =>
    have h' : Open s' := by
      rw [if_neg hc] at hr
      exact hr
    have ha := h'.attached
    split
    · split
      next => trivial
      next =>
        refine .inl ⟨⟨ha.inv, ha.loop, ha.fd, ?_⟩, h'.outflow⟩
        have hfd := ha.fd
        rw [EventLoop.mask_delIoevMask, if_neg]
        · exact ha.unwatched
        · intro he
          rw [← he] at hfd
          exact absurd hfd (by decide)
    · exact .inl h'

/-! ## Runs -/

theorem Shut.unwatches (h : Shut s) (m : Mask) : ¬ s.evs.Watches s.conn.connfd m := by
  rw [h.connfd]
  unfold EventLoop.Watches
  rw [h.unwatched]
  simp

/-- The rest of the process does not know the connection. -/
theorem poolCommand_conn (s : ConnState) (c : PoolCommand) :
    Ends (s.poolCommand c) (fun s' => s'.conn = s.conn ∧ s'.evs = s.evs) (fun _ => True) := by
  cases c with
  | alloc N =>
    apply (Ends.any _).bind
    rintro ⟨p, b?⟩ -
    cases b? with
    | none => exact ⟨rfl, rfl⟩
    | some b => exact ⟨rfl, rfl⟩
  | revert i =>
    unfold ConnState.poolCommand
    simp only
    split
    · exact ⟨rfl, rfl⟩
    · apply (Ends.any _).bind
      intro p _
      exact ⟨rfl, rfl⟩
  | write i length head data =>
    unfold ConnState.poolCommand
    simp only
    split
    · exact ⟨rfl, rfl⟩
    · exact ⟨rfl, rfl⟩

theorem step_sound (h : Sound s) (e : ConnEvent) : Ends (s.step srv e) Sound (fun _ => True) := by
  unfold ConnState.step
  cases e with
  | readable r =>
    simp only
    split
    next hw =>
      cases h with
      | inl h => exact handleRead_sound h r
      | inr h => exact absurd hw (h.unwatches _)
    next => exact h
  | writable ws =>
    simp only
    split
    next hw =>
      cases h with
      | inl h => exact handleWrite_sound h ws
      | inr h => exact absurd hw (h.unwatches _)
    next => exact h
  | sendData data cmdid =>
    cases h with
    | inl h => exact (send_open h data cmdid).imp (fun _ hs => .inl hs) (fun _ _ => trivial)
    | inr h =>
      unfold ConnState.send
      apply (sendData_untouched s data cmdid).bind
      rintro ⟨s', ret⟩ hu
      have h' : Shut s' := ⟨hu.connfd.trans h.connfd, hu.loop.trans h.loop, by
        rw [hu.evs h.loop]
        exact h.unwatched⟩
      simp only
      split
      · exact .inr ⟨h'.connfd, h'.loop, h'.unwatched⟩
      · exact .inr ⟨h'.connfd, h'.loop, h'.unwatched⟩
  | others c =>
    cases h with
    | inl h => exact (poolCommand_open h c).imp (fun _ hs => .inl hs) (fun _ _ => trivial)
    | inr h =>
      apply (poolCommand_conn s c).imp _ (fun _ he => he)
      rintro s' ⟨hconn, hevs⟩
      refine .inr ⟨?_, ?_, ?_⟩
      · rw [hconn]
        exact h.connfd
      · rw [hconn]
        exact h.loop
      · rw [hevs]
        exact h.unwatched

/-- A connection starts with its output in order. -/
theorem init_open (h : Unconnected s) (connfd loop : Nat) :
    Ends (s.init srv connfd loop) Open (fun _ => True) := by
  unfold ConnState.init
  have hopen : Open { s with conn := { s.conn with connfd := connfd, loop := some loop } } := by
    refine ⟨⟨?_, by simp, Int.natCast_nonneg _, ?_⟩, ?_⟩
    · rw [h.conn]
      exact h.inv
    · change s.evs.mask (-1) = 0
      rw [h.evs]
      rfl
    · intro _
      refine ⟨[], ?_, ?_⟩
      · change Holds s.pool s.conn.obuf 0 []
        rw [h.conn]
        rfl
      · change s.sent ++ [] = frames s.accepted
        rw [h.sent, h.accepted]
        rfl
  apply ((callIf_open hopen srv.connBuildCb).imp (fun _ hs => hs) (fun _ _ => trivial)).bind
  intro s' h'
  have ha := h'.attached
  have hfd := ha.fd
  refine ⟨⟨ha.inv, ha.loop, hfd, ?_⟩, h'.outflow⟩
  change (s'.evs.addIoev s'.conn.connfd .tcpRcb epollIn none).mask (-1) = 0
  rw [EventLoop.mask_addIoev, if_neg]
  · exact ha.unwatched
  · intro he
    rw [← he] at hfd
    exact absurd hfd (by decide)

theorem run_sound (srv : TcpServer) (raw : BufId → Nat → UInt8) (before : List PoolCommand)
    (connfd loop : Nat) (events : List ConnEvent) :
    Ends (ConnState.run srv raw before connfd loop events) Sound (fun _ => True) := by
  rw [run_eq]
  unfold ConnState.start
  rw [bind_assoc]
  apply ((before_ends raw before).imp (fun _ hs => hs) (fun _ _ => trivial)).bind
  rintro s ⟨h, -⟩
  apply (init_open h connfd loop).bind
  intro s' h'
  exact Ends.foldlM (P := fun _ => Sound) (fun _ e _ _ _ hs => step_sound hs e) (.inl h')

/-- In every state a live connection gets into, as long as every `send_data` returned 0:
what the socket took and what `obuf` holds are the frames accepted, in order; `obuf` is
well formed; and neither `send_data` nor `handle_write` can fail an `assert`. -/
theorem output_stream_intact (srv : TcpServer) (raw : BufId → Nat → UInt8)
    (before : List PoolCommand) (connfd loop : Nat) (events : List ConnEvent) :
    Ends (ConnState.run srv raw before connfd loop events)
      (fun s => s.conn.connfd ≠ -1 → s.refused = 0 → ∃ pending,
        s.sent ++ pending = frames s.accepted ∧ Holds s.pool s.conn.obuf 0 pending ∧
        (∀ b, s.conn.obuf = some b → (s.pool.bufs b).head = 0 ∧
          (s.pool.bufs b).length ≤ (s.pool.bufs b).capacity) ∧
        (∀ data cmdid which, data.length + pending.length + 8 < 2147483648 →
          s.sendData data cmdid ≠ .error (.assertion which)) ∧
        ∀ ws which, s.handleWrite srv ws ≠ .error (.assertion which))
      (fun _ => True) := by
  apply (run_sound srv raw before connfd loop events).imp _ (fun _ he => he)
  intro s hs hlive href
  cases hs with
  | inr hshut => exact absurd hshut.connfd hlive
  | inl h =>
    obtain ⟨pending, hheld, hsent⟩ := h.outflow href
    refine ⟨pending, hsent, hheld, ?_, ?_, ?_⟩
    · intro b hb
      rw [hb] at hheld
      have w : Window (s.pool.bufs b) 0 pending := hheld
      have hfits := w.fits
      refine ⟨w.head, ?_⟩
      rw [w.length]
      omega
    · intro data cmdid which hlt herr
      have he := (sendData_outflow h.attached hheld data cmdid).of_error herr hlt
      cases he
    · intro ws which herr
      have hpass := @handleWrite_passes srv s h.attached pending hheld ws
      rcases hpass.of_error herr with he | ⟨g, he⟩
      · cases he
      · cases he

end EasyReactor.Server
