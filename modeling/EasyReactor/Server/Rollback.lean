import EasyReactor.Server.Life

set_option autoImplicit false

/-!
# Server: a refused `send_data`

`tcp_conn::send_data` appends the header and the body by two calls.  When only the header
finds room it takes eight bytes back with `pop`, and `pop` takes them from the front of
`obuf`: they are the header just written only when nothing was pending before it.
-/

namespace EasyReactor.Server

open EasyReactor.Foundation EasyReactor.Buffer EasyReactor.Loop EasyReactor.Wire

/-- `s'` has the unsent bytes and the registrations of `s`, and nothing to fail an `assert`
for. -/
structure Restored (srv : TcpServer) (s : ConnState) (pending : List UInt8) (s' : ConnState) :
    Prop where
  unsent : ∃ off, Holds s'.pool s'.conn.obuf off pending
  head : ∀ b, s'.conn.obuf = some b → (s'.pool.bufs b).head = 0
  interest : s'.evs = s.evs
  sends : ∀ data cmdid which, data.length + pending.length + 8 < 2147483648 →
    s'.sendData data cmdid ≠ .error (.assertion which)
  writes : ∀ ws which, s'.handleWrite srv ws ≠ .error (.assertion which)

/-- Behind the pending bytes there is room for a header, and not for the body after it. -/
def HeaderOnly (pending data : List UInt8) : Prop :=
  pending ≠ [] ∧ pending.length + 8 ≤ 8388608 ∧ 8388608 < pending.length + 8 + data.length

/-- An earlier refusal left `obuf` away from head 0. -/
def HeadMoved (s : ConnState) : Prop :=
  ∃ b, s.conn.obuf = some b ∧ (s.pool.bufs b).head ≠ 0

variable {srv : TcpServer} {s : ConnState} {pending : List UInt8}

/-- `send_data` on a buffer that holds `pending` at head 0: the frame is accepted when it
fits, and a refusal moves the head exactly when the header alone fits behind something. -/
theorem sendData_refused (h : Attached s) (hheld : Holds s.pool s.conn.obuf 0 pending)
    (data : List UInt8)
    (hlt : data.length + pending.length + 8 < 2147483648) (cmdid : Int32) :
    Ends (s.sendData data cmdid)
      (fun r => r.2 = 0 ∧ pending.length + 8 + data.length ≤ 8388608 ∨
        r.2 = -1 ∧ 8388608 < pending.length + 8 + data.length ∧ r.1.evs = s.evs ∧
          (¬ HeaderOnly pending data ∧ Holds r.1.pool r.1.conn.obuf 0 pending ∨
            HeaderOnly pending data ∧ ∃ b, r.1.conn.obuf = some b ∧
              (r.1.pool.bufs b).head = 8))
      (fun e => e = .exit ∧ 9 ≤ (s.conn.ibuf.toList ++ s.others).length) := by
  apply (sendData_ends h.inv_obuf hheld data cmdid).imp
  · intro r hr
    cases hr with
    | refused full =>
      have hfull := full hlt
      refine .inr ⟨rfl, by omega, rfl, .inl ⟨?_, hheld⟩⟩
      rintro ⟨-, hroom, -⟩
      omega
    | @takenBack p buf hk hheld₁ hemptied hroom full =>
      have hfull := full hlt
      refine .inr ⟨rfl, hfull, rfl, ?_⟩
      by_cases hnil : pending = []
      · -- the eight bytes in front are the header
        refine .inl ⟨fun hh => hh.1 hnil, ?_⟩
        change Holds p buf 0 pending
        rw [hemptied.mpr hnil, hnil]
        rfl
      · have hsome : buf ≠ none := fun hnone => hnil (hemptied.mp hnone)
        obtain ⟨b, rfl⟩ := Option.ne_none_iff_exists'.mp hsome
        exact .inr ⟨⟨hnil, hroom, hfull⟩, b, rfl, Window.head hheld₁⟩
    | accepted _ _ hfits => exact .inl ⟨rfl, hfits⟩
  · exact fun e he => he h.loop rfl hlt

/-- What holds its bytes at head 0 fails no `assert` later. -/
theorem Restored.of_held {s' : ConnState} (h : Attached s')
    (hheld : Holds s'.pool s'.conn.obuf 0 pending) (hevs : s'.evs = s.evs) :
    Restored srv s pending s' where
  unsent := ⟨0, hheld⟩
  head b hb := by
    rw [hb] at hheld
    exact Window.head hheld
  interest := hevs
  sends data cmdid which hlt herr := by
    have he := (sendData_outflow h hheld data cmdid).of_error herr hlt
    cases he
  writes ws which herr := by
    rcases (@handleWrite_passes srv s' h pending hheld ws).of_error herr with he | ⟨g, he⟩
    · cases he
    · cases he

/-- A refusal restores the output at head 0 unless only the header fitted. -/
theorem restores_iff (h : Attached s) (hheld : Holds s.pool s.conn.obuf 0 pending)
    (data : List UInt8)
    (hlt : data.length + pending.length + 8 < 2147483648) (cmdid : Int32) :
    Ends (s.sendData data cmdid)
      (fun r => (r.2 = -1 → Restored srv s pending r.1) ↔ ¬ HeaderOnly pending data)
      (fun e => e = .exit) := by
  apply ((sendData_refused h hheld data hlt cmdid).and_post
    ((sendData_undisturbed h data cmdid).imp (fun _ hr => hr) (fun _ _ => trivial))).imp _
    (fun _ he => he.1)
  rintro ⟨s', ret⟩ ⟨hcase, h', -⟩
  rcases hcase with ⟨hret, hfits⟩ | ⟨hret, -, hevs, ⟨hno, hheld'⟩ | ⟨hyes, b, hb, hhead⟩⟩
  · refine ⟨fun _ hh => ?_, fun _ hrefused => ?_⟩
    · have hfull := hh.2.2
      omega
    · exact absurd (hret.symm.trans hrefused) (by decide)
  · exact ⟨fun _ => hno, fun _ _ => .of_held h' hheld' hevs⟩
  · refine ⟨fun hall _ => ?_, fun hno => absurd hyes hno⟩
    have hzero := (hall hret).head b hb
    exact absurd (hhead.symm.trans hzero) (by decide)

/-- Away from head 0 `send_data` does not return. -/
theorem sendData_moved (hmoved : HeadMoved s) (data : List UInt8) (cmdid : Int32) :
    s.sendData data cmdid = .error (.assertion .sendHead) := by
  obtain ⟨b, hb, hhead⟩ := hmoved
  unfold ConnState.sendData TcpBuffer.sendData TcpBuffer.makeRoom
  rw [hb]
  simp only
  rw [if_pos hhead]
  rfl

/-- In every state of a live connection: a `send_data` that returns -1 leaves the unsent
bytes, their head and the registrations as they were, exactly when it is not one for which
only the header fits behind the bytes that are pending. -/
theorem refused_send_restores_iff (srv : TcpServer) (raw : BufId → Nat → UInt8)
    (before : List PoolCommand) (events : List ObjectEvent) :
    Ends (ConnState.lifeRun srv raw before events)
      (fun s => s.conn.loop ≠ none → ∃ off pending, Holds s.pool s.conn.obuf off pending ∧
        ∀ data cmdid, data.length + pending.length + 8 < 2147483648 →
          Ends (s.sendData data cmdid)
            (fun r => (r.2 = -1 → Restored srv s pending r.1) ↔ ¬ HeaderOnly pending data)
            (fun e => e = .exit ∨ HeadMoved s ∧ e = .assertion .sendHead))
      (fun _ => True) := by
  apply (lifeRun_settled srv raw before events).imp _ (fun _ he => he)
  intro s hs hlive
  cases hs with
  | inr h => exact absurd h.loop hlive
  | inl h =>
    obtain ⟨off, pending, hheld⟩ := h.output
    refine ⟨off, pending, hheld, ?_⟩
    intro data cmdid hlt
    by_cases hmoved : HeadMoved s
    · rw [sendData_moved hmoved]
      exact .inr ⟨hmoved, rfl⟩
    · have hheld₀ : Holds s.pool s.conn.obuf 0 pending := by
        apply hheld.at_head
        intro b hb
        by_contra hne
        exact hmoved ⟨b, hb, hne⟩
      exact (restores_iff h.attached hheld₀ data hlt cmdid).imp (fun _ hr => hr)
        (fun _ he => .inl he)

/-- Nine bytes are pending, and a frame is sent for which the eight megabytes left are not
enough: the header of the first frame is taken from the stream. -/
theorem refused_send_moves_head :
    ¬ Ends (ConnState.lifeRun (quietServer [1]) (fun _ _ => 0) [] oneSent)
      (fun s => s.conn.loop ≠ none → ∀ off pending, Holds s.pool s.conn.obuf off pending →
        Ends (s.sendData (List.replicate 8388592 0) 1)
          (fun r => r.2 = -1 → Restored (quietServer [1]) s pending r.1) (fun _ => True))
      (fun _ => True) := by
  intro h
  have hobs : (ConnState.lifeRun (quietServer [1]) (fun _ _ => 0) [] oneSent).toOption.map
      (fun s => (s.conn.loop.isSome, (s.conn.ibuf.toList ++ s.others).length,
        s.conn.obuf.length s.pool, s.conn.obuf.map fun b => (s.pool.bufs b).head)) =
      some (true, 0, 9, some 0) := by
    decide +kernel
  obtain ⟨s, hrun, hobs⟩ := ok_of_observed hobs
  obtain ⟨hlive, hobs⟩ := Prod.mk.inj hobs
  obtain ⟨hrest, hobs⟩ := Prod.mk.inj hobs
  obtain ⟨hlen, hhead⟩ := Prod.mk.inj hobs
  have hs := (lifeRun_settled (quietServer [1]) (fun _ _ => 0) [] oneSent).of_ok hrun
  cases hs with
  | inr hrel =>
    rw [hrel.loop] at hlive
    cases hlive
  | inl hlist =>
    obtain ⟨off, pending, hheld⟩ := hlist.output
    have hpending := hheld.length
    rw [hlen] at hpending
    have hheld₀ : Holds s.pool s.conn.obuf 0 pending := by
      apply hheld.at_head
      intro b hb
      rw [hb] at hhead
      exact Option.some.inj hhead
    have hdata : (List.replicate 8388592 (0 : UInt8)).length = 8388592 := List.length_replicate
    have hrefused := sendData_refused hlist.attached hheld₀ (.replicate 8388592 0) (by omega) 1
    have hclaim := (h.of_ok hrun) hlist.attached.loop off pending hheld
    generalize List.replicate 8388592 (0 : UInt8) = data at hdata hrefused hclaim
    cases hsend : s.sendData data 1 with
    | error e =>
      have hmany := (hrefused.of_error hsend).2
      omega
    | ok r =>
      rcases hrefused.of_ok hsend with ⟨-, hfits⟩ | ⟨hret, -, -, ⟨hno, -⟩ | ⟨-, b, hb, hmoved⟩⟩
      · omega
      · exact hno ⟨List.ne_nil_of_length_pos (by omega), by omega, by omega⟩
      · have hzero := ((hclaim.of_ok hsend) hret).head b hb
        exact absurd (hmoved.symm.trans hzero) (by decide)

end EasyReactor.Server
