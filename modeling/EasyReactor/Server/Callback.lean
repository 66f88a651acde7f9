import EasyReactor.Server.TcpConn

set_option autoImplicit false

/-!
# Server: what callbacks leave alone

A user callback may send on its connection and do anything with buffers that are not the
connection's.  It cannot touch `ibuf`, and takes no interest away from the loop.
-/

namespace EasyReactor.Server

open EasyReactor.Foundation EasyReactor.Buffer EasyReactor.Loop EasyReactor.Wire

/-- An open connection, between `init` and `clean_conn`. -/
structure Attached (s : ConnState) : Prop where
  inv : PoolInv s.pool (s.conn.ibuf.toList ++ (s.conn.obuf.toList ++ s.others))
  loop : s.conn.loop ≠ none
  fd : 0 ≤ s.conn.connfd
  unwatched : s.evs.mask (-1) = 0

/-- What `s'` has in common with an earlier `s` when only callbacks ran between. -/
structure Undisturbed (s s' : ConnState) : Prop where
  connfd : s'.conn.connfd = s.conn.connfd
  loop : s'.conn.loop = s.conn.loop
  ibuf : s'.conn.ibuf = s.conn.ibuf
  memory : ∀ b ∈ s.conn.ibuf.toList, s'.pool.bufs b = s.pool.bufs b
  watches : ∀ fd m, s.evs.Watches fd m → s'.evs.Watches fd m
  dispatched : s'.dispatched = s.dispatched

namespace Undisturbed

variable {s s' s'' : ConnState}

theorem refl (s : ConnState) : Undisturbed s s :=
  ⟨rfl, rfl, rfl, fun _ _ => rfl, fun _ _ h => h, rfl⟩

theorem trans (h : Undisturbed s s') (h' : Undisturbed s' s'') : Undisturbed s s'' where
  connfd := h'.connfd.trans h.connfd
  loop := h'.loop.trans h.loop
  ibuf := h'.ibuf.trans h.ibuf
  memory b hb := (h'.memory b (h.ibuf ▸ hb)).trans (h.memory b hb)
  watches fd m hw := h'.watches fd m (h.watches fd m hw)
  dispatched := h'.dispatched.trans h.dispatched

/-- `ibuf` still holds what it held. -/
theorem holds (h : Undisturbed s s') {off : Nat} {bs : List UInt8}
    (hold : Holds s.pool s.conn.ibuf off bs) : Holds s'.pool s'.conn.ibuf off bs := by
  rw [h.ibuf]
  exact hold.congr h.memory

end Undisturbed

/-- The pool with the output buffer in front: what a call on `obuf` starts from. -/
theorem Attached.inv_obuf {s : ConnState} (h : Attached s) :
    PoolInv s.pool (s.conn.obuf.toList ++ (s.conn.ibuf.toList ++ s.others)) := by
  apply h.inv.perm
  rw [← List.append_assoc, ← List.append_assoc]
  exact List.Perm.append_right _ List.perm_append_comm

/-- A call on `obuf` that keeps to its own buffer. -/
theorem Attached.setObuf {s : ConnState} (h : Attached s) {p : BufferPool} {buf : TcpBuffer}
    (hk : Keeps (s.conn.ibuf.toList ++ s.others) s.pool p buf) :
    Attached (s.setObuf p buf) ∧ Undisturbed s (s.setObuf p buf) := by
  refine ⟨⟨?_, h.loop, h.fd, h.unwatched⟩, rfl, rfl, rfl, ?_, fun _ _ hw => hw, rfl⟩
  · apply hk.inv.perm
    rw [← List.append_assoc, ← List.append_assoc]
    exact List.Perm.append_right _ List.perm_append_comm
  · intro b hb
    exact hk.others b (List.mem_append_left _ hb)

/-- What the rest of the process does concerns its own buffers; only `alloc` can end the
process. -/
theorem poolCommand_ends {s : ConnState} {mine : List BufId}
    (h : PoolInv s.pool (mine ++ s.others)) (c : PoolCommand) :
    Ends (s.poolCommand c)
      (fun s' => ∃ p os, s' = { s with pool := p, others := os } ∧ PoolInv p (mine ++ os) ∧
        ∀ b ∈ mine, p.bufs b = s.pool.bufs b)
      (fun e => e = .exit) := by
  have hnodup := List.nodup_append.mp h.nodup
  cases c with
  | alloc N =>
    unfold ConnState.poolCommand
    apply ((alloc_ends h N).imp (fun _ hr => hr) (fun _ he => he.1)).bind
    rintro ⟨p, b?⟩ hr
    cases b? with
    | none =>
      obtain ⟨rfl, -⟩ := hr
      exact ⟨_, _, rfl, h, fun _ _ => rfl⟩
    | some b =>
      have hr : Allocated s.pool p _ N b := hr
      refine ⟨p, b :: s.others, rfl, hr.inv.perm List.perm_middle.symm, ?_⟩
      intro a ha
      apply hr.others
      rintro rfl
      exact (List.nodup_cons.mp hr.inv.nodup).1 (List.mem_append_left _ ha)
  | revert i =>
    unfold ConnState.poolCommand
    simp only
    cases hi : s.others[i]? with
    | none => exact ⟨_, _, rfl, h, fun _ _ => rfl⟩
    | some b =>
      obtain ⟨hlt, hb⟩ := List.getElem?_eq_some_iff.mp hi
      have hperm : (mine ++ s.others).Perm (b :: (mine ++ s.others.eraseIdx i)) := by
        have := List.getElem_cons_eraseIdx_perm hlt
        rw [hb] at this
        exact (List.Perm.append_left mine this.symm).trans List.perm_middle
      obtain ⟨p, hp, hinv, hothers⟩ := revert_eq (h.perm hperm)
      simp only
      rw [hp, ok_bind]
      refine ⟨p, _, rfl, hinv, ?_⟩
      intro a ha
      apply hothers
      rintro rfl
      exact hnodup.2.2 a ha a (List.mem_of_getElem? hi) rfl
  | write i length head data =>
    unfold ConnState.poolCommand
    simp only
    cases hi : s.others[i]? with
    | none => exact ⟨_, _, rfl, h, fun _ _ => rfl⟩
    | some b =>
      have hb := List.mem_of_getElem? hi
      refine ⟨_, s.others, rfl, h.setBuf (List.mem_append_right _ hb) rfl, ?_⟩
      intro a ha
      apply Function.update_of_ne
      rintro rfl
      exact hnodup.2.2 a ha a hb rfl

theorem poolCommand_undisturbed {s : ConnState} (h : Attached s) (c : PoolCommand) :
    Ends (s.poolCommand c) (fun s' => Attached s' ∧ Undisturbed s s') (fun e => e = .exit) := by
  have hinv := h.inv
  rw [← List.append_assoc] at hinv
  apply (poolCommand_ends hinv c).imp _ (fun _ he => he)
  rintro _ ⟨p, os, rfl, hp, hmine⟩
  refine ⟨⟨?_, h.loop, h.fd, h.unwatched⟩, rfl, rfl, rfl, ?_, fun _ _ hw => hw, rfl⟩
  · rw [List.append_assoc] at hp
    exact hp
  · intro b hb
    exact hmine b (List.mem_append_left _ hb)

/-- What `send_data` never touches, not even on a connection that was cleaned. -/
structure Untouched (s s' : ConnState) : Prop where
  connfd : s'.conn.connfd = s.conn.connfd
  loop : s'.conn.loop = s.conn.loop
  evs : s.conn.loop = none → s'.evs = s.evs
  sent : s'.sent = s.sent
  accepted : s'.accepted = s.accepted
  refused : s'.refused = s.refused

theorem sendData_untouched (s : ConnState) (data : List UInt8) (cmdid : Int32) :
    Ends (s.sendData data cmdid) (fun r => Untouched s r.1) (fun _ => True) := by
  have hset : ∀ s' p buf, Untouched s s' → Untouched s (s'.setObuf p buf) := fun s' p buf h =>
    ⟨h.connfd, h.loop, h.evs, h.sent, h.accepted, h.refused⟩
  have hrefl : Untouched s s := ⟨rfl, rfl, fun _ => rfl, rfl, rfl, rfl⟩
  unfold ConnState.sendData
  apply (Ends.any _).bind
  rintro ⟨p, buf, ret⟩ -
  have h₁ := hset s p buf hrefl
  simp only
  split
  next => exact h₁
  next =>
    apply (Ends.any _).bind
    rintro ⟨p₂, buf₂, ret₂⟩ -
    have h₂ := hset _ p₂ buf₂ h₁
    simp only
    split
    next =>
      apply (Ends.any _).bind
      rintro ⟨p₃, buf₃⟩ -
      exact hset _ p₃ buf₃ h₂
    next =>
      split
      next =>
        split
        next => trivial
        next l hloop =>
          refine ⟨h₂.connfd, h₂.loop, ?_, h₂.sent, h₂.accepted, h₂.refused⟩
          intro hnone
          rw [← h₂.loop] at hnone
          rw [hnone] at hloop
          cases hloop
      next => exact h₂

/-- How a `send_data` that finds `pending` in `obuf` returns; `rest` are the other buffers in
use.  A refusal after the header takes eight bytes back from the front. -/
inductive Queued (s : ConnState) (rest : List BufId) (pending data : List UInt8) (cmdid : Int32) :
    ConnState × Int → Prop where
  | refused (full : data.length + pending.length + 8 < 2147483648 →
      8388608 < pending.length + 8) : Queued s rest pending data cmdid (s, -1)
  | takenBack {p : BufferPool} {buf : TcpBuffer} (keeps : Keeps rest s.pool p buf)
      (held : Holds p buf 8
        ((pending ++ (CommuHead.mk cmdid (.ofInt data.length)).bytes).drop 8))
      (emptied : buf = none ↔ pending = []) (room : pending.length + 8 ≤ 8388608)
      (full : data.length + pending.length + 8 < 2147483648 →
        8388608 < pending.length + 8 + data.length) :
      Queued s rest pending data cmdid (s.setObuf p buf, -1)
  | accepted {p : BufferPool} {buf : TcpBuffer} (keeps : Keeps rest s.pool p buf)
      (held : Holds p buf 0 (pending ++ (Msg.mk cmdid data).frame))
      (fits : pending.length + 8 + data.length ≤ 8388608)
      (loop : pending = [] → s.conn.loop ≠ none) :
      Queued s rest pending data cmdid ({ s.setObuf p buf with
        evs := if s.conn.obuf.length s.pool = 0 then
            s.evs.addIoev s.conn.connfd .tcpWcb epollOut none
          else s.evs }, 0)

theorem sendData_ends {s : ConnState} {rest : List BufId}
    (h : PoolInv s.pool (s.conn.obuf.toList ++ rest)) {off : Nat} {pending : List UInt8}
    (hheld : Holds s.pool s.conn.obuf off pending) (data : List UInt8) (cmdid : Int32) :
    Ends (s.sendData data cmdid) (Queued s rest pending data cmdid)
      (fun e => s.conn.loop ≠ none → off = 0 →
        data.length + pending.length + 8 < 2147483648 → e = .exit ∧ 9 ≤ rest.length) := by
  have hhead := CommuHead.length_bytes ⟨cmdid, .ofInt data.length⟩
  have hwidth := commuHeadLength_eq
  have hlen := hheld.length
  unfold ConnState.sendData
  apply (TcpBuffer.sendData_ends h hheld _).bind_eq
  · exact fun e he _ hoff hlt => he hoff (by omega)
  rintro ⟨p, buf, ret⟩ - hfirst
  cases hfirst with
  | refused full =>
    simp only
    rw [if_pos (by decide)]
    refine .refused fun hlt => ?_
    have hfull := full (by omega)
    omega
  | appended hk hmade hheld₁ hroom =>
    simp only
    rw [if_neg (by decide)]
    have hlen₁ : (pending ++ (CommuHead.mk cmdid (.ofInt data.length)).bytes).length =
        pending.length + 8 := by
      rw [List.length_append, hhead, hwidth]
    apply (TcpBuffer.sendData_ends hk.inv hheld₁ data).bind_eq
    · exact fun e he _ _ hlt => he rfl (by omega)
    rintro ⟨p₂, buf₂, ret₂⟩ - hsecond
    cases hsecond with
    | refused full =>
      -- the header just written is there to be taken back
      simp only
      rw [if_pos (by decide)]
      obtain ⟨p₃, buf₃, hpop, hk₃, hheld₃, hnone⟩ := TcpBuffer.pop_eq hk.inv hheld₁ hmade
        (n := commuHeadLength) (by omega)
      simp only [ConnState.setObuf] at hpop ⊢
      rw [hpop, ok_bind]
      rw [hwidth] at hheld₃ hnone
      refine .takenBack (hk.trans hk₃) hheld₃ (hnone.trans ?_) (by omega) fun hlt => ?_
      · rw [← List.length_eq_zero_iff, List.length_drop, hlen₁, Nat.add_sub_cancel,
          List.length_eq_zero_iff]
      · have hfull := full (by omega)
        omega
    | appended hk₂ hmade₂ hheld₂ hfits =>
      simp only
      rw [if_neg (by decide)]
      rw [List.append_assoc] at hheld₂
      have hout : (pending = [] → s.conn.loop ≠ none) → Queued s rest pending data cmdid _ :=
        .accepted (hk.trans hk₂) hheld₂ (by omega)
      split
      next hneed =>
        rw [if_pos hneed] at hout
        split
        next hloop => exact fun hno => absurd hloop hno
        next l hloop =>
          apply hout
          intro _ hnone
          cases hnone.symm.trans hloop
      next hneed =>
        rw [if_neg hneed] at hout
        apply hout
        rintro rfl
        exact absurd hlen hneed

/-- `send_data` keeps to `obuf`, whatever it holds, and only adds interest. -/
theorem sendData_undisturbed {s : ConnState} (h : Attached s) (data : List UInt8)
    (cmdid : Int32) :
    Ends (s.sendData data cmdid) (fun r => Attached r.1 ∧ Undisturbed s r.1)
      (fun _ => True) := by
  unfold ConnState.sendData
  apply (TcpBuffer.sendData_keeps h.inv_obuf _).bind
  rintro ⟨p, buf, ret⟩ hk
  obtain ⟨h₁, hu₁⟩ := h.setObuf hk
  simp only
  split
  next => exact ⟨h₁, hu₁⟩
  next =>
    apply (TcpBuffer.sendData_keeps h₁.inv_obuf _).bind
    rintro ⟨p₂, buf₂, ret₂⟩ hk₂
    obtain ⟨h₂, hu₂⟩ := h₁.setObuf hk₂
    simp only
    split
    next =>
      apply ((TcpBuffer.pop_keeps h₂.inv_obuf _).imp (fun _ hr => hr) (fun _ _ => trivial)).bind
      rintro ⟨p₃, buf₃⟩ hk₃
      obtain ⟨h₃, hu₃⟩ := h₂.setObuf hk₃
      exact ⟨h₃, hu₁.trans (hu₂.trans hu₃)⟩
    next =>
      split
      next =>
        split
        next => trivial
        next =>
          have hu := hu₁.trans hu₂
          refine ⟨⟨h₂.inv, h₂.loop, h₂.fd, ?_⟩, ⟨hu.connfd, hu.loop, hu.ibuf, hu.memory, ?_,
            hu.dispatched⟩⟩
          · have hfd := h₂.fd
            rw [EventLoop.mask_addIoev, if_neg]
            · exact h₂.unwatched
            · intro he
              rw [← he] at hfd
              exact absurd hfd (by decide)
          · intro fd m hw
            exact (hu.watches fd m hw).addIoev
      next => exact ⟨h₂, hu₁.trans hu₂⟩

theorem send_undisturbed {s : ConnState} (h : Attached s) (data : List UInt8) (cmdid : Int32) :
    Ends (s.send data cmdid) (fun s' => Attached s' ∧ Undisturbed s s') (fun _ => True) := by
  unfold ConnState.send
  apply (sendData_undisturbed h data cmdid).bind
  rintro ⟨s', ret⟩ ⟨h', hu⟩
  simp only
  split
  · exact ⟨⟨h'.inv, h'.loop, h'.fd, h'.unwatched⟩, hu.connfd, hu.loop, hu.ibuf, hu.memory,
      hu.watches, hu.dispatched⟩
  · exact ⟨⟨h'.inv, h'.loop, h'.fd, h'.unwatched⟩, hu.connfd, hu.loop, hu.ibuf, hu.memory,
      hu.watches, hu.dispatched⟩

theorem perform_undisturbed {s : ConnState} (h : Attached s) (act : UserAct) :
    Ends (s.perform act) (fun s' => Attached s' ∧ Undisturbed s s') (fun _ => True) := by
  cases act with
  | sendData data cmdid => exact send_undisturbed h data cmdid
  | setParameter v =>
    exact ⟨⟨h.inv, h.loop, h.fd, h.unwatched⟩, rfl, rfl, rfl, fun _ _ => rfl, fun _ _ hw => hw,
      rfl⟩
  | others c => exact (poolCommand_undisturbed h c).imp (fun _ hr => hr) (fun _ _ => trivial)

/-- A callback leaves the connection open and `ibuf` alone; what goes wrong goes wrong
inside it. -/
theorem callback_ends {s : ConnState} (h : Attached s) (acts : List UserAct) :
    Ends (s.callback acts) (fun s' => Attached s' ∧ Undisturbed s s' ∧ (acts = [] → s' = s))
      (fun e => (∃ g, e = .callback g) ∧ acts ≠ []) := by
  cases acts with
  | nil => exact ⟨h, .refl s, fun _ => rfl⟩
  | cons act acts =>
    have hrun : Ends ((act :: acts).foldlM ConnState.perform s)
        (fun s' => Attached s' ∧ Undisturbed s s') (fun _ => True) :=
      Ends.foldlM (P := fun _ s' => Attached s' ∧ Undisturbed s s')
        (fun _ a _ s₁ _ hs₁ => (perform_undisturbed hs₁.1 a).imp
          (fun s₂ hs₂ => ⟨hs₂.1, hs₁.2.trans hs₂.2⟩) (fun _ _ => trivial)) ⟨h, .refl s⟩
    unfold ConnState.callback
    cases hf : (act :: acts).foldlM ConnState.perform s with
    | ok s' =>
      obtain ⟨h₁, h₂⟩ := hrun.of_ok hf
      exact ⟨h₁, h₂, fun hnil => absurd hnil (List.cons_ne_nil _ _)⟩
    | error g => exact ⟨⟨g, rfl⟩, List.cons_ne_nil _ _⟩

theorem callIf_ends {s : ConnState} (h : Attached s) (cb : Option ConnCallback) :
    Ends (s.callIf cb) (fun s' => Attached s' ∧ Undisturbed s s' ∧ (cb = none → s' = s))
      (fun e => (∃ g, e = .callback g) ∧ cb ≠ none) := by
  cases cb with
  | none => exact ⟨h, .refl s, fun _ => rfl⟩
  | some cb =>
    apply (callback_ends h (cb s.dispatched)).imp
    · rintro s' ⟨h', hu, -⟩
      exact ⟨h', hu, fun hn => by cases hn⟩
    · rintro e ⟨he, -⟩
      exact ⟨he, by simp⟩

end EasyReactor.Server
