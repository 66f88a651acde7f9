import EasyReactor.Udp.Endpoint

set_option autoImplicit false

/-!
# Udp: what is dispatched

A datagram is well formed when it has a header, and the header says how much follows.
Behind a shorter datagram the header is partly stale, but whatever length it says is not
eight less than what has arrived.
-/

namespace EasyReactor.Udp

open EasyReactor.Foundation EasyReactor.Wire

/-- The message of a well-formed datagram. -/
def wellFormed (d : List UInt8) : Option Msg :=
  let head := CommuHead.ofBytes d
  if commuHeadLength ≤ d.length ∧ head.length.toInt = d.length - commuHeadLength then
    some ⟨head.cmdid, d.drop commuHeadLength⟩
  else none

/-- What of a datagram gets into `_rbuf`. -/
def received (bytes : List UInt8) : List UInt8 := bytes.take bufferSize

/-- The message that a datagram brings. -/
def arrived (bytes : List UInt8) : Option Msg := wellFormed (received bytes)

theorem received_eq {bytes : List UInt8} (h : bytes.length ≤ bufferSize) :
    received bytes = bytes :=
  List.take_of_length_le h

theorem length_received (bytes : List UInt8) : (received bytes).length ≤ bufferSize :=
  List.length_take_le _ _

/-- The datagrams that a call of `handle_read` receives. -/
def datagrams {α : Type} : List (RecvFrom α) → List (List UInt8)
  | [] => []
  | .package bytes _ :: rs => bytes :: datagrams rs
  | .eintr :: rs => datagrams rs
  | .eagain :: _ => []
  | .failure :: _ => []

variable {κ : Type}

/-- The callback that a message goes to. -/
def dispatch (disp : MsgDispatcher κ) (m : Msg) : Except Fault (Dispatch κ) := do
  let (func, usrData) ← disp.cb m.cmdid
  .ok ⟨func, usrData, m⟩

/-- What a datagram leads to. -/
def deliver (disp : MsgDispatcher κ) (bytes : List UInt8) : Except Fault (List (Dispatch κ)) :=
  match arrived bytes with
  | none => .ok []
  | some m => do
    let d ← dispatch disp m
    .ok [d]

/-! ## One datagram -/

namespace Endpoint

variable (e : Endpoint κ) {bytes : List UInt8}

/-- The header is that of the datagram, if it has one. -/
theorem recv_head (h : commuHeadLength ≤ (received bytes).length) :
    (e.recv bytes).1.head = CommuHead.ofBytes (received bytes) := by
  have hslice : slice (e.recv bytes).1.rbuf 0 commuHeadLength =
      (received bytes).take commuHeadLength := by
    have hall : slice (e.recv bytes).1.rbuf 0 (received bytes).length = received bytes :=
      slice_store e.rbuf 0 (received bytes)
    rw [← take_slice _ _ h, hall]
  rw [head, hslice, CommuHead.ofBytes_take h]

/-- The body is what follows the header. -/
theorem recv_body (h : commuHeadLength ≤ (received bytes).length) :
    slice (e.recv bytes).1.rbuf commuHeadLength ((received bytes).length - commuHeadLength) =
      (received bytes).drop commuHeadLength := by
  have hall : slice (e.recv bytes).1.rbuf 0 (received bytes).length = received bytes :=
    slice_store e.rbuf 0 (received bytes)
  have hdrop := drop_slice (e.recv bytes).1.rbuf 0 h
  rw [hall, Nat.zero_add] at hdrop
  exact hdrop.symm

/-- The two ways in which the last part of the check is written. -/
def Compares (mismatch : Int → Int → Bool) : Prop :=
  ∀ length pkgLen : Int, mismatch length pkgLen = true ↔ length + commuHeadLength ≠ pkgLen

variable {mismatch : Int → Int → Bool}

/-- The check passes exactly the well-formed datagrams, whatever `_rbuf` held. -/
theorem messedUp_iff (hm : Compares mismatch) :
    messedUp mismatch (e.recv bytes).1.head (e.recv bytes).2 = true ↔
      wellFormed (received bytes) = none := by
  have hlimit : (received bytes).length ≤ msgLengthLimit := length_received bytes
  have hlen : (e.recv bytes).2 = (received bytes).length := rfl
  unfold messedUp wellFormed
  rw [Bool.or_eq_true, Bool.or_eq_true, decide_eq_true_iff, decide_eq_true_iff, hm, hlen]
  by_cases h : commuHeadLength ≤ (received bytes).length
  · rw [recv_head e h]
    simp only [h, true_and, ite_eq_right_iff, reduceCtorEq, imp_false]
    omega
  · -- only a negative length makes up for the bytes that are missing
    simp only [h, false_and, if_false, iff_true]
    omega

/-- The callback is passed the message of the datagram. -/
theorem recv_cb {m : Msg} (h : wellFormed (received bytes) = some m) :
    (e.recv bytes).1.cb (e.recv bytes).1.head = dispatch e.dispatcher m := by
  unfold wellFormed at h
  simp only at h
  split at h
  next hwell =>
    obtain rfl := Option.some.inj h
    have hbody : slice (e.recv bytes).1.rbuf commuHeadLength
        (CommuHead.ofBytes (received bytes)).length.toInt.toNat =
          (received bytes).drop commuHeadLength := by
      rw [← recv_body e hwell.1, hwell.2]
      congr 1
      omega
    rw [cb, recv_head e hwell.1, hbody]
    rfl
  next => cases h

/-- What is done with a datagram depends on it alone. -/
theorem package_eq (hm : Compares mismatch) :
    e.package mismatch bytes =
      (deliver e.dispatcher bytes).map fun ds => ((e.recv bytes).1, ds) := by
  unfold package deliver arrived
  simp only
  cases hwell : wellFormed (received bytes) with
  | none => rw [if_pos ((messedUp_iff e hm).mpr hwell), Except.map]
  | some m =>
    rw [if_neg (by rw [messedUp_iff e hm, hwell]; exact Option.some_ne_none m),
      recv_cb e hwell]
    simp only
    cases dispatch e.dispatcher m <;> rfl

end Endpoint

/-! ## Whole calls -/

/-- What a sequence of datagrams leads to. -/
def deliverAll (disp : MsgDispatcher κ) : List (List UInt8) → Except Fault (List (Dispatch κ))
  | [] => .ok []
  | bytes :: bs => do
    let ds ← deliver disp bytes
    let ds' ← deliverAll disp bs
    .ok (ds ++ ds')

theorem deliverAll_append (disp : MsgDispatcher κ) (bs bs' : List (List UInt8)) :
    deliverAll disp (bs ++ bs') =
      (deliverAll disp bs).bind fun ds => (deliverAll disp bs').map (ds ++ ·) := by
  induction bs with
  | nil =>
    rw [List.nil_append, deliverAll]
    cases deliverAll disp bs' <;> rfl
  | cons bytes bs ih =>
    rw [List.cons_append, deliverAll, deliverAll, ih]
    cases deliver disp bytes with
    | error f => rfl
    | ok ds =>
      cases deliverAll disp bs with
      | error f => rfl
      | ok ds' =>
        cases deliverAll disp bs' with
        | error f => rfl
        | ok ds'' => exact congrArg Except.ok (List.append_assoc ds ds' ds'').symm

section Calls

variable {σ α : Type} {disp : MsgDispatcher κ} {P : σ → Prop}
  {package : σ → List UInt8 → α → Except Fault (σ × List (Dispatch κ))}
  {read : σ → List (RecvFrom α) → Except Fault (σ × List (Dispatch κ))}

/-- The rule for a call of `handle_read`, from what it does with one datagram. -/
theorem handleRead_eq
    (hpackage : ∀ s bytes src, P s → ∃ t, P t ∧
      package s bytes src = (deliver disp bytes).map fun ds => (t, ds)) :
    ∀ (rs : List (RecvFrom α)) (s : σ), P s → ∃ t, P t ∧
      handleRead package s rs = (deliverAll disp (datagrams rs)).map fun ds => (t, ds) := by
  intro rs
  induction rs with
  | nil => exact fun s hs => ⟨s, hs, rfl⟩
  | cons r rs ih =>
    intro s hs
    cases r with
    | eintr => exact ih s hs
    | eagain => exact ⟨s, hs, rfl⟩
    | failure => exact ⟨s, hs, rfl⟩
    | package bytes src =>
      obtain ⟨t, ht, htake⟩ := hpackage s bytes src hs
      obtain ⟨u, hu, hrest⟩ := ih t ht
      refine ⟨u, hu, ?_⟩
      rw [handleRead, htake, datagrams, deliverAll]
      cases deliver disp bytes with
      | error f => rfl
      | ok ds =>
        change (handleRead package t rs).bind _ = _
        rw [hrest]
        cases deliverAll disp (datagrams rs) <;> rfl

/-- The rule for several calls. -/
theorem handleReads_eq
    (hread : ∀ rs s, P s → ∃ t, P t ∧
      read s rs = (deliverAll disp (datagrams rs)).map fun ds => (t, ds)) :
    ∀ (calls : List (List (RecvFrom α))) (s : σ), P s → ∃ t, P t ∧
      handleReads read s calls =
        (deliverAll disp (calls.flatMap datagrams)).map fun ds => (t, ds) := by
  intro calls
  induction calls with
  | nil => exact fun s hs => ⟨s, hs, rfl⟩
  | cons c calls ih =>
    intro s hs
    obtain ⟨t, ht, hc⟩ := hread c s hs
    obtain ⟨u, hu, hrest⟩ := ih t ht
    refine ⟨u, hu, ?_⟩
    rw [handleReads, hc, List.flatMap_cons, deliverAll_append]
    cases deliverAll disp (datagrams c) with
    | error f => rfl
    | ok ds =>
      change (handleReads read t calls).bind _ = _
      rw [hrest]
      cases deliverAll disp (calls.flatMap datagrams) <;> rfl

end Calls

theorem UdpServer.handleRead_all {α : Type} (disp : MsgDispatcher κ) (rs : List (RecvFrom α)) :
    ∀ s : UdpServer κ α, s.dispatcher = disp → ∃ t : UdpServer κ α, t.dispatcher = disp ∧
      s.handleRead rs = (deliverAll disp (datagrams rs)).map fun ds => (t, ds) := by
  have hcompares : Endpoint.Compares mismatch := fun length pkgLen => bne_iff_ne
  refine Udp.handleRead_eq (fun s bytes src hs => ?_) rs
  refine ⟨{ toEndpoint := (s.toEndpoint.recv bytes).1, srcaddr := src }, hs, ?_⟩
  rw [package, Endpoint.package_eq _ hcompares, hs]
  cases deliver disp bytes <;> rfl

theorem UdpClient.handleRead_all {α : Type} (disp : MsgDispatcher κ) (rs : List (RecvFrom α)) :
    ∀ c : UdpClient κ, c.dispatcher = disp → ∃ t : UdpClient κ, t.dispatcher = disp ∧
      c.handleRead rs = (deliverAll disp (datagrams rs)).map fun ds => (t, ds) := by
  have hcompares : Endpoint.Compares mismatch := by
    intro length pkgLen
    rw [mismatch, bne_iff_ne]
    omega
  refine Udp.handleRead_eq (fun c bytes src hc => ?_) rs
  refine ⟨⟨(c.toEndpoint.recv bytes).1⟩, hc, ?_⟩
  rw [package, Endpoint.package_eq _ hcompares, hc]
  cases deliver disp bytes <;> rfl

theorem UdpServer.handleRead_eq {α : Type} (s : UdpServer κ α) (rs : List (RecvFrom α)) :
    ∃ t, s.handleRead rs =
      (deliverAll s.dispatcher (datagrams rs)).map fun ds => (t, ds) := by
  obtain ⟨t, -, ht⟩ := handleRead_all s.dispatcher rs s rfl
  exact ⟨t, ht⟩

theorem UdpClient.handleRead_eq {α : Type} (c : UdpClient κ) (rs : List (RecvFrom α)) :
    ∃ t, c.handleRead rs =
      (deliverAll c.dispatcher (datagrams rs)).map fun ds => (t, ds) := by
  obtain ⟨t, -, ht⟩ := handleRead_all c.dispatcher rs c rfl
  exact ⟨t, ht⟩

theorem UdpServer.handleReads_eq {α : Type} (s : UdpServer κ α)
    (calls : List (List (RecvFrom α))) :
    ∃ t, handleReads UdpServer.handleRead s calls =
      (deliverAll s.dispatcher (calls.flatMap datagrams)).map fun ds => (t, ds) := by
  obtain ⟨t, -, ht⟩ := Udp.handleReads_eq (handleRead_all s.dispatcher) calls s rfl
  exact ⟨t, ht⟩

theorem UdpClient.handleReads_eq {α : Type} (c : UdpClient κ)
    (calls : List (List (RecvFrom α))) :
    ∃ t, handleReads UdpClient.handleRead c calls =
      (deliverAll c.dispatcher (calls.flatMap datagrams)).map fun ds => (t, ds) := by
  obtain ⟨t, -, ht⟩ := Udp.handleReads_eq (handleRead_all c.dispatcher) calls c rfl
  exact ⟨t, ht⟩

/-! ## Which messages are dispatched -/

variable {disp : MsgDispatcher κ}

/-- Every message that arrives has a callback. -/
def Registered (disp : MsgDispatcher κ) (bs : List (List UInt8)) : Prop :=
  ∀ bytes ∈ bs, ∀ m ∈ arrived bytes, disp.exist m.cmdid = true

instance (disp : MsgDispatcher κ) (bs : List (List UInt8)) : Decidable (Registered disp bs) :=
  inferInstanceAs (Decidable (∀ bytes ∈ bs, ∀ m ∈ arrived bytes, _))

theorem dispatch_of_exist {m : Msg} (h : disp.exist m.cmdid = true) :
    ∃ d, dispatch disp m = .ok d ∧ d.msg = m := by
  obtain ⟨func, usrData, hcb, -⟩ := MsgDispatcher.cb_eq h
  exact ⟨⟨func, usrData, m⟩, by rw [dispatch, hcb, ok_bind], rfl⟩

/-- The `assert` in `msg_dispatcher::cb`. -/
theorem dispatch_of_not_exist {m : Msg} (h : ¬ disp.exist m.cmdid = true) :
    dispatch disp m = .error (.assertion .cbExist) := by
  have hnone : disp.dispatcher.lookup m.cmdid = none := by
    rwa [MsgDispatcher.exist, Bool.not_eq_true, Option.isSome_eq_false_iff,
      Option.isNone_iff_eq_none] at h
  rw [dispatch, MsgDispatcher.cb, hnone, error_bind]

theorem deliverAll_spec {bs : List (List UInt8)} (h : Registered disp bs) :
    ∃ ds, deliverAll disp bs = .ok ds ∧
      ds.map Dispatch.msg = bs.filterMap arrived ∧
      ∀ d ∈ ds, dispatch disp d.msg = .ok d := by
  induction bs with
  | nil => exact ⟨[], rfl, rfl, fun d hd => by cases hd⟩
  | cons bytes bs ih =>
    obtain ⟨ds, hds, hmsgs, hcbs⟩ := ih fun b hb => h b (List.mem_cons_of_mem _ hb)
    rw [deliverAll, deliver, hds]
    cases hwell : arrived bytes with
    | none => exact ⟨ds, rfl, by rw [List.filterMap_cons_none hwell, hmsgs], hcbs⟩
    | some m =>
      obtain ⟨d, hd, hmsg⟩ := dispatch_of_exist (h bytes List.mem_cons_self m hwell)
      refine ⟨d :: ds, by simp only [hd, ok_bind, List.singleton_append], ?_, ?_⟩
      · rw [List.filterMap_cons_some hwell, List.map_cons, hmsg, hmsgs]
      · intro x hx
        rcases List.mem_cons.mp hx with rfl | hx
        · rw [hmsg]
          exact hd
        · exact hcbs x hx

/-- A message without a callback ends the process. -/
theorem deliverAll_abort {bs : List (List UInt8)} (h : ¬ Registered disp bs) :
    deliverAll disp bs = .error (.assertion .cbExist) := by
  induction bs with
  | nil => exact absurd (fun b hb => by cases hb) h
  | cons bytes bs ih =>
    rw [deliverAll, deliver]
    by_cases hrest : Registered disp bs
    · have hhere : ¬ ∀ m ∈ arrived bytes, disp.exist m.cmdid = true := by
        intro hhere
        refine h fun b hb => ?_
        rcases List.mem_cons.mp hb with rfl | hb
        · exact hhere
        · exact hrest b hb
      cases hwell : arrived bytes with
      | none =>
        rw [hwell] at hhere
        exact absurd (fun m hm => by cases hm) hhere
      | some m =>
        have hm : ¬ disp.exist m.cmdid = true := by
          intro hm
          refine hhere fun m' hm' => ?_
          obtain rfl := Option.some.inj (hwell.symm.trans hm')
          exact hm
        simp only [dispatch_of_not_exist hm, error_bind]
    · rw [ih hrest]
      cases arrived bytes with
      | none => rfl
      | some m =>
        by_cases hm : disp.exist m.cmdid = true
        · obtain ⟨d, hd, -⟩ := dispatch_of_exist hm
          simp only [hd, ok_bind, error_bind]
        · simp only [dispatch_of_not_exist hm, error_bind]

/-- A call, or several, that led to `ds`. -/
def Dispatched {σ : Type} (disp : MsgDispatcher κ) (bs : List (List UInt8))
    (x : Except Fault (σ × List (Dispatch κ))) : Prop :=
  ∃ t ds, x = .ok (t, ds) ∧ ds.map Dispatch.msg = bs.filterMap wellFormed ∧
    ∀ d ∈ ds, dispatch disp d.msg = .ok d

/-- **The receivers dispatch exactly the well-formed datagrams**, in order, each with its
own command and bytes, whatever `_rbuf` held before and whatever else has arrived. -/
theorem well_formed_dispatched {α : Type} (s : UdpServer κ α) (c : UdpClient κ)
    (calls : List (List (RecvFrom α)))
    (hlen : ∀ d ∈ calls.flatMap datagrams, d.length ≤ maxDatagram)
    (hs : ∀ d ∈ calls.flatMap datagrams, ∀ m ∈ wellFormed d, s.dispatcher.exist m.cmdid = true)
    (hc : ∀ d ∈ calls.flatMap datagrams, ∀ m ∈ wellFormed d, c.dispatcher.exist m.cmdid = true) :
    Dispatched s.dispatcher (calls.flatMap datagrams)
        (handleReads UdpServer.handleRead s calls) ∧
      Dispatched c.dispatcher (calls.flatMap datagrams)
        (handleReads UdpClient.handleRead c calls) := by
  have hreceived : ∀ d ∈ calls.flatMap datagrams, received d = d := fun d hd =>
    received_eq (Nat.le_trans (hlen d hd) (by decide))
  have hfilter : (calls.flatMap datagrams).filterMap arrived =
      (calls.flatMap datagrams).filterMap wellFormed :=
    List.filterMap_congr fun d hd => by rw [arrived, hreceived d hd]
  have hregistered : ∀ {disp : MsgDispatcher κ},
      (∀ d ∈ calls.flatMap datagrams, ∀ m ∈ wellFormed d, disp.exist m.cmdid = true) →
        Registered disp (calls.flatMap datagrams) := fun h d hd => by
    rw [arrived, hreceived d hd]
    exact h d hd
  constructor
  · obtain ⟨t, ht⟩ := s.handleReads_eq calls
    obtain ⟨ds, hds, hmsgs, hcbs⟩ := deliverAll_spec (hregistered hs)
    exact ⟨t, ds, by rw [ht, hds]; rfl, hmsgs.trans hfilter, hcbs⟩
  · obtain ⟨t, ht⟩ := c.handleReads_eq calls
    obtain ⟨ds, hds, hmsgs, hcbs⟩ := deliverAll_spec (hregistered hc)
    exact ⟨t, ds, by rw [ht, hds]; rfl, hmsgs.trans hfilter, hcbs⟩

/-- A server and a client with one callback, for command 7. -/
def sampleEndpoint : Endpoint Unit := ⟨fun _ => 255, fun _ => 0, ⟨[(7, ())], [(7, none)]⟩⟩

/-- A message, half a header, and a header that announces too much; then another message. -/
def sampleCalls : List (List (RecvFrom Unit)) :=
  [[.package [7, 0, 0, 0, 1, 0, 0, 0, 42] (), .package [7, 0, 0] (), .eintr,
      .package [7, 0, 0, 0, 9, 0, 0, 0, 42] (), .eagain],
    [.package [7, 0, 0, 0, 0, 0, 0, 0] ()]]

theorem well_formed_dispatched_sample :
    Dispatched sampleEndpoint.dispatcher (sampleCalls.flatMap datagrams)
        (handleReads UdpServer.handleRead ⟨sampleEndpoint, ()⟩ sampleCalls) ∧
      Dispatched sampleEndpoint.dispatcher (sampleCalls.flatMap datagrams)
        (handleReads UdpClient.handleRead ⟨sampleEndpoint⟩ sampleCalls) :=
  well_formed_dispatched ⟨sampleEndpoint, ()⟩ ⟨sampleEndpoint⟩ sampleCalls (by decide)
    (by decide) (by decide)

/-- **Datagrams never fail an `assert`** exactly when every well-formed one has a registered
command: neither receiver asks `exist` first. -/
theorem no_abort_iff_registered {α : Type} (s : UdpServer κ α) (c : UdpClient κ)
    (calls : List (List (RecvFrom α))) :
    ((∃ r, handleReads UdpServer.handleRead s calls = .ok r) ↔
        Registered s.dispatcher (calls.flatMap datagrams)) ∧
      ((∃ r, handleReads UdpClient.handleRead c calls = .ok r) ↔
        Registered c.dispatcher (calls.flatMap datagrams)) := by
  have hiff : ∀ {σ : Type} {disp : MsgDispatcher κ} {x : Except Fault (σ × List (Dispatch κ))}
      {t : σ}, x = (deliverAll disp (calls.flatMap datagrams)).map (fun ds => (t, ds)) →
      ((∃ r, x = .ok r) ↔ Registered disp (calls.flatMap datagrams)) := by
    intro σ disp x t hx
    constructor
    · rintro ⟨r, hr⟩
      by_contra hreg
      rw [hr, deliverAll_abort hreg] at hx
      cases hx
    · intro hreg
      obtain ⟨ds, hds, -⟩ := deliverAll_spec hreg
      exact ⟨(t, ds), by rw [hx, hds]; rfl⟩
  obtain ⟨t, ht⟩ := s.handleReads_eq calls
  obtain ⟨u, hu⟩ := c.handleReads_eq calls
  exact ⟨hiff ht, hiff hu⟩

/-- Eight bytes of zeros, and no callback at all. -/
theorem unregistered_aborts :
    (¬ ∀ (s : UdpServer Unit Unit) (calls : List (List (RecvFrom Unit))),
        ∃ r, handleReads UdpServer.handleRead s calls = .ok r) ∧
      ¬ ∀ (c : UdpClient Unit) (calls : List (List (RecvFrom Unit))),
        ∃ r, handleReads UdpClient.handleRead c calls = .ok r := by
  let e : Endpoint Unit := ⟨fun _ => 0, fun _ => 0, ⟨[], []⟩⟩
  let calls : List (List (RecvFrom Unit)) := [[.package (List.replicate 8 0) ()]]
  constructor
  · intro hall
    obtain ⟨r, hr⟩ := hall ⟨e, ()⟩ calls
    have hnone : (handleReads UdpServer.handleRead ⟨e, ()⟩ calls).toOption.isSome = false := by
      decide
    rw [hr] at hnone
    cases hnone
  · intro hall
    obtain ⟨r, hr⟩ := hall ⟨e⟩ calls
    have hnone : (handleReads UdpClient.handleRead ⟨e⟩ calls).toOption.isSome = false := by
      decide
    rw [hr] at hnone
    cases hnone

end EasyReactor.Udp
