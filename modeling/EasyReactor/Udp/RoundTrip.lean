import EasyReactor.Udp.Receive

set_option autoImplicit false

/-!
# Udp: from `send_data` to `handle_read`

`MSG_LENGTH_LIMIT` bounds the body that `send_data` accepts, and is the size of the
buffers of both classes, where the body comes behind a header.
-/

namespace EasyReactor.Udp

open EasyReactor.Foundation EasyReactor.Wire

variable {κ α : Type}

/-- The longest body that fits `_wbuf` and `_rbuf` with its header. -/
abbrev bodyLimit : Nat := bufferSize - commuHeadLength

theorem bodyLimit_eq : bodyLimit = 65520 := rfl

theorem bufferSize_eq : bufferSize = 65528 := rfl

namespace Endpoint

theorem sendData_fits (e : Endpoint κ) {m : Msg} (h : m.body.length ≤ bodyLimit) (ret : Int) :
    ∃ e', e.sendData m.body m.cmdid ret =
      .ok (e', ret, if ret = -1 then none else some m.frame) := by
  rw [bodyLimit_eq] at h
  have hlimit : ¬ (m.body.length : Int) > msgLengthLimit := by
    rw [msgLengthLimit_eq]
    omega
  have hfits : commuHeadLength + m.body.length ≤ bufferSize := by
    rw [commuHeadLength_eq, bufferSize_eq]
    omega
  have hframe : slice (store (store e.wbuf 0 m.head.bytes) commuHeadLength m.body) 0
      (m.body.length + commuHeadLength) = m.frame := by
    have hhead : slice (store e.wbuf 0 m.head.bytes) 0 commuHeadLength = m.head.bytes :=
      slice_store e.wbuf 0 m.head.bytes
    have happend := slice_store_append (store e.wbuf 0 m.head.bytes) 0 commuHeadLength m.body
    rw [Nat.zero_add, hhead] at happend
    rw [Nat.add_comm, happend, Msg.frame]
  refine ⟨{ e with wbuf := store (store e.wbuf 0 m.head.bytes) commuHeadLength m.body }, ?_⟩
  rw [sendData, if_neg hlimit, if_pos hfits, ← hframe]
  rfl

/-- A longer body runs over the end of `_wbuf`. -/
theorem sendData_overrun (e : Endpoint κ) {m : Msg} (h : bodyLimit < m.body.length)
    (hlimit : m.body.length ≤ msgLengthLimit) (ret : Int) :
    e.sendData m.body m.cmdid ret = .error .undefined := by
  have haccepted : ¬ (m.body.length : Int) > msgLengthLimit := by omega
  have hover : ¬ commuHeadLength + m.body.length ≤ bufferSize := by
    rw [bodyLimit_eq] at h
    rw [commuHeadLength_eq, bufferSize_eq]
    omega
  rw [sendData, if_neg haccepted, if_neg hover]

end Endpoint

/-- A frame that fits `_rbuf` is read back. -/
theorem arrived_frame {m : Msg} (h : m.body.length ≤ bodyLimit) : arrived m.frame = some m := by
  rw [bodyLimit_eq] at h
  have hlength : m.frame.length = 8 + m.body.length := m.length_frame
  have hfits : m.frame.length ≤ bufferSize := by
    rw [hlength, bufferSize_eq]
    omega
  have hhead : CommuHead.ofBytes m.frame = m.head := CommuHead.ofBytes_bytes m.head m.body
  have hlen : m.head.length.toInt = m.body.length := Msg.head_length (by omega)
  have hbody : m.frame.drop commuHeadLength = m.body := List.drop_left' m.head.length_bytes
  unfold arrived wellFormed
  rw [received_eq hfits]
  simp only
  rw [hhead, hbody, if_pos]
  · rfl
  · rw [hlen, hlength, commuHeadLength_eq]
    omega

/-! ## The round trip -/

/-- `send_data` stays within `_wbuf`, and if the transport takes the datagram and carries it
whole, `handle_read` of the peer dispatches the message. -/
def ClientToServer (c : UdpClient κ) (s : UdpServer κ α) (m : Msg) : Prop :=
  ∀ ret, ∃ c' sent, c.sendData m.body m.cmdid ret = .ok (c', ret, sent) ∧
    (ret ≠ -1 → ∀ src, ∃ frame s' d, sent = some frame ∧
      s.handleRead [.package frame src] = .ok (s', [d]) ∧ dispatch s.dispatcher m = .ok d)

/-- The same in the other direction. -/
def ServerToClient (s : UdpServer κ α) (c : UdpClient κ) (m : Msg) : Prop :=
  ∀ ret, ∃ s' sent, s.sendData m.body m.cmdid ret = .ok (s', ret, sent) ∧
    (ret ≠ -1 → ∀ src : α, ∃ frame c' d, sent = some (frame, s.srcaddr) ∧
      c.handleRead [.package frame src] = .ok (c', [d]) ∧ dispatch c.dispatcher m = .ok d)

/-- A datagram that brings a message with a callback. -/
theorem deliverAll_one {disp : MsgDispatcher κ} {bytes : List UInt8} {m : Msg}
    (harrived : arrived bytes = some m) (h : disp.exist m.cmdid = true) :
    ∃ d, deliverAll disp [bytes] = .ok [d] ∧ dispatch disp m = .ok d := by
  obtain ⟨d, hd, -⟩ := dispatch_of_exist h
  refine ⟨d, ?_, hd⟩
  rw [deliverAll, deliver, harrived]
  simp only [hd, ok_bind]
  rfl

/-- **Encoding and decoding agree** on an accepted message that the receiver has a callback
for exactly when its body leaves room for the header: `MSG_LENGTH_LIMIT - COMMU_HEAD_LENGTH`
bytes at most. -/
theorem round_trip_iff (s : UdpServer κ α) (c : UdpClient κ) (m : Msg)
    (hlimit : m.body.length ≤ msgLengthLimit) :
    (s.dispatcher.exist m.cmdid = true →
        (ClientToServer c s m ↔ m.body.length ≤ bodyLimit)) ∧
      (c.dispatcher.exist m.cmdid = true →
        (ServerToClient s c m ↔ m.body.length ≤ bodyLimit)) := by
  refine ⟨fun hs => ⟨fun h => ?_, fun h ret => ?_⟩, fun hc => ⟨fun h => ?_, fun h ret => ?_⟩⟩
  · by_contra hover
    obtain ⟨c', sent, hsend, -⟩ := h 0
    rw [UdpClient.sendData, c.sendData_overrun (Nat.lt_of_not_le hover) hlimit,
      error_bind] at hsend
    cases hsend
  · obtain ⟨e, he⟩ := c.sendData_fits h ret
    refine ⟨⟨e⟩, _, by rw [UdpClient.sendData, he, ok_bind], fun hret src => ?_⟩
    obtain ⟨d, hdeliver, hd⟩ := deliverAll_one (arrived_frame h) hs
    obtain ⟨t, ht⟩ := s.handleRead_eq [.package m.frame src]
    refine ⟨m.frame, t, d, if_neg hret, ?_, hd⟩
    rw [ht, datagrams, datagrams, hdeliver]
    rfl
  · by_contra hover
    obtain ⟨s', sent, hsend, -⟩ := h 0
    rw [UdpServer.sendData, s.sendData_overrun (Nat.lt_of_not_le hover) hlimit,
      error_bind] at hsend
    cases hsend
  · obtain ⟨e, he⟩ := s.sendData_fits h ret
    refine ⟨{ s with toEndpoint := e }, _, by rw [UdpServer.sendData, he, ok_bind],
      fun hret src => ?_⟩
    obtain ⟨d, hdeliver, hd⟩ := deliverAll_one (arrived_frame h) hc
    obtain ⟨t, ht⟩ := c.handleRead_eq [.package m.frame src]
    refine ⟨m.frame, t, d, by rw [if_neg hret]; rfl, ?_, hd⟩
    rw [ht, datagrams, datagrams, hdeliver]
    rfl

/-- One byte for command 7. -/
def sampleMsg : Msg := ⟨7, [42]⟩

theorem round_trip_sample :
    (ClientToServer ⟨sampleEndpoint⟩ (⟨sampleEndpoint, ()⟩ : UdpServer Unit Unit) sampleMsg ↔
        sampleMsg.body.length ≤ bodyLimit) ∧
      (ServerToClient (⟨sampleEndpoint, ()⟩ : UdpServer Unit Unit) ⟨sampleEndpoint⟩ sampleMsg ↔
        sampleMsg.body.length ≤ bodyLimit) := by
  obtain ⟨hserver, hclient⟩ :=
    round_trip_iff (⟨sampleEndpoint, ()⟩ : UdpServer Unit Unit) ⟨sampleEndpoint⟩ sampleMsg
      (by decide)
  exact ⟨hserver (by decide), hclient (by decide)⟩

/-- A body of exactly `MSG_LENGTH_LIMIT` bytes. -/
theorem limit_overruns :
    ¬ ∀ (s : UdpServer Unit Unit) (c : UdpClient Unit) (m : Msg),
      m.body.length ≤ msgLengthLimit → s.dispatcher.exist m.cmdid = true →
        c.dispatcher.exist m.cmdid = true → ClientToServer c s m ∧ ServerToClient s c m := by
  intro hall
  have hlength : (List.replicate msgLengthLimit (0 : UInt8)).length = msgLengthLimit :=
    List.length_replicate
  obtain ⟨hclient, -⟩ := hall ⟨sampleEndpoint, ()⟩ ⟨sampleEndpoint⟩
    ⟨7, List.replicate msgLengthLimit 0⟩ (Nat.le_of_eq hlength) (by decide) (by decide)
  obtain ⟨c', sent, hsend, -⟩ := hclient 0
  rw [UdpClient.sendData, Endpoint.sendData_overrun, error_bind] at hsend
  · cases hsend
  · rw [hlength]
    decide
  · exact Nat.le_of_eq hlength

end EasyReactor.Udp
