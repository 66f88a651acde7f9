import EasyReactor.Foundation.Region
import EasyReactor.Wire.MsgHead

set_option autoImplicit false

/-!
# Udp: `udp_server` and `udp_client`

Both receive a datagram into `_rbuf`, read a header from its first eight bytes, however
many have arrived, and compare the length in the header with what `::recvfrom` returned;
the two comparisons are written differently.  Both build what they send in `_wbuf`.  A
message callback is passed the message; what it does with it is its own business.
-/

namespace EasyReactor.Udp

open EasyReactor.Foundation EasyReactor.Wire

/-- `sizeof _rbuf` and `sizeof _wbuf` -/
abbrev bufferSize : Nat := msgLengthLimit

/-- The longest datagram that UDP carries over IPv4. -/
abbrev maxDatagram : Nat := 65507

/-- The members of both classes that `handle_read` and `send_data` use. -/
structure Endpoint (κ : Type) where
  rbuf : Nat → UInt8
  wbuf : Nat → UInt8
  dispatcher : MsgDispatcher κ

/-- A call of a message callback. -/
structure Dispatch (κ : Type) where
  func : κ
  usrData : Ptr
  msg : Msg
  deriving DecidableEq

/-- What `::recvfrom` returns. -/
inductive RecvFrom (α : Type) where
  | package (bytes : List UInt8) (src : α)
  | eintr
  | eagain
  /-- any other error -/
  | failure

namespace Endpoint

variable {κ : Type}

/-- `::recvfrom` of a datagram: what does not fit is cut off. -/
def recv (e : Endpoint κ) (bytes : List UInt8) : Endpoint κ × Int :=
  ({ e with rbuf := store e.rbuf 0 (bytes.take bufferSize) }, (bytes.take bufferSize).length)

/-- `::memcpy(&head, _rbuf, COMMU_HEAD_LENGTH)` -/
def head (e : Endpoint κ) : CommuHead := .ofBytes (slice e.rbuf 0 commuHeadLength)

/-- `_dispatcher.cb(_rbuf + COMMU_HEAD_LENGTH, head.length, head.cmdid, this)` -/
def cb (e : Endpoint κ) (head : CommuHead) : Except Fault (Dispatch κ) := do
  let (func, usrData) ← e.dispatcher.cb head.cmdid
  .ok ⟨func, usrData, head.cmdid, slice e.rbuf commuHeadLength head.length.toInt.toNat⟩

/-- The check of `handle_read`; `mismatch` is its last part. -/
def messedUp (mismatch : Int → Int → Bool) (head : CommuHead) (pkgLen : Int) : Bool :=
  head.length.toInt > msgLengthLimit || head.length.toInt < 0 ||
    mismatch head.length.toInt pkgLen

/-- What `handle_read` does with a datagram. -/
def package (mismatch : Int → Int → Bool) (e : Endpoint κ) (bytes : List UInt8) :
    Except Fault (Endpoint κ × List (Dispatch κ)) :=
  let (e, pkgLen) := e.recv bytes
  if messedUp mismatch e.head pkgLen then
    -- data format is messed up
    .ok (e, [])
  else do
    let d ← e.cb e.head
    .ok (e, [d])

/-- Both `send_data`s, for an `::sendto` that returns `ret`: what they return, and the
datagram that is sent. -/
def sendData (e : Endpoint κ) (data : List UInt8) (cmdid : Int32) (ret : Int) :
    Except Fault (Endpoint κ × Int × Option (List UInt8)) :=
  if (data.length : Int) > msgLengthLimit then .ok (e, -1, none)
  else
    let head : CommuHead := ⟨cmdid, .ofInt data.length⟩
    let wbuf := store e.wbuf 0 head.bytes
    if commuHeadLength + data.length ≤ bufferSize then
      let wbuf := store wbuf commuHeadLength data
      .ok ({ e with wbuf := wbuf }, ret,
        if ret = -1 then none else some (slice wbuf 0 (data.length + commuHeadLength)))
    else
      -- the second `memcpy` goes on behind `_wbuf`
      .error .undefined

end Endpoint

/-- The loop of both `handle_read`s around the handling of one datagram.  When nothing is
left in the socket, `::recvfrom` fails with `EAGAIN`. -/
def handleRead {σ α κ : Type}
    (package : σ → List UInt8 → α → Except Fault (σ × List (Dispatch κ))) :
    σ → List (RecvFrom α) → Except Fault (σ × List (Dispatch κ))
  | s, [] => .ok (s, [])
  | s, .eintr :: rs => handleRead package s rs
  | s, .eagain :: _ => .ok (s, [])
  | s, .failure :: _ => .ok (s, [])
  | s, .package bytes src :: rs => do
    let (s, ds) ← package s bytes src
    let (s, ds') ← handleRead package s rs
    .ok (s, ds ++ ds')

/-- Several calls of a `handle_read`. -/
def handleReads {σ α κ : Type}
    (handleRead : σ → List (RecvFrom α) → Except Fault (σ × List (Dispatch κ))) :
    σ → List (List (RecvFrom α)) → Except Fault (σ × List (Dispatch κ))
  | s, [] => .ok (s, [])
  | s, c :: cs => do
    let (s, ds) ← handleRead s c
    let (s, ds') ← handleReads handleRead s cs
    .ok (s, ds ++ ds')

/-- `udp_server`; `α` is the type of an address. -/
structure UdpServer (κ α : Type) extends Endpoint κ where
  srcaddr : α

namespace UdpServer

variable {κ α : Type}

/-- `head.length + COMMU_HEAD_LENGTH != pkg_len` -/
def mismatch (length pkgLen : Int) : Bool := length + commuHeadLength != pkgLen

def package (s : UdpServer κ α) (bytes : List UInt8) (src : α) :
    Except Fault (UdpServer κ α × List (Dispatch κ)) := do
  let (e, ds) ← s.toEndpoint.package mismatch bytes
  .ok ({ toEndpoint := e, srcaddr := src }, ds)

/-- `udp_server::handle_read` -/
def handleRead (s : UdpServer κ α) (rs : List (RecvFrom α)) :
    Except Fault (UdpServer κ α × List (Dispatch κ)) :=
  Udp.handleRead package s rs

/-- `udp_server::send_data`; the datagram goes to `_srcaddr`. -/
def sendData (s : UdpServer κ α) (data : List UInt8) (cmdid : Int32) (ret : Int) :
    Except Fault (UdpServer κ α × Int × Option (List UInt8 × α)) := do
  let (e, ret, sent) ← s.toEndpoint.sendData data cmdid ret
  .ok ({ s with toEndpoint := e }, ret, sent.map fun bytes => (bytes, s.srcaddr))

end UdpServer

/-- `udp_client`, connected to its server. -/
structure UdpClient (κ : Type) extends Endpoint κ

namespace UdpClient

variable {κ α : Type}

/-- `head.length != pkg_len - COMMU_HEAD_LENGTH` -/
def mismatch (length pkgLen : Int) : Bool := length != pkgLen - commuHeadLength

def package (c : UdpClient κ) (bytes : List UInt8) (_src : α) :
    Except Fault (UdpClient κ × List (Dispatch κ)) := do
  let (e, ds) ← c.toEndpoint.package mismatch bytes
  .ok (⟨e⟩, ds)

/-- `udp_client::handle_read` -/
def handleRead (c : UdpClient κ) (rs : List (RecvFrom α)) :
    Except Fault (UdpClient κ × List (Dispatch κ)) :=
  Udp.handleRead package c rs

/-- `udp_client::send_data` -/
def sendData (c : UdpClient κ) (data : List UInt8) (cmdid : Int32) (ret : Int) :
    Except Fault (UdpClient κ × Int × Option (List UInt8)) := do
  let (e, ret, sent) ← c.toEndpoint.sendData data cmdid ret
  .ok (⟨e⟩, ret, sent)

end UdpClient

end EasyReactor.Udp
