import Mathlib.Data.List.GetD
import EasyReactor.Machine
import EasyReactor.Foundation.Outcome

set_option autoImplicit false

/-!
# Wire: `msg_head.h` and `msg_dispatcher.h`

A frame is a `commu_head` followed by a body of `length` bytes.  The header goes on the
wire by `memcpy`; an `int` is laid out least significant byte first here, and both ends
are assumed to lay it out alike.
-/

namespace EasyReactor.Wire

/-- The four bytes of an `int`. -/
def intBytes (x : Int32) : List UInt8 :=
  let n := x.toUInt32.toNat
  [.ofNat n, .ofNat (n / 256), .ofNat (n / 65536), .ofNat (n / 16777216)]

/-- The `int` whose bytes start at `bs[i]`. -/
def intAt (bs : List UInt8) (i : Nat) : Int32 :=
  (UInt32.ofNat ((bs.getD i 0).toNat + (bs.getD (i + 1) 0).toNat * 256 +
    (bs.getD (i + 2) 0).toNat * 65536 + (bs.getD (i + 3) 0).toNat * 16777216)).toInt32

structure CommuHead where
  cmdid : Int32
  length : Int32
  deriving DecidableEq

/-- `COMMU_HEAD_LENGTH` -/
abbrev commuHeadLength : Nat := 8

/-- `MSG_LENGTH_LIMIT` -/
abbrev msgLengthLimit : Nat := 65536 - commuHeadLength

/-- `memcpy(p, &head, COMMU_HEAD_LENGTH)` -/
def CommuHead.bytes (head : CommuHead) : List UInt8 :=
  intBytes head.cmdid ++ intBytes head.length

/-- `memcpy(&head, p, COMMU_HEAD_LENGTH)` -/
def CommuHead.ofBytes (bs : List UInt8) : CommuHead :=
  ⟨intAt bs 0, intAt bs 4⟩

/-- A message as a callback sees it, and as `send_data` is given it. -/
structure Msg where
  cmdid : Int32
  body : List UInt8
  deriving DecidableEq

/-- The header `send_data` writes; `datlen` is an `int`. -/
def Msg.head (m : Msg) : CommuHead := ⟨m.cmdid, .ofInt m.body.length⟩

/-- The bytes `send_data` appends. -/
def Msg.frame (m : Msg) : List UInt8 := m.head.bytes ++ m.body

/-- The frames of messages, one behind the other. -/
def frames (ms : List Msg) : List UInt8 := (ms.map Msg.frame).flatten

theorem commuHeadLength_eq : commuHeadLength = 8 := rfl

theorem msgLengthLimit_eq : msgLengthLimit = 65528 := rfl

/-! ## Headers read back -/

@[simp] theorem length_intBytes (x : Int32) : (intBytes x).length = 4 := rfl

@[simp] theorem CommuHead.length_bytes (head : CommuHead) :
    head.bytes.length = commuHeadLength := rfl

@[simp] theorem Msg.length_frame (m : Msg) :
    m.frame.length = commuHeadLength + m.body.length := by
  simp [Msg.frame]

@[simp] theorem frames_nil : frames [] = [] := rfl

@[simp] theorem frames_cons (m : Msg) (ms : List Msg) :
    frames (m :: ms) = m.frame ++ frames ms := rfl

@[simp] theorem frames_append (ms ns : List Msg) : frames (ms ++ ns) = frames ms ++ frames ns := by
  simp [frames]

@[simp] theorem frames_concat (ms : List Msg) (m : Msg) :
    frames (ms ++ [m]) = frames ms ++ m.frame := by
  simp [frames]

/-- No frame is empty. -/
theorem eq_nil_of_frames {ms : List Msg} (h : (frames ms).length = 0) : ms = [] := by
  cases ms with
  | nil => rfl
  | cons m ms =>
    rw [frames_cons, List.length_append, Msg.length_frame, commuHeadLength_eq] at h
    omega

/-- An `int` is read back behind any bytes and before any bytes. -/
theorem intAt_intBytes (pre : List UInt8) (x : Int32) (post : List UInt8) :
    intAt (pre ++ intBytes x ++ post) pre.length = x := by
  have hx := x.toUInt32.toNat_lt
  have hget : ∀ k, k < 4 →
      (pre ++ intBytes x ++ post).getD (pre.length + k) 0 = (intBytes x).getD k 0 := by
    intro k hk
    rw [List.append_assoc, List.getD_append_right _ _ _ _ (by omega), Nat.add_sub_cancel_left,
      List.getD_append _ _ _ _ (by simpa using hk)]
  have h₀ := hget 0 (by omega)
  rw [Nat.add_zero] at h₀
  unfold intAt
  rw [h₀, hget 1 (by omega), hget 2 (by omega), hget 3 (by omega)]
  have hsum : x.toUInt32.toNat % 256 + x.toUInt32.toNat / 256 % 256 * 256 +
      x.toUInt32.toNat / 65536 % 256 * 65536 +
      x.toUInt32.toNat / 16777216 % 256 * 16777216 = x.toUInt32.toNat := by
    omega
  change (UInt32.ofNat (x.toUInt32.toNat % 256 + x.toUInt32.toNat / 256 % 256 * 256 +
      x.toUInt32.toNat / 65536 % 256 * 65536 +
      x.toUInt32.toNat / 16777216 % 256 * 16777216)).toInt32 = x
  rw [hsum, UInt32.ofNat_toNat, Int32.toInt32_toUInt32]

/-- A header is read back before any bytes. -/
theorem CommuHead.ofBytes_bytes (head : CommuHead) (post : List UInt8) :
    ofBytes (head.bytes ++ post) = head := by
  have h₁ := intAt_intBytes [] head.cmdid (intBytes head.length ++ post)
  have h₂ := intAt_intBytes (intBytes head.cmdid) head.length post
  unfold ofBytes bytes
  rw [List.append_assoc]
  rw [List.append_assoc] at h₂
  rw [List.nil_append, List.length_nil] at h₁
  rw [length_intBytes] at h₂
  rw [h₁, h₂]

/-- Only the first eight bytes make the header. -/
theorem CommuHead.ofBytes_append {bs : List UInt8} (h : commuHeadLength ≤ bs.length)
    (post : List UInt8) : ofBytes (bs ++ post) = ofBytes bs := by
  have hget : ∀ k, k < 8 → (bs ++ post).getD k 0 = bs.getD k 0 := fun k hk =>
    List.getD_append _ _ _ _ (Nat.lt_of_lt_of_le hk h)
  unfold ofBytes intAt
  rw [hget 0 (by omega), hget (0 + 1) (by omega), hget (0 + 2) (by omega), hget (0 + 3) (by omega),
    hget 4 (by omega), hget (4 + 1) (by omega), hget (4 + 2) (by omega), hget (4 + 3) (by omega)]

theorem CommuHead.ofBytes_take {bs : List UInt8} (h : commuHeadLength ≤ bs.length) :
    ofBytes (bs.take commuHeadLength) = ofBytes bs := by
  have htake : commuHeadLength ≤ (bs.take commuHeadLength).length := by
    rw [List.length_take]
    omega
  have := ofBytes_append htake (bs.drop commuHeadLength)
  rw [List.take_append_drop] at this
  exact this.symm

/-- Four bytes are laid out as they were read. -/
theorem intBytes_intAt {bs : List UInt8} {i : Nat} (h : i + 4 ≤ bs.length) :
    intBytes (intAt bs i) = (bs.drop i).take 4 := by
  obtain ⟨a, b, c, d, rest, hdrop⟩ : ∃ a b c d rest, bs.drop i = a :: b :: c :: d :: rest := by
    have hlen : (bs.drop i).length = bs.length - i := List.length_drop
    match hd : bs.drop i with
    | a :: b :: c :: d :: rest => exact ⟨a, b, c, d, rest, rfl⟩
    | [] | [_] | [_, _] | [_, _, _] =>
      rw [hd] at hlen
      simp at hlen
      omega
  have hget : ∀ k, bs.getD (i + k) 0 = (bs.drop i).getD k 0 := fun k => by
    rw [List.getD_eq_getElem?_getD, List.getD_eq_getElem?_getD, List.getElem?_drop]
  have h₀ := hget 0
  rw [Nat.add_zero] at h₀
  have ha := a.toNat_lt
  have hb := b.toNat_lt
  have hc := c.toNat_lt
  have hd := d.toNat_lt
  have hvalue : (intAt bs i).toUInt32.toNat =
      a.toNat + b.toNat * 256 + c.toNat * 65536 + d.toNat * 16777216 := by
    unfold intAt
    rw [h₀, hget 1, hget 2, hget 3, hdrop]
    change (UInt32.ofNat (a.toNat + b.toNat * 256 + c.toNat * 65536 + d.toNat * 16777216)).toNat = _
    exact UInt32.toNat_ofNat_of_lt (by simp [UInt32.size]; omega)
  have hbyte : ∀ (x : UInt8) (n : Nat), n % 256 = x.toNat → UInt8.ofNat n = x := by
    intro x n hn
    apply UInt8.toNat_inj.mp
    rw [UInt8.toNat_ofNat']
    exact hn
  unfold intBytes
  simp only [hvalue, hdrop]
  rw [hbyte a _ (by omega), hbyte b _ (by omega), hbyte c _ (by omega), hbyte d _ (by omega)]
  rfl

/-- A header is written as it was read. -/
theorem CommuHead.bytes_ofBytes {bs : List UInt8} (h : commuHeadLength ≤ bs.length) :
    (ofBytes bs).bytes = bs.take commuHeadLength := by
  rw [commuHeadLength_eq] at h ⊢
  unfold bytes ofBytes
  rw [intBytes_intAt (by omega), intBytes_intAt (by omega), List.drop_zero, ← List.take_add]

/-- The length in the header is the length of the body, if that is an `int`. -/
theorem Msg.head_length {m : Msg} (h : m.body.length < 2147483648) :
    m.head.length.toInt = m.body.length :=
  Int32.toInt_ofInt_of_le (by omega) (by omega)

/-! ## The dispatcher -/

/-- A `void*` that nothing here follows. -/
abbrev Ptr := Option Nat

/-- Two `hash_map`s; `κ` is the type of a `msg_callback`. -/
structure MsgDispatcher (κ : Type) where
  dispatcher : List (Int32 × κ)
  args : List (Int32 × Ptr)

namespace MsgDispatcher

variable {κ : Type}

def exist (d : MsgDispatcher κ) (cmdid : Int32) : Bool :=
  (d.dispatcher.lookup cmdid).isSome

def addMsgCb (d : MsgDispatcher κ) (cmdid : Int32) (msgCb : κ) (usrData : Ptr) :
    MsgDispatcher κ × Int :=
  if d.exist cmdid then
    (d, -1)
  else
    (⟨(cmdid, msgCb) :: d.dispatcher, (cmdid, usrData) :: d.args⟩, 0)

/-- The function that `cb` calls, and its last argument. -/
def cb (d : MsgDispatcher κ) (cmdid : Int32) : Except Fault (κ × Ptr) :=
  match d.dispatcher.lookup cmdid with
  | none => .error (.assertion .cbExist)
  | some func => .ok (func, (d.args.lookup cmdid).getD none)

/-- `cb` finds what `exist` found. -/
theorem cb_eq {d : MsgDispatcher κ} {cmdid : Int32} (h : d.exist cmdid = true) :
    ∃ func usrData, d.cb cmdid = .ok (func, usrData) ∧
      d.dispatcher.lookup cmdid = some func := by
  unfold exist at h
  obtain ⟨func, hfunc⟩ := Option.isSome_iff_exists.mp h
  refine ⟨func, (d.args.lookup cmdid).getD none, ?_, hfunc⟩
  unfold cb
  rw [hfunc]

/-- A callback that was added is there; the ones added before stay. -/
theorem exist_addMsgCb (d : MsgDispatcher κ) (cmdid : Int32) (msgCb : κ) (usrData : Ptr)
    (c : Int32) :
    (d.addMsgCb cmdid msgCb usrData).1.exist c = (c == cmdid || d.exist c) := by
  unfold addMsgCb
  split
  next h =>
    by_cases hc : c = cmdid
    · subst hc
      simp [h]
    · simp [hc]
  next h =>
    unfold exist
    rw [List.lookup_cons]
    cases c == cmdid <;> rfl

end MsgDispatcher

end EasyReactor.Wire
