import Mathlib.Data.BitVec
import Mathlib.Logic.Function.Basic
import EasyReactor.Wire.MsgHead

set_option autoImplicit false

/-!
# Loop: registrations for io events

`event_loop` keeps a map from descriptors to `io_event`s and the set `listening`; the
kernel keeps the interest set of the epoll instance.  All three are here, and a failing
`epoll_ctl` is counted, as the code only logs it.
-/

namespace EasyReactor.Loop

open EasyReactor.Wire

/-- An `int` of epoll events. -/
abbrev Mask := BitVec 32

/-- `EPOLLIN` -/
def epollIn : Mask := 1

/-- `EPOLLOUT` -/
def epollOut : Mask := 4

/-- `κ` is the type of an `io_callback`. -/
structure IoEvent (κ : Type) where
  mask : Mask
  readCb : Option κ
  writeCb : Option κ
  rcbArgs : Ptr
  wcbArgs : Ptr

/-- `io_event()`; the constructor leaves `mask` to `add_ioev`. -/
def IoEvent.new (κ : Type) : IoEvent κ := ⟨0, none, none, none, none⟩

/-- What `epoll_wait` reports of a descriptor. -/
inductive Ready where
  /-- `EPOLLIN` among others -/
  | input
  /-- `EPOLLOUT`, without `EPOLLIN` -/
  | output
  /-- `EPOLLHUP` or `EPOLLERR` alone -/
  | hangup
  deriving DecidableEq

inductive CtlOp where
  | add
  | mod
  | del
  deriving DecidableEq

structure EventLoop (κ : Type) where
  ioEvs : Int → Option (IoEvent κ)
  listening : Int → Bool
  /-- the kernel's interest set -/
  interest : Int → Option Mask
  /-- the `epoll_ctl` calls that returned `-1` -/
  ctlErrors : Nat

namespace EventLoop

variable {κ : Type}

/-- A loop without registrations. -/
def empty (κ : Type) : EventLoop κ := ⟨fun _ => none, fun _ => false, fun _ => none, 0⟩

/-- `::epoll_ctl(_epfd, op, fd, event)` -/
def epollCtl (l : EventLoop κ) (op : CtlOp) (fd : Int) (events : Mask) : EventLoop κ :=
  match op, l.interest fd with
  | .add, none => { l with interest := Function.update l.interest fd (some events) }
  | .mod, some _ => { l with interest := Function.update l.interest fd (some events) }
  | .del, some _ => { l with interest := Function.update l.interest fd none }
  | _, _ => { l with ctlErrors := l.ctlErrors + 1 }

def addIoev (l : EventLoop κ) (fd : Int) (proc : κ) (mask : Mask) (args : Ptr) : EventLoop κ :=
  let (fMask, op) := match l.ioEvs fd with
    | none => (mask, CtlOp.add)
    | some ev => (ev.mask ||| mask, CtlOp.mod)
  let ev := (l.ioEvs fd).getD (.new κ)
  let ev :=
    if mask &&& epollIn ≠ 0 then { ev with readCb := some proc, rcbArgs := args }
    else if mask &&& epollOut ≠ 0 then { ev with writeCb := some proc, wcbArgs := args }
    else ev
  let l := { l with ioEvs := Function.update l.ioEvs fd (some { ev with mask := fMask }) }
  let l := l.epollCtl op fd fMask
  { l with listening := Function.update l.listening fd true }

/-- delete only mask event for fd in epoll -/
def delIoevMask (l : EventLoop κ) (fd : Int) (mask : Mask) : EventLoop κ :=
  match l.ioEvs fd with
  | none => l
  | some ev =>
    let oMask := ev.mask &&& ~~~mask
    if oMask = 0 then
      let l := { l with ioEvs := Function.update l.ioEvs fd none }
      let l := l.epollCtl .del fd 0
      { l with listening := Function.update l.listening fd false }
    else
      let l := { l with ioEvs := Function.update l.ioEvs fd (some { ev with mask := oMask }) }
      l.epollCtl .mod fd oMask

/-- delete event for fd in epoll; a failing `epoll_ctl` goes unnoticed -/
def delIoev (l : EventLoop κ) (fd : Int) : EventLoop κ :=
  { l with
    ioEvs := Function.update l.ioEvs fd none
    listening := Function.update l.listening fd false
    interest := Function.update l.interest fd none }

/-- What `::close(fd)` does to the interest set. -/
def closeFd (l : EventLoop κ) (fd : Int) : EventLoop κ :=
  { l with interest := Function.update l.interest fd none }

/-! ## The registered mask -/

/-- The events the loop has registered for `fd`. -/
def mask (l : EventLoop κ) (fd : Int) : Mask := (l.ioEvs fd).elim 0 IoEvent.mask

/-- `fd` is registered for `events`. -/
def Watches (l : EventLoop κ) (fd : Int) (events : Mask) : Prop := l.mask fd &&& events ≠ 0

instance (l : EventLoop κ) (fd : Int) (events : Mask) : Decidable (l.Watches fd events) :=
  inferInstanceAs (Decidable (_ ≠ _))

/-- The callback an `EPOLLIN` event on `fd` runs. -/
def readCb (l : EventLoop κ) (fd : Int) : Option κ := (l.ioEvs fd).bind IoEvent.readCb

/-- The callback an `EPOLLOUT` event on `fd` runs. -/
def writeCb (l : EventLoop κ) (fd : Int) : Option κ := (l.ioEvs fd).bind IoEvent.writeCb

/-- The callback that `process_evs` runs, if there is one. -/
def processEv (l : EventLoop κ) (fd : Int) : Ready → Option κ
  | .input => if l.Watches fd epollIn then l.readCb fd else none
  | .output => if l.Watches fd epollOut then l.writeCb fd else none
  | .hangup => (l.ioEvs fd).bind fun ev => ev.readCb <|> ev.writeCb

@[simp] theorem epollCtl_ioEvs (l : EventLoop κ) (op : CtlOp) (fd : Int) (events : Mask) :
    (l.epollCtl op fd events).ioEvs = l.ioEvs := by
  unfold epollCtl
  split <;> rfl

theorem addIoev_ioEvs (l : EventLoop κ) (fd : Int) (proc : κ) (mask : Mask) (args : Ptr) :
    ∃ ev, (l.addIoev fd proc mask args).ioEvs = Function.update l.ioEvs fd (some ev) ∧
      ev.mask = l.mask fd ||| mask ∧
      (mask &&& epollIn = 0 → mask &&& epollOut ≠ 0 →
        ev.readCb = l.readCb fd ∧ ev.writeCb = some proc) ∧
      (mask &&& epollIn ≠ 0 → ev.readCb = some proc ∧ ev.writeCb = l.writeCb fd) := by
  unfold addIoev EventLoop.mask readCb writeCb
  simp only [epollCtl_ioEvs]
  refine ⟨_, rfl, ?_, ?_, ?_⟩
  · cases l.ioEvs fd with
    | none => simp
    | some ev => rfl
  · intro hin hout
    rw [if_neg (by simp [hin]), if_pos hout]
    cases l.ioEvs fd <;> exact ⟨rfl, rfl⟩
  · intro hin
    rw [if_pos hin]
    cases l.ioEvs fd <;> exact ⟨rfl, rfl⟩

theorem mask_addIoev (l : EventLoop κ) (fd : Int) (proc : κ) (m : Mask) (args : Ptr) (e : Int) :
    (l.addIoev fd proc m args).mask e = if e = fd then l.mask fd ||| m else l.mask e := by
  obtain ⟨ev, hev, hmask, -⟩ := l.addIoev_ioEvs fd proc m args
  unfold EventLoop.mask at hmask ⊢
  rw [hev]
  split
  next h =>
    subst h
    rw [Function.update_self]
    exact hmask
  next h => rw [Function.update_of_ne h]

theorem mask_delIoevMask (l : EventLoop κ) (fd : Int) (m : Mask) (e : Int) :
    (l.delIoevMask fd m).mask e = if e = fd then l.mask fd &&& ~~~m else l.mask e := by
  unfold delIoevMask EventLoop.mask
  cases hev : l.ioEvs fd with
  | none =>
    by_cases he : e = fd
    · subst he
      rw [if_pos rfl, hev]
      simp
    · rw [if_neg he]
  | some ev =>
    simp only
    by_cases hz : ev.mask &&& ~~~m = 0
    · rw [if_pos hz]
      simp only [epollCtl_ioEvs, Option.elim_some]
      by_cases he : e = fd
      · subst he
        rw [if_pos rfl, Function.update_self, hz]
        rfl
      · rw [if_neg he, Function.update_of_ne he]
    · rw [if_neg hz]
      simp only [epollCtl_ioEvs, Option.elim_some]
      by_cases he : e = fd
      · subst he
        rw [if_pos rfl, Function.update_self]
        rfl
      · rw [if_neg he, Function.update_of_ne he]

theorem mask_delIoev (l : EventLoop κ) (fd e : Int) :
    (l.delIoev fd).mask e = if e = fd then 0 else l.mask e := by
  unfold delIoev EventLoop.mask
  simp only
  split
  next h =>
    subst h
    rw [Function.update_self]
    rfl
  next h => rw [Function.update_of_ne h]

@[simp] theorem mask_closeFd (l : EventLoop κ) (fd e : Int) :
    (l.closeFd fd).mask e = l.mask e := rfl

/-! ## Who is watched after a change -/

variable {l : EventLoop κ} {fd e : Int} {m : Mask}

theorem watches_addIoev_self {proc : κ} {args : Ptr} (hm : m ≠ 0) :
    (l.addIoev fd proc m args).Watches fd m := by
  unfold Watches
  rw [mask_addIoev, if_pos rfl]
  have hsub : (l.mask fd ||| m) &&& m = m := by
    ext i
    simp
    tauto
  rw [hsub]
  exact hm

/-- Adding interest takes none away. -/
theorem Watches.addIoev {proc : κ} {args : Ptr} {n : Mask} (h : l.Watches e n) :
    (l.addIoev fd proc m args).Watches e n := by
  unfold Watches
  rw [mask_addIoev]
  split
  next he =>
    subst he
    intro hz
    apply h
    have hor : l.mask e &&& n = (l.mask e ||| m) &&& n &&& (l.mask e &&& n) := by
      ext i
      simp
      tauto
    rw [hor, hz]
    simp
  next he => exact h

/-- Interest in `EPOLLIN` is not interest in `EPOLLOUT`. -/
theorem watches_addIoev_in {proc : κ} {args : Ptr}
    (h : (l.addIoev fd proc epollIn args).Watches fd epollOut) : l.Watches fd epollOut := by
  unfold Watches at h ⊢
  rw [mask_addIoev, if_pos rfl] at h
  have hor : (l.mask fd ||| epollIn) &&& epollOut = l.mask fd &&& epollOut := by
    have hz : epollIn &&& epollOut = 0 := by decide
    rw [BitVec.and_or_distrib_right, hz]
    simp
  rwa [hor] at h

/-- Deleting interest takes no other away. -/
theorem Watches.delIoevMask {n : Mask} (h : l.Watches e n) (hmn : m &&& n = 0) :
    (l.delIoevMask fd m).Watches e n := by
  unfold Watches
  rw [mask_delIoevMask]
  split
  next he =>
    subst he
    have hkeep : l.mask e &&& ~~~m &&& n = l.mask e &&& n := by
      ext i hi
      have hbit : (m &&& n)[i] = (0 : Mask)[i] := by rw [hmn]
      simp only [BitVec.getElem_and, BitVec.getElem_not] at hbit ⊢
      revert hbit
      cases m[i] <;> cases n[i] <;> simp
    rw [hkeep]
    exact h
  next he => exact h

/-- Nobody watches `fd` for events that were just deleted. -/
theorem not_watches_delIoevMask : ¬ (l.delIoevMask fd m).Watches fd m := by
  unfold Watches
  rw [mask_delIoevMask, if_pos rfl, BitVec.and_assoc]
  simp

/-! ## Who is called -/

/-- No descriptor is registered. -/
def Bare (l : EventLoop κ) : Prop := ∀ e, l.ioEvs e = none

/-- No descriptor but `fd` is registered, and its callbacks can only be `r` for reading
and `w` for writing. -/
structure Listens (l : EventLoop κ) (fd : Int) (r w : Option κ) : Prop where
  lone : ∀ e, e ≠ fd → l.ioEvs e = none
  read : ∀ cb, l.readCb fd = some cb → r = some cb
  write : ∀ cb, l.writeCb fd = some cb → w = some cb

theorem Bare.listens (h : Bare l) (fd : Int) (r w : Option κ) : Listens l fd r w := by
  refine ⟨fun e _ => h e, ?_, ?_⟩
  · intro cb hcb
    unfold readCb at hcb
    rw [h fd] at hcb
    cases hcb
  · intro cb hcb
    unfold writeCb at hcb
    rw [h fd] at hcb
    cases hcb

theorem Bare.closeFd (h : Bare l) (fd : Int) : Bare (l.closeFd fd) := h

theorem Bare.not_watches (h : Bare l) : ¬ l.Watches fd m := by
  unfold Watches EventLoop.mask
  rw [h fd]
  simp

/-- Without registrations no callback runs. -/
theorem Bare.processEv (h : Bare l) (ready : Ready) : l.processEv fd ready = none := by
  cases ready with
  | input => exact if_neg h.not_watches
  | output => exact if_neg h.not_watches
  | hangup =>
    unfold EventLoop.processEv
    rw [h fd]
    rfl

variable {r w : Option κ}

/-- Only the two callbacks are ever run. -/
theorem Listens.processEv (h : Listens l fd r w) {ready : Ready} {cb : κ}
    (hcb : l.processEv fd ready = some cb) : r = some cb ∨ w = some cb := by
  cases ready with
  | input =>
    simp only [EventLoop.processEv] at hcb
    split at hcb
    · exact .inl (h.read cb hcb)
    · cases hcb
  | output =>
    simp only [EventLoop.processEv] at hcb
    split at hcb
    · exact .inr (h.write cb hcb)
    · cases hcb
  | hangup =>
    simp only [EventLoop.processEv] at hcb
    cases hev : l.ioEvs fd with
    | none =>
      rw [hev] at hcb
      cases hcb
    | some ev =>
      have hr : l.readCb fd = ev.readCb := by
        unfold readCb
        rw [hev]
        rfl
      have hw : l.writeCb fd = ev.writeCb := by
        unfold writeCb
        rw [hev]
        rfl
      rw [hev] at hcb
      change (ev.readCb <|> ev.writeCb) = some cb at hcb
      cases hrcb : ev.readCb with
      | none =>
        rw [hrcb] at hcb
        exact .inr (h.write cb (hw.trans hcb))
      | some rcb =>
        rw [hrcb] at hcb
        exact .inl (h.read cb (hr.trans (hrcb.trans hcb)))

theorem Listens.delIoev (h : Listens l fd r w) : Bare (l.delIoev fd) := by
  intro e
  change Function.update l.ioEvs fd none e = none
  by_cases he : e = fd
  · rw [he, Function.update_self]
  · rw [Function.update_of_ne he, h.lone e he]

theorem Listens.addIoev_out (h : Listens l fd r w) (proc : κ) (args : Ptr) :
    Listens (l.addIoev fd proc epollOut args) fd r (some proc) := by
  obtain ⟨ev, hev, -, hout, -⟩ := l.addIoev_ioEvs fd proc epollOut args
  obtain ⟨hr, hw⟩ := hout (by decide) (by decide)
  refine ⟨?_, ?_, ?_⟩
  · intro e he
    rw [hev, Function.update_of_ne he, h.lone e he]
  · intro cb hcb
    unfold readCb at hcb
    rw [hev, Function.update_self] at hcb
    exact h.read cb (hr.symm.trans hcb)
  · intro cb hcb
    unfold writeCb at hcb
    rw [hev, Function.update_self] at hcb
    exact hw.symm.trans hcb

theorem Listens.addIoev_in (h : Listens l fd r w) (proc : κ) (args : Ptr) :
    Listens (l.addIoev fd proc epollIn args) fd (some proc) w := by
  obtain ⟨ev, hev, -, -, hin⟩ := l.addIoev_ioEvs fd proc epollIn args
  obtain ⟨hr, hw⟩ := hin (by decide)
  refine ⟨?_, ?_, ?_⟩
  · intro e he
    rw [hev, Function.update_of_ne he, h.lone e he]
  · intro cb hcb
    unfold readCb at hcb
    rw [hev, Function.update_self] at hcb
    exact hr.symm.trans hcb
  · intro cb hcb
    unfold writeCb at hcb
    rw [hev, Function.update_self] at hcb
    exact h.write cb (hw.symm.trans hcb)

/-- The callback that was just registered for `EPOLLIN` reads. -/
theorem processEv_addIoev_in (l : EventLoop κ) (fd : Int) (proc : κ) (args : Ptr) :
    (l.addIoev fd proc epollIn args).processEv fd .input = some proc := by
  obtain ⟨ev, hev, -, -, hin⟩ := l.addIoev_ioEvs fd proc epollIn args
  simp only [EventLoop.processEv]
  rw [if_pos (watches_addIoev_self (by decide))]
  unfold readCb
  rw [hev, Function.update_self]
  exact (hin (by decide)).1

/-- The callback that was just registered for `EPOLLOUT` writes. -/
theorem processEv_addIoev_write (l : EventLoop κ) (fd : Int) (proc : κ) (args : Ptr) :
    (l.addIoev fd proc epollOut args).processEv fd .output = some proc := by
  obtain ⟨ev, hev, -, hout, -⟩ := l.addIoev_ioEvs fd proc epollOut args
  simp only [EventLoop.processEv]
  rw [if_pos (watches_addIoev_self (by decide))]
  unfold writeCb
  rw [hev, Function.update_self]
  exact (hout (by decide) (by decide)).2

/-- Interest in `EPOLLOUT` does not change who reads. -/
theorem processEv_addIoev_out (proc : κ) (args : Ptr) {cb : κ}
    (h : l.processEv fd .input = some cb) :
    (l.addIoev fd proc epollOut args).processEv fd .input = some cb := by
  simp only [EventLoop.processEv] at h ⊢
  split at h
  next hw =>
    obtain ⟨ev, hev, -, hout, -⟩ := l.addIoev_ioEvs fd proc epollOut args
    rw [if_pos hw.addIoev]
    unfold readCb
    rw [hev, Function.update_self]
    exact (hout (by decide) (by decide)).1.trans h
  next => cases h

/-- What `del_ioev` of some events leaves of a registration. -/
theorem delIoevMask_ioEvs (l : EventLoop κ) (fd : Int) (m : Mask) (e : Int) :
    (l.delIoevMask fd m).ioEvs e = none ∨
      ∃ ev o, l.ioEvs e = some ev ∧ (l.delIoevMask fd m).ioEvs e = some { ev with mask := o } := by
  unfold delIoevMask
  cases hfd : l.ioEvs fd with
  | none =>
    cases he : l.ioEvs e with
    | none => exact .inl rfl
    | some ev => exact .inr ⟨ev, ev.mask, rfl, rfl⟩
  | some ev =>
    simp only
    split
    next =>
      simp only [epollCtl_ioEvs]
      by_cases he : e = fd
      · rw [he, Function.update_self]
        exact .inl rfl
      · rw [Function.update_of_ne he]
        cases he : l.ioEvs e with
        | none => exact .inl rfl
        | some ev' => exact .inr ⟨ev', ev'.mask, rfl, rfl⟩
    next =>
      simp only [epollCtl_ioEvs]
      by_cases he : e = fd
      · rw [he, Function.update_self]
        exact .inr ⟨ev, _, hfd, rfl⟩
      · rw [Function.update_of_ne he]
        cases he : l.ioEvs e with
        | none => exact .inl rfl
        | some ev' => exact .inr ⟨ev', ev'.mask, rfl, rfl⟩

theorem Listens.delIoevMask (h : Listens l fd r w) (m : Mask) :
    Listens (l.delIoevMask fd m) fd r w := by
  refine ⟨?_, ?_, ?_⟩
  · intro e he
    rcases l.delIoevMask_ioEvs fd m e with hnone | ⟨ev, o, hev, -⟩
    · exact hnone
    · rw [h.lone e he] at hev
      cases hev
  · intro cb hcb
    unfold readCb at hcb
    rcases l.delIoevMask_ioEvs fd m fd with hnone | ⟨ev, o, hev, hev'⟩
    · rw [hnone] at hcb
      cases hcb
    · rw [hev'] at hcb
      apply h.read cb
      unfold readCb
      rw [hev]
      exact hcb
  · intro cb hcb
    unfold writeCb at hcb
    rcases l.delIoevMask_ioEvs fd m fd with hnone | ⟨ev, o, hev, hev'⟩
    · rw [hnone] at hcb
      cases hcb
    · rw [hev'] at hcb
      apply h.write cb
      unfold writeCb
      rw [hev]
      exact hcb

end EventLoop

end EasyReactor.Loop
