import EasyReactor.Loop.IoEvents
import EasyReactor.Foundation.Outcome

set_option autoImplicit false

/-!
# Loop: one batch of `process_evs`

`epoll_wait` fills `_fired_evs` once; the table of registrations then changes under
the loop that goes through it, for every callback may call `add_ioev` and `del_ioev`
on any descriptor.  `process_evs` looks the descriptor up again for each entry but
dispatches on the events of the snapshot: it neither checks the current mask nor
whether the callback pointer is set.

A callback is free to make any calls, so an entry of the batch carries the calls
that its callback makes.
-/

namespace EasyReactor.Loop

open EasyReactor.Foundation EasyReactor.Wire

/-- `EPOLLERR` -/
def epollErr : Mask := 8

/-- `EPOLLHUP` -/
def epollHup : Mask := 16

variable {κ : Type}

/-- What a callback can call on the loop about descriptors. -/
inductive IoCall (κ : Type) where
  | addIoev (fd : Int) (proc : κ) (mask : Mask) (args : Ptr)
  | delIoevMask (fd : Int) (mask : Mask)
  | delIoev (fd : Int)

def IoCall.fd : IoCall κ → Int
  | .addIoev fd _ _ _ => fd
  | .delIoevMask fd _ => fd
  | .delIoev fd => fd

/-- What the comment above `add_ioev` asks of its callers: `EPOLLIN` and `EPOLLOUT`
are not in one mask. -/
def IoCall.Allowed : IoCall κ → Prop
  | .addIoev _ _ mask _ => mask &&& epollIn = 0 ∨ mask &&& epollOut = 0
  | _ => True

/-- One `_fired_evs[i]`, with the calls of the callback it runs. -/
structure FiredEv (κ : Type) where
  fd : Int
  events : Mask
  calls : List (IoCall κ)

/-- A callback that `process_evs` ran: for what event, and the descriptor's mask then. -/
structure Invocation (κ : Type) where
  fd : Int
  ready : Ready
  cb : κ
  args : Ptr
  mask : Mask

/-- A callback runs for an event its descriptor is registered for at that moment. -/
def Invocation.Registered (i : Invocation κ) : Prop :=
  match i.ready with
  | .input => i.mask &&& epollIn ≠ 0
  | .output => i.mask &&& epollOut ≠ 0
  | .hangup => True

namespace EventLoop

def call (l : EventLoop κ) : IoCall κ → EventLoop κ
  | .addIoev fd proc mask args => l.addIoev fd proc mask args
  | .delIoevMask fd mask => l.delIoevMask fd mask
  | .delIoev fd => l.delIoev fd

/-- `cb(this, fd, args)`, through a pointer that may be `NULL`. -/
def invoke (l : EventLoop κ) (e : FiredEv κ) (ready : Ready) (cb : Option κ) (args : Ptr)
    (mask : Mask) : Except Fault (EventLoop κ × List (Invocation κ)) :=
  match cb with
  | none => .error .undefined
  | some cb => .ok (e.calls.foldl call l, [⟨e.fd, ready, cb, args, mask⟩])

/-- The body of the `for` loop of `process_evs`. -/
def processFired (l : EventLoop κ) (e : FiredEv κ) :
    Except Fault (EventLoop κ × List (Invocation κ)) :=
  match l.ioEvs e.fd with
  | none => .error (.assertion .ioevFound)
  | some ev =>
    if e.events &&& epollIn ≠ 0 then l.invoke e .input ev.readCb ev.rcbArgs ev.mask
    else if e.events &&& epollOut ≠ 0 then l.invoke e .output ev.writeCb ev.wcbArgs ev.mask
    else if e.events &&& (epollHup ||| epollErr) ≠ 0 then
      if ev.readCb.isSome then l.invoke e .hangup ev.readCb ev.rcbArgs ev.mask
      else if ev.writeCb.isSome then l.invoke e .hangup ev.writeCb ev.wcbArgs ev.mask
      else .ok (l.delIoev e.fd, [])
    else .ok (l, [])

/-- One turn of the loop, with the callbacks run so far. -/
def processStep (s : EventLoop κ × List (Invocation κ)) (e : FiredEv κ) :
    Except Fault (EventLoop κ × List (Invocation κ)) := do
  let (l, ran) ← s.1.processFired e
  .ok (l, s.2 ++ ran)

/-- `event_loop::process_evs`, for one batch: the loop after it, and the callbacks run. -/
def processEvs (l : EventLoop κ) (batch : List (FiredEv κ)) :
    Except Fault (EventLoop κ × List (Invocation κ)) :=
  batch.foldlM processStep (l, [])

end EventLoop

/-! ## The table of registrations, without callbacks -/

/-- What of an `io_event` decides where the next event goes. -/
structure Registration where
  mask : Mask
  /-- one of the callback pointers is set -/
  callable : Bool
  deriving DecidableEq

/-- The registered descriptors. -/
abbrev Table := Int → Option Registration

namespace Table

/-- What a call does to the table. -/
def call (t : Table) : IoCall κ → Table
  | .addIoev fd _ mask _ =>
    Function.update t fd (some
      { mask := (t fd).elim 0 Registration.mask ||| mask
        callable := (t fd).elim false Registration.callable ||
          decide (mask &&& epollIn ≠ 0 ∨ mask &&& epollOut ≠ 0) })
  | .delIoevMask fd mask =>
    match t fd with
    | none => t
    | some r =>
      Function.update t fd
        (if r.mask &&& ~~~mask = 0 then none else some { r with mask := r.mask &&& ~~~mask })
  | .delIoev fd => Function.update t fd none

/-- The descriptor of `e` is registered, and for the event that `e` is dispatched on. -/
def Wants (t : Table) (e : FiredEv κ) : Prop :=
  ∃ r ∈ t e.fd,
    if e.events &&& epollIn ≠ 0 then r.mask &&& epollIn ≠ 0
    else if e.events &&& epollOut ≠ 0 then r.mask &&& epollOut ≠ 0
    else True

/-- The table after the turn of `e`.  A hang-up of a descriptor without a callback
deletes it. -/
def after (t : Table) (e : FiredEv κ) : Table :=
  if e.events &&& epollIn ≠ 0 ∨ e.events &&& epollOut ≠ 0 then e.calls.foldl call t
  else if e.events &&& (epollHup ||| epollErr) ≠ 0 then
    if (t e.fd).elim false Registration.callable then e.calls.foldl call t
    else t.call (.delIoev e.fd : IoCall κ)
  else t

instance (t : Table) (e : FiredEv κ) : Decidable (t.Wants e) :=
  inferInstanceAs (Decidable (∃ r ∈ t e.fd, _))

/-- The calls that the callbacks of the batch make leave every later entry registered
for the event it is dispatched on. -/
def Undisturbed (t : Table) : List (FiredEv κ) → Prop
  | [] => True
  | e :: batch => t.Wants e ∧ (t.after e).Undisturbed batch

instance decidableUndisturbed : ∀ (t : Table) (batch : List (FiredEv κ)),
    Decidable (t.Undisturbed batch)
  | _, [] => .isTrue trivial
  | t, e :: batch =>
    have := decidableUndisturbed (t.after e) batch
    inferInstanceAs (Decidable (t.Wants e ∧ _))

/-! ### Batches whose callbacks take nothing away from a later entry -/

/-- The call takes interest away from `fd`. -/
def RemovesFrom (fd : Int) : IoCall κ → Prop
  | .addIoev _ _ _ _ => False
  | .delIoevMask fd' _ => fd' = fd
  | .delIoev fd' => fd' = fd

theorem and_ne_zero_of_or {a b m : Mask} (h : a &&& m ≠ 0) : (a ||| b) &&& m ≠ 0 := by
  intro hz
  rw [BitVec.and_or_distrib_right] at hz
  exact h (BitVec.or_eq_zero_iff.mp hz).1

theorem call_of_ne {t : Table} {c : IoCall κ} {fd : Int} (h : fd ≠ c.fd) : t.call c fd = t fd := by
  cases c with
  | addIoev fd' proc mask args => exact Function.update_of_ne h _ _
  | delIoevMask fd' mask =>
    unfold Table.call
    simp only
    cases t fd' with
    | none => rfl
    | some r => exact Function.update_of_ne h _ _
  | delIoev fd' => exact Function.update_of_ne h _ _

theorem Wants.call {t : Table} {e : FiredEv κ} (h : t.Wants e) {c : IoCall κ}
    (hc : ¬ RemovesFrom e.fd c) : (t.call c).Wants e := by
  by_cases he : e.fd = c.fd
  · obtain ⟨r, hr, hw⟩ := h
    cases c with
    | addIoev fd proc mask args =>
      obtain rfl : e.fd = fd := he
      refine ⟨_, Function.update_self _ _ _, ?_⟩
      rw [Option.mem_def.mp hr]
      by_cases hin : e.events &&& epollIn ≠ 0
      · rw [if_pos hin] at hw ⊢
        exact and_ne_zero_of_or hw
      · by_cases hout : e.events &&& epollOut ≠ 0
        · rw [if_neg hin, if_pos hout] at hw ⊢
          exact and_ne_zero_of_or hw
        · rw [if_neg hin, if_neg hout]
          trivial
    | delIoevMask fd mask => exact absurd he.symm hc
    | delIoev fd => exact absurd he.symm hc
  · unfold Wants
    rw [call_of_ne he]
    exact h

theorem Wants.calls {calls : List (IoCall κ)} : ∀ {t : Table} {e : FiredEv κ}, t.Wants e →
    (∀ c ∈ calls, ¬ RemovesFrom e.fd c) → (calls.foldl Table.call t).Wants e := by
  induction calls with
  | nil => exact fun h _ => h
  | cons c calls ih =>
    intro t e h hc
    rw [List.foldl_cons]
    exact ih (h.call (hc c List.mem_cons_self)) fun c' hc' => hc c' (List.mem_cons_of_mem c hc')

theorem Wants.after {t : Table} {e e' : FiredEv κ} (h : t.Wants e') (hne : e.fd ≠ e'.fd)
    (hc : ∀ c ∈ e.calls, ¬ RemovesFrom e'.fd c) : (t.after e).Wants e' := by
  unfold Table.after
  split
  · exact h.calls hc
  · split
    · split
      · exact h.calls hc
      · exact h.call (c := .delIoev e.fd) hne
    · exact h

/-- No call of a callback takes interest away from a descriptor that is still to come
in the batch. -/
def KeepsLater : List (FiredEv κ) → Prop
  | [] => True
  | e :: batch =>
    (∀ e' ∈ batch, ∀ c ∈ e.calls, ¬ RemovesFrom e'.fd c) ∧ KeepsLater batch

theorem undisturbed_of_keepsLater : ∀ {batch : List (FiredEv κ)} {t : Table},
    (batch.map FiredEv.fd).Nodup → (∀ e ∈ batch, t.Wants e) → KeepsLater batch →
    t.Undisturbed batch := by
  intro batch
  induction batch with
  | nil => exact fun _ _ _ => trivial
  | cons e batch ih =>
    intro t hnodup hwants hkeep
    rw [List.map_cons, List.nodup_cons] at hnodup
    refine ⟨hwants e List.mem_cons_self, ih hnodup.2 (fun e' he' => ?_) hkeep.2⟩
    have hne : e.fd ≠ e'.fd := fun heq => hnodup.1 (heq ▸ List.mem_map_of_mem he')
    exact (hwants e' (List.mem_cons_of_mem e he')).after hne (hkeep.1 e' he')

end Table

namespace EventLoop

/-- The table of a loop. -/
def table (l : EventLoop κ) : Table := fun fd =>
  (l.ioEvs fd).map fun ev => ⟨ev.mask, ev.readCb.isSome || ev.writeCb.isSome⟩

theorem table_update {l l' : EventLoop κ} {fd : Int} {o : Option (IoEvent κ)}
    (h : l'.ioEvs = Function.update l.ioEvs fd o) :
    l'.table = Function.update l.table fd
      (o.map fun ev => ⟨ev.mask, ev.readCb.isSome || ev.writeCb.isSome⟩) := by
  funext e
  unfold table
  rw [h]
  by_cases he : e = fd
  · subst he
    rw [Function.update_self, Function.update_self]
  · rw [Function.update_of_ne he, Function.update_of_ne he]

/-- The `io_event` that `add_ioev` leaves. -/
def addedEv (l : EventLoop κ) (fd : Int) (proc : κ) (mask : Mask) (args : Ptr) : IoEvent κ :=
  { (if mask &&& epollIn ≠ 0 then
        { (l.ioEvs fd).getD (.new κ) with readCb := some proc, rcbArgs := args }
      else if mask &&& epollOut ≠ 0 then
        { (l.ioEvs fd).getD (.new κ) with writeCb := some proc, wcbArgs := args }
      else (l.ioEvs fd).getD (.new κ)) with
    mask := l.mask fd ||| mask }

theorem addIoev_eq_addedEv (l : EventLoop κ) (fd : Int) (proc : κ) (mask : Mask) (args : Ptr) :
    (l.addIoev fd proc mask args).ioEvs =
      Function.update l.ioEvs fd (some (l.addedEv fd proc mask args)) := by
  unfold addIoev addedEv EventLoop.mask
  simp only [epollCtl_ioEvs]
  cases l.ioEvs fd with
  | none => simp
  | some ev => rfl

theorem table_addIoev (l : EventLoop κ) (fd : Int) (proc : κ) (mask : Mask) (args : Ptr) :
    (l.addIoev fd proc mask args).table = l.table.call (.addIoev fd proc mask args) := by
  rw [table_update (l.addIoev_eq_addedEv fd proc mask args)]
  unfold Table.call addedEv
  congr 1
  rw [Option.map_some, Option.some.injEq, Registration.mk.injEq]
  refine ⟨?_, ?_⟩
  · unfold EventLoop.mask table
    cases l.ioEvs fd <;> rfl
  · unfold table
    by_cases hin : mask &&& epollIn ≠ 0
    · rw [if_pos hin, decide_eq_true (.inl hin), Bool.or_true]
      rfl
    · by_cases hout : mask &&& epollOut ≠ 0
      · rw [if_neg hin, if_pos hout, decide_eq_true (.inr hout), Bool.or_true]
        exact Bool.or_true _
      · rw [if_neg hin, if_neg hout, decide_eq_false (not_or.mpr ⟨hin, hout⟩), Bool.or_false]
        cases l.ioEvs fd <;> rfl

theorem delIoevMask_none {l : EventLoop κ} {fd : Int} (h : l.ioEvs fd = none) (mask : Mask) :
    l.delIoevMask fd mask = l := by
  unfold delIoevMask
  rw [h]

theorem delIoevMask_some {l : EventLoop κ} {fd : Int} {ev : IoEvent κ} (h : l.ioEvs fd = some ev)
    (mask : Mask) :
    (l.delIoevMask fd mask).ioEvs = Function.update l.ioEvs fd
      (if ev.mask &&& ~~~mask = 0 then none
        else some { ev with mask := ev.mask &&& ~~~mask }) := by
  unfold delIoevMask
  rw [h]
  by_cases hz : ev.mask &&& ~~~mask = 0
  · simp only [hz, if_true, epollCtl_ioEvs]
  · simp only [hz, if_false, epollCtl_ioEvs]

theorem table_delIoevMask (l : EventLoop κ) (fd : Int) (mask : Mask) :
    (l.delIoevMask fd mask).table = l.table.call (.delIoevMask fd mask : IoCall κ) := by
  unfold Table.call
  cases hev : l.ioEvs fd with
  | none =>
    have ht : l.table fd = none := by
      unfold table
      rw [hev]
      rfl
    simp only [ht]
    rw [delIoevMask_none hev]
  | some ev =>
    have ht : l.table fd = some ⟨ev.mask, ev.readCb.isSome || ev.writeCb.isSome⟩ := by
      unfold table
      rw [hev]
      rfl
    simp only [ht]
    rw [table_update (delIoevMask_some hev mask)]
    by_cases hz : ev.mask &&& ~~~mask = 0
    · rw [if_pos hz, if_pos hz]
      rfl
    · rw [if_neg hz, if_neg hz]
      rfl

theorem table_call (l : EventLoop κ) (c : IoCall κ) : (l.call c).table = l.table.call c := by
  cases c with
  | addIoev fd proc mask args => exact l.table_addIoev fd proc mask args
  | delIoevMask fd mask => exact l.table_delIoevMask fd mask
  | delIoev fd =>
    exact table_update (show (l.delIoev fd).ioEvs = Function.update l.ioEvs fd none from rfl)

theorem table_calls (calls : List (IoCall κ)) (l : EventLoop κ) :
    (calls.foldl call l).table = calls.foldl Table.call l.table := by
  induction calls generalizing l with
  | nil => rfl
  | cons c calls ih => rw [List.foldl_cons, List.foldl_cons, ih, table_call]

/-- A descriptor that is registered for an event has the callback for it. -/
def CallbacksSet (l : EventLoop κ) : Prop :=
  ∀ fd ev, l.ioEvs fd = some ev →
    (ev.mask &&& epollIn ≠ 0 → ev.readCb.isSome) ∧ (ev.mask &&& epollOut ≠ 0 → ev.writeCb.isSome)

theorem callbacksSet_empty : CallbacksSet (empty κ) := by
  intro fd ev hev
  cases hev

/-- A change of one `io_event` has to look at that one only. -/
theorem CallbacksSet.update {l l' : EventLoop κ} (h : CallbacksSet l) {fd : Int}
    {o : Option (IoEvent κ)} (hupd : l'.ioEvs = Function.update l.ioEvs fd o)
    (ho : ∀ ev, o = some ev → (ev.mask &&& epollIn ≠ 0 → ev.readCb.isSome) ∧
      (ev.mask &&& epollOut ≠ 0 → ev.writeCb.isSome)) : CallbacksSet l' := by
  intro e ev hev
  rw [hupd] at hev
  by_cases he : e = fd
  · subst he
    rw [Function.update_self] at hev
    exact ho ev hev
  · rw [Function.update_of_ne he] at hev
    exact h e ev hev

theorem or_and_ne_zero {a b m : Mask} (h : (a ||| b) &&& m ≠ 0) : a &&& m ≠ 0 ∨ b &&& m ≠ 0 := by
  by_contra hno
  obtain ⟨ha, hb⟩ := not_or.mp hno
  rw [BitVec.and_or_distrib_right, not_not.mp ha, not_not.mp hb] at h
  exact h rfl

theorem and_not_and_ne_zero {a b m : Mask} (h : a &&& ~~~b &&& m ≠ 0) : a &&& m ≠ 0 := by
  intro ha
  rw [BitVec.and_assoc, BitVec.and_comm (~~~b), ← BitVec.and_assoc, ha] at h
  exact h (BitVec.zero_and)

theorem CallbacksSet.addIoev {l : EventLoop κ} (h : CallbacksSet l) {fd : Int} {proc : κ}
    {mask : Mask} {args : Ptr} (hmask : mask &&& epollIn = 0 ∨ mask &&& epollOut = 0) :
    CallbacksSet (l.addIoev fd proc mask args) := by
  have hold : (l.mask fd &&& epollIn ≠ 0 → ((l.ioEvs fd).getD (.new κ)).readCb.isSome) ∧
      (l.mask fd &&& epollOut ≠ 0 → ((l.ioEvs fd).getD (.new κ)).writeCb.isSome) := by
    unfold EventLoop.mask
    cases hev : l.ioEvs fd with
    | none => exact ⟨fun hin => absurd BitVec.zero_and hin, fun hout => absurd BitVec.zero_and hout⟩
    | some ev => exact h fd ev hev
  refine h.update (l.addIoev_eq_addedEv fd proc mask args) ?_
  rintro ev ⟨⟩
  unfold addedEv
  by_cases hin : mask &&& epollIn ≠ 0
  · have hout : mask &&& epollOut = 0 := hmask.resolve_left hin
    rw [if_pos hin]
    exact ⟨fun _ => rfl, fun ho => hold.2 ((or_and_ne_zero ho).resolve_right (not_not.mpr hout))⟩
  · rw [if_neg hin]
    by_cases hout : mask &&& epollOut ≠ 0
    · rw [if_pos hout]
      exact ⟨fun hi => hold.1 ((or_and_ne_zero hi).resolve_right hin), fun _ => rfl⟩
    · rw [if_neg hout]
      exact ⟨fun hi => hold.1 ((or_and_ne_zero hi).resolve_right hin),
        fun ho => hold.2 ((or_and_ne_zero ho).resolve_right hout)⟩

theorem CallbacksSet.call {l : EventLoop κ} (h : CallbacksSet l) {c : IoCall κ}
    (hc : c.Allowed) : CallbacksSet (l.call c) := by
  cases c with
  | addIoev fd proc mask args => exact h.addIoev hc
  | delIoevMask fd mask =>
    show CallbacksSet (l.delIoevMask fd mask)
    cases hev : l.ioEvs fd with
    | none =>
      rw [delIoevMask_none hev]
      exact h
    | some ev =>
      refine h.update (delIoevMask_some hev mask) fun ev' hev' => ?_
      split at hev'
      · cases hev'
      · obtain rfl := Option.some.inj hev'
        exact ⟨fun hi => (h fd ev hev).1 (and_not_and_ne_zero hi),
          fun ho => (h fd ev hev).2 (and_not_and_ne_zero ho)⟩
  | delIoev fd =>
    refine h.update (show (l.delIoev fd).ioEvs = Function.update l.ioEvs fd none from rfl) ?_
    rintro ev ⟨⟩

theorem CallbacksSet.calls {calls : List (IoCall κ)} (hc : ∀ c ∈ calls, c.Allowed) :
    ∀ {l : EventLoop κ}, CallbacksSet l → CallbacksSet (calls.foldl EventLoop.call l) := by
  induction calls with
  | nil => exact fun h => h
  | cons c calls ih =>
    intro l h
    rw [List.foldl_cons]
    exact ih (fun c' hc' => hc c' (List.mem_cons_of_mem c hc'))
      (h.call (hc c List.mem_cons_self))

/-! ## One turn, and one batch -/

theorem table_eq_some {l : EventLoop κ} {fd : Int} {r : Registration} (h : r ∈ l.table fd) :
    ∃ ev, l.ioEvs fd = some ev ∧ r = ⟨ev.mask, ev.readCb.isSome || ev.writeCb.isSome⟩ := by
  obtain ⟨ev, hev, hr⟩ := Option.map_eq_some_iff.mp h
  exact ⟨ev, hev, hr.symm⟩

theorem invoke_isSome (l : EventLoop κ) (e : FiredEv κ) (ready : Ready) {cb : Option κ}
    (hcb : cb.isSome) (args : Ptr) (mask : Mask) :
    ∃ i : Invocation κ, l.invoke e ready cb args mask = .ok (e.calls.foldl call l, [i]) ∧
      i.ready = ready ∧ i.mask = mask := by
  obtain ⟨f, rfl⟩ := Option.isSome_iff_exists.mp hcb
  exact ⟨_, rfl, rfl, rfl⟩

/-- The turn of an entry that is registered for its event: the callback is there, it
runs, and the table changes by its calls. -/
theorem processFired_wants {l : EventLoop κ} (h : CallbacksSet l) {e : FiredEv κ}
    (hcalls : ∀ c ∈ e.calls, c.Allowed) (hw : l.table.Wants e) :
    ∃ l' ran, l.processFired e = .ok (l', ran) ∧ (∀ i ∈ ran, i.Registered) ∧
      l'.table = l.table.after e ∧ CallbacksSet l' := by
  obtain ⟨r, hr, hw⟩ := hw
  obtain ⟨ev, hev, rfl⟩ := table_eq_some hr
  have hcallable : (l.table e.fd).elim false Registration.callable =
      (ev.readCb.isSome || ev.writeCb.isSome) := by
    rw [Option.mem_def.mp hr]
    rfl
  have hrun : (e.calls.foldl call l).table = e.calls.foldl Table.call l.table ∧
      CallbacksSet (e.calls.foldl call l) := ⟨table_calls e.calls l, h.calls hcalls⟩
  unfold processFired Table.after
  rw [hev]
  simp only
  by_cases hin : e.events &&& epollIn ≠ 0
  · rw [if_pos hin] at hw
    rw [if_pos hin, if_pos (.inl hin)]
    obtain ⟨i, hi, hready, hmask⟩ := invoke_isSome l e .input
      ((h e.fd ev hev).1 hw) ev.rcbArgs ev.mask
    refine ⟨_, _, hi, fun j hj => ?_, hrun⟩
    rw [List.mem_singleton.mp hj, Invocation.Registered, hready, hmask]
    exact hw
  · rw [if_neg hin] at hw ⊢
    by_cases hout : e.events &&& epollOut ≠ 0
    · rw [if_pos hout] at hw
      rw [if_pos hout, if_pos (.inr hout)]
      obtain ⟨i, hi, hready, hmask⟩ := invoke_isSome l e .output
        ((h e.fd ev hev).2 hw) ev.wcbArgs ev.mask
      refine ⟨_, _, hi, fun j hj => ?_, hrun⟩
      rw [List.mem_singleton.mp hj, Invocation.Registered, hready, hmask]
      exact hw
    · rw [if_neg hout, if_neg (not_or.mpr ⟨hin, hout⟩)]
      by_cases hhup : e.events &&& (epollHup ||| epollErr) ≠ 0
      · rw [if_pos hhup, if_pos hhup, hcallable]
        -- a hang-up goes to whichever callback there is
        have hang : ∀ {cb : Option κ} {args : Ptr}, cb.isSome →
            ∃ l' ran, l.invoke e .hangup cb args ev.mask = .ok (l', ran) ∧
              (∀ i ∈ ran, i.Registered) ∧ l'.table = e.calls.foldl Table.call l.table ∧
              CallbacksSet l' := by
          intro cb args hcb
          obtain ⟨i, hi, hready, _⟩ := invoke_isSome l e .hangup hcb args
            ev.mask
          refine ⟨_, _, hi, fun j hj => ?_, hrun⟩
          rw [List.mem_singleton.mp hj, Invocation.Registered, hready]
          trivial
        by_cases hread : ev.readCb.isSome
        · rw [if_pos hread, if_pos (by rw [hread, Bool.true_or])]
          exact hang hread
        · rw [if_neg hread]
          by_cases hwrite : ev.writeCb.isSome
          · rw [if_pos hwrite, if_pos (by rw [hwrite, Bool.or_true])]
            exact hang hwrite
          · rw [if_neg hwrite, if_neg (by simp [hread, hwrite])]
            exact ⟨_, _, rfl, List.forall_mem_nil _, l.table_call (.delIoev e.fd),
              h.call (c := .delIoev e.fd) trivial⟩
      · rw [if_neg hhup, if_neg hhup]
        exact ⟨l, [], rfl, List.forall_mem_nil _, rfl, h⟩

/-- The turn of an entry that is not registered for its event ends the process, or runs
a callback for an event its descriptor is not registered for. -/
theorem processFired_not_wants {l : EventLoop κ} {e : FiredEv κ} (hw : ¬ l.table.Wants e) :
    (∃ f, l.processFired e = .error f) ∨
      ∃ l' i, l.processFired e = .ok (l', [i]) ∧ ¬ i.Registered := by
  unfold processFired
  cases hev : l.ioEvs e.fd with
  | none => exact .inl ⟨_, rfl⟩
  | some ev =>
    have hr : (⟨ev.mask, ev.readCb.isSome || ev.writeCb.isSome⟩ : Registration) ∈ l.table e.fd := by
      unfold table
      rw [hev]
      rfl
    -- with the callback the event goes to, it runs unregistered; without it, `NULL` is called
    have hbad : ∀ {ready : Ready} {cb : Option κ} {args : Ptr},
        (∀ i : Invocation κ, i.ready = ready → i.mask = ev.mask → ¬ i.Registered) →
        (∃ f, l.invoke e ready cb args ev.mask = .error f) ∨
          ∃ l' i, l.invoke e ready cb args ev.mask = .ok (l', [i]) ∧ ¬ i.Registered := by
      intro ready cb args hno
      cases cb with
      | none => exact .inl ⟨_, rfl⟩
      | some f => exact .inr ⟨_, _, rfl, hno _ rfl rfl⟩
    simp only
    by_cases hin : e.events &&& epollIn ≠ 0
    · rw [if_pos hin]
      refine hbad fun i hready hmask hreg => hw ⟨_, hr, ?_⟩
      rw [Invocation.Registered, hready, hmask] at hreg
      rw [if_pos hin]
      exact hreg
    · by_cases hout : e.events &&& epollOut ≠ 0
      · rw [if_neg hin, if_pos hout]
        refine hbad fun i hready hmask hreg => hw ⟨_, hr, ?_⟩
        rw [Invocation.Registered, hready, hmask] at hreg
        rw [if_neg hin, if_pos hout]
        exact hreg
      · refine absurd ⟨_, hr, ?_⟩ hw
        rw [if_neg hin, if_neg hout]
        trivial

/-- No `assert` fails, no `NULL` is called, and every callback that runs is registered
for its event. -/
def Safe (l : EventLoop κ) (batch : List (FiredEv κ)) : Prop :=
  ∃ l' ran, l.processEvs batch = .ok (l', ran) ∧ ∀ i ∈ ran, i.Registered

theorem foldlM_safe_iff : ∀ (batch : List (FiredEv κ)) (ran : List (Invocation κ))
    {l : EventLoop κ}, CallbacksSet l → (∀ e ∈ batch, ∀ c ∈ e.calls, c.Allowed) →
    ((∃ s, batch.foldlM processStep (l, ran) = .ok s ∧ ∀ i ∈ s.2, i.Registered) ↔
      (∀ i ∈ ran, i.Registered) ∧ l.table.Undisturbed batch) := by
  intro batch
  induction batch with
  | nil =>
    intro ran l _ _
    constructor
    · rintro ⟨s, hs, hall⟩
      obtain rfl := Except.ok.inj hs
      exact ⟨hall, trivial⟩
    · exact fun h => ⟨_, rfl, h.1⟩
  | cons e batch ih =>
    intro ran l h hcalls
    rw [List.foldlM_cons]
    by_cases hw : l.table.Wants e
    · obtain ⟨l', new, hfired, hreg, htable, hset⟩ :=
        processFired_wants h (hcalls e List.mem_cons_self) hw
      rw [show processStep (l, ran) e = .ok (l', ran ++ new) by
        simp only [processStep, hfired, ok_bind], ok_bind,
        ih (ran ++ new) hset fun e' he' => hcalls e' (List.mem_cons_of_mem e he'), htable]
      constructor
      · exact fun hs => ⟨fun i hi => hs.1 i (List.mem_append_left new hi), hw, hs.2⟩
      · rintro ⟨hran, _, hrest⟩
        refine ⟨fun i hi => ?_, hrest⟩
        rcases List.mem_append.mp hi with hold | hnew
        · exact hran i hold
        · exact hreg i hnew
    · refine iff_of_false ?_ fun hs => hw hs.2.1
      rintro ⟨s, hrun, hall⟩
      obtain ⟨⟨l', ran'⟩, hstep, hrest⟩ := bind_eq_ok.mp hrun
      rcases processFired_not_wants hw with ⟨f, hfired⟩ | ⟨l₁, i, hfired, hunreg⟩
      · simp only [processStep, hfired, error_bind] at hstep
        cases hstep
      · simp only [processStep, hfired, ok_bind] at hstep
        obtain ⟨rfl, rfl⟩ := Prod.mk.inj (Except.ok.inj hstep)
        -- what ran stays in the log
        refine hunreg (hall i ?_)
        refine foldlM_keeps (fun s : EventLoop κ × List (Invocation κ) => i ∈ s.2) ?_ batch _ s
          (List.mem_append_right ran List.mem_cons_self) hrest
        intro s₁ e₁ s₂ hmem hs₂
        obtain ⟨⟨l₂, new⟩, _, hs₂⟩ := bind_eq_ok.mp hs₂
        obtain rfl := Except.ok.inj hs₂
        exact List.mem_append_left new hmem

/-- What `epoll_wait` can return: each descriptor at most once, and registered, with
events of its mask or `EPOLLHUP` and `EPOLLERR`. -/
structure IsBatch (l : EventLoop κ) (batch : List (FiredEv κ)) : Prop where
  nodup : (batch.map FiredEv.fd).Nodup
  events : ∀ e ∈ batch, ∃ ev, l.ioEvs e.fd = some ev ∧
    e.events &&& ~~~(ev.mask ||| epollHup ||| epollErr) = 0 ∧ e.events ≠ 0

theorem safe_iff {l : EventLoop κ} (h : CallbacksSet l) {batch : List (FiredEv κ)}
    (hcalls : ∀ e ∈ batch, ∀ c ∈ e.calls, c.Allowed) :
    Safe l batch ↔ l.table.Undisturbed batch := by
  have hiff := foldlM_safe_iff batch [] h hcalls
  rw [and_iff_right (List.forall_mem_nil _)] at hiff
  rw [← hiff]
  constructor
  · rintro ⟨l', ran, hrun, hall⟩
    exact ⟨(l', ran), hrun, hall⟩
  · rintro ⟨⟨l', ran⟩, hrun, hall⟩
    exact ⟨l', ran, hrun, hall⟩

theorem and_eq_of_and_not {e m : Mask} (h : e &&& ~~~m = 0) : e &&& m = e := by
  ext i hi
  have hbit : (e &&& ~~~m)[i] = (0 : Mask)[i] := by rw [h]
  simp only [BitVec.getElem_and, BitVec.getElem_not] at hbit ⊢
  revert hbit
  cases e[i] <;> cases m[i] <;> simp

/-- What `epoll_wait` returns is registered when it returns. -/
theorem IsBatch.wants {l : EventLoop κ} {batch : List (FiredEv κ)} (h : IsBatch l batch) :
    ∀ e ∈ batch, l.table.Wants e := by
  intro e he
  obtain ⟨ev, hev, hmask, _⟩ := h.events e he
  have hr : (⟨ev.mask, ev.readCb.isSome || ev.writeCb.isSome⟩ : Registration) ∈ l.table e.fd := by
    unfold table
    rw [hev]
    rfl
  -- an event other than `EPOLLHUP` and `EPOLLERR` is in the mask
  have hin : ∀ {m : Mask}, (epollHup ||| epollErr) &&& m = 0 → e.events &&& m ≠ 0 →
      ev.mask &&& m ≠ 0 := by
    intro m hm hne hz
    rw [← and_eq_of_and_not hmask, BitVec.and_assoc, BitVec.or_assoc,
      BitVec.and_or_distrib_right, hz, hm] at hne
    exact hne (by simp)
  refine ⟨_, hr, ?_⟩
  split
  · rename_i hi
    exact hin (by decide) hi
  · split
    · rename_i ho
      exact hin (by decide) ho
    · trivial

/-- A batch whose callbacks take nothing away from later entries is safe. -/
theorem IsBatch.safe {l : EventLoop κ} (hset : CallbacksSet l) {batch : List (FiredEv κ)}
    (h : IsBatch l batch) (hcalls : ∀ e ∈ batch, ∀ c ∈ e.calls, c.Allowed)
    (hkeep : Table.KeepsLater batch) : Safe l batch :=
  (safe_iff hset hcalls).mpr (Table.undisturbed_of_keepsLater h.nodup h.wants hkeep)

/-- **A callback runs for an event its descriptor is registered for, at that moment.**
After any calls that respect the comment above `add_ioev`, and for any batch,
`process_evs` keeps to this, fails no `assert` and calls no `NULL`, exactly when the
callbacks of the batch leave the later entries undisturbed. -/
theorem process_evs_safe_iff (history : List (IoCall κ)) (hhistory : ∀ c ∈ history, c.Allowed)
    (batch : List (FiredEv κ)) (hbatch : ∀ e ∈ batch, ∀ c ∈ e.calls, c.Allowed) :
    Safe (history.foldl call (empty κ)) batch ↔
      (history.foldl call (empty κ)).table.Undisturbed batch :=
  safe_iff (callbacksSet_empty.calls hhistory) hbatch

/-- Two descriptors, both registered for input by callback `()`. -/
def twoInputs : List (IoCall Unit) :=
  [.addIoev 5 () epollIn none, .addIoev 6 () epollIn none]

/-- Both are reported; the callback of the first makes `calls`. -/
def bothReady (calls : List (IoCall Unit)) : List (FiredEv Unit) :=
  [⟨5, epollIn, calls⟩, ⟨6, epollIn, []⟩]

/-- The first callback drops the interest of the second and takes it up again. -/
theorem process_evs_safe_readded :
    Safe (twoInputs.foldl call (empty Unit))
      (bothReady [.delIoev 6, .addIoev 6 () epollIn none, .delIoev 5]) := by
  refine (process_evs_safe_iff twoInputs ?_ _ ?_).mpr (by decide)
  · simp [twoInputs, IoCall.Allowed]
    decide
  · simp [bothReady, IoCall.Allowed]
    decide

/-- The first callback deletes the second descriptor: the `assert` fails. -/
theorem process_evs_unsafe_deleted :
    ¬ ∀ (history : List (IoCall Unit)) (batch : List (FiredEv Unit)),
      (∀ c ∈ history, c.Allowed) → (∀ e ∈ batch, ∀ c ∈ e.calls, c.Allowed) →
      IsBatch (history.foldl call (empty Unit)) batch →
        Safe (history.foldl call (empty Unit)) batch := by
  intro hall
  have hbatch : IsBatch (twoInputs.foldl call (empty Unit)) (bothReady [.delIoev 6]) := by
    refine ⟨by decide, fun e he => ?_⟩
    rcases List.mem_cons.mp he with rfl | he
    · exact ⟨_, rfl, by decide, by decide⟩
    · obtain rfl := List.mem_singleton.mp he
      exact ⟨_, rfl, by decide, by decide⟩
  obtain ⟨l', ran, hrun, _⟩ := hall twoInputs (bothReady [.delIoev 6])
    (by simp [twoInputs, IoCall.Allowed]; decide) (by simp [bothReady, IoCall.Allowed]) hbatch
  have hfail : processEvs (twoInputs.foldl call (empty Unit)) (bothReady [.delIoev 6]) =
      .error (.assertion .ioevFound) := rfl
  rw [hfail] at hrun
  cases hrun

end EventLoop

end EasyReactor.Loop
