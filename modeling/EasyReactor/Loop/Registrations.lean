import EasyReactor.Loop.ProcessEvs

set_option autoImplicit false

/-!
# Loop: the three views of the registrations

`_io_evs`, `listening` and the kernel's interest set are changed by three functions that
choose the `epoll_ctl` operation from `_io_evs` alone.  They agree after any calls, and so
no `epoll_ctl` is refused.
-/

namespace EasyReactor.Loop

open EasyReactor.Wire

variable {κ : Type}

/-- The mask of an `add_ioev` is `EPOLLIN` or `EPOLLOUT`. -/
def IoCall.OneEvent : IoCall κ → Prop
  | .addIoev _ _ mask _ => mask = epollIn ∨ mask = epollOut
  | _ => True

/-- What the call registers for event `bit` of `fd`. -/
def IoCall.adds (fd : Int) (bit : Mask) : IoCall κ → Option (κ × Ptr)
  | .addIoev fd' proc mask args =>
    if fd' = fd ∧ mask &&& bit ≠ 0 then some (proc, args) else none
  | _ => none

/-- The callback and arguments of the latest `add_ioev` for event `bit` of `fd`. -/
def latestAdd (calls : List (IoCall κ)) (fd : Int) (bit : Mask) : Option (κ × Ptr) :=
  calls.reverse.findSome? (IoCall.adds fd bit)

theorem latestAdd_concat (calls : List (IoCall κ)) (c : IoCall κ) (fd : Int) (bit : Mask) :
    latestAdd (calls ++ [c]) fd bit = (c.adds fd bit).or (latestAdd calls fd bit) := by
  unfold latestAdd
  rw [List.reverse_append, List.reverse_singleton, List.singleton_append, List.findSome?_cons]
  cases c.adds fd bit <;> rfl

theorem IoCall.adds_of_ne {c : IoCall κ} {fd : Int} (h : fd ≠ c.fd) (bit : Mask) :
    c.adds fd bit = none := by
  cases c with
  | addIoev fd' proc mask args => exact if_neg fun hand => h hand.1.symm
  | delIoevMask fd' mask => rfl
  | delIoev fd' => rfl

namespace EventLoop

/-- `event_loop::event_loop`, with the descriptor of the timer queue. -/
def new (notifier : Int) (timerqueueCb : κ) (timerQue : Ptr) : EventLoop κ :=
  (empty κ).addIoev notifier timerqueueCb epollIn timerQue

/-- The views of one descriptor agree, and with the calls made so far. -/
structure AgreesAt (calls : List (IoCall κ)) (l : EventLoop κ) (fd : Int) : Prop where
  listening : l.listening fd = (l.ioEvs fd).isSome
  interest : l.interest fd = (l.ioEvs fd).map IoEvent.mask
  registered : ∀ ev, l.ioEvs fd = some ev → ev.mask ≠ 0
  /-- no event but the two -/
  bits : ∀ ev, l.ioEvs fd = some ev → ev.mask &&& ~~~(epollIn ||| epollOut) = 0
  reads : ∀ ev, l.ioEvs fd = some ev → ev.mask &&& epollIn ≠ 0 →
    ∃ proc, latestAdd calls fd epollIn = some (proc, ev.rcbArgs) ∧ ev.readCb = some proc
  writes : ∀ ev, l.ioEvs fd = some ev → ev.mask &&& epollOut ≠ 0 →
    ∃ proc, latestAdd calls fd epollOut = some (proc, ev.wcbArgs) ∧ ev.writeCb = some proc

/-- The three views agree, and no `epoll_ctl` failed. -/
structure Agrees (calls : List (IoCall κ)) (l : EventLoop κ) : Prop where
  each : ∀ fd, AgreesAt calls l fd
  ctlErrors : l.ctlErrors = 0

variable {l l' : EventLoop κ} {calls : List (IoCall κ)} {fd : Int}

/-- A descriptor that a call is not about. -/
theorem AgreesAt.other (h : AgreesAt calls l fd) {c : IoCall κ} (hfd : fd ≠ c.fd)
    (hev : l'.ioEvs fd = l.ioEvs fd) (hlist : l'.listening fd = l.listening fd)
    (hint : l'.interest fd = l.interest fd) : AgreesAt (calls ++ [c]) l' fd := by
  have hadds : ∀ bit, latestAdd (calls ++ [c]) fd bit = latestAdd calls fd bit := by
    intro bit
    rw [latestAdd_concat, IoCall.adds_of_ne hfd, Option.none_or]
  refine ⟨?_, ?_, ?_, ?_, ?_, ?_⟩
  · rw [hlist, hev, h.listening]
  · rw [hint, hev, h.interest]
  · rw [hev]
    exact h.registered
  · rw [hev]
    exact h.bits
  · rw [hev, hadds]
    exact h.reads
  · rw [hev, hadds]
    exact h.writes

/-- Nothing is known of a descriptor that is not registered. -/
theorem AgreesAt.of_none (hev : l.ioEvs fd = none) (hlist : l.listening fd = false)
    (hint : l.interest fd = none) : AgreesAt calls l fd := by
  refine ⟨by rw [hlist, hev]; rfl, by rw [hint, hev]; rfl, ?_, ?_, ?_, ?_⟩ <;>
  · rw [hev]
    intro ev hnone
    cases hnone

/-- `epoll_ctl` with the operation that `add_ioev` chooses from `_io_evs` succeeds. -/
theorem addIoev_kernel (hint : l.interest fd = (l.ioEvs fd).map IoEvent.mask) (proc : κ)
    (mask : Mask) (args : Ptr) :
    (l.addIoev fd proc mask args).interest =
        Function.update l.interest fd (some (l.mask fd ||| mask)) ∧
      (l.addIoev fd proc mask args).listening = Function.update l.listening fd true ∧
      (l.addIoev fd proc mask args).ctlErrors = l.ctlErrors := by
  unfold addIoev EventLoop.mask
  cases hev : l.ioEvs fd with
  | none =>
    rw [hev] at hint
    simp only [Option.map_none] at hint
    simp [epollCtl, hint]
  | some ev =>
    rw [hev] at hint
    simp only [Option.map_some] at hint
    simp [epollCtl, hint]

/-- So does the one that `del_ioev` chooses. -/
theorem delIoevMask_kernel {ev : IoEvent κ} (hev : l.ioEvs fd = some ev)
    (hint : l.interest fd = some ev.mask) (mask : Mask) :
    (l.delIoevMask fd mask).interest = Function.update l.interest fd
        (if ev.mask &&& ~~~mask = 0 then none else some (ev.mask &&& ~~~mask)) ∧
      (l.delIoevMask fd mask).listening =
        (if ev.mask &&& ~~~mask = 0 then Function.update l.listening fd false else l.listening) ∧
      (l.delIoevMask fd mask).ctlErrors = l.ctlErrors := by
  unfold delIoevMask
  rw [hev]
  by_cases hz : ev.mask &&& ~~~mask = 0
  · simp [hz, epollCtl, hint]
  · simp only [hz, if_false]
    simp [epollCtl, hint]

/-- A mask with one of the two bits more is still not zero, and has no third bit. -/
theorem or_oneEvent {a m : Mask} (hm : m = epollIn ∨ m = epollOut)
    (ha : a &&& ~~~(epollIn ||| epollOut) = 0) :
    a ||| m ≠ 0 ∧ (a ||| m) &&& ~~~(epollIn ||| epollOut) = 0 := by
  refine ⟨?_, ?_⟩
  · intro hz
    have hmz : m = 0 := (BitVec.or_eq_zero_iff.mp hz).2
    rcases hm with rfl | rfl <;> exact absurd hmz (by decide)
  · rw [BitVec.and_or_distrib_right, ha]
    rcases hm with rfl | rfl <;> decide

/-- The stored mask, of a descriptor that may not be registered. -/
theorem AgreesAt.mask_bits (h : AgreesAt calls l fd) :
    l.mask fd &&& ~~~(epollIn ||| epollOut) = 0 := by
  unfold EventLoop.mask
  cases hev : l.ioEvs fd with
  | none => exact BitVec.zero_and
  | some ev => exact h.bits ev hev

/-- A bit of the stored mask has an entry. -/
theorem exists_ev_of_mask {m : Mask} (h : l.mask fd &&& m ≠ 0) :
    ∃ ev, l.ioEvs fd = some ev ∧ ev.mask &&& m ≠ 0 := by
  unfold EventLoop.mask at h
  cases hev : l.ioEvs fd with
  | none =>
    rw [hev] at h
    exact absurd BitVec.zero_and h
  | some ev =>
    rw [hev] at h
    exact ⟨ev, rfl, h⟩

/-- `add_ioev` sets the callback of its own bit, and leaves that of the other. -/
theorem AgreesAt.addIoev (h : AgreesAt calls l fd) {proc : κ} {mask : Mask} {args : Ptr}
    (hmask : mask = epollIn ∨ mask = epollOut) :
    AgreesAt (calls ++ [.addIoev fd proc mask args]) (l.addIoev fd proc mask args) fd := by
  obtain ⟨hint, hlist, -⟩ := addIoev_kernel h.interest proc mask args
  have hev : (l.addIoev fd proc mask args).ioEvs fd = some (l.addedEv fd proc mask args) := by
    rw [addIoev_eq_addedEv, Function.update_self]
  have hbits := or_oneEvent hmask h.mask_bits
  refine ⟨?_, ?_, ?_, ?_, ?_, ?_⟩
  · rw [hlist, hev, Function.update_self]
    rfl
  · rw [hint, hev, Function.update_self]
    rfl
  · intro ev hsome
    obtain rfl := Option.some.inj (hev.symm.trans hsome)
    exact hbits.1
  · intro ev hsome
    obtain rfl := Option.some.inj (hev.symm.trans hsome)
    exact hbits.2
  · intro ev hsome hin
    obtain rfl := Option.some.inj (hev.symm.trans hsome)
    rw [latestAdd_concat]
    rcases hmask with rfl | rfl
    · exact ⟨proc, by simp [IoCall.adds, addedEv, epollIn], by simp [addedEv, epollIn]⟩
    · have hold : l.mask fd &&& epollIn ≠ 0 :=
        (or_and_ne_zero hin).resolve_right (not_not.mpr (by decide))
      obtain ⟨old, hsold, hin'⟩ := exists_ev_of_mask hold
      have hadds : (IoCall.addIoev fd proc epollOut args).adds fd epollIn = none :=
        if_neg fun hand => hand.2 (by decide)
      rw [hadds, Option.none_or]
      have hfields : (l.addedEv fd proc epollOut args).readCb = old.readCb ∧
          (l.addedEv fd proc epollOut args).rcbArgs = old.rcbArgs := by
        simp [addedEv, epollIn, epollOut, hsold]
      rw [hfields.1, hfields.2]
      exact h.reads old hsold hin'
  · intro ev hsome hout
    obtain rfl := Option.some.inj (hev.symm.trans hsome)
    rw [latestAdd_concat]
    rcases hmask with rfl | rfl
    · have hold : l.mask fd &&& epollOut ≠ 0 :=
        (or_and_ne_zero hout).resolve_right (not_not.mpr (by decide))
      obtain ⟨old, hsold, hout'⟩ := exists_ev_of_mask hold
      have hadds : (IoCall.addIoev fd proc epollIn args).adds fd epollOut = none :=
        if_neg fun hand => hand.2 (by decide)
      rw [hadds, Option.none_or]
      have hfields : (l.addedEv fd proc epollIn args).writeCb = old.writeCb ∧
          (l.addedEv fd proc epollIn args).wcbArgs = old.wcbArgs := by
        simp [addedEv, epollIn, hsold]
      rw [hfields.1, hfields.2]
      exact h.writes old hsold hout'
    · exact ⟨proc, by simp [IoCall.adds, addedEv, epollIn, epollOut],
        by simp [addedEv, epollIn, epollOut]⟩

theorem and_not_and_eq_zero {a b m : Mask} (h : a &&& m = 0) : a &&& ~~~b &&& m = 0 := by
  by_contra hne
  exact and_not_and_ne_zero hne h

/-- `del_ioev(fd, mask)` leaves the callbacks of the bits it keeps. -/
theorem AgreesAt.delIoevMask (h : AgreesAt calls l fd) (mask : Mask) :
    AgreesAt (calls ++ [.delIoevMask fd mask]) (l.delIoevMask fd mask) fd := by
  have hadds : ∀ bit, latestAdd (calls ++ [.delIoevMask fd mask]) fd bit =
      latestAdd calls fd bit := by
    intro bit
    rw [latestAdd_concat]
    rfl
  cases hev : l.ioEvs fd with
  | none =>
    rw [delIoevMask_none hev]
    refine AgreesAt.of_none hev ?_ ?_
    · rw [h.listening, hev]
      rfl
    · rw [h.interest, hev]
      rfl
  | some ev =>
    have hmask : l.interest fd = some ev.mask := by
      rw [h.interest, hev]
      rfl
    obtain ⟨hint, hlist, -⟩ := delIoevMask_kernel hev hmask mask
    have hio := congrFun (delIoevMask_some hev mask) fd
    rw [Function.update_self] at hio
    by_cases hz : ev.mask &&& ~~~mask = 0
    · rw [if_pos hz] at hint hlist hio
      refine AgreesAt.of_none hio ?_ ?_
      · rw [hlist, Function.update_self]
      · rw [hint, Function.update_self]
    · rw [if_neg hz] at hint hlist hio
      refine ⟨?_, ?_, ?_, ?_, ?_, ?_⟩
      · rw [hlist, hio, h.listening, hev]
        rfl
      · rw [hint, hio, Function.update_self]
        rfl
      · intro ev' hsome
        obtain rfl := Option.some.inj (hio.symm.trans hsome)
        exact hz
      · intro ev' hsome
        obtain rfl := Option.some.inj (hio.symm.trans hsome)
        exact and_not_and_eq_zero (h.bits ev hev)
      · intro ev' hsome hin
        obtain rfl := Option.some.inj (hio.symm.trans hsome)
        rw [hadds]
        exact h.reads ev hev (and_not_and_ne_zero hin)
      · intro ev' hsome hout
        obtain rfl := Option.some.inj (hio.symm.trans hsome)
        rw [hadds]
        exact h.writes ev hev (and_not_and_ne_zero hout)

/-! ## One call, and any calls -/

/-- A call changes nothing of another descriptor, and its `epoll_ctl` succeeds. -/
theorem AgreesAt.frame {c : IoCall κ} (h : AgreesAt calls l c.fd) :
    (∀ e, e ≠ c.fd → (l.call c).ioEvs e = l.ioEvs e ∧ (l.call c).listening e = l.listening e ∧
      (l.call c).interest e = l.interest e) ∧ (l.call c).ctlErrors = l.ctlErrors := by
  cases c with
  | addIoev fd proc mask args =>
    obtain ⟨hint, hlist, herr⟩ := addIoev_kernel h.interest proc mask args
    refine ⟨fun e he => ⟨?_, ?_, ?_⟩, herr⟩
    · exact (congrFun (l.addIoev_eq_addedEv fd proc mask args) e).trans
        (Function.update_of_ne he _ _)
    · exact (congrFun hlist e).trans (Function.update_of_ne he _ _)
    · exact (congrFun hint e).trans (Function.update_of_ne he _ _)
  | delIoevMask fd mask =>
    show (∀ e, e ≠ fd → (l.delIoevMask fd mask).ioEvs e = l.ioEvs e ∧
      (l.delIoevMask fd mask).listening e = l.listening e ∧
      (l.delIoevMask fd mask).interest e = l.interest e) ∧
      (l.delIoevMask fd mask).ctlErrors = l.ctlErrors
    cases hev : l.ioEvs fd with
    | none =>
      rw [delIoevMask_none hev]
      exact ⟨fun e _ => ⟨rfl, rfl, rfl⟩, rfl⟩
    | some ev =>
      have hmask : l.interest fd = some ev.mask := by
        rw [show l.interest fd = _ from h.interest]
        exact congrArg _ hev
      obtain ⟨hint, hlist, herr⟩ := delIoevMask_kernel hev hmask mask
      refine ⟨fun e he => ⟨?_, ?_, ?_⟩, herr⟩
      · rw [delIoevMask_some hev, Function.update_of_ne he]
      · rw [hlist]
        split
        · exact Function.update_of_ne he _ _
        · rfl
      · rw [hint, Function.update_of_ne he]
  | delIoev fd =>
    exact ⟨fun e he => ⟨Function.update_of_ne he _ _, Function.update_of_ne he _ _,
      Function.update_of_ne he _ _⟩, rfl⟩

/-- Every call keeps the agreement. -/
theorem Agrees.call (h : Agrees calls l) {c : IoCall κ} (hc : c.OneEvent) :
    Agrees (calls ++ [c]) (l.call c) := by
  obtain ⟨hframe, herr⟩ := (h.each c.fd).frame
  refine ⟨fun fd => ?_, herr.trans h.ctlErrors⟩
  by_cases hfd : fd = c.fd
  · subst hfd
    have hat := h.each c.fd
    cases c with
    | addIoev fd proc mask args => exact hat.addIoev hc
    | delIoevMask fd mask => exact hat.delIoevMask mask
    | delIoev fd =>
      exact AgreesAt.of_none (Function.update_self ..) (Function.update_self ..)
        (Function.update_self ..)
  · obtain ⟨hev, hlist, hint⟩ := hframe fd hfd
    exact (h.each fd).other hfd hev hlist hint

theorem Agrees.foldl_call (h : Agrees calls l) :
    ∀ {more : List (IoCall κ)}, (∀ c ∈ more, c.OneEvent) →
      Agrees (calls ++ more) (more.foldl EventLoop.call l) := by
  intro more
  induction more generalizing calls l with
  | nil =>
    intro _
    rw [List.append_nil]
    exact h
  | cons c more ih =>
    intro hall
    have hstep := h.call (hall c List.mem_cons_self)
    have hrest := ih hstep fun c' hc' => hall c' (List.mem_cons_of_mem c hc')
    rw [List.append_assoc] at hrest
    exact hrest

theorem agrees_empty : Agrees [] (empty κ) :=
  ⟨fun _ => AgreesAt.of_none rfl rfl rfl, rfl⟩

/-- After any calls on a new loop the three views agree, and no `epoll_ctl` failed. -/
theorem registrations_agree (notifier : Int) (timerqueueCb : κ) (timerQue : Ptr)
    (calls : List (IoCall κ)) (hcalls : ∀ c ∈ calls, c.OneEvent) :
    Agrees (.addIoev notifier timerqueueCb epollIn timerQue :: calls)
      (calls.foldl EventLoop.call (new notifier timerqueueCb timerQue)) := by
  have hnew : Agrees [.addIoev notifier timerqueueCb epollIn timerQue]
      (new notifier timerqueueCb timerQue) := agrees_empty.call (.inl rfl)
  exact hnew.foldl_call hcalls

/-- Writing is given up, then taken up again with another callback. -/
theorem registrations_agree_again :
    Agrees [.addIoev 5 0 epollIn none, .addIoev 7 1 epollIn (some 3),
        .addIoev 7 2 epollOut (some 3), .delIoevMask 7 epollOut, .addIoev 7 4 epollOut (some 6)]
      ([.addIoev 7 1 epollIn (some 3), .addIoev 7 2 epollOut (some 3), .delIoevMask 7 epollOut,
        .addIoev 7 4 epollOut (some 6)].foldl EventLoop.call (new 5 0 none)) := by
  refine registrations_agree 5 0 none _ fun c hc => ?_
  simp only [List.mem_cons, List.not_mem_nil, or_false] at hc
  rcases hc with rfl | rfl | rfl | rfl
  · exact .inl rfl
  · exact .inr rfl
  · trivial
  · exact .inr rfl

end EventLoop

end EasyReactor.Loop
