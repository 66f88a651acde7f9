import EasyReactor.Timer.Notifier

set_option autoImplicit false

/-!
# Loop: timers and the batch

`epoll_wait` decides at one moment whether the timerfd is in the batch; when
`timerqueue_cb` runs, callbacks earlier in the batch may have changed the queue.
`get_timo` does not look at the clock: it delivers what expires at `_pioneer`.
That is early only when `_pioneer` has moved to a *later* time since `epoll_wait`,
and of the calls a callback can make only the `del_timer` that empties the queue
moves it there.
-/

namespace EasyReactor.Loop

open EasyReactor.Foundation EasyReactor.Timer

variable {κ δ : Type}

/-! ## The timer calls of `event_loop` -/

/-- `struct timespec`, as `clock_gettime(CLOCK_REALTIME)` fills it. -/
structure Timespec where
  tvSec : Nat
  tvNsec : Nat

/-- `tpc.tv_sec * 1000 + tpc.tv_nsec / 1000000UL` -/
def Timespec.millis (tpc : Timespec) : UInt64 :=
  UInt64.ofNat (tpc.tvSec * 1000 + tpc.tvNsec / 1000000)

/-- `sec * 1000 + millis` -/
def delayMillis (sec millis : Int32) : Except Fault Int := do
  let ms ← intResult (sec.toInt * 1000)
  intResult (ms + millis.toInt)

/-- `timer_event(timo_cb, data, arg_ts, arg_int)`; `timer_id` is left to `add_timer`. -/
def timerEvent (cb : κ) (data : δ) (ts : UInt64) (interval : UInt32) : TimerEvent κ δ :=
  ⟨cb, data, ts, interval, 0⟩

/-- `event_loop::run_at` -/
def runAt (q : TimerQueue κ δ) (cb : κ) (args : δ) (ts : UInt64) :
    Except Fault (Int32 × TimerQueue κ δ) :=
  q.addTimer (timerEvent cb args ts 0)

/-- `event_loop::run_after` -/
def runAfter (q : TimerQueue κ δ) (cb : κ) (args : δ) (sec millis : Int32) (tpc : Timespec) :
    Except Fault (Int32 × TimerQueue κ δ) := do
  let delay ← delayMillis sec millis
  q.addTimer (timerEvent cb args (tpc.millis + UInt64.ofInt delay) 0)

/-- `event_loop::run_every` -/
def runEvery (q : TimerQueue κ δ) (cb : κ) (args : δ) (sec millis : Int32) (tpc : Timespec) :
    Except Fault (Int32 × TimerQueue κ δ) := do
  let delay ← delayMillis sec millis
  let interval := UInt32.ofInt delay
  q.addTimer (timerEvent cb args (tpc.millis + interval.toUInt64) interval)

/-- What a callback can call on the loop about timers, with what the clock reads then. -/
inductive TimerCall (κ δ : Type) where
  | runAt (cb : κ) (args : δ) (ts : UInt64)
  | runAfter (cb : κ) (args : δ) (sec millis : Int32) (tpc : Timespec)
  | runEvery (cb : κ) (args : δ) (sec millis : Int32) (tpc : Timespec)
  | delTimer (id : Int32)

/-! ## The loop, seen from the timerfd -/

/-- What happens in an event loop, as far as timers go. -/
inductive LoopEvent (κ δ : Type) where
  /-- `epoll_wait` returns, at time `now` in nanoseconds; a batch begins -/
  | epollWait (now : Nat)
  /-- a callback of the batch, of an fd or of a timer, makes a call -/
  | call (c : TimerCall κ δ)
  /-- the timerfd's turn in the batch: `timerqueue_cb` -/
  | timerqueueCb

/-- A loop with the history of its timers. -/
structure TimedLoop (κ δ : Type) where
  queue : TimerQueue κ δ
  issued : Nat
  /-- the time of the last `epoll_wait` -/
  now : Nat
  /-- the timerfd had expired then, and `timerqueue_cb` has not run since -/
  ready : Bool
  /-- a `del_timer` since then has left no timer -/
  emptied : Bool
  /-- what `timerqueue_cb` has passed to callbacks, with the time of its batch -/
  fired : List (Nat × TimerEvent κ δ)

namespace TimedLoop

def start : TimedLoop κ δ := ⟨.empty, 0, 0, false, false, []⟩

/-- The loop after an `add_timer` that returned `added`. -/
def withAdded (s : TimedLoop κ δ) (added : Int32 × TimerQueue κ δ) : TimedLoop κ δ :=
  { s with queue := added.2, issued := s.issued + 1 }

def call (s : TimedLoop κ δ) : TimerCall κ δ → Except Fault (TimedLoop κ δ)
  | .runAt cb args ts => s.withAdded <$> runAt s.queue cb args ts
  | .runAfter cb args sec millis tpc => s.withAdded <$> runAfter s.queue cb args sec millis tpc
  | .runEvery cb args sec millis tpc => s.withAdded <$> runEvery s.queue cb args sec millis tpc
  | .delTimer id => do
    let q ← s.queue.delTimer id
    .ok { s with queue := q, emptied := s.emptied || q.count == 0 }

/-- The timerfd has expired at time `now`. -/
def expired (v : ItValue) (now : Nat) : Bool :=
  match v.expires with
  | none => false
  | some t => t ≤ now

/-- The timerfd is never read, so it stays ready until it is set again. -/
def step (s : TimedLoop κ δ) : LoopEvent κ δ → Except Fault (TimedLoop κ δ)
  | .epollWait now =>
    .ok { s with now := now, ready := expired s.queue.itValue now, emptied := false }
  | .call c => s.call c
  | .timerqueueCb =>
    if s.ready then do
      let (evs, q) ← s.queue.getTimo []
      .ok
        { s with
          queue := q
          issued := s.issued + (TimerQueue.reused evs).length
          ready := false
          fired := s.fired ++ evs.map fun te => (s.now, te) }
    else .ok s

def run (evs : List (LoopEvent κ δ)) : Except Fault (TimedLoop κ δ) := evs.foldlM step start

/-! ## What a call does -/

open TimerQueue

/-- `sec * 1000 + millis` does not overflow. -/
def Defined : TimerCall κ δ → Prop
  | .runAfter _ _ sec millis _ => ∃ d, delayMillis sec millis = .ok d
  | .runEvery _ _ sec millis _ => ∃ d, delayMillis sec millis = .ok d
  | _ => True

/-- A call adds one timer or is a `del_timer`, on the queue as it is. -/
theorem call_cases {s s' : TimedLoop κ δ} {c : TimerCall κ δ} (h : s.call c = .ok s') :
    (∃ te added, s.queue.addTimer te = .ok added ∧ s' = s.withAdded added) ∨
      ∃ id q, s.queue.delTimer id = .ok q ∧
        s' = { s with queue := q, emptied := s.emptied || q.count == 0 } := by
  have hadd : ∀ {x : Except Fault (Int32 × TimerQueue κ δ)}, s.withAdded <$> x = .ok s' →
      ∃ added, x = .ok added ∧ s' = s.withAdded added := by
    intro x hx
    cases x with
    | error f => cases hx
    | ok added => exact ⟨added, rfl, (Except.ok.inj hx).symm⟩
  cases c with
  | runAt cb args ts =>
    obtain ⟨added, hx, hs'⟩ := hadd h
    exact .inl ⟨_, added, hx, hs'⟩
  | runAfter cb args sec millis tpc =>
    obtain ⟨added, hx, hs'⟩ := hadd h
    obtain ⟨d, _, hx⟩ := bind_eq_ok.mp hx
    exact .inl ⟨_, added, hx, hs'⟩
  | runEvery cb args sec millis tpc =>
    obtain ⟨added, hx, hs'⟩ := hadd h
    obtain ⟨d, _, hx⟩ := bind_eq_ok.mp hx
    exact .inl ⟨_, added, hx, hs'⟩
  | delTimer id =>
    obtain ⟨q, hq, hs'⟩ := bind_eq_ok.mp h
    exact .inr ⟨id, q, hq, (Except.ok.inj hs').symm⟩

/-- A call without `int` overflow returns. -/
theorem call_returns {s : TimedLoop κ δ} (hinv : Inv s.issued s.queue) {c : TimerCall κ δ}
    (hc : Defined c) : ∃ s', s.call c = .ok s' := by
  have hadd : ∀ te, ∃ s', s.withAdded <$> s.queue.addTimer te = .ok s' := by
    intro te
    obtain ⟨q, hq, _⟩ := addTimer_spec hinv te
    exact ⟨_, by rw [hq]; rfl⟩
  cases c with
  | runAt cb args ts => exact hadd _
  | runAfter cb args sec millis tpc =>
    obtain ⟨d, hd⟩ := hc
    obtain ⟨s', hs'⟩ := hadd (timerEvent cb args (tpc.millis + UInt64.ofInt d) 0)
    refine ⟨s', ?_⟩
    rw [call, runAfter, hd, ok_bind, hs']
  | runEvery cb args sec millis tpc =>
    obtain ⟨d, hd⟩ := hc
    obtain ⟨s', hs'⟩ := hadd (timerEvent cb args (tpc.millis + (UInt32.ofInt d).toUInt64)
      (UInt32.ofInt d))
    refine ⟨s', ?_⟩
    rw [call, runEvery, hd, ok_bind, hs']
  | delTimer id =>
    rcases delTimer_spec hinv id with ⟨_, hdel⟩ | ⟨_, _, _, q, _, _, _, _, _, hdel, _, _⟩
    · exact ⟨_, by rw [call, hdel, ok_bind]⟩
    · exact ⟨_, by rw [call, hdel, ok_bind]⟩

/-! ## No timer fires early -/

/-- A delivery is not before its time. -/
def OnTime (d : Nat × TimerEvent κ δ) : Prop := d.2.ts.toNat * 1000000 ≤ d.1

/-- When `timerqueue_cb` runs in a batch in which a `del_timer` left no timer, the heap
top is not what the timerfd is armed for now, or has expired too. -/
def Timely (s : TimedLoop κ δ) : LoopEvent κ δ → Prop
  | .timerqueueCb => s.ready = true → s.emptied = true →
      ∀ top ∈ s.queue.eventLst[0]?, top.ts = s.queue.pioneer → top.ts.toNat * 1000000 ≤ s.now
  | _ => True

instance (s : TimedLoop κ δ) (ev : LoopEvent κ δ) : Decidable (Timely s ev) :=
  match ev with
  | .timerqueueCb => inferInstanceAs (Decidable (_ → _ → ∀ top ∈ s.queue.eventLst[0]?, _))
  | .epollWait _ => .isTrue trivial
  | .call _ => .isTrue trivial

/-- The timerfd is set to `_pioneer`; while it waits for its turn in the batch,
`_pioneer` is still no later than the time of the batch, unless the queue has been
emptied since. -/
structure TimedInv (s : TimedLoop κ δ) : Prop where
  inv : Inv s.issued s.queue
  armed : Armed s.queue
  early : s.ready = true → s.emptied = false → s.queue.pioneer.toNat * 1000000 ≤ s.now

theorem start_timedInv : TimedInv (start : TimedLoop κ δ) where
  inv := inv_empty
  armed := rfl
  early h := by cases h

theorem expired_timo {p : UInt64} {now : Nat} (h : expired (timo p) now = true) :
    p.toNat * 1000000 ≤ now := by
  unfold expired at h
  rw [expires_timo] at h
  split at h
  · cases h
  · rename_i t ht
    split at ht
    · cases ht
    · obtain rfl := Option.some.inj ht
      exact of_decide_eq_true h

/-- A queue re-armed for an earlier top is armed no later. -/
theorem early_of_armsEarlier {q q' : TimerQueue κ δ} {top : TimerEvent κ δ}
    (harm : ArmsEarlier q q' top) {now : Nat} (h : q.pioneer.toNat * 1000000 ≤ now) :
    q'.pioneer.toNat * 1000000 ≤ now :=
  Nat.le_trans (Nat.mul_le_mul_right _ (UInt64.le_iff_toNat_le.mp harm.le_pioneer)) h

theorem call_timedInv {s s' : TimedLoop κ δ} (h : TimedInv s) {c : TimerCall κ δ}
    (hcall : s.call c = .ok s') : TimedInv s' := by
  rcases call_cases hcall with ⟨te, added, hadd, rfl⟩ | ⟨id, q, hdel, rfl⟩
  · obtain ⟨q', hq', hinv', _⟩ := addTimer_spec h.inv te
    obtain rfl := Except.ok.inj (hadd.symm.trans hq')
    obtain ⟨top, harm⟩ := addTimer_arms h.inv.indexed hadd
    exact ⟨hinv', harm.armed h.armed,
      fun hready hemptied => early_of_armsEarlier harm (h.early hready hemptied)⟩
  · have hinv' : Inv s.issued q := by
      rcases delTimer_spec h.inv id with ⟨_, hno⟩ | ⟨_, _, _, q', _, _, _, _, _, hq', _, hinv'⟩
      · obtain rfl := Except.ok.inj (hdel.symm.trans hno)
        exact h.inv
      · obtain rfl := Except.ok.inj (hdel.symm.trans hq')
        exact hinv'
    rcases delTimer_arms h.inv hdel with rfl | ⟨hnil, _, harmed⟩ | ⟨top, harm⟩
    · refine ⟨hinv', h.armed, fun hready hemptied => h.early hready ?_⟩
      exact (Bool.or_eq_false_iff.mp hemptied).1
    · -- the last timer is gone, and with it the bound
      refine ⟨hinv', harmed, fun _ hemptied => ?_⟩
      have h0 : q.count = 0 := by rw [hinv'.indexed.size, hnil]; rfl
      have hne := (Bool.or_eq_false_iff.mp hemptied).2
      rw [h0] at hne
      cases hne
    · refine ⟨hinv', harm.armed h.armed, fun hready hemptied => ?_⟩
      exact early_of_armsEarlier harm (h.early hready (Bool.or_eq_false_iff.mp hemptied).1)

theorem timerqueueCb_ready {s s' : TimedLoop κ δ} (hready : s.ready = true)
    (hstep : s.step .timerqueueCb = .ok s') :
    ∃ evs q, s.queue.getTimo [] = .ok (evs, q) ∧
      s' = { s with
        queue := q
        issued := s.issued + (reused evs).length
        ready := false
        fired := s.fired ++ evs.map fun te => (s.now, te) } := by
  simp only [step, if_pos hready] at hstep
  obtain ⟨⟨evs, q⟩, hget, hs'⟩ := bind_eq_ok.mp hstep
  exact ⟨evs, q, hget, (Except.ok.inj hs').symm⟩

theorem timerqueueCb_idle {s s' : TimedLoop κ δ} (hready : s.ready = false)
    (hstep : s.step .timerqueueCb = .ok s') : s' = s := by
  simp only [step, hready, Bool.false_eq_true, if_false] at hstep
  exact (Except.ok.inj hstep).symm

theorem step_timedInv {s s' : TimedLoop κ δ} (h : TimedInv s) {ev : LoopEvent κ δ}
    (hstep : s.step ev = .ok s') : TimedInv s' := by
  cases ev with
  | epollWait now =>
    obtain rfl := Except.ok.inj hstep
    refine ⟨h.inv, h.armed, fun hready _ => expired_timo ?_⟩
    rw [← h.armed]
    exact hready
  | call c => exact call_timedInv h hstep
  | timerqueueCb =>
    cases hready : s.ready with
    | false =>
      obtain rfl := timerqueueCb_idle hready hstep
      exact h
    | true =>
      obtain ⟨evs, q, hget, rfl⟩ := timerqueueCb_ready hready hstep
      obtain ⟨evs', _, q', hget', hinv', _⟩ := getTimo_spec h.inv []
      obtain ⟨rfl, rfl⟩ := Prod.mk.inj (Except.ok.inj (hget.symm.trans hget'))
      exact ⟨hinv', (getTimo_arms h.inv hget).1, fun hready => by cases hready⟩

/-- A step delivers on time exactly when it is timely. -/
theorem step_onTime_iff {s s' : TimedLoop κ δ} (h : TimedInv s) {ev : LoopEvent κ δ}
    (hstep : s.step ev = .ok s') :
    (∀ d ∈ s'.fired, OnTime d) ↔ (∀ d ∈ s.fired, OnTime d) ∧ Timely s ev := by
  cases ev with
  | epollWait now =>
    obtain rfl := Except.ok.inj hstep
    exact (and_iff_left trivial).symm
  | call c =>
    rcases call_cases hstep with ⟨_, _, _, rfl⟩ | ⟨_, _, _, rfl⟩
    · exact (and_iff_left trivial).symm
    · exact (and_iff_left trivial).symm
  | timerqueueCb =>
    cases hready : s.ready with
    | false =>
      obtain rfl := timerqueueCb_idle hready hstep
      refine ⟨fun hs => ⟨hs, fun hr => ?_⟩, fun hs => hs.1⟩
      rw [hready] at hr
      cases hr
    | true =>
      obtain ⟨evs, q, hget, rfl⟩ := timerqueueCb_ready hready hstep
      simp only [List.mem_append, or_imp, forall_and]
      refine and_congr_right fun _ => ?_
      rcases getTimo_top h.inv hget with ⟨rfl, hnone⟩ | ⟨top, htop, hts, hmem⟩
      · refine ⟨fun _ _ _ top htop hts => absurd hts (hnone top htop), fun _ d hd => ?_⟩
        cases hd
      · constructor
        · intro hall _ _ top' htop' _
          obtain rfl := Option.some.inj (htop.symm.trans htop')
          exact hall (s.now, top) (List.mem_map_of_mem hmem)
        · -- everything delivered expires with the top
          intro htimely d hd
          obtain ⟨te, hte, rfl⟩ := List.mem_map.mp hd
          have hdue : te.ts = s.queue.pioneer := by
            rcases getTimo_due h.inv hget te hte with hnil | hdue
            · cases hnil
            · exact hdue
          show te.ts.toNat * 1000000 ≤ s.now
          rw [hdue]
          cases hemptied : s.emptied with
          | false => exact h.early hready hemptied
          | true =>
            rw [← hts]
            exact htimely hready hemptied top htop hts

theorem foldlM_onTime_iff : ∀ (evs : List (LoopEvent κ δ)) {s s' : TimedLoop κ δ}, TimedInv s →
    evs.foldlM step s = .ok s' →
    ((∀ d ∈ s'.fired, OnTime d) ↔ (∀ d ∈ s.fired, OnTime d) ∧ Meets step Timely s evs) := by
  intro evs
  induction evs with
  | nil =>
    intro s s' _ hrun
    obtain rfl := Except.ok.inj hrun
    exact (and_iff_left trivial).symm
  | cons ev evs ih =>
    intro s s' h hrun
    rw [List.foldlM_cons] at hrun
    obtain ⟨s₁, hstep, hrun⟩ := bind_eq_ok.mp hrun
    rw [ih (step_timedInv h hstep) hrun, step_onTime_iff h hstep, and_assoc]
    simp only [Meets, hstep]

/-- **No timer fires before its time**, in a run that returns, exactly when every
`timerqueue_cb` of the run is timely. -/
theorem on_time_iff_timely (evs : List (LoopEvent κ δ)) {s : TimedLoop κ δ}
    (hrun : run evs = .ok s) : (∀ d ∈ s.fired, OnTime d) ↔ Meets step Timely start evs := by
  rw [foldlM_onTime_iff evs start_timedInv hrun]
  refine and_iff_right fun d hd => ?_
  cases hd

/-- A run whose calls do not overflow an `int` returns. -/
theorem run_returns (evs : List (LoopEvent κ δ)) (hdef : ∀ c, .call c ∈ evs → Defined c) :
    ∃ s, run evs = .ok s := by
  suffices h : Ends (run evs) (fun s => TimedInv s) (fun _ => False) by
    cases hrun : run evs with
    | ok s => exact ⟨s, rfl⟩
    | error f => exact absurd (h.of_error hrun) id
  refine Ends.foldlM (P := fun _ s => TimedInv s) ?_ start_timedInv
  intro done ev post s hevs hs
  have hret : ∃ s', s.step ev = .ok s' := by
    cases ev with
    | epollWait now => exact ⟨_, rfl⟩
    | call c => exact call_returns hs.inv (hdef c (by rw [hevs]; simp))
    | timerqueueCb =>
      simp only [step]
      split
      · obtain ⟨evs, _, q, hget, _⟩ := getTimo_spec hs.inv []
        exact ⟨_, by rw [hget, ok_bind]⟩
      · exact ⟨s, rfl⟩
  obtain ⟨s', hs'⟩ := hret
  rw [hs']
  exact step_timedInv hs hs'

/-- At 6 ms the timer at 5 ms has expired; before `timerqueue_cb` has its turn another
callback replaces it by one at `ts` ms. -/
def renewal (ts : UInt64) : List (LoopEvent Unit Unit) :=
  [.call (.runAt () () 5), .epollWait 6000000, .call (.delTimer 0), .call (.runAt () () ts),
    .timerqueueCb]

theorem on_time_renewal : ∃ s, run (renewal 4) = .ok s ∧ ∀ d ∈ s.fired, OnTime d := by
  obtain ⟨s, hrun⟩ := run_returns (renewal 4) (fun c hc => by
    cases c with
    | runAt cb args ts => trivial
    | delTimer id => trivial
    | runAfter => simp [renewal] at hc
    | runEvery => simp [renewal] at hc)
  have htimely : Meets step Timely start (renewal 4) := by decide +kernel
  exact ⟨s, hrun, (on_time_iff_timely (renewal 4) hrun).mpr htimely⟩

/-- The timer at 100 ms fires at 6 ms. -/
theorem early_renewal :
    ¬ ∀ (evs : List (LoopEvent Unit Unit)) (s : TimedLoop Unit Unit), run evs = .ok s →
      ∀ d ∈ s.fired, OnTime d := by
  intro hall
  have hobs : (run (renewal 100)).toOption.map (fun s => s.fired.map fun d => (d.1, d.2.ts)) =
      some [(6000000, 100)] := by decide +kernel
  obtain ⟨s, hrun, hobs⟩ := ok_of_observed hobs
  obtain ⟨d, hd, hts⟩ := List.mem_map.mp (hobs ▸ List.mem_singleton.mpr rfl :
    ((6000000, 100) : Nat × UInt64) ∈ s.fired.map fun d => (d.1, d.2.ts))
  have hlate := hall _ s hrun d hd
  unfold OnTime at hlate
  obtain ⟨hnow, hts⟩ := Prod.mk.inj hts
  rw [hnow, hts] at hlate
  exact absurd hlate (by decide)

end TimedLoop

end EasyReactor.Loop
