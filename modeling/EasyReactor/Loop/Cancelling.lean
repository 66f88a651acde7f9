import EasyReactor.Loop.Timing
import EasyReactor.Timer.Expiry

set_option autoImplicit false

/-!
# Loop: cancelling within one expiry

`timerqueue_cb` first lets `get_timo` take the whole batch of simultaneous timers out
of the queue, as copies, and then invokes their callbacks one by one.  A `del_timer`
that one of them makes for a timer further on in the batch finds it gone, or finds
only its next period, and never reaches the copy.
-/

namespace EasyReactor.Loop

open EasyReactor.Foundation EasyReactor.Timer TimerQueue

deriving instance DecidableEq for Timespec, TimerCall

variable {κ δ : Type}

/-- One timer call of a callback, on the queue of its loop. -/
def makeCall (q : TimerQueue κ δ) : TimerCall κ δ → Except Fault (TimerQueue κ δ)
  | .runAt cb args ts => Prod.snd <$> runAt q cb args ts
  | .runAfter cb args sec millis tpc => Prod.snd <$> runAfter q cb args sec millis tpc
  | .runEvery cb args sec millis tpc => Prod.snd <$> runEvery q cb args sec millis tpc
  | .delTimer id => q.delTimer id

/-- What happens during `timerqueue_cb`. -/
inductive PassEvent (κ δ : Type) where
  /-- `it->cb(loop, it->cb_data)`, for the timer at place `i` of `fired_evs` -/
  | invoked (i : Nat) (te : TimerEvent κ δ)
  /-- the callback that was last invoked makes a call -/
  | called (c : TimerCall κ δ)
  deriving DecidableEq

section Pass

/- `calls i` is what the callback of the timer at place `i` of the batch calls. -/
variable (calls : Nat → List (TimerCall κ δ))

/-- The `for` loop of `timerqueue_cb`, from place `i` on. -/
def invokeAll : Nat → List (TimerEvent κ δ) → TimerQueue κ δ →
    Except Fault (List (PassEvent κ δ) × TimerQueue κ δ)
  | _, [], q => .ok ([], q)
  | i, te :: rest, q => do
    let q ← (calls i).foldlM makeCall q
    let (trace, q) ← invokeAll (i + 1) rest q
    .ok (.invoked i te :: (calls i).map .called ++ trace, q)

/-- `timerqueue_cb`: what happened, and the queue afterwards. -/
def timerqueueCb (q : TimerQueue κ δ) :
    Except Fault (List (PassEvent κ δ) × TimerQueue κ δ) := do
  let (firedEvs, q) ← q.getTimo []
  invokeAll calls 0 firedEvs q

/-- Once the timer at place `j` is cancelled with `returned j`, the id that was returned
for it, and its callback has not been invoked yet, it is not invoked any more. -/
def NotRunAfterCancel (returned : Nat → Int32) (trace : List (PassEvent κ δ)) : Prop :=
  ∀ (j : Nat) (pre post : List (PassEvent κ δ)),
    trace = pre ++ .called (.delTimer (returned j)) :: post →
    (∀ te, .invoked j te ∉ pre) → ∀ te, .invoked j te ∉ post

/-- No callback of a batch of `n` cancels a timer further on in it. -/
def NoneCancelsLater (returned : Nat → Int32) (n : Nat) : Prop :=
  ∀ i j, i < j → j < n → .delTimer (returned j) ∉ calls i

/-! ## What happens, whatever the queue does -/

/-- The events of the `for` loop. -/
def passTrace : Nat → List (TimerEvent κ δ) → List (PassEvent κ δ)
  | _, [] => []
  | i, te :: rest => .invoked i te :: (calls i).map .called ++ passTrace (i + 1) rest

variable {calls}

theorem invokeAll_trace {i : Nat} {batch : List (TimerEvent κ δ)} {q q' : TimerQueue κ δ}
    {trace : List (PassEvent κ δ)} (h : invokeAll calls i batch q = .ok (trace, q')) :
    trace = passTrace calls i batch := by
  induction batch generalizing i q q' trace with
  | nil =>
    obtain ⟨rfl, _⟩ := Prod.mk.inj (Except.ok.inj h)
    rfl
  | cons te rest ih =>
    obtain ⟨q₁, _, h⟩ := bind_eq_ok.mp h
    obtain ⟨⟨tr, q₂⟩, hrest, h⟩ := bind_eq_ok.mp h
    obtain ⟨rfl, _⟩ := Prod.mk.inj (Except.ok.inj h)
    rw [passTrace, ih hrest]

theorem passTrace_append (i : Nat) (a b : List (TimerEvent κ δ)) :
    passTrace calls i (a ++ b) = passTrace calls i a ++ passTrace calls (i + a.length) b := by
  induction a generalizing i with
  | nil => simp [passTrace]
  | cons te rest ih =>
    rw [List.cons_append, passTrace, ih, passTrace, List.append_assoc, List.length_cons,
      Nat.add_right_comm, Nat.add_assoc i]

/-- Every callback is invoked at its own place. -/
theorem invoked_mem_passTrace {i j : Nat} {te : TimerEvent κ δ} {batch : List (TimerEvent κ δ)} :
    .invoked j te ∈ passTrace calls i batch ↔ ∃ k, j = i + k ∧ batch[k]? = some te := by
  induction batch generalizing i with
  | nil => simp [passTrace]
  | cons t rest ih =>
    simp only [passTrace, List.cons_append, List.mem_cons, List.mem_append, List.mem_map, ih]
    constructor
    · rintro (h | ⟨c, _, hc⟩ | ⟨k, rfl, hk⟩)
      · obtain ⟨rfl, rfl⟩ := PassEvent.invoked.inj h
        exact ⟨0, rfl, rfl⟩
      · cases hc
      · exact ⟨k + 1, by omega, hk⟩
    · rintro ⟨k, rfl, hk⟩
      cases k with
      | zero =>
        obtain rfl := Option.some.inj hk
        exact .inl rfl
      | succ k => exact .inr (.inr ⟨k, by omega, hk⟩)

/-- A call is made by the callback at one place, and only later places come after it. -/
theorem passTrace_split {i : Nat} {batch : List (TimerEvent κ δ)} {c : TimerCall κ δ}
    {pre post : List (PassEvent κ δ)} (h : passTrace calls i batch = pre ++ .called c :: post) :
    ∃ k, c ∈ calls (i + k) ∧
      ∀ j te, .invoked j te ∈ post → i + k < j ∧ j < i + batch.length := by
  induction batch generalizing i pre with
  | nil => simp [passTrace] at h
  | cons t rest ih =>
    cases pre with
    | nil => cases (List.cons.inj h).1
    | cons e pre =>
      have htail : (calls i).map .called ++ passTrace calls (i + 1) rest =
          pre ++ .called c :: post := (List.cons.inj h).2
      have later : ∀ pre', passTrace calls (i + 1) rest = pre' ++ .called c :: post →
          ∃ k, c ∈ calls (i + k) ∧
            ∀ j te, .invoked j te ∈ post → i + k < j ∧ j < i + (t :: rest).length := by
        intro pre' hpre'
        obtain ⟨k, hk, hpost⟩ := ih hpre'
        refine ⟨1 + k, by rwa [← Nat.add_assoc], fun j te hj => ?_⟩
        have := hpost j te hj
        rw [List.length_cons]
        omega
      rcases List.append_eq_append_iff.mp htail with ⟨a, _, ha⟩ | ⟨a, ha, hpost⟩
      · exact later _ ha
      · cases a with
        | nil => exact later [] hpost.symm
        | cons e' a =>
          -- the call is one of the callback at place `i`
          obtain ⟨rfl, rfl⟩ := List.cons.inj hpost
          have hc : PassEvent.called c ∈ (calls i).map (PassEvent.called (κ := κ) (δ := δ)) := by
            rw [ha]
            simp
          obtain ⟨c', hc', hceq⟩ := List.mem_map.mp hc
          obtain rfl := PassEvent.called.inj hceq
          refine ⟨0, hc', fun j te hj => ?_⟩
          rcases List.mem_append.mp hj with hold | hnew
          · have hmem : PassEvent.invoked j te ∈
                (calls i).map (PassEvent.called (κ := κ) (δ := δ)) := by
              rw [ha]
              simp [hold]
            obtain ⟨_, _, hcall⟩ := List.mem_map.mp hmem
            cases hcall
          · obtain ⟨k, rfl, hk⟩ := invoked_mem_passTrace.mp hnew
            have := (List.getElem?_eq_some_iff.mp hk).1
            rw [List.length_cons]
            omega

/-- Every callback of the batch is invoked, so a cancelled one is too. -/
theorem notRunAfterCancel_iff (returned : Nat → Int32) (batch : List (TimerEvent κ δ)) :
    NotRunAfterCancel returned (passTrace calls 0 batch) ↔
      NoneCancelsLater calls returned batch.length := by
  constructor
  · intro hnot i j hij hj hcancel
    obtain ⟨c₁, c₂, hcalls⟩ := List.append_of_mem hcancel
    obtain ⟨a, ti, b, hbatch, hlen⟩ : ∃ a ti b, batch = a ++ ti :: b ∧ a.length = i :=
      ⟨batch.take i, batch[i], batch.drop (i + 1), by
        rw [List.getElem_cons_drop, List.take_append_drop], by
        rw [List.length_take]
        omega⟩
    have htrace : passTrace calls 0 batch =
        (passTrace calls 0 a ++ .invoked i ti :: c₁.map .called) ++
          .called (.delTimer (returned j)) :: (c₂.map .called ++ passTrace calls (i + 1) b) := by
      rw [hbatch, passTrace_append, hlen, Nat.zero_add, passTrace, hcalls]
      simp
    obtain ⟨tj, htj⟩ : ∃ tj, batch[j]? = some tj := ⟨_, List.getElem?_eq_getElem hj⟩
    refine hnot j _ _ htrace (fun te hmem => ?_) tj ?_
    · -- up to the call only the places up to `i` are invoked
      rcases List.mem_append.mp hmem with hold | hlast
      · obtain ⟨k, rfl, hk⟩ := invoked_mem_passTrace.mp hold
        have := (List.getElem?_eq_some_iff.mp hk).1
        omega
      · rcases List.mem_cons.mp hlast with heq | hcall
        · have := (PassEvent.invoked.inj heq).1
          omega
        · obtain ⟨_, _, hcall⟩ := List.mem_map.mp hcall
          cases hcall
    · refine List.mem_append_right _ (invoked_mem_passTrace.mpr ⟨j - (i + 1), by omega, ?_⟩)
      rw [hbatch, List.getElem?_append_right (by omega), hlen] at htj
      rwa [show j - i = j - (i + 1) + 1 from by omega, List.getElem?_cons_succ] at htj
  · intro hnone j pre post htrace _ te hpost
    obtain ⟨k, hk, hlater⟩ := passTrace_split htrace
    have := hlater j te hpost
    exact hnone (0 + k) j this.1 (by omega) hk

end Pass

/-! ## The pass -/

theorem makeCall_returns {q : TimerQueue κ δ} (h : Indexed q) {c : TimerCall κ δ}
    (hc : TimedLoop.Defined c) : ∃ q', makeCall q c = .ok q' ∧ Indexed q' := by
  have hadd : ∀ te, ∃ q', (Prod.snd <$> q.addTimer te) = .ok q' ∧ Indexed q' := by
    intro te
    obtain ⟨q', hq', hadds⟩ := addTimer_adds h te
    exact ⟨q', by rw [hq']; rfl, hadds.indexed⟩
  cases c with
  | runAt cb args ts => exact hadd _
  | runAfter cb args sec millis tpc =>
    obtain ⟨d, hd⟩ := hc
    rw [makeCall, runAfter, hd, ok_bind]
    exact hadd _
  | runEvery cb args sec millis tpc =>
    obtain ⟨d, hd⟩ := hc
    rw [makeCall, runEvery, hd, ok_bind]
    exact hadd _
  | delTimer id =>
    rcases delTimer_removes h id with
      ⟨_, hdel⟩ | ⟨_, _, _, q', _, _, _, _, hrem, hdel, hsame⟩
    · exact ⟨q, hdel, h⟩
    · exact ⟨q', hdel, hsame.indexed hrem.indexed⟩

theorem invokeAll_returns {calls : Nat → List (TimerCall κ δ)}
    (hcalls : ∀ i, ∀ c ∈ calls i, TimedLoop.Defined c) :
    ∀ (batch : List (TimerEvent κ δ)) (i : Nat) {q : TimerQueue κ δ}, Indexed q →
      ∃ r, invokeAll calls i batch q = .ok r := by
  intro batch
  induction batch with
  | nil => exact fun _ q _ => ⟨([], q), rfl⟩
  | cons te rest ih =>
    intro i q h
    obtain ⟨q₁, hcall, hq₁⟩ : ∃ q₁, (calls i).foldlM makeCall q = .ok q₁ ∧ Indexed q₁ := by
      have hi := hcalls i
      generalize calls i = cs at hi
      induction cs generalizing q with
      | nil => exact ⟨q, rfl, h⟩
      | cons c cs ihc =>
        obtain ⟨q', hq', hidx⟩ := makeCall_returns h (hi c List.mem_cons_self)
        rw [List.foldlM_cons, hq', ok_bind]
        exact ihc hidx fun c hc => hi c (List.mem_cons_of_mem _ hc)
    obtain ⟨r, hr⟩ := ih (i + 1) hq₁
    exact ⟨_, by rw [invokeAll, hcall, ok_bind, hr, ok_bind]⟩

theorem getTimo_returns {q : TimerQueue κ δ} (h : Indexed q) :
    ∃ batch q', q.getTimo [] = .ok (batch, q') ∧ Indexed q' := by
  obtain ⟨evs, q₁, hloop, hidx₁, _⟩ :=
    getTimoLoop_pops (P := Indexed) (fun _ h => h) (fun _ _ _ _ hpop => hpop.removes.indexed) h
      [] []
  obtain ⟨q₂, hadd, hq₂⟩ := readd_readds _ hidx₁
  obtain ⟨q', hget, hsame, _⟩ := getTimo_sets hloop hadd hq₂.indexed
  exact ⟨_, q', hget, hsame.indexed hq₂.indexed⟩

/-- **Cancelling within one expiry.**  Whatever the queue and whatever the callbacks
call, a cancelled timer is not run afterwards exactly when no callback of the batch
cancels a timer further on in it.  In a queue that is in order the batch are the due
timers.  The pass returns from every queue whose index is sound, unless a call
overflows. -/
theorem cancelled_not_run_iff (q : TimerQueue κ δ) (calls : Nat → List (TimerCall κ δ))
    (returned : Nat → Int32) :
    Ends (timerqueueCb calls q)
      (fun r => ∃ batch q₁, q.getTimo [] = .ok (batch, q₁) ∧
        (Ready q → batch.Perm q.dueTimers) ∧
        (NotRunAfterCancel returned r.1 ↔ NoneCancelsLater calls returned batch.length))
      (fun _ => ¬ (Indexed q ∧ ∀ i, ∀ c ∈ calls i, TimedLoop.Defined c)) := by
  refine .intro (fun ⟨trace, q'⟩ hr => ?_) (fun f hf => ?_)
  · obtain ⟨⟨batch, q₁⟩, hget, hinvoke⟩ := bind_eq_ok.mp hr
    refine ⟨batch, q₁, hget, fun hready => ?_, ?_⟩
    · obtain ⟨evs, q₂, hget', hfires⟩ := getTimo_fires hready []
      obtain ⟨rfl, _⟩ := Prod.mk.inj (Except.ok.inj (hget.symm.trans hget'))
      exact hfires.due
    · rw [invokeAll_trace hinvoke]
      exact notRunAfterCancel_iff returned batch
  · rintro ⟨hidx, hcalls⟩
    obtain ⟨batch, q₁, hget, hidx₁⟩ := getTimo_returns hidx
    obtain ⟨r, hr⟩ := invokeAll_returns hcalls batch 0 hidx₁
    rw [timerqueueCb, hget, ok_bind] at hf
    exact absurd (hf.symm.trans hr) (by simp)

/-- Two one-shot timers expire together and the first one cancels the second. -/
theorem cancelled_timer_runs :
    ¬ ∀ (ops : List (TimerOp Unit Unit)) (r : TimerRun Unit Unit), TimerRun.run ops = .ok r →
      ∀ (calls : Nat → List (TimerCall Unit Unit)) (trace : List (PassEvent Unit Unit))
        (q : TimerQueue Unit Unit), timerqueueCb calls r.queue = .ok (trace, q) →
          NotRunAfterCancel Int32.ofNat trace := by
  intro hall
  let ops : List (TimerOp Unit Unit) :=
    [.addTimer (TimerRun.oneShot 5), .addTimer (TimerRun.oneShot 5)]
  let calls : Nat → List (TimerCall Unit Unit) := fun i => if i = 0 then [.delTimer 1] else []
  obtain ⟨r, hrun, _⟩ := TimerRun.run_returns ops
  have hobs : (TimerRun.run ops).toOption.bind
      (fun r => (timerqueueCb calls r.queue).toOption.map Prod.fst) =
        some [.invoked 0 { TimerRun.oneShot 5 with timerId := 0 }, .called (.delTimer 1),
          .invoked 1 { TimerRun.oneShot 5 with timerId := 1 }] := by decide +kernel
  rw [hrun] at hobs
  simp only [Except.toOption, Option.bind_some] at hobs
  obtain ⟨out, hcb, htrace⟩ := ok_of_observed hobs
  refine hall ops r hrun calls out.1 out.2 hcb 1 [.invoked 0 _] [.invoked 1 _] htrace
    (fun te hmem => ?_) _ List.mem_cons_self
  cases List.mem_singleton.mp hmem

end EasyReactor.Loop
