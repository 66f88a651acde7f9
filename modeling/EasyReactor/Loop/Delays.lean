import EasyReactor.Loop.Timing
import EasyReactor.Timer.Periodic

set_option autoImplicit false

/-!
# Loop: relative timers and a wrapping `int`

`run_after` and `run_every` compute `sec * 1000 + millis` in `int`.  Here `int` wraps, as
it does on the machines the library runs on.  `run_every` narrows the result to `uint32_t`,
which undoes the wrap for every delay below `2 ^ 32`.  `run_after` widens it to `uint64_t`
with its sign, so that a delay from `2 ^ 31` on is moved by a multiple of `2 ^ 32`.
-/

namespace EasyReactor.Loop

open EasyReactor.Foundation EasyReactor.Timer

variable {κ δ : Type}

/-- What is asked for, in milliseconds. -/
def delay (sec millis : Int32) : Int := 1000 * sec.toInt + millis.toInt

/-- `sec * 1000 + millis`, wrapping. -/
def wrappedDelay (sec millis : Int32) : Int32 := sec * 1000 + millis

/-- The timer that `run_after` makes. -/
def afterEvent (cb : κ) (args : δ) (sec millis : Int32) (tpc : Timespec) : TimerEvent κ δ :=
  timerEvent cb args (tpc.millis + UInt64.ofInt (wrappedDelay sec millis).toInt) 0

/-- The timer that `run_every` makes. -/
def everyEvent (cb : κ) (args : δ) (sec millis : Int32) (tpc : Timespec) : TimerEvent κ δ :=
  let interval := UInt32.ofInt (wrappedDelay sec millis).toInt
  timerEvent cb args (tpc.millis + interval.toUInt64) interval

/-- `event_loop::run_after`, wrapping. -/
def wrappedRunAfter (q : TimerQueue κ δ) (cb : κ) (args : δ) (sec millis : Int32)
    (tpc : Timespec) : Except Fault (Int32 × TimerQueue κ δ) :=
  q.addTimer (afterEvent cb args sec millis tpc)

/-! ## The delay -/

theorem wrappedDelay_toInt (sec millis : Int32) :
    (wrappedDelay sec millis).toInt = (delay sec millis).bmod (2 ^ 32) := by
  have hthousand : (1000 : Int32).toInt = 1000 := by decide
  unfold wrappedDelay delay
  rw [Int32.toInt_add, Int32.toInt_mul, hthousand, Int.bmod_add_bmod, Int.mul_comm]

theorem delay_nonneg {sec millis : Int32} (hsec : 0 ≤ sec) (hmillis : 0 ≤ millis) :
    0 ≤ delay sec millis ∧ delay sec millis < 2 ^ 42 := by
  have hs : (0 : Int) ≤ sec.toInt := Int32.le_iff_toInt_le.mp hsec
  have hm : (0 : Int) ≤ millis.toInt := Int32.le_iff_toInt_le.mp hmillis
  have hs' := sec.toInt_lt
  have hm' := millis.toInt_lt
  unfold delay
  constructor
  · omega
  · omega

/-! ## The times -/

/-- The timer that is live or delivered expires after `k` delays, as long as that is a
time. -/
def Expires (cb : κ) (args : δ) (sec millis : Int32) (tpc : Timespec) (k : Nat)
    (p : Payload κ δ) : Prop :=
  p.1 = cb ∧ p.2.1 = args ∧
    (tpc.millis.toNat + k * delay sec millis < 2 ^ 64 →
      (p.2.2.1.toNat : Int) = tpc.millis.toNat + k * delay sec millis)

/-- `run_after` registers a timer that expires when it is asked to, from any state that a
queue can reach. -/
def AfterDue (cb : κ) (args : δ) (sec millis : Int32) (tpc : Timespec) : Prop :=
  ∀ (ops : List (TimerOp κ δ)) (r : TimerRun κ δ), TimerRun.run ops = .ok r →
    ∃ id q te, wrappedRunAfter r.queue cb args sec millis tpc = .ok (id, q) ∧
      q.eventLst.Perm (te :: r.queue.eventLst) ∧ te.timerId = id ∧ te.cb = cb ∧
      te.cbData = args ∧ te.interval = 0 ∧
      (te.ts.toNat : Int) = tpc.millis.toNat + delay sec millis

/-- `run_every` registers a timer whose `k`-th expiry, from `1` on, is after `k` delays; it
is delivered at the first ones, in order, and unless it has been deleted waits for the
next. -/
def EveryDue (cb : κ) (args : δ) (sec millis : Int32) (tpc : Timespec) : Prop :=
  0 < delay sec millis → delay sec millis < 2 ^ 32 →
    ∀ (ops : List (TimerOp κ δ)) (i : Nat),
      ops[i]? = some (.addTimer (everyEvent cb args sec millis tpc)) →
      ∃ t n, TimerRun.run (numbered ops) = .ok t ∧
        (share i (t.fired.map TimerEvent.payload)).length = n ∧
        (∀ k p, (share i (t.fired.map TimerEvent.payload))[k]? = some p →
          Expires cb args sec millis tpc (k + 1) p) ∧
        (TimerRun.Undeleted ops i →
          ∃ p, share i (t.queue.eventLst.map TimerEvent.payload) = [p] ∧
            Expires cb args sec millis tpc (n + 1) p)

variable {sec millis : Int32}

/-- The conversion to `uint64_t`. -/
theorem toNat_ofInt (z : Int) : ((UInt64.ofInt z).toNat : Int) = z % 2 ^ 64 := by
  rw [UInt64.ofInt, UInt64.toNat_ofNat']
  omega

/-- The conversion to `uint32_t`. -/
theorem toNat_ofInt32 (z : Int) : ((UInt32.ofInt z).toNat : Int) = z % 2 ^ 32 := by
  rw [UInt32.ofInt, UInt32.toNat_ofNat']
  omega

/-- The time that `run_after` computes. -/
theorem afterEvent_ts_iff (hsec : 0 ≤ sec) (hmillis : 0 ≤ millis) {tpc : Timespec}
    (hnow : tpc.millis.toNat < 2 ^ 63) (cb : κ) (args : δ) :
    ((afterEvent cb args sec millis tpc).ts.toNat : Int) =
        tpc.millis.toNat + delay sec millis ↔ delay sec millis < 2 ^ 31 := by
  obtain ⟨hlo, hhi⟩ := delay_nonneg hsec hmillis
  have hwrap := wrappedDelay_toInt sec millis
  have hofInt := toNat_ofInt (wrappedDelay sec millis).toInt
  show ((tpc.millis + UInt64.ofInt (wrappedDelay sec millis).toInt).toNat : Int) = _ ↔ _
  rw [UInt64.toNat_add]
  rw [Int.bmod_def] at hwrap
  generalize delay sec millis = d at *
  generalize (wrappedDelay sec millis).toInt = w at *
  generalize (UInt64.ofInt w).toNat = u at *
  generalize tpc.millis.toNat = now at *
  split at hwrap
  · omega
  · omega

/-- The period of `run_every`. -/
theorem everyEvent_interval (hlo : 0 < delay sec millis) (hhi : delay sec millis < 2 ^ 32)
    (cb : κ) (args : δ) (tpc : Timespec) :
    ((everyEvent cb args sec millis tpc).interval.toNat : Int) = delay sec millis := by
  show ((UInt32.ofInt (wrappedDelay sec millis).toInt).toNat : Int) = _
  have hwrap := wrappedDelay_toInt sec millis
  rw [Int.bmod_def] at hwrap
  rw [toNat_ofInt32]
  split at hwrap
  · omega
  · omega

theorem schedule_expires (hlo : 0 < delay sec millis) (hhi : delay sec millis < 2 ^ 32)
    (cb : κ) (args : δ) (tpc : Timespec) (k : Nat) :
    Expires cb args sec millis tpc (k + 1) (schedule (everyEvent cb args sec millis tpc) k) := by
  have hint := everyEvent_interval hlo hhi cb args tpc
  have hfirst : (everyEvent cb args sec millis tpc).ts =
      tpc.millis + (everyEvent cb args sec millis tpc).interval.toUInt64 := rfl
  refine ⟨rfl, rfl, fun hlt => ?_⟩
  show (((everyEvent cb args sec millis tpc).ts +
    UInt64.ofNat k * (everyEvent cb args sec millis tpc).interval.toUInt64).toNat : Int) = _
  rw [← hint] at hlo hlt ⊢
  rw [hfirst]
  generalize (everyEvent cb args sec millis tpc).interval = period at hlo hlt ⊢
  have hk : k ≤ k * period.toNat := Nat.le_mul_of_pos_right k (by omega)
  have hsum : (k + 1) * period.toNat = period.toNat + k * period.toNat := by
    rw [Nat.succ_mul, Nat.add_comm]
  have hlt : tpc.millis.toNat + (period.toNat + k * period.toNat) < 2 ^ 64 := by
    rw [← hsum]
    exact_mod_cast hlt
  have hmul : (UInt64.ofNat k * period.toUInt64).toNat = k * period.toNat := by
    rw [UInt64.toNat_mul, UInt64.toNat_ofNat', UInt32.toNat_toUInt64,
      Nat.mod_eq_of_lt (show k < 2 ^ 64 by omega), Nat.mod_eq_of_lt (by omega)]
  rw [UInt64.toNat_add, UInt64.toNat_add, hmul, UInt32.toNat_toUInt64]
  have hval : ((tpc.millis.toNat + period.toNat) % 2 ^ 64 + k * period.toNat) % 2 ^ 64 =
      tpc.millis.toNat + (k + 1) * period.toNat := by
    rw [hsum, Nat.mod_eq_of_lt (show tpc.millis.toNat + period.toNat < 2 ^ 64 by omega),
      Nat.mod_eq_of_lt (by omega), Nat.add_assoc]
  rw [hval]
  push_cast
  rfl

/-- `run_every` is never early or late, for any delay that a period can hold. -/
theorem everyDue (cb : κ) (args : δ) (sec millis : Int32) (tpc : Timespec) :
    EveryDue cb args sec millis tpc := by
  intro hlo hhi ops i hi
  have hint : (everyEvent cb args sec millis tpc).interval ≠ 0 := by
    intro h0
    have hperiod := everyEvent_interval hlo hhi cb args tpc
    rw [h0] at hperiod
    exact absurd hperiod.symm (Int.ne_of_gt hlo)
  obtain ⟨t, n, hrun, hfired, hlive⟩ := TimerRun.run_periodic hi hint
  refine ⟨t, n, hrun, by rw [hfired, List.length_map, List.length_range], ?_, ?_⟩
  · intro k p hp
    rw [hfired, List.getElem?_map] at hp
    obtain ⟨k', hk', rfl⟩ := Option.map_eq_some_iff.mp hp
    obtain ⟨_, rfl⟩ := List.getElem?_eq_some_iff.mp hk'
    rw [List.getElem_range]
    exact schedule_expires hlo hhi cb args tpc k
  · intro hkeep
    exact ⟨_, hlive hkeep, schedule_expires hlo hhi cb args tpc n⟩

theorem afterDue_iff (hsec : 0 ≤ sec) (hmillis : 0 ≤ millis) {tpc : Timespec}
    (hnow : tpc.millis.toNat < 2 ^ 63) (cb : κ) (args : δ) :
    AfterDue cb args sec millis tpc ↔ delay sec millis < 2 ^ 31 := by
  rw [← afterEvent_ts_iff hsec hmillis hnow cb args]
  constructor
  · intro hdue
    obtain ⟨id, q, te, hadd, hperm, _, _, _, _, hts⟩ := hdue [] TimerRun.start rfl
    obtain ⟨q', hadd', hq'⟩ :=
      TimerQueue.addTimer_adds (TimerQueue.inv_empty (κ := κ) (δ := δ)).indexed
        (afterEvent cb args sec millis tpc)
    obtain ⟨_, rfl⟩ := Prod.mk.inj (Except.ok.inj (hadd'.symm.trans hadd))
    -- the queue was empty, so there is one timer
    have hone := List.singleton_perm_singleton.mp (hq'.perm.symm.trans hperm)
    rw [← hts, ← hone]
  · intro hts ops r hrun
    obtain ⟨r', hrun', hinv⟩ := TimerRun.run_returns ops
    obtain rfl := Except.ok.inj (hrun.symm.trans hrun')
    obtain ⟨q, hadd, hq⟩ :=
      TimerQueue.addTimer_adds hinv.indexed (afterEvent cb args sec millis tpc)
    exact ⟨_, q, _, hadd, hq.perm, rfl, rfl, rfl, rfl, hts⟩

/-- **Relative timers are due when asked**, with an `int` that wraps, exactly if the delay
is below `2 ^ 31` milliseconds. -/
theorem relative_timers_due_iff (hsec : 0 ≤ sec) (hmillis : 0 ≤ millis) {tpc : Timespec}
    (hnow : tpc.millis.toNat < 2 ^ 63) (cb : κ) (args : δ) :
    (AfterDue cb args sec millis tpc ∧ EveryDue cb args sec millis tpc) ↔
      delay sec millis < 2 ^ 31 := by
  rw [← afterDue_iff hsec hmillis hnow cb args]
  exact and_iff_left (everyDue cb args sec millis tpc)

theorem relative_timers_due_two_weeks :
    (AfterDue () () 1209600 250 ⟨1700000000, 0⟩ ∧ EveryDue () () 1209600 250 ⟨1700000000, 0⟩) ↔
      delay 1209600 250 < 2 ^ 31 :=
  relative_timers_due_iff (by decide) (by decide) (by decide) () ()

/-- A delay of 25 days lies in the past. -/
theorem run_after_wraps :
    ¬ ∀ (sec millis : Int32) (tpc : Timespec), 0 ≤ sec → 0 ≤ millis → tpc.millis.toNat < 2 ^ 63 →
        AfterDue () () sec millis tpc := by
  intro hall
  obtain ⟨id, q, te, hadd, hperm, _, _, _, _, hts⟩ :=
    hall 2160000 0 ⟨1700000000, 0⟩ (by decide) (by decide) (by decide) [] TimerRun.start rfl
  have hobs : (wrappedRunAfter .empty () () 2160000 0 ⟨1700000000, 0⟩).toOption.map
      (fun r => r.2.eventLst.map fun te => te.ts.toNat) = some [1697865032704] := by
    decide +kernel
  have hobs := observed_of_ok hadd hobs
  have hone := (hperm.map fun te => te.ts.toNat).symm
  simp only at hobs
  rw [hobs] at hone
  have hval : te.ts.toNat = 1697865032704 := (List.cons.inj (List.perm_singleton.mp hone)).1
  rw [hval] at hts
  revert hts
  decide

end EasyReactor.Loop
