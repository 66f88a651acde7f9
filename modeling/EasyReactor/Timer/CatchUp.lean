import EasyReactor.Timer.Ledger
import EasyReactor.Timer.Notifier

set_option autoImplicit false

/-!
# Timer: catching up

`timerqueue_cb` takes one slot, the timers that expire at `_pioneer`, and sets the timerfd
for the next.  A loop that was busy for longer than that finds the timerfd expired again at
once, and takes the next slot, until it is set for a time to come.  Here is what has been
delivered then.
-/

namespace EasyReactor.Timer

open EasyReactor.Foundation

variable {κ δ : Type}

/-! ## The expiries of a timer up to a time -/

namespace Payload

/-- `p`, `k` periods later. -/
def after (p : Payload κ δ) (k : Nat) : Payload κ δ :=
  (p.1, p.2.1, p.2.2.1 + UInt64.ofNat k * p.2.2.2.toUInt64, p.2.2.2)

/-- How many expiries are over at the time `now`. -/
def overdue (now : Nat) (p : Payload κ δ) : Nat :=
  if now < p.2.2.1.toNat then 0
  else if p.2.2.2 = 0 then 1
  else (now - p.2.2.1.toNat) / p.2.2.2.toNat + 1

/-- The expiries up to `now`. -/
def upTo (now : Nat) (p : Payload κ δ) : List (Payload κ δ) :=
  (List.range (p.overdue now)).map p.after

/-- What stays in the queue: the first expiry after `now`, and nothing of a one-shot timer
that is over. -/
def standing (now : Nat) (p : Payload κ δ) : List (Payload κ δ) :=
  if p.2.2.2 = 0 ∧ p.2.2.1.toNat ≤ now then [] else [p.after (p.overdue now)]

@[simp] theorem after_zero (p : Payload κ δ) : p.after 0 = p := by
  simp [after]

theorem after_succ (p : Payload κ δ) (k : Nat) : p.after (k + 1) = p.advance.after k := by
  simp only [after, advance, UInt64.ofNat_add, UInt64.add_mul, UInt64.add_assoc]
  rw [UInt64.add_comm (UInt64.ofNat k * _)]
  simp

/-- A period is below `2 ^ 32`, so a time that far from the end does not wrap. -/
theorem advance_toNat {p : Payload κ δ} {now : Nat} (hnow : now + 4294967296 < 2 ^ 64)
    (hp : p.2.2.1.toNat ≤ now) :
    p.advance.2.2.1.toNat = p.2.2.1.toNat + p.2.2.2.toNat := by
  have hlt : p.2.2.2.toNat < 4294967296 := p.2.2.2.toNat_lt
  show (p.2.2.1 + p.2.2.2.toUInt64).toNat = _
  rw [UInt64.toNat_add, UInt32.toNat_toUInt64, Nat.mod_eq_of_lt (by omega)]

theorem toNat_interval_pos {p : Payload κ δ} (h : p.2.2.2 ≠ 0) : 0 < p.2.2.2.toNat := by
  refine Nat.pos_of_ne_zero fun h0 => h ?_
  exact UInt32.toNat_inj.mp h0

theorem upTo_later {p : Payload κ δ} {now : Nat} (h : now < p.2.2.1.toNat) :
    p.upTo now = [] := by
  rw [upTo, overdue, if_pos h]
  rfl

theorem standing_later {p : Payload κ δ} {now : Nat} (h : now < p.2.2.1.toNat) :
    p.standing now = [p] := by
  rw [standing, if_neg fun hp => absurd hp.2 (Nat.not_le.mpr h), overdue, if_pos h, after_zero]

theorem overdue_advance {p : Payload κ δ} {now : Nat} (hnow : now + 4294967296 < 2 ^ 64)
    (hp : p.2.2.1.toNat ≤ now) (hint : p.2.2.2 ≠ 0) :
    p.overdue now = p.advance.overdue now + 1 := by
  have hts := advance_toNat hnow hp
  have hpos := toNat_interval_pos hint
  have hsame : p.advance.2.2.2 = p.2.2.2 := rfl
  unfold overdue
  rw [if_neg (Nat.not_lt.mpr hp), if_neg hint, hts, hsame, if_neg hint]
  split
  next hlt => rw [Nat.div_eq_of_lt (by omega)]
  next hle =>
    rw [Nat.div_eq_sub_div hpos (by omega), Nat.sub_sub]

/-- The expiries of a timer that is due: the one, and those of the timer put back. -/
theorem upTo_due {p : Payload κ δ} {now : Nat} (hnow : now + 4294967296 < 2 ^ 64)
    (hp : p.2.2.1.toNat ≤ now) : p.upTo now = p :: (putBack [p]).flatMap (upTo now) := by
  by_cases hint : p.2.2.2 = 0
  · have hone : p.overdue now = 1 := by
      rw [overdue, if_neg (Nat.not_lt.mpr hp), if_pos hint]
    simp [upTo, hone, putBack, hint]
  · rw [upTo, overdue_advance hnow hp hint, List.range_succ_eq_map, List.map_cons, after_zero,
      List.map_map]
    have hback : putBack [p] = [p.advance] := by simp [putBack, hint]
    rw [hback, List.flatMap_singleton]
    exact congrArg _ (List.map_congr_left fun k _ => after_succ p k)

theorem standing_due {p : Payload κ δ} {now : Nat} (hnow : now + 4294967296 < 2 ^ 64)
    (hp : p.2.2.1.toNat ≤ now) : p.standing now = (putBack [p]).flatMap (standing now) := by
  by_cases hint : p.2.2.2 = 0
  · simp [standing, putBack, hint, hp]
  · have hback : putBack [p] = [p.advance] := by simp [putBack, hint]
    have hsame : p.advance.2.2.2 = p.2.2.2 := rfl
    rw [hback, List.flatMap_singleton, standing, standing, hsame, if_neg fun h => hint h.1,
      if_neg fun h => hint h.1, overdue_advance hnow hp hint, after_succ]

end Payload

open Payload

theorem putBack_cons (p : Payload κ δ) (ps : List (Payload κ δ)) :
    putBack (p :: ps) = putBack [p] ++ putBack ps := by
  by_cases hint : p.2.2.2 = 0
  · simp [putBack, hint]
  · simp [putBack, hint]

theorem flatMap_upTo_due {now : Nat} (hnow : now + 4294967296 < 2 ^ 64)
    {ps : List (Payload κ δ)} (hps : ∀ p ∈ ps, p.2.2.1.toNat ≤ now) :
    (ps.flatMap (upTo now)).Perm (ps ++ (putBack ps).flatMap (upTo now)) := by
  induction ps with
  | nil => exact .refl _
  | cons p ps ih =>
    obtain ⟨hp, hps⟩ := List.forall_mem_cons.mp hps
    rw [List.flatMap_cons, upTo_due hnow hp, putBack_cons p ps, List.flatMap_append]
    refine (List.Perm.append_left _ (ih hps)).trans ?_
    rw [List.cons_append, List.cons_append]
    refine List.Perm.cons p ?_
    rw [← List.append_assoc, ← List.append_assoc]
    exact List.perm_append_comm.append_right _

theorem flatMap_standing_due {now : Nat} (hnow : now + 4294967296 < 2 ^ 64)
    {ps : List (Payload κ δ)} (hps : ∀ p ∈ ps, p.2.2.1.toNat ≤ now) :
    ps.flatMap (standing now) = (putBack ps).flatMap (standing now) := by
  induction ps with
  | nil => rfl
  | cons p ps ih =>
    obtain ⟨hp, hps⟩ := List.forall_mem_cons.mp hps
    rw [List.flatMap_cons, standing_due hnow hp, putBack_cons p ps, List.flatMap_append, ih hps]

/-- Waking at `t` and then at `now` is waking at `now`. -/
theorem Payload.upTo_split {t now : Nat} (ht : t ≤ now) (hnow : now + 4294967296 < 2 ^ 64)
    (p : Payload κ δ) :
    p.upTo now = p.upTo t ++ (p.standing t).flatMap (upTo now) ∧
      p.standing now = (p.standing t).flatMap (standing now) := by
  induction hk : p.overdue t generalizing p with
  | zero =>
    have hlater : t < p.2.2.1.toNat := by
      by_contra hle
      rw [overdue, if_neg hle] at hk
      split at hk
      · cases hk
      · cases hk
    simp [upTo_later hlater, standing_later hlater]
  | succ k ih =>
    have hp : p.2.2.1.toNat ≤ t := by
      by_contra hle
      rw [overdue, if_pos (Nat.not_le.mp hle)] at hk
      cases hk
    have htlt : t + 4294967296 < 2 ^ 64 := Nat.lt_of_le_of_lt (Nat.add_le_add_right ht _) hnow
    rw [upTo_due hnow (hp.trans ht), upTo_due htlt hp, standing_due hnow (hp.trans ht),
      standing_due htlt hp]
    by_cases hint : p.2.2.2 = 0
    · simp [putBack, hint]
    · have hback : putBack [p] = [p.advance] := by simp [putBack, hint]
      obtain ⟨hup, hst⟩ := ih p.advance (by
        rw [overdue_advance htlt hp hint] at hk
        exact Nat.succ.inj hk)
      rw [hback, List.flatMap_singleton, List.flatMap_singleton, List.flatMap_singleton,
        List.flatMap_singleton, hup, hst]
      exact ⟨rfl, rfl⟩

theorem flatMap_upTo_split {t now : Nat} (ht : t ≤ now) (hnow : now + 4294967296 < 2 ^ 64)
    (ps : List (Payload κ δ)) :
    (ps.flatMap (upTo now)).Perm
      (ps.flatMap (upTo t) ++ (ps.flatMap (standing t)).flatMap (upTo now)) := by
  induction ps with
  | nil => exact .refl _
  | cons p ps ih =>
    simp only [List.flatMap_cons, List.flatMap_append, (upTo_split ht hnow p).1,
      List.append_assoc]
    refine List.Perm.append_left _ ?_
    refine (List.Perm.append_left _ ih).trans ?_
    rw [← List.append_assoc, ← List.append_assoc]
    exact List.perm_append_comm.append_right _

theorem flatMap_standing_split {t now : Nat} (ht : t ≤ now) (hnow : now + 4294967296 < 2 ^ 64)
    (ps : List (Payload κ δ)) :
    ps.flatMap (standing now) = (ps.flatMap (standing t)).flatMap (standing now) := by
  rw [List.flatMap_assoc]
  exact congrArg (ps.flatMap ·) (funext fun p => (upTo_split ht hnow p).2)

theorem flatMap_upTo_later {now : Nat} {ps : List (Payload κ δ)}
    (hps : ∀ p ∈ ps, now < p.2.2.1.toNat) : ps.flatMap (upTo now) = [] :=
  List.flatMap_eq_nil_iff.mpr fun p hp => upTo_later (hps p hp)

theorem flatMap_standing_later {now : Nat} {ps : List (Payload κ δ)}
    (hps : ∀ p ∈ ps, now < p.2.2.1.toNat) : ps.flatMap (standing now) = ps := by
  induction ps with
  | nil => rfl
  | cons p ps ih =>
    obtain ⟨hp, hps⟩ := List.forall_mem_cons.mp hps
    rw [List.flatMap_cons, standing_later hp, ih hps]
    rfl

/-! ## One slot -/

namespace TimerQueue

/-- What one call of `get_timo` takes: the timers `evs`, all at `_pioneer`, leaving later
ones. -/
structure TakesSlot (q : TimerQueue κ δ) (evs : List (TimerEvent κ δ))
    (q' : TimerQueue κ δ) : Prop where
  due : ∀ te ∈ evs, te.ts = q.pioneer
  splits : ∃ rest, (evs ++ rest).Perm q.eventLst ∧ (∀ te ∈ rest, q.pioneer < te.ts) ∧
    (q'.eventLst.map TimerEvent.payload).Perm
      (putBack (evs.map TimerEvent.payload) ++ rest.map TimerEvent.payload)

theorem getTimo_slot {n : Nat} {q : TimerQueue κ δ} (hinv : Inv n q) (h : WakeInv q) :
    ∃ evs q', q.getTimo [] = .ok (evs, q') ∧ Inv (n + (reused evs).length) q' ∧
      TakesSlot q evs q' := by
  obtain ⟨evs, q₁, hloop, ⟨hinv₁, hord⟩, hpops⟩ :=
    getTimoLoop_pops (P := fun q => Inv n q ∧ HeapOrdered q) (fun _ h => h.1.indexed)
      (fun _ _ _ h hpop => ⟨h.1.removes hpop.removes, hpop.ordered h.1.indexed h.2⟩)
      ⟨hinv, h.ordered⟩ [] []
  rw [List.nil_append, List.nil_append] at hloop
  obtain ⟨q₂, hadd, hinv₂, hperm₂⟩ := readd_spec (reused evs) hinv₁
  obtain ⟨q', hget, hsame, _⟩ := getTimo_sets hloop hadd hinv₂.indexed
  refine ⟨evs, q', hget, hinv₂.sameHeap hsame, hpops.due, q₁.eventLst, hpops.perm, ?_, ?_⟩
  · -- the top that is left is not at `_pioneer`, and nothing is before it
    intro te hte
    have htop := List.getElem?_eq_getElem (List.length_pos_of_mem hte)
    have hmem := hpops.perm.subset (List.mem_append_right evs (List.mem_of_getElem? htop))
    refine UInt64.lt_of_lt_of_le (UInt64.lt_of_le_of_ne (h.early _ hmem) ?_)
      (hord.top_le htop hte)
    exact fun heq => hpops.rest _ htop heq.symm
  · rw [hsame.eventLst, ← map_payload_reused]
    exact hperm₂

/-- The callback of a timerfd keeps it ahead of the live timers. -/
theorem getTimo_wakeInv {n : Nat} {q q' : TimerQueue κ δ} {evs : List (TimerEvent κ δ)}
    (hinv : Inv n q) (h : WakeInv q) (hre : ReaddsInRange q)
    (hget : q.getTimo [] = .ok (evs, q')) : WakeInv q' := by
  have hstep : (⟨q, [], n⟩ : TimerRun κ δ).step .getTimo =
      .ok ⟨q', [] ++ evs, n + (reused evs).length⟩ := by
    show (q.getTimo [] >>= _) = _
    rw [hget, ok_bind]
  have hdom : TimerRun.BelowSentinel (.getTimo : TimerOp κ δ) := trivial
  have hkeep : TimerRun.KeepsAhead ⟨q, [], n⟩ .getTimo := hre
  exact TimerRun.step_wakeInv hinv h hdom hkeep hstep

/-! ## The loop that is behind -/

/-- The timerfd is readable at the time `now`, in milliseconds. -/
def expired (now : Nat) (q : TimerQueue κ δ) : Bool :=
  match q.itValue.expires with
  | some t => t ≤ now * 1000000
  | none => false

/-- `timerqueue_cb`, as often as `epoll_wait` finds the timerfd readable at the time
`now`; its callbacks leave the timers alone. -/
def catchUp (now : Nat) : Nat → TimerQueue κ δ →
    Except Fault (List (TimerEvent κ δ) × TimerQueue κ δ)
  | 0, _ => .error .fuel
  | fuel + 1, q =>
    if q.expired now then do
      let (evs, q) ← q.getTimo []
      let (rest, q) ← catchUp now fuel q
      .ok (evs ++ rest, q)
    else .ok ([], q)

theorem WakeInv.expired_iff {q : TimerQueue κ δ} (h : WakeInv q) {now : Nat}
    (hnow : now + 4294967296 < 2 ^ 64) :
    q.expired now = true ↔ q.pioneer.toNat ≤ now := by
  unfold expired
  rw [h.armed, expires_timo]
  by_cases hno : q.pioneer = noPioneer
  · rw [if_pos (.inr hno), hno]
    have hmax : (noPioneer : UInt64).toNat = 18446744073709551615 := rfl
    rw [hmax]
    simp only [Bool.false_eq_true, false_iff, Nat.not_le]
    omega
  · rw [if_neg (not_or.mpr ⟨h.nonzero, hno⟩)]
    simp only [decide_eq_true_eq]
    omega

/-- What has happened when the loop is no longer behind. -/
structure CatchesUp (now : Nat) (q : TimerQueue κ δ) (evs : List (TimerEvent κ δ))
    (q' : TimerQueue κ δ) : Prop where
  fired : (evs.map TimerEvent.payload).Perm
    ((q.eventLst.map TimerEvent.payload).flatMap (upTo now))
  inOrder : evs.Pairwise fun a b => a.ts ≤ b.ts
  notEarly : ∀ te ∈ evs, te.ts.toNat ≤ now
  standing : (q'.eventLst.map TimerEvent.payload).Perm
    ((q.eventLst.map TimerEvent.payload).flatMap (standing now))
  quiet : q'.expired now = false

/-- A queue of a run: what it keeps from slot to slot. -/
structure Keeping (n : Nat) (q : TimerQueue κ δ) : Prop where
  inv : Inv n q
  wake : WakeInv q

/-- A timer that is put back comes after `_pioneer`, and at a time that can be armed. -/
theorem advance_after {q : TimerQueue κ δ} {now : Nat} (hnow : now + 4294967296 < 2 ^ 64)
    (hp : q.pioneer.toNat ≤ now) {te : TimerEvent κ δ} (hts : te.ts = q.pioneer)
    (hint : te.interval ≠ 0) :
    q.pioneer < te.advance.ts ∧ te.advance.ts ≠ 0 ∧ te.advance.ts ≠ noPioneer := by
  have hlt : te.interval.toNat < 4294967296 := te.interval.toNat_lt
  have hpos : 0 < te.interval.toNat := toNat_interval_pos (p := te.payload) hint
  have hnat : te.advance.ts.toNat = q.pioneer.toNat + te.interval.toNat := by
    rw [← hts]
    refine advance_toNat (p := te.payload) hnow ?_
    rw [show te.payload.2.2.1 = q.pioneer from hts]
    exact hp
  refine ⟨UInt64.lt_iff_toNat_lt.mpr (by omega), fun h0 => ?_, fun h0 => ?_⟩
  · have h := congrArg UInt64.toNat h0
    rw [hnat, UInt64.toNat_zero] at h
    omega
  · have h := congrArg UInt64.toNat h0
    have hmax : (noPioneer : UInt64).toNat = 18446744073709551615 := rfl
    rw [hnat, hmax] at h
    omega

/-- One slot of a loop that is behind: the queue is kept, and the timerfd is set for
later. -/
theorem Keeping.slot {n : Nat} {q : TimerQueue κ δ} (h : Keeping n q) {now : Nat}
    (hnow : now + 4294967296 < 2 ^ 64) (hp : q.pioneer.toNat ≤ now) :
    ∃ m evs q', q.getTimo [] = .ok (evs, q') ∧ Keeping m q' ∧ TakesSlot q evs q' ∧
      q.pioneer < q'.pioneer := by
  obtain ⟨evs, q', hget, hinv, hslot⟩ := getTimo_slot h.inv h.wake
  have hre : ReaddsInRange q := fun te _ hts hint => (advance_after hnow hp hts hint).2
  have hwake := getTimo_wakeInv h.inv h.wake hre hget
  refine ⟨_, evs, q', hget, ⟨hinv, hwake⟩, hslot, ?_⟩
  rcases (getTimo_arms h.inv hget).2 with ⟨_, hno⟩ | ⟨top, htop, hts⟩
  · rw [hno]
    refine UInt64.lt_iff_toNat_lt.mpr ?_
    have hmax : (noPioneer : UInt64).toNat = 18446744073709551615 := rfl
    omega
  · rw [hts]
    obtain ⟨rest, _, hlater, hlive⟩ := hslot.splits
    have hmem := hlive.subset (List.mem_map_of_mem (List.mem_of_getElem? htop))
    rcases List.mem_append.mp hmem with hback | hrest
    · rw [← map_payload_reused] at hback
      obtain ⟨_, hte, hpay⟩ := List.mem_map.mp hback
      obtain ⟨te, hfired, rfl⟩ := List.mem_map.mp hte
      obtain ⟨hte, hint⟩ := List.mem_filter.mp hfired
      rw [← show te.advance.ts = top.ts from congrArg (fun p => p.2.2.1) hpay]
      exact (advance_after hnow hp (hslot.due te hte) (of_decide_eq_true hint)).1
    · obtain ⟨te, hte, hpay⟩ := List.mem_map.mp hrest
      rw [← show te.ts = top.ts from congrArg (fun p => p.2.2.1) hpay]
      exact hlater te hte

/-- Nothing is due at `now` in a queue whose timerfd has not expired. -/
theorem Keeping.catchesUp_nil {n : Nat} {q : TimerQueue κ δ} (h : Keeping n q) {now : Nat}
    (hnow : now + 4294967296 < 2 ^ 64) (hexp : q.expired now = false) :
    CatchesUp now q [] q := by
  have hlater : ∀ p ∈ q.eventLst.map TimerEvent.payload, now < p.2.2.1.toNat := by
    intro p hp
    obtain ⟨te, hte, rfl⟩ := List.mem_map.mp hp
    have hle := UInt64.le_iff_toNat_le.mp (h.wake.early te hte)
    refine Nat.lt_of_lt_of_le (Nat.not_le.mp fun hle' => ?_) hle
    rw [(h.wake.expired_iff hnow).mpr hle'] at hexp
    cases hexp
  refine ⟨?_, .nil, fun te hte => ?_, ?_, hexp⟩
  · rw [flatMap_upTo_later hlater]
    exact .refl _
  · cases hte
  · rw [flatMap_standing_later hlater]

/-- A slot and what the loop does from there. -/
theorem CatchesUp.of_slot {now : Nat} {q q₁ q' : TimerQueue κ δ}
    {evs rest : List (TimerEvent κ δ)} (hnow : now + 4294967296 < 2 ^ 64)
    (hp : q.pioneer.toNat ≤ now) (hslot : TakesSlot q evs q₁)
    (hle : ∀ te ∈ rest, q.pioneer ≤ te.ts) (h : CatchesUp now q₁ rest q') :
    CatchesUp now q (evs ++ rest) q' := by
  obtain ⟨later, hperm, hlater, hlive⟩ := hslot.splits
  have hdue : ∀ p ∈ evs.map TimerEvent.payload, p.2.2.1.toNat ≤ now := by
    intro p hmem
    obtain ⟨te, hte, rfl⟩ := List.mem_map.mp hmem
    rw [show te.payload.2.2.1 = q.pioneer from hslot.due te hte]
    exact hp
  have hold := (hperm.map TimerEvent.payload).symm
  rw [List.map_append] at hold
  refine ⟨?_, ?_, ?_, ?_, h.quiet⟩
  · rw [List.map_append]
    refine (List.Perm.append_left _ (h.fired.trans (hlive.flatMap_right _))).trans ?_
    refine List.Perm.trans ?_ (hold.flatMap_right _).symm
    rw [List.flatMap_append, List.flatMap_append, ← List.append_assoc]
    exact (flatMap_upTo_due hnow hdue).symm.append_right _
  · refine List.pairwise_append.mpr ⟨?_, h.inOrder, fun a ha b hb => ?_⟩
    · refine List.pairwise_of_forall_mem_list fun a ha b hb => ?_
      rw [hslot.due a ha, hslot.due b hb]
      exact UInt64.le_refl _
    · rw [hslot.due a ha]
      exact hle b hb
  · intro te hte
    rcases List.mem_append.mp hte with hevs | hrest
    · rw [hslot.due te hevs]
      exact hp
    · exact h.notEarly te hrest
  · refine h.standing.trans ((hlive.flatMap_right _).trans ?_)
    refine List.Perm.trans ?_ (hold.flatMap_right _).symm
    rw [List.flatMap_append, List.flatMap_append, flatMap_standing_due hnow hdue]

/-- The loop catches up within a slot for every millisecond it is behind. -/
theorem Keeping.catchUp {now : Nat} (hnow : now + 4294967296 < 2 ^ 64) :
    ∀ (fuel : Nat) {n : Nat} {q : TimerQueue κ δ}, Keeping n q → 0 < fuel →
      now + 2 ≤ fuel + q.pioneer.toNat →
      ∃ m evs q', q.catchUp now fuel = .ok (evs, q') ∧ Keeping m q' ∧
        q.pioneer ≤ q'.pioneer ∧ (∀ te ∈ evs, q.pioneer ≤ te.ts) ∧ CatchesUp now q evs q' := by
  intro fuel
  induction fuel with
  | zero => exact fun _ hpos _ => absurd hpos (Nat.lt_irrefl 0)
  | succ fuel ih =>
    intro n q h _ hfuel
    by_cases hexp : q.expired now = true
    · have hp := (h.wake.expired_iff hnow).mp hexp
      obtain ⟨m, evs, q₁, hget, h₁, hslot, hlt⟩ := h.slot hnow hp
      have hlt' := UInt64.lt_iff_toNat_lt.mp hlt
      obtain ⟨m', rest, q', hrest, h', hmono, hafter, hcatch⟩ := ih h₁ (by omega) (by omega)
      have hle : ∀ te ∈ rest, q.pioneer ≤ te.ts := fun te hte =>
        UInt64.le_trans (UInt64.le_of_lt hlt) (hafter te hte)
      refine ⟨m', evs ++ rest, q', ?_, h', UInt64.le_trans (UInt64.le_of_lt hlt) hmono,
        fun te hte => ?_, hcatch.of_slot hnow hp hslot hle⟩
      · rw [TimerQueue.catchUp, if_pos hexp, hget, ok_bind]
        dsimp only
        rw [hrest, ok_bind]
      · rcases List.mem_append.mp hte with hevs | hrest
        · rw [hslot.due te hevs]
          exact UInt64.le_refl _
        · exact hle te hrest
    · rw [Bool.not_eq_true] at hexp
      refine ⟨n, [], q, ?_, h, UInt64.le_refl _, fun te hte => ?_,
        h.catchesUp_nil hnow hexp⟩
      · rw [TimerQueue.catchUp, hexp]
        rfl
      · cases hte

/-! ## Any wake-ups -/

/-- The loop wakes at the times `times`, and catches up each time. -/
def wakes : List Nat → TimerQueue κ δ →
    Except Fault (List (TimerEvent κ δ) × TimerQueue κ δ)
  | [], q => .ok ([], q)
  | now :: times, q => do
    let (evs, q) ← q.catchUp now (now + 2)
    let (rest, q) ← wakes times q
    .ok (evs ++ rest, q)

/-- Catching up at `t` and then at `now` is catching up at `now`. -/
theorem CatchesUp.trans {t now : Nat} {q q₁ q' : TimerQueue κ δ}
    {evs rest : List (TimerEvent κ δ)} (ht : t ≤ now) (hnow : now + 4294967296 < 2 ^ 64)
    (h : CatchesUp t q evs q₁) (hlater : ∀ te ∈ rest, t < te.ts.toNat)
    (h' : CatchesUp now q₁ rest q') : CatchesUp now q (evs ++ rest) q' := by
  refine ⟨?_, ?_, ?_, ?_, h'.quiet⟩
  · rw [List.map_append]
    refine (h.fired.append (h'.fired.trans (h.standing.flatMap_right _))).trans ?_
    exact (flatMap_upTo_split ht hnow _).symm
  · refine List.pairwise_append.mpr ⟨h.inOrder, h'.inOrder, fun a ha b hb => ?_⟩
    exact UInt64.le_iff_toNat_le.mpr
      (Nat.le_of_lt (Nat.lt_of_le_of_lt (h.notEarly a ha) (hlater b hb)))
  · intro te hte
    rcases List.mem_append.mp hte with hevs | hrest
    · exact (h.notEarly te hevs).trans ht
    · exact h'.notEarly te hrest
  · rw [flatMap_standing_split ht hnow]
    exact h'.standing.trans (h.standing.flatMap_right _)

theorem Keeping.wakes {now : Nat} (hnow : now + 4294967296 < 2 ^ 64) :
    ∀ (times : List Nat) {n : Nat} {q : TimerQueue κ δ}, Keeping n q → (∀ t ∈ times, t ≤ now) →
      ∃ m evs q', q.wakes (times ++ [now]) = .ok (evs, q') ∧ Keeping m q' ∧
        (∀ te ∈ evs, q.pioneer ≤ te.ts) ∧ CatchesUp now q evs q' := by
  intro times
  induction times with
  | nil =>
    intro n q h _
    obtain ⟨m, evs, q', hcatch, h', _, hafter, hcatches⟩ :=
      h.catchUp hnow (now + 2) (by omega) (by omega)
    refine ⟨m, evs, q', ?_, h', hafter, hcatches⟩
    rw [List.nil_append, TimerQueue.wakes, hcatch, ok_bind]
    dsimp only
    rw [TimerQueue.wakes, ok_bind, List.append_nil]
  | cons t times ih =>
    intro n q h htimes
    obtain ⟨ht, htimes⟩ := List.forall_mem_cons.mp htimes
    have htlt : t + 4294967296 < 2 ^ 64 := Nat.lt_of_le_of_lt (Nat.add_le_add_right ht _) hnow
    obtain ⟨m, evs, q₁, hcatch, h₁, hmono, hafter, hcatches⟩ :=
      h.catchUp htlt (t + 2) (by omega) (by omega)
    obtain ⟨m', rest, q', hrest, h', hafter', hcatches'⟩ := ih h₁ htimes
    -- the timerfd is set for after `t` now
    have hlt : t < q₁.pioneer.toNat := by
      refine Nat.not_le.mp fun hle => ?_
      have hexp := (h₁.wake.expired_iff htlt).mpr hle
      rw [hcatches.quiet] at hexp
      cases hexp
    have hlater : ∀ te ∈ rest, t < te.ts.toNat := fun te hte =>
      Nat.lt_of_lt_of_le hlt (UInt64.le_iff_toNat_le.mp (hafter' te hte))
    refine ⟨m', evs ++ rest, q', ?_, h', fun te hte => ?_,
      hcatches.trans ht hnow hlater hcatches'⟩
    · rw [List.cons_append, TimerQueue.wakes, hcatch, ok_bind]
      dsimp only
      rw [hrest, ok_bind]
    · rcases List.mem_append.mp hte with hevs | hmem
      · exact hafter te hevs
      · exact UInt64.le_trans hmono (hafter' te hmem)

end TimerQueue

/-! ## Every run -/

namespace TimerRun

open TimerQueue

theorem run_keeping {ops : List (TimerOp κ δ)} (hdom : ∀ op ∈ ops, BelowSentinel op)
    (hkeep : Meets step KeepsAhead start ops) {r : TimerRun κ δ} (hrun : run ops = .ok r) :
    Keeping r.issued r.queue := by
  have hmeets : Meets step (fun r op => KeepsAhead r op ∧ BelowSentinel op)
      (start : TimerRun κ δ) ops :=
    hkeep.imp_mem fun _ op hop hk => ⟨hk, hdom op hop⟩
  have hstart : Keeping (start : TimerRun κ δ).issued (start : TimerRun κ δ).queue :=
    ⟨inv_empty, .of_nil (BinHeap.ordered_nil expiry) rfl rfl rfl⟩
  have hend : Ends (ops.foldlM step start) (fun r => Keeping r.issued r.queue)
      (fun _ => True) := by
    refine Ends.foldlM_meets ?_ ops start hstart hmeets
    rintro r op h ⟨hk, hd⟩
    obtain ⟨r', hstep, hinv'⟩ := step_inv h.inv op
    rw [hstep]
    exact ⟨hinv', step_wakeInv h.inv h.wake hd hk hstep⟩
  exact hend.of_ok hrun

/-- **However late the loop wakes.**  After any run whose calls meet `KeepsAhead`, at
whatever times the loop wakes up to `now`: by `now` every expiry of every live timer up to
`now` has been delivered, each once, in the order of their times and none early; what is
live is the next expiry of each, and the timerfd is not set for a time that is over. -/
theorem deliveries_catch_up {ops : List (TimerOp κ δ)} (hdom : ∀ op ∈ ops, BelowSentinel op)
    (hkeep : Meets step KeepsAhead start ops) {r : TimerRun κ δ} (hrun : run ops = .ok r)
    (times : List Nat) {now : Nat} (hnow : now < 18446744069414584320)
    (htimes : ∀ t ∈ times, t ≤ now) :
    ∃ evs q', r.queue.wakes (times ++ [now]) = .ok (evs, q') ∧
      CatchesUp now r.queue evs q' := by
  have hfar : now + 4294967296 < 2 ^ 64 := by omega
  obtain ⟨_, evs, q', hwakes, _, _, hcatches⟩ :=
    (run_keeping hdom hkeep hrun).wakes hfar times htimes
  exact ⟨evs, q', hwakes, hcatches⟩

/-- A periodic and a one-shot timer; the loop wakes before either, then is busy until `20`. -/
theorem deliveries_catch_up_wakingRun :
    ∃ r evs q', run wakingRun = .ok r ∧ r.queue.wakes [7, 20] = .ok (evs, q') ∧
      CatchesUp 20 r.queue evs q' := by
  have hkeep : Meets step KeepsAhead start wakingRun := by decide +kernel
  obtain ⟨r, hrun, _⟩ := run_returns wakingRun
  have hnow : 20 < 18446744069414584320 := by decide
  obtain ⟨evs, q', h⟩ := deliveries_catch_up (by decide) hkeep hrun [7] hnow (by decide)
  exact ⟨r, evs, q', hrun, h⟩

end TimerRun

end EasyReactor.Timer
