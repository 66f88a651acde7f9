import Mathlib.Logic.Function.Basic
import EasyReactor.Foundation.Outcome
import EasyReactor.Machine

set_option autoImplicit false

/-!
# Timer: the timer queue of `timer_queue.cc`

`timer_queue` keeps its timers in a `std::vector` laid out as a binary heap, a
map from timer id to heap position, the time it last armed the timerfd for
(`_pioneer`), and the id it will hand out next.

Every `_event_lst[i]` of the source is a checked access here: an index outside
the vector is `Fault.undefined`, so a proof that a call returns is a proof that every
index it used was in range.  Timer ids are the 32-bit `int` of the source, which wraps,
and times are its `uint64_t`.  Positions and `_count`, `int`s of the source, are natural
numbers: the two agree while there are fewer than `2 ^ 30` live timers, from where on
`2 * pos + 2` can overflow in the source.

The callback and its argument are never looked at by the queue, so both are type
parameters.
-/

namespace EasyReactor.Timer

open EasyReactor.Foundation

/-- `struct timer_event`. -/
structure TimerEvent (κ δ : Type) where
  /-- `timer_callback* cb` -/
  cb : κ
  /-- `void* cb_data` -/
  cbData : δ
  /-- absolute expiry time in milliseconds -/
  ts : UInt64
  /-- period in milliseconds, `0` for a one-shot timer -/
  interval : UInt32
  timerId : Int32
  deriving DecidableEq, Repr

/-- `te.ts += te.interval`, in `uint64_t` arithmetic. -/
def TimerEvent.advance {κ δ : Type} (te : TimerEvent κ δ) : TimerEvent κ δ :=
  { te with ts := te.ts + te.interval.toUInt64 }

/-- What the user gave and the queue must keep: everything but the id. -/
def TimerEvent.payload {κ δ : Type} (te : TimerEvent κ δ) : κ × δ × UInt64 × UInt32 :=
  (te.cb, te.cbData, te.ts, te.interval)

/-- The `it_value` of the `itimerspec` handed to `timerfd_settime`. -/
structure ItValue where
  tvSec : Nat
  tvNsec : Nat
  deriving DecidableEq, Repr

/-- `class timer_queue`.  `itValue` is what the timerfd was last set to. -/
structure TimerQueue (κ δ : Type) where
  eventLst : List (TimerEvent κ δ)
  position : Int32 → Option Nat
  count : Nat
  nextTimerId : Int32
  pioneer : UInt64
  itValue : ItValue

namespace TimerQueue

variable {κ δ : Type}

/-- `(uint64_t)-1`, the value of `_pioneer` when no timer is armed. -/
def noPioneer : UInt64 := 0xFFFFFFFFFFFFFFFF

/-- `timer_queue::timer_queue`. -/
def empty : TimerQueue κ δ where
  eventLst := []
  position := fun _ => none
  count := 0
  nextTimerId := 0
  pioneer := noPioneer
  itValue := ⟨0, 0⟩

/-- `_event_lst[i]`. -/
def eventAt (q : TimerQueue κ δ) (i : Nat) : Except Fault (TimerEvent κ δ) :=
  match q.eventLst[i]? with
  | some te => .ok te
  | none => .error .undefined

/-- `_position[id] = pos`. -/
def setPosition (q : TimerQueue κ δ) (id : Int32) (pos : Nat) : TimerQueue κ δ :=
  { q with position := Function.update q.position id (some pos) }

/-- `_position.erase(id)`. -/
def erasePosition (q : TimerQueue κ δ) (id : Int32) : TimerQueue κ δ :=
  { q with position := Function.update q.position id none }

/-- `_event_lst[pos] = te`. -/
def setEvent (q : TimerQueue κ δ) (pos : Nat) (te : TimerEvent κ δ) : TimerQueue κ δ :=
  { q with eventLst := q.eventLst.set pos te }

/-- `_event_lst.push_back(te); _position[te.timer_id] = _count;` and `_count++`. -/
def pushBack (q : TimerQueue κ δ) (te : TimerEvent κ δ) : TimerQueue κ δ :=
  { q with eventLst := q.eventLst ++ [te], count := q.count + 1 }.setPosition te.timerId q.count

/-- `_count--; _event_lst.pop_back();` -/
def dropRear (q : TimerQueue κ δ) : TimerQueue κ δ :=
  { q with count := q.count - 1, eventLst := q.eventLst.dropLast }

/-- The exchange `heap_add` and `heap_hold` both make: cell `i` holds `a`, cell
`j` holds `b`; afterwards they are exchanged and both positions are updated, that
of the timer now in cell `i` first. -/
def exchange (q : TimerQueue κ δ) (i j : Nat) (a b : TimerEvent κ δ) : TimerQueue κ δ :=
  ({ q with eventLst := (q.eventLst.set i b).set j a }.setPosition b.timerId i).setPosition
    a.timerId j

/-- `timer_queue::reset_timo`. -/
def resetTimo (q : TimerQueue κ δ) : TimerQueue κ δ :=
  { q with
    itValue :=
      if q.pioneer = noPioneer then ⟨0, 0⟩
      else ⟨(q.pioneer / 1000).toNat, ((q.pioneer % 1000) * 1000000).toNat⟩ }

/-- `_pioneer = ts; reset_timo();` -/
def arm (q : TimerQueue κ δ) (ts : UInt64) : TimerQueue κ δ :=
  { q with pioneer := ts }.resetTimo

/-! ## Heap operations -/

theorem eventAt_eq_ok {q : TimerQueue κ δ} {i : Nat} {te : TimerEvent κ δ} :
    q.eventAt i = .ok te ↔ q.eventLst[i]? = some te := by
  unfold eventAt
  split <;> simp_all

/-- The `while` loop of `heap_add`.  The parent of position `0` is computed as
`(0 - 1) / 2`, which is `0` in C++ too, and no timer is earlier than itself. -/
def heapAddLoop (q : TimerQueue κ δ) (currPos : Nat) : Except Fault (TimerQueue κ δ) :=
  let prtPos := (currPos - 1) / 2
  match _hc : q.eventAt currPos, _hp : q.eventAt prtPos with
  | .ok c, .ok p =>
    if _hlt : c.ts < p.ts then heapAddLoop (q.exchange currPos prtPos c p) prtPos
    else .ok q
  | .error f, _ => .error f
  | _, .error f => .error f
termination_by currPos
decreasing_by
  by_cases h0 : currPos = 0
  · subst h0
    have hcp : c = p := Except.ok.inj (_hc.symm.trans _hp)
    exact absurd _hlt (hcp ▸ UInt64.lt_irrefl c.ts)
  · omega

theorem heapAddLoop_eq {q : TimerQueue κ δ} {currPos : Nat} {c p : TimerEvent κ δ}
    (hc : q.eventAt currPos = .ok c) (hp : q.eventAt ((currPos - 1) / 2) = .ok p) :
    q.heapAddLoop currPos =
      if c.ts < p.ts then
        (q.exchange currPos ((currPos - 1) / 2) c p).heapAddLoop ((currPos - 1) / 2)
      else .ok q := by
  rw [heapAddLoop]
  split
  · rename_i c' p' hc' hp'
    obtain rfl := Except.ok.inj (hc.symm.trans hc')
    obtain rfl := Except.ok.inj (hp.symm.trans hp')
    rw [dite_eq_ite]
  · rename_i hc'
    exact absurd (hc.symm.trans hc') (by simp)
  · rename_i hp' _
    exact absurd (hp.symm.trans hp') (by simp)

/-- `timer_queue::heap_add`. -/
def heapAdd (q : TimerQueue κ δ) (te : TimerEvent κ δ) : Except Fault (TimerQueue κ δ) :=
  (q.pushBack te).heapAddLoop q.count

/-- One of the two tests of `heap_hold`: prefer `child` to `minPos` when it is in
the heap and strictly earlier. -/
def prefer (q : TimerQueue κ δ) (minPos child : Nat) : Except Fault Nat :=
  if child < q.count then do
    let m ← q.eventAt minPos
    let c ← q.eventAt child
    .ok (if m.ts > c.ts then child else minPos)
  else .ok minPos

/-- `min_pos` as `heap_hold` computes it. -/
def minPos (q : TimerQueue κ δ) (pos : Nat) : Except Fault Nat := do
  let m ← q.prefer pos (2 * pos + 1)
  q.prefer m (2 * pos + 2)

theorem prefer_cases {q : TimerQueue κ δ} {m c r : Nat} (h : q.prefer m c = .ok r) :
    (r = m ∧ ∀ a b, c < q.count → q.eventLst[m]? = some a → q.eventLst[c]? = some b →
        a.ts ≤ b.ts) ∨
      (r = c ∧ c < q.count ∧ ∃ a b, q.eventLst[m]? = some a ∧ q.eventLst[c]? = some b ∧
        b.ts < a.ts) := by
  unfold prefer at h
  split at h
  · rename_i hc
    obtain ⟨a, ha, h⟩ := bind_eq_ok.mp h
    obtain ⟨b, hb, h⟩ := bind_eq_ok.mp h
    rw [eventAt_eq_ok] at ha hb
    have hr := Except.ok.inj h
    split at hr
    · rename_i hlt
      exact .inr ⟨hr.symm, hc, a, b, ha, hb, hlt⟩
    · rename_i hle
      refine .inl ⟨hr.symm, fun a' b' _ ha' hb' => ?_⟩
      obtain rfl := Option.some.inj (ha.symm.trans ha')
      obtain rfl := Option.some.inj (hb.symm.trans hb')
      exact UInt64.not_lt.mp hle
  · rename_i hc
    obtain rfl := Except.ok.inj h
    exact .inl ⟨rfl, fun _ _ hlt => absurd hlt hc⟩

theorem minPos_bounds {q : TimerQueue κ δ} {pos m : Nat} (h : q.minPos pos = .ok m) :
    m = pos ∨ (pos < m ∧ m < q.count) := by
  obtain ⟨m₁, h₁, h₂⟩ := bind_eq_ok.mp h
  rcases prefer_cases h₁ with ⟨rfl, _⟩ | ⟨rfl, hc₁, _⟩ <;>
    rcases prefer_cases h₂ with ⟨rfl, _⟩ | ⟨rfl, hc₂, _⟩ <;> omega

@[simp] theorem exchange_count (q : TimerQueue κ δ) (i j : Nat) (a b : TimerEvent κ δ) :
    (q.exchange i j a b).count = q.count := rfl

@[simp] theorem exchange_eventLst (q : TimerQueue κ δ) (i j : Nat) (a b : TimerEvent κ δ) :
    (q.exchange i j a b).eventLst = (q.eventLst.set i b).set j a := rfl

/-- `timer_queue::heap_hold`. -/
def heapHold (q : TimerQueue κ δ) (pos : Nat) : Except Fault (TimerQueue κ δ) :=
  match _hm : q.minPos pos with
  | .error f => .error f
  | .ok m =>
    if m = pos then .ok q
    else
      match q.eventAt m, q.eventAt pos with
      | .ok a, .ok b => heapHold (q.exchange m pos a b) m
      | .error f, _ => .error f
      | _, .error f => .error f
termination_by q.count - pos
decreasing_by
  have := minPos_bounds _hm
  simp only [exchange_count]
  omega

theorem heapHold_stop {q : TimerQueue κ δ} {pos : Nat} (hm : q.minPos pos = .ok pos) :
    q.heapHold pos = .ok q := by
  rw [heapHold]
  split
  · rename_i hm'
    exact absurd (hm.symm.trans hm') (by simp)
  · rename_i m hm'
    obtain rfl := Except.ok.inj (hm.symm.trans hm')
    rw [if_pos rfl]

theorem heapHold_move {q : TimerQueue κ δ} {pos m : Nat} {a b : TimerEvent κ δ}
    (hm : q.minPos pos = .ok m) (hne : m ≠ pos) (ha : q.eventAt m = .ok a)
    (hb : q.eventAt pos = .ok b) :
    q.heapHold pos = (q.exchange m pos a b).heapHold m := by
  rw [heapHold]
  split
  · rename_i hm'
    exact absurd (hm.symm.trans hm') (by simp)
  · rename_i m' hm'
    obtain rfl := Except.ok.inj (hm.symm.trans hm')
    rw [if_neg hne, ha, hb]

/-- `timer_queue::heap_del`. -/
def heapDel (q : TimerQueue κ δ) (pos : Nat) : Except Fault (TimerQueue κ δ) := do
  let toDel ← q.eventAt pos
  let tmp ← q.eventAt (q.count - 1)
  let q := ((q.setEvent pos tmp).setPosition tmp.timerId pos).erasePosition toDel.timerId
  q.dropRear.heapHold pos

/-- `timer_queue::heap_pop`. -/
def heapPop (q : TimerQueue κ δ) : Except Fault (TimerQueue κ δ) :=
  if q.count = 0 then .ok q
  else do
    let top ← q.eventAt 0
    let q := q.erasePosition top.timerId
    if 1 < q.count then
      let tmp ← q.eventAt (q.count - 1)
      ((q.setEvent 0 tmp).setPosition tmp.timerId 0).dropRear.heapHold 0
    else .ok { q with eventLst := [], count := 0 }

theorem heapHold_count {q q' : TimerQueue κ δ} {pos : Nat} (h : q.heapHold pos = .ok q') :
    q'.count = q.count := by
  fun_induction heapHold q pos with
  | case1 => cases h
  | case2 =>
    obtain rfl := Except.ok.inj h
    rfl
  | case3 q pos m hm hne a b ha hb ih =>
    rw [ih h, exchange_count]
  | case4 => cases h
  | case5 => cases h

theorem heapPop_count {q q' : TimerQueue κ δ} (hq : q.count ≠ 0) (h : q.heapPop = .ok q') :
    q'.count + 1 = q.count := by
  unfold heapPop at h
  rw [if_neg hq] at h
  obtain ⟨top, _, h⟩ := bind_eq_ok.mp h
  by_cases h1 : 1 < q.count
  · rw [if_pos (show 1 < (q.erasePosition top.timerId).count from h1)] at h
    obtain ⟨tmp, _, h⟩ := bind_eq_ok.mp h
    rw [heapHold_count h]
    show q.count - 1 + 1 = q.count
    omega
  · rw [if_neg (show ¬ 1 < (q.erasePosition top.timerId).count from h1)] at h
    obtain rfl := Except.ok.inj h
    show 0 + 1 = q.count
    omega

/-! ## The operations of the queue -/

/-- `_pioneer = -1; reset_timo();` -/
def disarm (q : TimerQueue κ δ) : TimerQueue κ δ := q.arm noPioneer

/-- `if (_event_lst[0].ts < _pioneer) { _pioneer = _event_lst[0].ts; reset_timo(); }` -/
def armEarlier (q : TimerQueue κ δ) : Except Fault (TimerQueue κ δ) := do
  let top ← q.eventAt 0
  .ok (if top.ts < q.pioneer then q.arm top.ts else q)

/-- `timer_queue::add_timer`: the id given to the timer, and the new queue. -/
def addTimer (q : TimerQueue κ δ) (te : TimerEvent κ δ) :
    Except Fault (Int32 × TimerQueue κ δ) := do
  let id := q.nextTimerId
  let q ← { q with nextTimerId := q.nextTimerId + 1 }.heapAdd { te with timerId := id }
  let q ← q.armEarlier
  .ok (id, q)

/-- `timer_queue::del_timer`.  An unknown id is logged and nothing else. -/
def delTimer (q : TimerQueue κ δ) (id : Int32) : Except Fault (TimerQueue κ δ) :=
  match q.position id with
  | none => .ok q
  | some pos => do
    let q ← q.heapDel pos
    if q.count = 0 then .ok q.disarm else q.armEarlier

/-- The `while` loop of `get_timo`, with `fired_evs` and `_reuse_lst` as they stand. -/
def getTimoLoop (q : TimerQueue κ δ) (firedEvs reuseLst : List (TimerEvent κ δ)) :
    Except Fault (TimerQueue κ δ × List (TimerEvent κ δ) × List (TimerEvent κ δ)) :=
  if _hq : q.count = 0 then .ok (q, firedEvs, reuseLst)
  else
    match q.eventAt 0 with
    | .error f => .error f
    | .ok te =>
      if q.pioneer = te.ts then
        match _hp : q.heapPop with
        | .error f => .error f
        | .ok q' =>
          getTimoLoop q' (firedEvs ++ [te])
            (if te.interval ≠ 0 then reuseLst ++ [te.advance] else reuseLst)
      else .ok (q, firedEvs, reuseLst)
termination_by q.count
decreasing_by
  have := heapPop_count _hq _hp
  omega

theorem getTimoLoop_pop {q q' : TimerQueue κ δ} {firedEvs reuseLst : List (TimerEvent κ δ)}
    {te : TimerEvent κ δ} (hq : q.count ≠ 0) (htop : q.eventAt 0 = .ok te)
    (hts : q.pioneer = te.ts) (hpop : q.heapPop = .ok q') :
    q.getTimoLoop firedEvs reuseLst =
      q'.getTimoLoop (firedEvs ++ [te])
        (if te.interval ≠ 0 then reuseLst ++ [te.advance] else reuseLst) := by
  rw [getTimoLoop, dif_neg hq]
  simp only [htop, hts, if_true]
  split
  · rename_i hpop'
    exact absurd (hpop.symm.trans hpop') (by simp)
  · rename_i q₁ hpop'
    obtain rfl := Except.ok.inj (hpop.symm.trans hpop')
    rfl

/-- The timers `get_timo` queues for reuse when `evs` fire. -/
def reused (evs : List (TimerEvent κ δ)) : List (TimerEvent κ δ) :=
  (evs.filter fun te => te.interval ≠ 0).map TimerEvent.advance

/-- `timer_queue::get_timo`: `fired_evs` and the new queue. -/
def getTimo (q : TimerQueue κ δ) (firedEvs : List (TimerEvent κ δ)) :
    Except Fault (List (TimerEvent κ δ) × TimerQueue κ δ) := do
  let (q, firedEvs, reuseLst) ← q.getTimoLoop firedEvs []
  let q ← reuseLst.foldlM (fun q te => Prod.snd <$> q.addTimer te) q
  if q.count = 0 then .ok (firedEvs, q.disarm)
  else
    let top ← q.eventAt 0
    .ok (firedEvs, q.arm top.ts)

/-- The parts of a `get_timo` that returns: the due timers leave the heap, the periodic
ones come back, and the timerfd is set. -/
theorem getTimo_cases {q q' : TimerQueue κ δ} {firedEvs evs : List (TimerEvent κ δ)}
    (h : q.getTimo firedEvs = .ok (evs, q')) :
    ∃ q₁ reuseLst q₂, q.getTimoLoop firedEvs [] = .ok (q₁, evs, reuseLst) ∧
      reuseLst.foldlM (fun q te => Prod.snd <$> q.addTimer te) q₁ = .ok q₂ ∧
      (q₂.count = 0 ∧ q' = q₂.disarm ∨
        q₂.count ≠ 0 ∧ ∃ top, q₂.eventAt 0 = .ok top ∧ q' = q₂.arm top.ts) := by
  obtain ⟨⟨q₁, evs', reuseLst⟩, hloop, h⟩ := bind_eq_ok.mp h
  obtain ⟨q₂, hadd, h⟩ := bind_eq_ok.mp h
  split at h
  next h0 =>
    obtain ⟨rfl, rfl⟩ := Prod.mk.inj (Except.ok.inj h)
    exact ⟨q₁, reuseLst, q₂, hloop, hadd, .inl ⟨h0, rfl⟩⟩
  next h0 =>
    obtain ⟨top, htop, h⟩ := bind_eq_ok.mp h
    obtain ⟨rfl, rfl⟩ := Prod.mk.inj (Except.ok.inj h)
    exact ⟨q₁, reuseLst, q₂, hloop, hadd, .inr ⟨h0, top, htop, rfl⟩⟩

end TimerQueue

/-! ## Runs -/

/-- The public calls on a `timer_queue`. -/
inductive TimerOp (κ δ : Type) where
  | addTimer (te : TimerEvent κ δ)
  | delTimer (id : Int32)
  | getTimo

/-- A queue with the history of the calls made on it: every event `get_timo` has
appended to a `fired_evs`, in order, and the number of timer ids handed out. -/
structure TimerRun (κ δ : Type) where
  queue : TimerQueue κ δ
  fired : List (TimerEvent κ δ)
  issued : Nat

namespace TimerRun

variable {κ δ : Type}

def start : TimerRun κ δ := ⟨.empty, [], 0⟩

open TimerQueue (reused)

/-- One call.  `get_timo` hands out an id for every periodic timer it re-adds. -/
def step (r : TimerRun κ δ) : TimerOp κ δ → Except Fault (TimerRun κ δ)
  | .addTimer te => do
    let (_, q) ← r.queue.addTimer te
    .ok { r with queue := q, issued := r.issued + 1 }
  | .delTimer id => do
    let q ← r.queue.delTimer id
    .ok { r with queue := q }
  | .getTimo => do
    let (evs, q) ← r.queue.getTimo []
    .ok
      { queue := q
        fired := r.fired ++ evs
        issued := r.issued + (reused evs).length }

/-- What a call that returns does. -/
inductive Stepped (r : TimerRun κ δ) : TimerOp κ δ → TimerRun κ δ → Prop where
  | addTimer {te : TimerEvent κ δ} {id : Int32} {q : TimerQueue κ δ}
      (add : r.queue.addTimer te = .ok (id, q)) :
      Stepped r (.addTimer te) { r with queue := q, issued := r.issued + 1 }
  | delTimer {id : Int32} {q : TimerQueue κ δ} (del : r.queue.delTimer id = .ok q) :
      Stepped r (.delTimer id) { r with queue := q }
  | getTimo {evs : List (TimerEvent κ δ)} {q : TimerQueue κ δ}
      (get : r.queue.getTimo [] = .ok (evs, q)) :
      Stepped r .getTimo ⟨q, r.fired ++ evs, r.issued + (reused evs).length⟩

theorem step_cases {r r' : TimerRun κ δ} {op : TimerOp κ δ} (h : r.step op = .ok r') :
    Stepped r op r' := by
  cases op with
  | addTimer te =>
    obtain ⟨⟨id, q⟩, hadd, h⟩ := bind_eq_ok.mp h
    obtain rfl := Except.ok.inj h
    exact .addTimer hadd
  | delTimer id =>
    obtain ⟨q, hdel, h⟩ := bind_eq_ok.mp h
    obtain rfl := Except.ok.inj h
    exact .delTimer hdel
  | getTimo =>
    obtain ⟨⟨evs, q⟩, hget, h⟩ := bind_eq_ok.mp h
    obtain rfl := Except.ok.inj h
    exact .getTimo hget

/-- The calls `ops`, made in order on a new queue. -/
def run (ops : List (TimerOp κ δ)) : Except Fault (TimerRun κ δ) :=
  ops.foldlM step start

end TimerRun

end EasyReactor.Timer
