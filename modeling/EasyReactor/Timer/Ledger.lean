import Mathlib.Data.List.Induction
import Mathlib.Data.Multiset.AddSub
import EasyReactor.Timer.Position

set_option autoImplicit false

/-!
# Timer: no timer is lost, duplicated or altered

Two readings of the same fact.  `Conserves` is the ledger of a single call, on the
multiset of live timers without their ids.  `Accounted` is the ledger of a whole
run and needs to tell timers apart that look the same.  The queue gives a
periodic timer a new id at every expiry, so ids cannot do that; but it never looks
at `cb_data`.  So the run is repeated with every `cb_data` paired with the number of
the call that added it: erasing the numbers gives back the original run
(`run_map`), and the numbers say which timer each delivery belongs to.
-/

namespace EasyReactor.Timer

open EasyReactor.Foundation

variable {κ δ ε : Type}

/-! ## The queue does not look at the callback data -/

def TimerEvent.map (f : δ → ε) (te : TimerEvent κ δ) : TimerEvent κ ε :=
  ⟨te.cb, f te.cbData, te.ts, te.interval, te.timerId⟩

def TimerOp.map (f : δ → ε) : TimerOp κ δ → TimerOp κ ε
  | .addTimer te => .addTimer (te.map f)
  | .delTimer id => .delTimer id
  | .getTimo => .getTimo

namespace TimerQueue

def map (f : δ → ε) (q : TimerQueue κ δ) : TimerQueue κ ε :=
  ⟨q.eventLst.map (TimerEvent.map f), q.position, q.count, q.nextTimerId, q.pioneer, q.itValue⟩

variable (f : δ → ε)

theorem eventAt_map {q : TimerQueue κ δ} {i : Nat} {te : TimerEvent κ δ}
    (h : q.eventAt i = .ok te) : (q.map f).eventAt i = .ok (te.map f) := by
  rw [eventAt_eq_ok] at h ⊢
  simp only [map, List.getElem?_map, h, Option.map_some]

theorem exchange_map (q : TimerQueue κ δ) (i j : Nat) (a b : TimerEvent κ δ) :
    (q.map f).exchange i j (a.map f) (b.map f) = (q.exchange i j a b).map f := by
  simp only [exchange, map, setPosition, List.map_set, TimerEvent.map]

theorem heapAddLoop_map {q q' : TimerQueue κ δ} {currPos : Nat}
    (h : q.heapAddLoop currPos = .ok q') : (q.map f).heapAddLoop currPos = .ok (q'.map f) := by
  fun_induction heapAddLoop q currPos with
  | case1 q currPos prtPos c p hc hp hlt ih =>
    rw [heapAddLoop_eq (eventAt_map f hc) (eventAt_map f hp),
      if_pos (show (c.map f).ts < (p.map f).ts from hlt), exchange_map]
    exact ih h
  | case2 q currPos prtPos c p hc hp hlt =>
    obtain rfl := Except.ok.inj h
    rw [heapAddLoop_eq (eventAt_map f hc) (eventAt_map f hp),
      if_neg (show ¬ (c.map f).ts < (p.map f).ts from hlt)]
  | case3 => cases h
  | case4 => cases h

theorem prefer_map {q : TimerQueue κ δ} {m c r : Nat} (h : q.prefer m c = .ok r) :
    (q.map f).prefer m c = .ok r := by
  unfold prefer at h ⊢
  by_cases hc : c < q.count
  · rw [if_pos hc] at h
    obtain ⟨a, ha, h⟩ := bind_eq_ok.mp h
    obtain ⟨b, hb, h⟩ := bind_eq_ok.mp h
    rw [if_pos (show c < (q.map f).count from hc), eventAt_map f ha, ok_bind, eventAt_map f hb,
      ok_bind]
    exact h
  · rw [if_neg hc] at h
    rw [if_neg (show ¬ c < (q.map f).count from hc)]
    exact h

theorem minPos_map {q : TimerQueue κ δ} {pos m : Nat} (h : q.minPos pos = .ok m) :
    (q.map f).minPos pos = .ok m := by
  obtain ⟨m₁, h₁, h₂⟩ := bind_eq_ok.mp h
  rw [minPos, prefer_map f h₁, ok_bind, prefer_map f h₂]

theorem heapHold_map {q q' : TimerQueue κ δ} {pos : Nat} (h : q.heapHold pos = .ok q') :
    (q.map f).heapHold pos = .ok (q'.map f) := by
  fun_induction heapHold q pos with
  | case1 => cases h
  | case2 q m hm =>
    obtain rfl := Except.ok.inj h
    exact heapHold_stop (minPos_map f hm)
  | case3 q pos m hm hne a b hb ha ih =>
    rw [heapHold_move (minPos_map f hm) hne (eventAt_map f ha) (eventAt_map f hb), exchange_map]
    exact ih h
  | case4 => cases h
  | case5 => cases h

theorem heapAdd_map {q q' : TimerQueue κ δ} {te : TimerEvent κ δ} (h : q.heapAdd te = .ok q') :
    (q.map f).heapAdd (te.map f) = .ok (q'.map f) := by
  have hpush : (q.map f).pushBack (te.map f) = (q.pushBack te).map f := by
    simp [pushBack, map, setPosition, TimerEvent.map]
  rw [heapAdd, hpush]
  exact heapAddLoop_map f h

theorem heapDel_map {q q' : TimerQueue κ δ} {pos : Nat} (h : q.heapDel pos = .ok q') :
    (q.map f).heapDel pos = .ok (q'.map f) := by
  obtain ⟨d, hd, h⟩ := bind_eq_ok.mp h
  obtain ⟨r, hr, h⟩ := bind_eq_ok.mp h
  have hfill : (q.map f).fillDel pos (d.map f) (r.map f) = (q.fillDel pos d r).map f := by
    simp [fillDel, map, setPosition, erasePosition, setEvent, dropRear, TimerEvent.map,
      List.map_set, List.map_dropLast]
  rw [heapDel_eq (eventAt_eq_ok.mp (eventAt_map f hd)) (eventAt_eq_ok.mp (eventAt_map f hr)), hfill]
  exact heapHold_map f h

theorem heapPop_map {q q' : TimerQueue κ δ} (h : q.heapPop = .ok q') :
    (q.map f).heapPop = .ok (q'.map f) := by
  by_cases h0 : q.count = 0
  · rw [heapPop, if_pos h0] at h
    obtain rfl := Except.ok.inj h
    exact if_pos h0
  · have hd := h
    rw [heapPop, if_neg h0] at hd
    obtain ⟨d, hd, _⟩ := bind_eq_ok.mp hd
    have hd' := eventAt_eq_ok.mp (eventAt_map f hd)
    by_cases h1 : 1 < q.count
    · have hr := h
      rw [heapPop, if_neg h0, hd, ok_bind,
        if_pos (show 1 < (q.erasePosition d.timerId).count from h1)] at hr
      obtain ⟨r, hr, _⟩ := bind_eq_ok.mp hr
      have hr' := eventAt_eq_ok.mp (eventAt_map f (show q.eventAt (q.count - 1) = .ok r from hr))
      have hfill : (q.map f).fillPop (d.map f) (r.map f) = (q.fillPop d r).map f := by
        simp [fillPop, map, setPosition, erasePosition, setEvent, dropRear, TimerEvent.map,
          List.map_set, List.map_dropLast]
      rw [heapPop_eq (show 1 < (q.map f).count from h1) hd' hr', hfill]
      rw [heapPop_eq h1 (eventAt_eq_ok.mp hd) (eventAt_eq_ok.mp hr)] at h
      exact heapHold_map f h
    · have hone : q.count = 1 := by omega
      rw [heapPop_one hone (eventAt_eq_ok.mp hd)] at h
      obtain rfl := Except.ok.inj h
      rw [heapPop_one (show (q.map f).count = 1 from hone) hd']
      simp [map, erasePosition, TimerEvent.map]

theorem armEarlier_map {q q' : TimerQueue κ δ} (h : q.armEarlier = .ok q') :
    (q.map f).armEarlier = .ok (q'.map f) := by
  obtain ⟨top, htop, h⟩ := bind_eq_ok.mp h
  rw [armEarlier, eventAt_map f htop, ok_bind, ← Except.ok.inj h]
  show Except.ok (if top.ts < q.pioneer then _ else _) = _
  split <;> rfl

theorem addTimer_map {q q' : TimerQueue κ δ} {te : TimerEvent κ δ} {id : Int32}
    (h : q.addTimer te = .ok (id, q')) : (q.map f).addTimer (te.map f) = .ok (id, q'.map f) := by
  obtain ⟨q₁, h₁, h⟩ := bind_eq_ok.mp h
  obtain ⟨q₂, h₂, h⟩ := bind_eq_ok.mp h
  obtain ⟨rfl, rfl⟩ := Prod.mk.inj (Except.ok.inj h)
  have hadd := heapAdd_map f h₁
  show (_ >>= _) = _
  rw [show ({ q.map f with nextTimerId := (q.map f).nextTimerId + 1 } : TimerQueue κ ε).heapAdd
      { te.map f with timerId := (q.map f).nextTimerId } = .ok (q₁.map f) from hadd,
    ok_bind, armEarlier_map f h₂, ok_bind]
  rfl

theorem delTimer_map {q q' : TimerQueue κ δ} {id : Int32} (h : q.delTimer id = .ok q') :
    (q.map f).delTimer id = .ok (q'.map f) := by
  have hmap : (q.map f).position id = q.position id := rfl
  unfold delTimer at h ⊢
  rw [hmap]
  cases hpos : q.position id with
  | none =>
    rw [hpos] at h
    obtain rfl := Except.ok.inj h
    rfl
  | some pos =>
    rw [hpos] at h
    obtain ⟨q₁, h₁, h⟩ := bind_eq_ok.mp h
    show (_ >>= _) = _
    rw [heapDel_map f h₁, ok_bind]
    show (if q₁.count = 0 then _ else _) = _
    split at h
    · rename_i h0
      rw [if_pos h0, ← Except.ok.inj h]
      rfl
    · rename_i h0
      rw [if_neg h0]
      exact armEarlier_map f h

theorem getTimoLoop_map {q q' : TimerQueue κ δ}
    {fired reuse fired' reuse' : List (TimerEvent κ δ)}
    (h : q.getTimoLoop fired reuse = .ok (q', fired', reuse')) :
    (q.map f).getTimoLoop (fired.map (TimerEvent.map f)) (reuse.map (TimerEvent.map f)) =
      .ok (q'.map f, fired'.map (TimerEvent.map f), reuse'.map (TimerEvent.map f)) := by
  fun_induction getTimoLoop q fired reuse with
  | case1 q fired reuse hq =>
    obtain ⟨rfl, rfl, rfl⟩ := by simpa using h
    rw [getTimoLoop, dif_pos (show (q.map f).count = 0 from hq)]
  | case2 => cases h
  | case3 => cases h
  | case4 q fired reuse hq te htop hts q₁ hpop ih =>
    rw [getTimoLoop_pop (show (q.map f).count ≠ 0 from hq) (eventAt_map f htop) hts
      (heapPop_map f hpop)]
    rw [← dite_eq_ite] at h
    have hrec := ih h
    by_cases hint : te.interval = 0
    · have hint' : (te.map f).interval = 0 := hint
      simp only [hint, ne_eq, not_true, dite_false, List.map_append, List.map_cons,
        List.map_nil] at hrec
      rw [if_neg (not_not_intro hint')]
      exact hrec
    · have hint' : (te.map f).interval ≠ 0 := hint
      simp only [hint, ne_eq, not_false_eq_true, dite_true, List.map_append, List.map_cons,
        List.map_nil] at hrec
      rw [if_pos hint']
      exact hrec
  | case5 q fired reuse hq te htop hts =>
    obtain ⟨rfl, rfl, rfl⟩ := by simpa using h
    rw [getTimoLoop, dif_neg (show (q.map f).count ≠ 0 from hq), eventAt_map f htop]
    exact if_neg hts

theorem readd_map : ∀ (reuse : List (TimerEvent κ δ)) {q q' : TimerQueue κ δ},
    reuse.foldlM (fun q te => Prod.snd <$> q.addTimer te) q = .ok q' →
    (reuse.map (TimerEvent.map f)).foldlM (fun q te => Prod.snd <$> q.addTimer te) (q.map f) =
      .ok (q'.map f) := by
  intro reuse
  induction reuse with
  | nil =>
    intro q q' h
    obtain rfl := Except.ok.inj h
    rfl
  | cons te rest ih =>
    intro q q' h
    rw [List.foldlM_cons] at h
    obtain ⟨q₁, h₁, h⟩ := bind_eq_ok.mp h
    cases hadd : q.addTimer te with
    | error e =>
      rw [hadd] at h₁
      cases h₁
    | ok r =>
      rw [hadd] at h₁
      obtain rfl := Except.ok.inj h₁
      rw [List.map_cons, List.foldlM_cons, addTimer_map f hadd]
      exact ih h

theorem getTimo_map {q q' : TimerQueue κ δ} {fired fired' : List (TimerEvent κ δ)}
    (h : q.getTimo fired = .ok (fired', q')) :
    (q.map f).getTimo (fired.map (TimerEvent.map f)) =
      .ok (fired'.map (TimerEvent.map f), q'.map f) := by
  obtain ⟨q₁, reuse, q₂, hloop, hadd, hset⟩ := getTimo_cases h
  rw [getTimo, show ([] : List (TimerEvent κ ε)) = [].map (TimerEvent.map f) from rfl,
    getTimoLoop_map f hloop, ok_bind]
  dsimp only
  rw [readd_map f reuse hadd, ok_bind]
  show (if q₂.count = 0 then _ else _) = _
  rcases hset with ⟨h0, rfl⟩ | ⟨h0, top, htop, rfl⟩
  · rw [if_pos h0]
    rfl
  · rw [if_neg h0, eventAt_map f htop, ok_bind]
    rfl

theorem reused_map (evs : List (TimerEvent κ δ)) :
    reused (evs.map (TimerEvent.map f)) = (reused evs).map (TimerEvent.map f) := by
  simp only [reused, List.filter_map, List.map_map]
  rfl

end TimerQueue

namespace TimerRun

def map (f : δ → ε) (r : TimerRun κ δ) : TimerRun κ ε :=
  ⟨r.queue.map f, r.fired.map (TimerEvent.map f), r.issued⟩

theorem step_map (f : δ → ε) {r r' : TimerRun κ δ} {op : TimerOp κ δ} (h : r.step op = .ok r') :
    (r.map f).step (op.map f) = .ok (r'.map f) := by
  cases step_cases h with
  | @addTimer te id q' hadd =>
    show ((r.queue.map f).addTimer (te.map f) >>= _) = _
    rw [TimerQueue.addTimer_map f hadd, ok_bind]
    rfl
  | @delTimer id q' hdel =>
    show ((r.queue.map f).delTimer id >>= _) = _
    rw [TimerQueue.delTimer_map f hdel, ok_bind]
    rfl
  | getTimo hget =>
    have hmap := TimerQueue.getTimo_map f hget
    show ((r.queue.map f).getTimo [] >>= _) = _
    rw [show (r.queue.map f).getTimo [] = _ from hmap, ok_bind]
    simp only [map, TimerQueue.reused_map, List.length_map, List.map_append]

/-- Erasing commutes with whole runs. -/
theorem run_map (f : δ → ε) : ∀ (ops : List (TimerOp κ δ)) {r : TimerRun κ δ},
    run ops = .ok r → run (ops.map (TimerOp.map f)) = .ok (r.map f) := by
  intro ops
  induction ops using List.reverseRecOn with
  | nil =>
    intro r h
    obtain rfl := Except.ok.inj h
    rfl
  | append_singleton ops op ih =>
    intro r h
    obtain ⟨r₀, h₀, hstep⟩ := foldlM_concat_eq_ok.mp h
    rw [run, List.map_append]
    exact foldlM_concat_eq_ok.mpr ⟨r₀.map f, ih h₀, step_map f hstep⟩

end TimerRun

/-! ## The ledger of one call -/

namespace TimerQueue

/-- The live timers, without their ids. -/
def live (q : TimerQueue κ δ) : Multiset (κ × δ × UInt64 × UInt32) :=
  (q.eventLst.map TimerEvent.payload : List _)

/-- What each call does to the live timers: `add_timer` adds the timer it is given;
`del_timer` removes the one timer that has the id, or nothing when none has it;
`get_timo` removes what it appends to `fired_evs` and puts back the periodic ones,
each one period later. -/
structure Conserves (q : TimerQueue κ δ) : Prop where
  add : ∀ te : TimerEvent κ δ, ∃ id q', q.addTimer te = .ok (id, q') ∧
    q'.live = te.payload ::ₘ q.live
  del : ∀ id, ∃ q', q.delTimer id = .ok q' ∧
    ((∃ d ∈ q.eventLst, d.timerId = id ∧ (∀ e ∈ q.eventLst, e.timerId = id → e = d) ∧
        q.live = d.payload ::ₘ q'.live) ∨
      ((∀ e ∈ q.eventLst, e.timerId ≠ id) ∧ q'.live = q.live))
  get : ∀ fired : List (TimerEvent κ δ), ∃ evs q' rest,
    q.getTimo fired = .ok (fired ++ evs, q') ∧
      q.live = (evs.map TimerEvent.payload : List _) + rest ∧
      q'.live = ((reused evs).map TimerEvent.payload : List _) + rest

theorem conserves_of_inv {n : Nat} {q : TimerQueue κ δ} (h : Inv n q) (hn : n < 2 ^ 31) :
    Conserves q := by
  have hc := h.consistent (Nat.le_of_lt hn)
  refine ⟨fun te => ?_, fun id => ?_, fun fired => ?_⟩
  · obtain ⟨q', hadd, _, hperm⟩ := addTimer_spec h te
    exact ⟨_, q', hadd, Multiset.coe_eq_coe.mpr (hperm.map TimerEvent.payload)⟩
  · rcases delTimer_spec h id with
      ⟨hnone, hdel⟩ | ⟨pos, d, q₁, q', _, hd, hid, _, hrem, hdel, hsame, _⟩
    · refine ⟨q, hdel, .inr ⟨?_, rfl⟩⟩
      rintro e he rfl
      obtain ⟨i, hi⟩ := List.mem_iff_getElem?.mp he
      rw [hc.complete i e hi] at hnone
      cases hnone
    · refine ⟨q', hdel, .inl ⟨d, List.mem_of_getElem? hd, hid, ?_, ?_⟩⟩
      · intro e he heid
        obtain ⟨i, hi⟩ := List.mem_iff_getElem?.mp he
        obtain rfl := hc.index_unique hi hd (heid.trans hid.symm)
        exact Option.some.inj (hi.symm.trans hd)
      · rw [live, live, hsame.eventLst]
        exact Multiset.coe_eq_coe.mpr (hrem.perm.symm.map TimerEvent.payload)
  · obtain ⟨evs, rest, q', hget, _, hperm, hperm'⟩ := getTimo_spec h fired
    refine ⟨evs, q', (rest.map TimerEvent.payload : List _), hget, ?_, ?_⟩
    · rw [live, Multiset.coe_add, ← List.map_append]
      exact Multiset.coe_eq_coe.mpr (hperm.symm.map TimerEvent.payload)
    · rw [live, Multiset.coe_add]
      exact Multiset.coe_eq_coe.mpr hperm'

end TimerQueue

/-! ## Deliveries over a whole run -/

/-- Everything about a timer but its id. -/
abbrev Payload (κ δ : Type) : Type := κ × δ × UInt64 × UInt32

/-- The `k`-th expiry of a timer, counted from `0`: `k` periods after the first. -/
def schedule (te : TimerEvent κ δ) (k : Nat) : Payload κ δ :=
  (te.cb, te.cbData, te.ts + UInt64.ofNat k * te.interval.toUInt64, te.interval)

/-- `TimerEvent.advance` on a payload. -/
def Payload.advance (p : Payload κ δ) : Payload κ δ :=
  (p.1, p.2.1, p.2.2.1 + p.2.2.2.toUInt64, p.2.2.2)

/-- What `get_timo` puts back for the deliveries `ps`. -/
def putBack (ps : List (Payload κ δ)) : List (Payload κ δ) :=
  (ps.filter fun p => p.2.2.2 ≠ 0).map Payload.advance

theorem schedule_zero (te : TimerEvent κ δ) : schedule te 0 = te.payload := by
  simp [schedule, TimerEvent.payload]

theorem advance_schedule (te : TimerEvent κ δ) (k : Nat) :
    (schedule te k).advance = schedule te (k + 1) := by
  simp only [schedule, Payload.advance, UInt64.ofNat_add, UInt64.add_mul, UInt64.add_assoc]
  simp

/-- The deliveries `F` of a timer so far and its live copies `L`: `F` follows the
schedule from its start, and at most the next expiry is live. -/
structure Account (te : TimerEvent κ δ) (n : Nat) (F L : List (Payload κ δ)) : Prop where
  delivered : F = (List.range n).map (schedule te)
  pending : L = [] ∨ (L = [schedule te n] ∧ (te.interval = 0 → n = 0))
  once : te.interval = 0 → n ≤ 1

theorem Account.del {te : TimerEvent κ δ} {n : Nat} {F L L' : List (Payload κ δ)}
    (h : Account te n F L) (hsub : L' = [] ∨ L'.Perm L) : Account te n F L' := by
  refine ⟨h.delivered, ?_, h.once⟩
  rcases hsub with rfl | hperm
  · exact .inl rfl
  · rcases h.pending with rfl | ⟨rfl, h0⟩
    · exact .inl hperm.eq_nil
    · exact .inr ⟨List.perm_singleton.mp hperm, h0⟩

theorem Account.get {te : TimerEvent κ δ} {n : Nat} {F L L' E R : List (Payload κ δ)}
    (h : Account te n F L) (hL : (E ++ R).Perm L) (hL' : L'.Perm (putBack E ++ R)) :
    ∃ n', Account te n' (F ++ E) L' := by
  rcases h.pending with rfl | ⟨rfl, h0⟩
  · -- nothing was live, so nothing was delivered
    obtain ⟨rfl, rfl⟩ := List.append_eq_nil_iff.mp hL.eq_nil
    exact ⟨n, by simpa using h.delivered, .inl (by simpa [putBack] using hL'), h.once⟩
  · rcases List.append_eq_singleton_iff.mp (List.perm_singleton.mp hL) with
      ⟨rfl, rfl⟩ | ⟨rfl, rfl⟩
    · -- the live copy was not delivered
      refine ⟨n, by simpa using h.delivered, .inr ⟨?_, h0⟩, h.once⟩
      exact List.perm_singleton.mp (by simpa [putBack] using hL')
    · -- the live copy was delivered, and comes back when it is periodic
      refine ⟨n + 1, ?_, ?_, fun hint => by rw [h0 hint]⟩
      · rw [h.delivered, List.range_succ, List.map_append]
        rfl
      · by_cases hint : te.interval = 0
        · refine .inl (List.perm_nil.mp ?_)
          simpa [putBack, schedule, hint] using hL'
        · refine .inr ⟨List.perm_singleton.mp ?_, fun h => absurd h hint⟩
          rw [← advance_schedule]
          simpa [putBack, schedule, hint] using hL'

/-- The part of a list of numbered payloads that belongs to call `i`. -/
def share (i : Nat) (ps : List (Payload κ (δ × Nat))) : List (Payload κ δ) :=
  (ps.filter fun p => p.2.1.2 = i).map fun p => (p.1, p.2.1.1, p.2.2.1, p.2.2.2)

theorem share_append (i : Nat) (ps qs : List (Payload κ (δ × Nat))) :
    share i (ps ++ qs) = share i ps ++ share i qs := by
  simp [share]

theorem share_perm (i : Nat) {ps qs : List (Payload κ (δ × Nat))} (h : ps.Perm qs) :
    (share i ps).Perm (share i qs) :=
  (h.filter _).map _

theorem share_ne_nil {evs : List (TimerEvent κ (δ × Nat))} {e : TimerEvent κ (δ × Nat)}
    (he : e ∈ evs) : share e.cbData.2 (evs.map TimerEvent.payload) ≠ [] := by
  apply List.ne_nil_of_mem (a := (e.cb, e.cbData.1, e.ts, e.interval))
  simp only [share, List.mem_map, List.mem_filter]
  exact ⟨e.payload, ⟨⟨e, he, rfl⟩, by simp [TimerEvent.payload]⟩, rfl⟩

theorem share_putBack (i : Nat) (ps : List (Payload κ (δ × Nat))) :
    share i (putBack ps) = putBack (share i ps) := by
  induction ps with
  | nil => rfl
  | cons p ps ih =>
    simp only [share, putBack] at ih ⊢
    by_cases hi : p.2.1.2 = i <;> by_cases hp : p.2.2.2 = 0 <;>
      simp_all [Payload.advance]

theorem map_payload_reused (evs : List (TimerEvent κ δ)) :
    (TimerQueue.reused evs).map TimerEvent.payload = putBack (evs.map TimerEvent.payload) := by
  simp only [TimerQueue.reused, putBack, List.filter_map, List.map_map]
  rfl

/-- The calls, each `cb_data` paired with the number of the call that carries it. -/
def numbered (ops : List (TimerOp κ δ)) : List (TimerOp κ (δ × Nat)) :=
  ops.mapIdx fun i op => op.map fun d => (d, i)

theorem map_fst_numbered (ops : List (TimerOp κ δ)) :
    (numbered ops).map (TimerOp.map Prod.fst) = ops := by
  refine List.ext_getElem (by simp [numbered]) (fun i h₁ h₂ => ?_)
  simp only [numbered, List.getElem_map, List.getElem_mapIdx]
  cases ops[i] <;> rfl

theorem numbered_concat (ops : List (TimerOp κ δ)) (op : TimerOp κ δ) :
    numbered (ops ++ [op]) = numbered ops ++ [op.map fun d => (d, ops.length)] := by
  simp [numbered, List.mapIdx_append]

namespace TimerRun

/-- Every delivery and every live timer of a numbered run belongs to an `add_timer`
call, and follows that call's schedule. -/
structure Accounted (ops : List (TimerOp κ δ)) (t : TimerRun κ (δ × Nat)) : Prop where
  added : ∀ (i : Nat) (te : TimerEvent κ δ), ops[i]? = some (.addTimer te) →
    ∃ n, Account te n (share i (t.fired.map TimerEvent.payload))
      (share i (t.queue.eventLst.map TimerEvent.payload))
  other : ∀ i : Nat, (∀ te, ops[i]? ≠ some (.addTimer te)) →
    share i (t.fired.map TimerEvent.payload) = [] ∧
      share i (t.queue.eventLst.map TimerEvent.payload) = []

open TimerQueue

theorem Accounted.addTimer {ops : List (TimerOp κ δ)} {t t' : TimerRun κ (δ × Nat)}
    (h : Accounted ops t) (hinv : Inv t.issued t.queue) (te : TimerEvent κ δ)
    (hstep : t.step (.addTimer (te.map fun d => (d, ops.length))) = .ok t') :
    Accounted (ops ++ [.addTimer te]) t' := by
  obtain ⟨q', hadd, _, hperm⟩ := addTimer_spec hinv (te.map fun d => (d, ops.length))
  rw [step, hadd, ok_bind] at hstep
  obtain rfl := Except.ok.inj hstep
  have hlive := hperm.map TimerEvent.payload
  have hold : ∀ i, i ≠ ops.length →
      (share i (q'.eventLst.map TimerEvent.payload)).Perm
        (share i (t.queue.eventLst.map TimerEvent.payload)) := by
    intro i hi
    have := share_perm i hlive
    simpa [share, TimerEvent.payload, TimerEvent.map, Ne.symm hi] using this
  refine ⟨fun i e hi => ?_, fun i hi => ?_⟩
  · rcases getElem?_concat_cases hi with ⟨hlt, hi⟩ | ⟨rfl, hnew⟩
    · obtain ⟨n, hacc⟩ := h.added i e hi
      exact ⟨n, hacc.del (.inr (hold i (Nat.ne_of_lt hlt)))⟩
    · -- the new timer: nothing carried this number before
      obtain rfl : te = e := TimerOp.addTimer.inj hnew
      obtain ⟨hF, hL⟩ := h.other ops.length (by simp)
      refine ⟨0, by simpa using hF, .inr ⟨List.perm_singleton.mp ?_, fun _ => rfl⟩,
        fun _ => by simp⟩
      have hnew := share_perm ops.length hlive
      rw [schedule_zero]
      have hL' : (t.queue.eventLst.map TimerEvent.payload).filter
          (fun p => p.2.1.2 = ops.length) = [] := by simpa [share] using hL
      simpa [share, TimerEvent.payload, TimerEvent.map, hL'] using hnew
  · have hne : i ≠ ops.length := by
      rintro rfl
      exact hi te (by simp)
    have hi₀ : ∀ e, ops[i]? ≠ some (.addTimer e) := by
      intro e he
      have hlt : i < ops.length := (List.getElem?_eq_some_iff.mp he).1
      exact hi e (by rw [List.getElem?_append_left hlt, he])
    obtain ⟨hF, hL⟩ := h.other i hi₀
    exact ⟨hF, (hL ▸ hold i hne).eq_nil⟩

/-- A call other than `add_timer` adds no number, so it is enough to follow the
numbers there are. -/
theorem Accounted.of_shares {ops : List (TimerOp κ δ)} {t t' : TimerRun κ (δ × Nat)}
    (h : Accounted ops t) {op : TimerOp κ δ} (hop : ∀ te, op ≠ .addTimer te)
    (hkeep : ∀ (i : Nat) (te : TimerEvent κ δ) (n : Nat),
      Account te n (share i (t.fired.map TimerEvent.payload))
        (share i (t.queue.eventLst.map TimerEvent.payload)) →
      ∃ n', Account te n' (share i (t'.fired.map TimerEvent.payload))
        (share i (t'.queue.eventLst.map TimerEvent.payload)))
    (hnone : ∀ i, share i (t.queue.eventLst.map TimerEvent.payload) = [] →
      share i (t'.fired.map TimerEvent.payload) = share i (t.fired.map TimerEvent.payload) ∧
        share i (t'.queue.eventLst.map TimerEvent.payload) = []) :
    Accounted (ops ++ [op]) t' := by
  have hget : ∀ (i : Nat) (te : TimerEvent κ δ),
      (ops ++ [op])[i]? = some (.addTimer te) ↔ ops[i]? = some (.addTimer te) := by
    intro i te
    constructor
    · intro hi
      rcases getElem?_concat_cases hi with ⟨_, hi⟩ | ⟨_, hi⟩
      · exact hi
      · exact absurd hi (hop te)
    · intro hi
      have hlt : i < ops.length := (List.getElem?_eq_some_iff.mp hi).1
      rw [List.getElem?_append_left hlt, hi]
  refine ⟨fun i te hi => ?_, fun i hi => ?_⟩
  · obtain ⟨n, hacc⟩ := h.added i te ((hget i te).mp hi)
    exact hkeep i te n hacc
  · obtain ⟨hF, hL⟩ := h.other i (fun te hte => hi te ((hget i te).mpr hte))
    obtain ⟨hF', hL'⟩ := hnone i hL
    exact ⟨hF'.trans hF, hL'⟩

theorem Accounted.delTimer {ops : List (TimerOp κ δ)} {t t' : TimerRun κ (δ × Nat)}
    (h : Accounted ops t) (hinv : Inv t.issued t.queue) (id : Int32)
    (hstep : t.step (.delTimer id) = .ok t') : Accounted (ops ++ [.delTimer id]) t' := by
  -- for every number, either its live copy goes or nothing happens to it
  have hlive : t'.fired = t.fired ∧ ∀ i,
      share i (t'.queue.eventLst.map TimerEvent.payload) = [] ∨
        (share i (t'.queue.eventLst.map TimerEvent.payload)).Perm
          (share i (t.queue.eventLst.map TimerEvent.payload)) ∨
        ∃ x, (x :: share i (t'.queue.eventLst.map TimerEvent.payload)).Perm
          (share i (t.queue.eventLst.map TimerEvent.payload)) := by
    rcases delTimer_spec hinv id with
      ⟨_, hdel⟩ | ⟨pos, d, q₁, q', _, _, _, _, hrem, hdel, hsame, _⟩
    · rw [step, hdel, ok_bind] at hstep
      obtain rfl := Except.ok.inj hstep
      exact ⟨rfl, fun i => .inr (.inl (List.Perm.refl _))⟩
    · rw [step, hdel, ok_bind] at hstep
      obtain rfl := Except.ok.inj hstep
      refine ⟨rfl, fun i => ?_⟩
      have hperm := share_perm i (hrem.perm.map TimerEvent.payload)
      rw [← hsame.eventLst] at hperm
      by_cases hi : d.cbData.2 = i
      · exact .inr (.inr ⟨_, by simpa [share, TimerEvent.payload, hi] using hperm⟩)
      · exact .inr (.inl (by simpa [share, TimerEvent.payload, hi] using hperm))
  obtain ⟨hfired, hlive⟩ := hlive
  refine h.of_shares (fun te => by simp) (fun i te n hacc => ⟨n, ?_⟩) (fun i hL => ?_)
  · rw [hfired]
    rcases hlive i with hnil | hsame | ⟨x, hx⟩
    · exact hacc.del (.inl hnil)
    · exact hacc.del (.inr hsame)
    · refine hacc.del (.inl ?_)
      rcases hacc.pending with hL | ⟨hL, _⟩
      · rw [hL] at hx
        exact absurd hx.length_eq (by simp)
      · rw [hL] at hx
        simpa using hx.length_eq
  · refine ⟨by rw [hfired], ?_⟩
    rcases hlive i with hnil | hsame | ⟨x, hx⟩
    · exact hnil
    · rw [hL] at hsame
      exact hsame.eq_nil
    · rw [hL] at hx
      exact absurd hx.length_eq (by simp)

theorem Accounted.getTimo {ops : List (TimerOp κ δ)} {t t' : TimerRun κ (δ × Nat)}
    (h : Accounted ops t) (hinv : Inv t.issued t.queue)
    (hstep : t.step .getTimo = .ok t') : Accounted (ops ++ [.getTimo]) t' := by
  obtain ⟨evs, rest, q', hget, _, hperm, hperm'⟩ := getTimo_spec hinv []
  rw [step, hget, ok_bind] at hstep
  obtain rfl := Except.ok.inj hstep
  rw [map_payload_reused] at hperm'
  have hL := hperm.map TimerEvent.payload
  rw [List.map_append] at hL
  refine h.of_shares (fun te => by simp) (fun i te n hacc => ?_) (fun i hnil => ?_)
  · simp only [List.nil_append, List.map_append, share_append]
    refine hacc.get (E := share i (evs.map TimerEvent.payload))
      (R := share i (rest.map TimerEvent.payload)) ?_ ?_
    · rw [← share_append]
      exact share_perm i hL
    · rw [← share_putBack, ← share_append]
      exact share_perm i hperm'
  · have hnil' := share_perm i hL
    rw [hnil, share_append] at hnil'
    obtain ⟨hE, hR⟩ := List.append_eq_nil_iff.mp hnil'.eq_nil
    refine ⟨by simp [share_append, hE], List.perm_nil.mp ?_⟩
    have := share_perm i hperm'
    rwa [share_append, share_putBack, hE, hR] at this

theorem run_accounted (ops : List (TimerOp κ δ)) :
    ∃ t, run (numbered ops) = .ok t ∧ Inv t.issued t.queue ∧ Accounted ops t := by
  induction ops using List.reverseRecOn with
  | nil =>
    refine ⟨start, rfl, inv_empty, fun i te hi => by simp at hi, fun i _ => ⟨rfl, rfl⟩⟩
  | append_singleton ops op ih =>
    obtain ⟨t, hrun, hinv, hacc⟩ := ih
    obtain ⟨t', hstep, hinv'⟩ := step_inv hinv (op.map fun d => (d, ops.length))
    refine ⟨t', ?_, hinv', ?_⟩
    · rw [run, numbered_concat]
      exact foldlM_concat_eq_ok.mpr ⟨t, hrun, hstep⟩
    · cases op with
      | addTimer te => exact hacc.addTimer hinv te hstep
      | delTimer id => exact hacc.delTimer hinv id hstep
      | getTimo => exact hacc.getTimo hinv hstep

/-- **Timers are neither lost, duplicated nor altered.**  In every state reached
with fewer than `2 ^ 31` ids handed out each call conserves the live timers; and
over the whole run, with the timers told apart by the number of the call that added
them, the deliveries of the timer of each `add_timer` call are the first expiries
of its schedule, in order and each once, at most one for a one-shot timer. -/
theorem timers_conserved (ops : List (TimerOp κ δ)) :
    ∃ r, run ops = .ok r ∧ (r.issued < 2 ^ 31 → Conserves r.queue) ∧
      ∃ t, run (numbered ops) = .ok t ∧ t.map Prod.fst = r ∧
        (∀ (i : Nat) (te : TimerEvent κ δ), ops[i]? = some (.addTimer te) →
          ∃ n, share i (t.fired.map TimerEvent.payload) = (List.range n).map (schedule te) ∧
            (te.interval = 0 → n ≤ 1)) ∧
        (∀ e ∈ t.fired, ∃ te, ops[e.cbData.2]? = some (.addTimer te)) := by
  obtain ⟨t, ht, hinv, hacc⟩ := run_accounted ops
  have hrun := run_map Prod.fst (numbered ops) ht
  rw [map_fst_numbered] at hrun
  obtain ⟨r, hr, hinv'⟩ := run_returns ops
  obtain rfl := Except.ok.inj (hrun.symm.trans hr)
  refine ⟨_, hrun, conserves_of_inv hinv', t, ht, rfl, fun i te hi => ?_, fun e he => ?_⟩
  · obtain ⟨n, h⟩ := hacc.added i te hi
    exact ⟨n, h.delivered, h.once⟩
  · -- a delivery with no `add_timer` call would be in an empty share
    cases hop : ops[e.cbData.2]? with
    | some op =>
      cases op with
      | addTimer te => exact ⟨te, rfl⟩
      | delTimer id =>
        exact absurd (hacc.other e.cbData.2 (by simp [hop])).1 (share_ne_nil he)
      | getTimo =>
        exact absurd (hacc.other e.cbData.2 (by simp [hop])).1 (share_ne_nil he)
    | none => exact absurd (hacc.other e.cbData.2 (by simp [hop])).1 (share_ne_nil he)

end TimerRun

end EasyReactor.Timer
