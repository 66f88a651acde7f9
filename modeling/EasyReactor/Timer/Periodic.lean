import EasyReactor.Timer.Handle

set_option autoImplicit false

/-!
# Timer: a periodic timer stays until it is deleted

The ledger says what has been delivered of a timer, and that at most its next expiry is
live.  Here it is live for certain: the timer is periodic, and no `del_timer` of the run
finds it.  Which timer `del_timer` finds is up to `_position`, so that is what `Undeleted`
asks.
-/

namespace EasyReactor.Timer.TimerRun

open EasyReactor.Foundation TimerQueue

variable {κ δ : Type}

/-- No `del_timer` of the run takes out the timer of call `i`. -/
def Undeleted (ops : List (TimerOp κ δ)) (i : Nat) : Prop :=
  ∀ (j : Nat) (id : Int32), ops[j]? = some (.delTimer id) →
    ∀ t, run (numbered (ops.take j)) = .ok t →
      ∀ (pos : Nat) (e : TimerEvent κ (δ × Nat)), t.queue.position id = some pos →
        t.queue.eventLst[pos]? = some e → e.cbData.2 ≠ i

variable {ops : List (TimerOp κ δ)} {t t' : TimerRun κ (δ × Nat)} {i : Nat}

theorem Undeleted.of_concat {op : TimerOp κ δ} (h : Undeleted (ops ++ [op]) i) :
    Undeleted ops i := by
  intro j id hj t ht
  have hlt : j < ops.length := (List.getElem?_eq_some_iff.mp hj).1
  refine h j id (by rw [List.getElem?_append_left hlt, hj]) t ?_
  rwa [List.take_append_of_le_length (Nat.le_of_lt hlt)]

/-- The timer of call `i` is live. -/
def Live (i : Nat) (t : TimerRun κ (δ × Nat)) : Prop := ∃ e ∈ t.queue.eventLst, e.cbData.2 = i

theorem live_iff : Live i t ↔ share i (t.queue.eventLst.map TimerEvent.payload) ≠ [] := by
  rw [ne_eq, share_eq_nil_iff]
  unfold Live
  push Not
  exact Iff.rfl

/-- A live timer has the period it was added with. -/
theorem Accounted.interval {te : TimerEvent κ δ} (h : Accounted ops t)
    (hi : ops[i]? = some (.addTimer te)) {e : TimerEvent κ (δ × Nat)}
    (he : e ∈ t.queue.eventLst) (hnum : e.cbData.2 = i) : e.interval = te.interval := by
  obtain ⟨n, hacc⟩ := h.added i te hi
  have hmem : (e.cb, e.cbData.1, e.ts, e.interval) ∈
      share i (t.queue.eventLst.map TimerEvent.payload) := by
    simp only [share, List.mem_map, List.mem_filter]
    exact ⟨e.payload, ⟨⟨e, he, rfl⟩, by simp [TimerEvent.payload, hnum]⟩, rfl⟩
  rcases hacc.pending with hL | ⟨hL, _⟩
  · rw [hL] at hmem
    cases hmem
  · rw [hL] at hmem
    exact congrArg (fun p => p.2.2.2) (List.mem_singleton.mp hmem)

/-- A timer with a payload of the list is in the list, but for its id. -/
theorem live_of_payload {e : TimerEvent κ (δ × Nat)} (hnum : e.cbData.2 = i)
    (he : e.payload ∈ t.queue.eventLst.map TimerEvent.payload) : Live i t := by
  obtain ⟨e', he', heq⟩ := List.mem_map.mp he
  refine ⟨e', he', ?_⟩
  rw [← hnum]
  exact congrArg (fun p => p.2.1.2) heq

/-- A call that does not take the timer out leaves a periodic timer live. -/
theorem Live.step {te : TimerEvent κ δ} (h : Live i t) (hinv : Inv t.issued t.queue)
    (hacc : Accounted ops t) (hi : ops[i]? = some (.addTimer te)) (hint : te.interval ≠ 0)
    {op : TimerOp κ (δ × Nat)}
    (hkeep : ∀ id pos e, op = .delTimer id → t.queue.position id = some pos →
      t.queue.eventLst[pos]? = some e → e.cbData.2 ≠ i)
    (hstep : t.step op = .ok t') : Live i t' := by
  obtain ⟨e, he, hnum⟩ := h
  cases step_cases hstep with
  | @addTimer new id q' hadd =>
    obtain ⟨_, hadd', _, hperm⟩ := addTimer_spec hinv new
    obtain ⟨_, rfl⟩ := Prod.mk.inj (Except.ok.inj (hadd.symm.trans hadd'))
    exact ⟨e, hperm.symm.subset (List.mem_cons_of_mem _ he), hnum⟩
  | @delTimer id q' hdel =>
    rcases delTimer_spec hinv id with
      ⟨_, hdel'⟩ | ⟨pos, d, q₁, _, hpos, hd, _, _, hrem, hdel', hsame, _⟩
    · obtain rfl := Except.ok.inj (hdel.symm.trans hdel')
      exact ⟨e, he, hnum⟩
    · obtain rfl := Except.ok.inj (hdel.symm.trans hdel')
      refine ⟨e, ?_, hnum⟩
      show e ∈ q'.eventLst
      rw [hsame.eventLst]
      rcases List.mem_cons.mp (hrem.perm.symm.subset he) with rfl | hrest
      · exact absurd hnum (hkeep id pos e rfl hpos hd)
      · exact hrest
  | @getTimo evs q' hget =>
    obtain ⟨_, rest, _, hget', _, hperm, hperm'⟩ := getTimo_spec hinv []
    obtain ⟨rfl, rfl⟩ := Prod.mk.inj (Except.ok.inj (hget.symm.trans hget'))
    rcases List.mem_append.mp (hperm.symm.subset he) with hfired | hrest
    · -- it is delivered, and put back for it is periodic
      have hre : e.advance ∈ reused evs := by
        refine List.mem_map_of_mem (List.mem_filter.mpr ⟨hfired, ?_⟩)
        rw [hacc.interval hi he hnum]
        exact decide_eq_true hint
      refine live_of_payload (e := e.advance) hnum (hperm'.symm.subset ?_)
      exact List.mem_append_left _ (List.mem_map_of_mem hre)
    · refine live_of_payload hnum (hperm'.symm.subset ?_)
      exact List.mem_append_right _ (List.mem_map_of_mem hrest)

theorem run_live {te : TimerEvent κ δ} (hi : ops[i]? = some (.addTimer te))
    (hint : te.interval ≠ 0) (hkeep : Undeleted ops i) (hrun : run (numbered ops) = .ok t) :
    Live i t := by
  induction ops using List.reverseRecOn generalizing t with
  | nil => cases hi
  | append_singleton ops op ih =>
    obtain ⟨t₀, hrun₀, hinv, hacc⟩ := run_accounted ops
    rw [numbered_concat] at hrun
    obtain ⟨t₁, ht₁, hstep⟩ := foldlM_concat_eq_ok.mp hrun
    obtain rfl := Except.ok.inj (hrun₀.symm.trans ht₁)
    rcases getElem?_concat_cases hi with ⟨_, hi₀⟩ | ⟨rfl, rfl⟩
    · refine (ih hi₀ hkeep.of_concat hrun₀).step hinv hacc hi₀ hint ?_ hstep
      intro id pos e hop hpos he
      cases op with
      | addTimer te' => cases hop
      | delTimer id' =>
        obtain rfl := TimerOp.delTimer.inj hop
        refine hkeep ops.length id' (by simp) t₀ ?_ pos e hpos he
        rwa [List.take_left']
        rfl
      | getTimo => cases hop
    · obtain ⟨q', hadd, _, hperm⟩ := addTimer_spec hinv (te.map fun d => (d, ops.length))
      change t₀.step (.addTimer _) = _ at hstep
      rw [step, hadd, ok_bind] at hstep
      obtain rfl := Except.ok.inj hstep
      exact ⟨_, hperm.symm.subset List.mem_cons_self, rfl⟩

/-- A periodic timer has been delivered at its first expiries, and unless it was deleted
its next expiry is live. -/
theorem run_periodic {te : TimerEvent κ δ} (hi : ops[i]? = some (.addTimer te))
    (hint : te.interval ≠ 0) :
    ∃ t n, run (numbered ops) = .ok t ∧
      share i (t.fired.map TimerEvent.payload) = (List.range n).map (schedule te) ∧
      (Undeleted ops i →
        share i (t.queue.eventLst.map TimerEvent.payload) = [schedule te n]) := by
  obtain ⟨t, hrun, _, hacc⟩ := run_accounted ops
  obtain ⟨n, h⟩ := hacc.added i te hi
  refine ⟨t, n, hrun, h.delivered, fun hkeep => ?_⟩
  rcases h.pending with hL | ⟨hL, _⟩
  · exact absurd hL (live_iff.mp (run_live hi hint hkeep hrun))
  · exact hL

end EasyReactor.Timer.TimerRun
