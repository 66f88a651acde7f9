import EasyReactor.Foundation.BinHeap
import EasyReactor.Timer.Queue

set_option autoImplicit false

/-!
# Timer: the heap and its position index agree

What the two sifts of `timer_queue` do is said once, by `Exchanges`: they exchange
cells of the heap and record both new positions, any number of times.  Everything
that one exchange keeps is kept by a whole sift; in particular `Indexed` and
`Consistent` below, which do not mention the order of the heap, so they hold in
states where that order has been lost.

`Indexed` is what no run can break, however many ids have been handed out: the
cached `_count` is the size of the vector and every entry of `_position` points at
a timer with that id.  It already bounds every index the queue uses.
`Consistent` adds the converse, which needs the ids to be distinct.
-/

namespace EasyReactor.Timer

open EasyReactor.Foundation

namespace TimerQueue

variable {κ δ : Type}

/-! ## What a sift can do -/

/-- `q'` comes from `q` by exchanging pairs of distinct cells. -/
inductive Exchanges : TimerQueue κ δ → TimerQueue κ δ → Prop where
  | refl (q : TimerQueue κ δ) : Exchanges q q
  | step {q q' : TimerQueue κ δ} {i j : Nat} {a b : TimerEvent κ δ} (hij : i ≠ j)
      (ha : q.eventLst[i]? = some a) (hb : q.eventLst[j]? = some b)
      (rest : Exchanges (q.exchange i j a b) q') : Exchanges q q'

theorem exchange_eq_swap {q : TimerQueue κ δ} {i j : Nat} {a b : TimerEvent κ δ}
    (ha : q.eventLst[i]? = some a) (hb : q.eventLst[j]? = some b) :
    (q.exchange i j a b).eventLst = BinHeap.swap q.eventLst i j := by
  rw [exchange_eventLst, BinHeap.swap_eq ha hb]

/-- A property kept by one exchange is kept by a sift. -/
theorem Exchanges.keeps {P : TimerQueue κ δ → Prop}
    (hstep : ∀ {q : TimerQueue κ δ} {i j : Nat} {a b : TimerEvent κ δ}, i ≠ j →
      q.eventLst[i]? = some a → q.eventLst[j]? = some b → P q → P (q.exchange i j a b))
    {q q' : TimerQueue κ δ} (h : Exchanges q q') (hq : P q) : P q' := by
  induction h with
  | refl q => exact hq
  | step hij ha hb _ ih => exact ih (hstep hij ha hb hq)

/-- The parts of the queue a sift leaves alone. -/
structure SameTimers (q q' : TimerQueue κ δ) : Prop where
  perm : q'.eventLst.Perm q.eventLst
  count : q'.count = q.count
  nextTimerId : q'.nextTimerId = q.nextTimerId
  pioneer : q'.pioneer = q.pioneer

theorem Exchanges.sameTimers {q q' : TimerQueue κ δ} (h : Exchanges q q') :
    SameTimers q q' := by
  induction h with
  | refl q => exact ⟨List.Perm.refl _, rfl, rfl, rfl⟩
  | step hij ha hb _ ih =>
    refine ⟨ih.perm.trans ?_, ih.count, ih.nextTimerId, ih.pioneer⟩
    rw [exchange_eq_swap ha hb]
    exact BinHeap.swap_perm _ _ _

theorem Exchanges.itValue {q q' : TimerQueue κ δ} (h : Exchanges q q') :
    q'.itValue = q.itValue := by
  induction h with
  | refl q => rfl
  | step _ _ _ _ ih => exact ih

/-- The sift of `heap_add` returns, from any position in the heap. -/
theorem heapAddLoop_returns (q : TimerQueue κ δ) (currPos : Nat)
    (hpos : currPos < q.eventLst.length) :
    ∃ q', q.heapAddLoop currPos = .ok q' ∧ Exchanges q q' := by
  fun_induction heapAddLoop q currPos with
  | case1 q currPos prtPos c p hc hp hlt ih =>
    rw [eventAt_eq_ok] at hc hp
    have hprt : prtPos < q.eventLst.length := (List.getElem?_eq_some_iff.mp hp).1
    have hne : currPos ≠ prtPos := by
      rintro heq
      rw [← heq, hc] at hp
      exact UInt64.lt_irrefl _ (Option.some.inj hp ▸ hlt)
    obtain ⟨q', hq', hex⟩ := ih (by simpa using hprt)
    exact ⟨q', hq', .step hne hc hp hex⟩
  | case2 q currPos prtPos c p hc hp hlt => exact ⟨q, rfl, .refl q⟩
  | case3 q currPos f hc =>
    have hcur := List.getElem?_eq_getElem hpos
    rw [← eventAt_eq_ok] at hcur
    rw [hcur] at hc
    cases hc
  | case4 q currPos prtPos f hp =>
    have hprt : prtPos < q.eventLst.length := by
      simp only [prtPos]
      omega
    have hcur := List.getElem?_eq_getElem hprt
    rw [← eventAt_eq_ok] at hcur
    rw [hcur] at hp
    cases hp

/-- The two tests of `heap_hold` read inside the heap. -/
theorem minPos_returns {q : TimerQueue κ δ} (hq : q.count = q.eventLst.length) (pos : Nat) :
    ∃ m, q.minPos pos = .ok m := by
  have hprefer : ∀ m c, m < c → ∃ r, q.prefer m c = .ok r := by
    intro m c hmc
    unfold prefer
    split
    · rename_i hc
      have hm := List.getElem?_eq_getElem (l := q.eventLst) (i := m) (by omega)
      have hc := List.getElem?_eq_getElem (l := q.eventLst) (i := c) (by omega)
      rw [← eventAt_eq_ok] at hm hc
      rw [hm, hc]
      exact ⟨_, rfl⟩
    · exact ⟨m, rfl⟩
  obtain ⟨m, hm⟩ := hprefer pos (2 * pos + 1) (by omega)
  have hlt : m < 2 * pos + 2 := by
    rcases prefer_cases hm with ⟨rfl, _⟩ | ⟨rfl, _⟩ <;> omega
  obtain ⟨r, hr⟩ := hprefer m (2 * pos + 2) hlt
  exact ⟨r, by rw [minPos, hm, ok_bind, hr]⟩

/-- `heap_hold` returns, from any position whatever. -/
theorem heapHold_returns (q : TimerQueue κ δ) (pos : Nat)
    (hq : q.count = q.eventLst.length) :
    ∃ q', q.heapHold pos = .ok q' ∧ Exchanges q q' := by
  fun_induction heapHold q pos with
  | case1 q pos f hm =>
    obtain ⟨m, hm'⟩ := minPos_returns hq pos
    rw [hm'] at hm
    cases hm
  | case2 q m hm => exact ⟨q, rfl, .refl q⟩
  | case3 q pos m hm hne a b hb ha ih =>
    obtain ⟨q', hq', hex⟩ := ih (by simpa using hq)
    rw [eventAt_eq_ok] at ha hb
    exact ⟨q', hq', .step hne ha hb hex⟩
  | case4 q pos m hm hne f ha =>
    have hb := minPos_bounds hm
    have hcell := List.getElem?_eq_getElem (l := q.eventLst) (i := m) (by omega)
    rw [← eventAt_eq_ok, ha] at hcell
    cases hcell
  | case5 q pos m hm hne f hb =>
    have := minPos_bounds hm
    have hcell := List.getElem?_eq_getElem (l := q.eventLst) (i := pos) (by omega)
    rw [← eventAt_eq_ok, hb] at hcell
    cases hcell

/-! ## The index -/

/-- The cached count is right, and `_position` points only at timers of the heap
that carry the id it is asked for. -/
structure Indexed (q : TimerQueue κ δ) : Prop where
  size : q.count = q.eventLst.length
  sound : ∀ id p, q.position id = some p → ∃ te, q.eventLst[p]? = some te ∧ te.timerId = id

/-- `Indexed`, and every timer of the heap is found through its id. -/
structure Consistent (q : TimerQueue κ δ) : Prop extends Indexed q where
  complete : ∀ (i : Nat) (te : TimerEvent κ δ), q.eventLst[i]? = some te →
    q.position te.timerId = some i

theorem Consistent.index_unique {q : TimerQueue κ δ} (h : Consistent q) {i j : Nat}
    {a b : TimerEvent κ δ} (hi : q.eventLst[i]? = some a) (hj : q.eventLst[j]? = some b)
    (hid : a.timerId = b.timerId) : i = j := by
  have ha := h.complete i a hi
  rw [hid, h.complete j b hj] at ha
  exact (Option.some.inj ha).symm

theorem Consistent.nodup_ids {q : TimerQueue κ δ} (h : Consistent q) :
    (q.eventLst.map TimerEvent.timerId).Nodup := by
  refine List.pairwise_iff_getElem.mpr (fun i j hi hj hij heq => ?_)
  simp only [List.length_map] at hi hj
  simp only [List.getElem_map] at heq
  exact Nat.ne_of_lt hij
    (h.index_unique (List.getElem?_eq_getElem hi) (List.getElem?_eq_getElem hj) heq)

theorem Indexed.exchange {q : TimerQueue κ δ} (h : Indexed q) {i j : Nat}
    {a b : TimerEvent κ δ} (hij : i ≠ j) (ha : q.eventLst[i]? = some a)
    (hb : q.eventLst[j]? = some b) : Indexed (q.exchange i j a b) where
  size := by simpa using h.size
  sound id p hp := by
    rw [exchange_eq_swap ha hb, BinHeap.getElem?_swap ha hb]
    simp only [TimerQueue.exchange, setPosition, Function.update_apply] at hp
    split at hp
    · rename_i hid
      obtain rfl := Option.some.inj hp
      exact ⟨a, by simp, hid.symm⟩
    · split at hp
      · rename_i hid
        obtain rfl := Option.some.inj hp
        exact ⟨b, by simp [hij], hid.symm⟩
      · rename_i hida hidb
        obtain ⟨te, hte, hid⟩ := h.sound id p hp
        have hpi : p ≠ i := by
          rintro rfl
          rw [ha] at hte
          exact hida (Option.some.inj hte ▸ hid.symm)
        have hpj : p ≠ j := by
          rintro rfl
          rw [hb] at hte
          exact hidb (Option.some.inj hte ▸ hid.symm)
        exact ⟨te, by simp [hpi, hpj, hte], hid⟩

theorem Consistent.exchange {q : TimerQueue κ δ} (h : Consistent q) {i j : Nat}
    {a b : TimerEvent κ δ} (hij : i ≠ j) (ha : q.eventLst[i]? = some a)
    (hb : q.eventLst[j]? = some b) : Consistent (q.exchange i j a b) where
  toIndexed := h.toIndexed.exchange hij ha hb
  complete k te hk := by
    rw [exchange_eq_swap ha hb, BinHeap.getElem?_swap ha hb] at hk
    simp only [TimerQueue.exchange, setPosition, Function.update_apply]
    split at hk
    · rename_i hkj
      obtain rfl := Option.some.inj hk
      simp [hkj]
    · rename_i hkj
      split at hk
      · rename_i hki
        obtain rfl := Option.some.inj hk
        have hne : b.timerId ≠ a.timerId := fun e => hij (h.index_unique ha hb e.symm)
        simp [hne, hki]
      · rename_i hki
        have hnea : te.timerId ≠ a.timerId := fun e => hki (h.index_unique hk ha e)
        have hneb : te.timerId ≠ b.timerId := fun e => hkj (h.index_unique hk hb e)
        simp [hnea, hneb, h.complete k te hk]

theorem Exchanges.indexed {q q' : TimerQueue κ δ} (h : Exchanges q q') (hq : Indexed q) :
    Indexed q' :=
  h.keeps (fun hij ha hb hq => hq.exchange hij ha hb) hq

theorem Exchanges.consistent {q q' : TimerQueue κ δ} (h : Exchanges q q')
    (hq : Consistent q) : Consistent q' :=
  h.keeps (fun hij ha hb hq => hq.exchange hij ha hb) hq

/-! ## Adding a timer -/

theorem Indexed.pushBack {q : TimerQueue κ δ} (h : Indexed q) (te : TimerEvent κ δ) :
    Indexed (q.pushBack te) where
  size := by simp [TimerQueue.pushBack, setPosition, h.size]
  sound id p hp := by
    simp only [TimerQueue.pushBack, setPosition, Function.update_apply] at hp ⊢
    split at hp
    · rename_i hid
      obtain rfl := Option.some.inj hp
      exact ⟨te, by simp [h.size], hid.symm⟩
    · obtain ⟨e, he, hid⟩ := h.sound id p hp
      have hlt : p < q.eventLst.length := (List.getElem?_eq_some_iff.mp he).1
      exact ⟨e, by rw [List.getElem?_append_left hlt, he], hid⟩

theorem Consistent.pushBack {q : TimerQueue κ δ} (h : Consistent q) {te : TimerEvent κ δ}
    (hfresh : ∀ e ∈ q.eventLst, e.timerId ≠ te.timerId) : Consistent (q.pushBack te) where
  toIndexed := h.toIndexed.pushBack te
  complete i e he := by
    simp only [TimerQueue.pushBack, setPosition, Function.update_apply] at he ⊢
    rcases getElem?_concat_cases he with ⟨_, he⟩ | ⟨rfl, rfl⟩
    · rw [if_neg (hfresh e (List.mem_of_getElem? he))]
      exact h.complete i e he
    · simp [h.size]

/-- The heap operations of the queue, up to the time it is armed for: `q'` holds
the timers of `q` and `te`. -/
structure Adds (q : TimerQueue κ δ) (te : TimerEvent κ δ) (q' : TimerQueue κ δ) : Prop where
  perm : q'.eventLst.Perm (te :: q.eventLst)
  indexed : Indexed q'
  consistent : Consistent q → (∀ e ∈ q.eventLst, e.timerId ≠ te.timerId) → Consistent q'
  nextTimerId : q'.nextTimerId = q.nextTimerId
  pioneer : q'.pioneer = q.pioneer

theorem heapAdd_adds {q : TimerQueue κ δ} (h : Indexed q) (te : TimerEvent κ δ) :
    ∃ q', q.heapAdd te = .ok q' ∧ Adds q te q' := by
  have hlen : q.count < (q.pushBack te).eventLst.length := by
    simp [TimerQueue.pushBack, setPosition, h.size]
  obtain ⟨q', hq', hex⟩ := heapAddLoop_returns (q.pushBack te) q.count hlen
  have hsame := hex.sameTimers
  refine ⟨q', hq', ?_, hex.indexed (h.pushBack te), ?_, hsame.nextTimerId, hsame.pioneer⟩
  · exact hsame.perm.trans (List.perm_append_singleton te q.eventLst)
  · intro hc hfresh
    exact hex.consistent (hc.pushBack hfresh)

/-! ## Removing a timer -/

/-- `q'` holds the timers of `q` but `d`. -/
structure Removes (q : TimerQueue κ δ) (d : TimerEvent κ δ) (q' : TimerQueue κ δ) : Prop where
  perm : (d :: q'.eventLst).Perm q.eventLst
  indexed : Indexed q'
  consistent : Consistent q → Consistent q'
  nextTimerId : q'.nextTimerId = q.nextTimerId
  pioneer : q'.pioneer = q.pioneer

/-- The rear of a non-empty heap, at the index the source computes. -/
theorem Indexed.rear {q : TimerQueue κ δ} (h : Indexed q) {i : Nat} {d : TimerEvent κ δ}
    (hd : q.eventLst[i]? = some d) : ∃ r, q.eventLst[q.count - 1]? = some r := by
  have hi : i < q.eventLst.length := (List.getElem?_eq_some_iff.mp hd).1
  exact ⟨_, List.getElem?_eq_getElem (by rw [h.size]; omega)⟩

/-- `heap_del` up to its sift. -/
def fillDel (q : TimerQueue κ δ) (pos : Nat) (d r : TimerEvent κ δ) : TimerQueue κ δ :=
  (((q.setEvent pos r).setPosition r.timerId pos).erasePosition d.timerId).dropRear

/-- `heap_pop` up to its sift, with another timer left. -/
def fillPop (q : TimerQueue κ δ) (d r : TimerEvent κ δ) : TimerQueue κ δ :=
  (((q.erasePosition d.timerId).setEvent 0 r).setPosition r.timerId 0).dropRear

theorem fillDel_position (q : TimerQueue κ δ) (pos : Nat) (d r : TimerEvent κ δ) (id : Int32) :
    (q.fillDel pos d r).position id =
      if id = d.timerId then none else if id = r.timerId then some pos else q.position id := by
  simp only [fillDel, dropRear, erasePosition, setPosition, setEvent, Function.update_apply]

theorem fillPop_position (q : TimerQueue κ δ) (d r : TimerEvent κ δ) (id : Int32) :
    (q.fillPop d r).position id =
      if id = r.timerId then some 0 else if id = d.timerId then none else q.position id := by
  simp only [fillPop, dropRear, erasePosition, setPosition, setEvent, Function.update_apply]

section Fill

variable {q : TimerQueue κ δ} {pos : Nat} {d r : TimerEvent κ δ}

theorem Indexed.fillDel (h : Indexed q) (hd : q.eventLst[pos]? = some d)
    (hr : q.eventLst[q.count - 1]? = some r) : Indexed (q.fillDel pos d r) where
  size := by simp [TimerQueue.fillDel, dropRear, erasePosition, setPosition, setEvent, h.size]
  sound id p hp := by
    rw [fillDel_position] at hp
    split at hp
    · cases hp
    rename_i hidd
    simp only [TimerQueue.fillDel, dropRear, erasePosition, setPosition, setEvent,
      BinHeap.getElem?_set_dropLast, ← h.size]
    have hlt : ∀ {i e}, q.eventLst[i]? = some e → i < q.count := fun he =>
      h.size ▸ (List.getElem?_eq_some_iff.mp he).1
    split at hp
    · rename_i hidr
      obtain rfl := Option.some.inj hp
      -- the rear itself is not deleted, for it has another id
      have hne : pos ≠ q.count - 1 := by
        rintro rfl
        exact hidd (hidr.trans (congrArg _ (Option.some.inj (hr.symm.trans hd))))
      have := hlt hd
      exact ⟨r, ⟨by omega, .inl ⟨rfl, rfl⟩⟩, hidr.symm⟩
    · rename_i hidr
      obtain ⟨te, hte, hid⟩ := h.sound id p hp
      have hpr : p ≠ q.count - 1 := by
        rintro rfl
        exact hidr (hid ▸ congrArg _ (Option.some.inj (hte.symm.trans hr)))
      have hpp : p ≠ pos := by
        rintro rfl
        exact hidd (hid ▸ congrArg _ (Option.some.inj (hte.symm.trans hd)))
      have := hlt hte
      exact ⟨te, ⟨by omega, .inr ⟨hpp, hte⟩⟩, hid⟩

theorem Consistent.fillDel (h : Consistent q) (hd : q.eventLst[pos]? = some d)
    (hr : q.eventLst[q.count - 1]? = some r) : Consistent (q.fillDel pos d r) where
  toIndexed := h.toIndexed.fillDel hd hr
  complete i te hi := by
    simp only [TimerQueue.fillDel, dropRear, erasePosition, setPosition, setEvent,
      BinHeap.getElem?_set_dropLast, ← h.size] at hi
    obtain ⟨hlt, ⟨rfl, rfl⟩ | ⟨hne, hi⟩⟩ := hi
    · rw [fillDel_position, if_neg, if_pos rfl]
      exact fun e => Nat.ne_of_lt hlt (h.index_unique hd hr e.symm)
    · rw [fillDel_position, if_neg, if_neg, h.complete i te hi]
      · exact fun e => Nat.ne_of_lt hlt (h.index_unique hi hr e)
      · exact fun e => hne (h.index_unique hi hd e)

theorem Indexed.fillPop (h : Indexed q) (h1 : 1 < q.count) (hd : q.eventLst[0]? = some d)
    (hr : q.eventLst[q.count - 1]? = some r) : Indexed (q.fillPop d r) where
  size := by simp [TimerQueue.fillPop, dropRear, erasePosition, setPosition, setEvent, h.size]
  sound id p hp := by
    rw [fillPop_position] at hp
    simp only [TimerQueue.fillPop, dropRear, erasePosition, setPosition, setEvent,
      BinHeap.getElem?_set_dropLast, ← h.size]
    split at hp
    · rename_i hidr
      obtain rfl := Option.some.inj hp
      exact ⟨r, ⟨by omega, .inl ⟨rfl, rfl⟩⟩, hidr.symm⟩
    · rename_i hidr
      split at hp
      · cases hp
      rename_i hidd
      obtain ⟨te, hte, hid⟩ := h.sound id p hp
      have hpr : p ≠ q.count - 1 := by
        rintro rfl
        exact hidr (hid ▸ congrArg _ (Option.some.inj (hte.symm.trans hr)))
      have hp0 : p ≠ 0 := by
        rintro rfl
        exact hidd (hid ▸ congrArg _ (Option.some.inj (hte.symm.trans hd)))
      have : p < q.count := h.size ▸ (List.getElem?_eq_some_iff.mp hte).1
      exact ⟨te, ⟨by omega, .inr ⟨hp0, hte⟩⟩, hid⟩

theorem Consistent.fillPop (h : Consistent q) (h1 : 1 < q.count)
    (hd : q.eventLst[0]? = some d) (hr : q.eventLst[q.count - 1]? = some r) :
    Consistent (q.fillPop d r) where
  toIndexed := h.toIndexed.fillPop h1 hd hr
  complete i te hi := by
    simp only [TimerQueue.fillPop, dropRear, erasePosition, setPosition, setEvent,
      BinHeap.getElem?_set_dropLast, ← h.size] at hi
    obtain ⟨hlt, ⟨rfl, rfl⟩ | ⟨hne, hi⟩⟩ := hi
    · rw [fillPop_position, if_pos rfl]
    · rw [fillPop_position, if_neg, if_neg, h.complete i te hi]
      · exact fun e => hne (h.index_unique hi hd e)
      · exact fun e => Nat.ne_of_lt hlt (h.index_unique hi hr e)

end Fill

theorem heapDel_eq {q : TimerQueue κ δ} {pos : Nat} {d r : TimerEvent κ δ}
    (hd : q.eventLst[pos]? = some d) (hr : q.eventLst[q.count - 1]? = some r) :
    q.heapDel pos = (q.fillDel pos d r).heapHold pos := by
  rw [heapDel, eventAt_eq_ok.mpr hd, ok_bind, eventAt_eq_ok.mpr hr, ok_bind]
  rfl

theorem heapPop_eq {q : TimerQueue κ δ} (h1 : 1 < q.count) {d r : TimerEvent κ δ}
    (hd : q.eventLst[0]? = some d) (hr : q.eventLst[q.count - 1]? = some r) :
    q.heapPop = (q.fillPop d r).heapHold 0 := by
  rw [heapPop, if_neg (by omega), eventAt_eq_ok.mpr hd, ok_bind]
  show (if 1 < (q.erasePosition d.timerId).count then _ else _) = _
  rw [if_pos (show 1 < (q.erasePosition d.timerId).count from h1)]
  show ((q.erasePosition d.timerId).eventAt (q.count - 1) >>= _) = _
  rw [eventAt_eq_ok.mpr (show (q.erasePosition d.timerId).eventLst[q.count - 1]? = some r from hr),
    ok_bind]
  rfl

theorem heapPop_one {q : TimerQueue κ δ} (h1 : q.count = 1) {d : TimerEvent κ δ}
    (hd : q.eventLst[0]? = some d) :
    q.heapPop = .ok { q.erasePosition d.timerId with eventLst := [], count := 0 } := by
  rw [heapPop, if_neg (by omega), eventAt_eq_ok.mpr hd, ok_bind]
  exact if_neg (show ¬ 1 < (q.erasePosition d.timerId).count from by
    show ¬ 1 < q.count
    omega)

theorem heapDel_removes {q : TimerQueue κ δ} (h : Indexed q) {pos : Nat}
    {d : TimerEvent κ δ} (hd : q.eventLst[pos]? = some d) :
    ∃ q', q.heapDel pos = .ok q' ∧ Removes q d q' := by
  obtain ⟨r, hr⟩ := h.rear hd
  have hfill := h.fillDel hd hr
  obtain ⟨q', hq', hex⟩ := heapHold_returns (q.fillDel pos d r) pos hfill.size
  have hsame := hex.sameTimers
  refine ⟨q', by rw [heapDel_eq hd hr, hq'], ?_, hex.indexed hfill, ?_, hsame.nextTimerId,
    hsame.pioneer⟩
  · exact (hsame.perm.cons d).trans (BinHeap.cons_set_dropLast_perm hd (h.size ▸ hr))
  · intro hc
    exact hex.consistent (hc.fillDel hd hr)

theorem heapPop_removes {q : TimerQueue κ δ} (h : Indexed q) {d : TimerEvent κ δ}
    (hd : q.eventLst[0]? = some d) : ∃ q', q.heapPop = .ok q' ∧ Removes q d q' := by
  have hpos : 0 < q.count := h.size ▸ (List.getElem?_eq_some_iff.mp hd).1
  rcases Nat.lt_or_eq_of_le hpos with h1 | h1
  · obtain ⟨r, hr⟩ := h.rear hd
    have hfill := h.fillPop h1 hd hr
    obtain ⟨q', hq', hex⟩ := heapHold_returns (q.fillPop d r) 0 hfill.size
    have hsame := hex.sameTimers
    refine ⟨q', by rw [heapPop_eq h1 hd hr, hq'], ?_, hex.indexed hfill, ?_,
      hsame.nextTimerId, hsame.pioneer⟩
    · exact (hsame.perm.cons d).trans (BinHeap.cons_set_dropLast_perm hd (h.size ▸ hr))
    · intro hc
      exact hex.consistent (hc.fillPop h1 hd hr)
  · -- the last timer: the vector is cleared and nothing is moved
    have hlen : q.eventLst.length = 1 := by rw [← h.size, ← h1]
    obtain ⟨e, he⟩ := List.length_eq_one_iff.mp hlen
    obtain rfl : e = d := by simpa [he] using hd
    have hidx : Indexed
        ({ q.erasePosition e.timerId with eventLst := [], count := 0 } : TimerQueue κ δ) := by
      refine ⟨rfl, fun id p hp => ?_⟩
      simp only [erasePosition, Function.update_apply] at hp
      split at hp
      · cases hp
      · rename_i hid
        obtain ⟨te, hte, hid'⟩ := h.sound id p hp
        rw [he, List.getElem?_singleton] at hte
        split at hte
        · exact absurd (Option.some.inj hte ▸ hid'.symm) hid
        · cases hte
    refine ⟨_, heapPop_one h1.symm hd, by simp [he], hidx, fun _ => ⟨hidx, ?_⟩, rfl, rfl⟩
    intro i te hi
    simp at hi

/-! ## The operations of the queue -/

/-- Re-arming the timerfd changes neither the heap nor its index. -/
structure SameHeap (q q' : TimerQueue κ δ) : Prop where
  eventLst : q'.eventLst = q.eventLst
  position : q'.position = q.position
  count : q'.count = q.count
  nextTimerId : q'.nextTimerId = q.nextTimerId

theorem arm_sameHeap (q : TimerQueue κ δ) (ts : UInt64) : SameHeap q (q.arm ts) :=
  ⟨rfl, rfl, rfl, rfl⟩

theorem SameHeap.symm {q q' : TimerQueue κ δ} (h : SameHeap q q') : SameHeap q' q :=
  ⟨h.eventLst.symm, h.position.symm, h.count.symm, h.nextTimerId.symm⟩

theorem SameHeap.indexed {q q' : TimerQueue κ δ} (h : SameHeap q q') (hq : Indexed q) :
    Indexed q' where
  size := by rw [h.count, h.eventLst]; exact hq.size
  sound id p hp := by
    rw [h.eventLst]
    exact hq.sound id p (h.position ▸ hp)

theorem SameHeap.consistent {q q' : TimerQueue κ δ} (h : SameHeap q q')
    (hq : Consistent q) : Consistent q' where
  toIndexed := h.indexed hq.toIndexed
  complete i te hi := by
    rw [h.position]
    exact hq.complete i te (h.eventLst ▸ hi)

theorem armEarlier_returns {q : TimerQueue κ δ} {top : TimerEvent κ δ}
    (htop : q.eventLst[0]? = some top) :
    ∃ q', q.armEarlier = .ok q' ∧ SameHeap q q' := by
  refine ⟨if top.ts < q.pioneer then q.arm top.ts else q, ?_, ?_⟩
  · rw [armEarlier, eventAt_eq_ok.mpr htop, ok_bind]
  · split
    · exact arm_sameHeap q top.ts
    · exact ⟨rfl, rfl, rfl, rfl⟩

theorem exists_top {q : TimerQueue κ δ} (h : Indexed q) (hq : q.count ≠ 0) :
    ∃ top, q.eventLst[0]? = some top := by
  have hlen : 0 < q.eventLst.length := by
    rw [← h.size]
    omega
  exact ⟨_, List.getElem?_eq_getElem hlen⟩

/-- The invariant of the index over runs, with `n` ids handed out so far. -/
structure Inv (n : Nat) (q : TimerQueue κ δ) : Prop where
  indexed : Indexed q
  next : q.nextTimerId = Int32.ofNat n
  ids : ∀ te ∈ q.eventLst, ∃ k, k < n ∧ te.timerId = Int32.ofNat k
  consistent : n ≤ 2 ^ 31 → Consistent q

theorem inv_empty : Inv 0 (empty : TimerQueue κ δ) where
  indexed := ⟨rfl, fun id p hp => by simp [empty] at hp⟩
  next := rfl
  ids te hte := by simp [empty] at hte
  consistent _ := ⟨⟨rfl, fun id p hp => by simp [empty] at hp⟩, fun i te hi => by
    simp [empty] at hi⟩

theorem Inv.sameHeap {n : Nat} {q q' : TimerQueue κ δ} (h : Inv n q) (hs : SameHeap q q') :
    Inv n q' where
  indexed := hs.indexed h.indexed
  next := by rw [hs.nextTimerId, h.next]
  ids te hte := h.ids te (hs.eventLst ▸ hte)
  consistent hn := hs.consistent (h.consistent hn)

theorem Inv.removes {n : Nat} {q q' : TimerQueue κ δ} {d : TimerEvent κ δ} (h : Inv n q)
    (hr : Removes q d q') : Inv n q' where
  indexed := hr.indexed
  next := by rw [hr.nextTimerId, h.next]
  ids te hte := h.ids te (hr.perm.subset (List.mem_cons_of_mem d hte))
  consistent hn := hr.consistent (h.consistent hn)

/-- An id comes again `2 ^ 32` ids later, and not before. -/
theorem ofNat_ne_of_near {k n : Nat} (hlt : k < n) (hnear : n < k + 2 ^ 32) :
    Int32.ofNat k ≠ Int32.ofNat n := by
  intro heq
  have h := congrArg (fun x : Int32 => x.toUInt32.toNat) heq
  simp only [Int32.toUInt32_ofNat', UInt32.toNat_ofNat'] at h
  omega

/-- What an `add_timer` that returns does to the heap and its index, whatever the ids
handed out before. -/
structure AddsTimer (q : TimerQueue κ δ) (te : TimerEvent κ δ) (q' : TimerQueue κ δ) : Prop where
  perm : q'.eventLst.Perm ({ te with timerId := q.nextTimerId } :: q.eventLst)
  indexed : Indexed q'
  consistent : Consistent q → (∀ e ∈ q.eventLst, e.timerId ≠ q.nextTimerId) → Consistent q'
  nextTimerId : q'.nextTimerId = q.nextTimerId + 1

/-- `add_timer` returns, gives the timer the next id and adds exactly that timer. -/
theorem addTimer_adds {q : TimerQueue κ δ} (h : Indexed q) (te : TimerEvent κ δ) :
    ∃ q', q.addTimer te = .ok (q.nextTimerId, q') ∧ AddsTimer q te q' := by
  let q₀ : TimerQueue κ δ := { q with nextTimerId := q.nextTimerId + 1 }
  let te₀ : TimerEvent κ δ := { te with timerId := q.nextTimerId }
  have hidx₀ : Indexed q₀ := ⟨h.size, h.sound⟩
  obtain ⟨q₁, hadd, hq₁⟩ := heapAdd_adds hidx₀ te₀
  have hpos : q₁.count ≠ 0 := by
    rw [hq₁.indexed.size, hq₁.perm.length_eq]
    simp
  obtain ⟨top, htop⟩ := exists_top hq₁.indexed hpos
  obtain ⟨q', harm, hsame⟩ := armEarlier_returns htop
  refine ⟨q', ?_, ?_, hsame.indexed hq₁.indexed, ?_, hsame.nextTimerId.trans hq₁.nextTimerId⟩
  · show (q₀.heapAdd te₀ >>= fun q => q.armEarlier >>= fun q => .ok (_, q)) = _
    rw [hadd, ok_bind, harm, ok_bind]
  · rw [hsame.eventLst]
    exact hq₁.perm
  · intro hc hfresh
    have hc₀ : Consistent q₀ := ⟨hidx₀, hc.complete⟩
    exact hsame.consistent (hq₁.consistent hc₀ hfresh)

/-- `add_timer` keeps the invariant, with one more id handed out. -/
theorem addTimer_spec {n : Nat} {q : TimerQueue κ δ} (h : Inv n q) (te : TimerEvent κ δ) :
    ∃ q', q.addTimer te = .ok (q.nextTimerId, q') ∧ Inv (n + 1) q' ∧
      q'.eventLst.Perm ({ te with timerId := q.nextTimerId } :: q.eventLst) := by
  obtain ⟨q', hadd, hq'⟩ := addTimer_adds h.indexed te
  refine ⟨q', hadd, ⟨hq'.indexed, ?_, ?_, ?_⟩, hq'.perm⟩
  · rw [hq'.nextTimerId, Int32.ofNat_add, ← h.next]
    rfl
  · intro e he
    rcases List.mem_cons.mp (hq'.perm.subset he) with rfl | he
    · exact ⟨n, Nat.lt_succ_self n, h.next⟩
    · obtain ⟨k, hk, hid⟩ := h.ids e he
      exact ⟨k, by omega, hid⟩
  · intro hn
    refine hq'.consistent (h.consistent (by omega)) (fun e he => ?_)
    obtain ⟨k, hk, hid⟩ := h.ids e he
    rw [hid, h.next]
    exact ofNat_ne_of_near hk (by omega)

/-- `del_timer` returns; a known id removes the timer `_position` points at. -/
theorem delTimer_removes {q : TimerQueue κ δ} (h : Indexed q) (id : Int32) :
    (q.position id = none ∧ q.delTimer id = .ok q) ∨
      ∃ pos d q₁ q', q.position id = some pos ∧ q.eventLst[pos]? = some d ∧ d.timerId = id ∧
        q.heapDel pos = .ok q₁ ∧ Removes q d q₁ ∧ q.delTimer id = .ok q' ∧ SameHeap q₁ q' := by
  unfold delTimer
  cases hid : q.position id with
  | none => exact .inl ⟨rfl, rfl⟩
  | some pos =>
    obtain ⟨d, hd, hdid⟩ := h.sound id pos hid
    obtain ⟨q₁, hdel, hq₁⟩ := heapDel_removes h hd
    refine .inr ⟨pos, d, q₁, ?_⟩
    by_cases h0 : q₁.count = 0
    · refine ⟨q₁.disarm, rfl, hd, hdid, hdel, hq₁, ?_, arm_sameHeap _ _⟩
      show (q.heapDel pos >>= _) = _
      rw [hdel, ok_bind, if_pos h0]
    · obtain ⟨top, htop⟩ := exists_top hq₁.indexed h0
      obtain ⟨q', harm, hsame⟩ := armEarlier_returns htop
      refine ⟨q', rfl, hd, hdid, hdel, hq₁, ?_, hsame⟩
      show (q.heapDel pos >>= _) = _
      rw [hdel, ok_bind, if_neg h0, harm]

/-- `del_timer` keeps the invariant. -/
theorem delTimer_spec {n : Nat} {q : TimerQueue κ δ} (h : Inv n q) (id : Int32) :
    (q.position id = none ∧ q.delTimer id = .ok q) ∨
      ∃ pos d q₁ q', q.position id = some pos ∧ q.eventLst[pos]? = some d ∧ d.timerId = id ∧
        q.heapDel pos = .ok q₁ ∧ Removes q d q₁ ∧
        q.delTimer id = .ok q' ∧ SameHeap q₁ q' ∧ Inv n q' := by
  rcases delTimer_removes h.indexed id with
    hno | ⟨pos, d, q₁, q', hpos, hd, hid, hq₁, hrem, hq', hsame⟩
  · exact .inl hno
  · exact .inr ⟨pos, d, q₁, q', hpos, hd, hid, hq₁, hrem, hq', hsame,
      (h.removes hrem).sameHeap hsame⟩

/-- One turn of the loop of `get_timo`: a top that expires at `_pioneer` is popped. -/
structure PopsDue (q : TimerQueue κ δ) (te : TimerEvent κ δ) (q' : TimerQueue κ δ) : Prop where
  top : q.eventLst[0]? = some te
  due : te.ts = q.pioneer
  pop : q.heapPop = .ok q'
  removes : Removes q te q'

/-- What the loop of `get_timo` does: `evs` leave the queue, all due, and the top that
is left is not due. -/
structure PopsAllDue (q : TimerQueue κ δ) (evs : List (TimerEvent κ δ))
    (q' : TimerQueue κ δ) : Prop where
  perm : (evs ++ q'.eventLst).Perm q.eventLst
  due : ∀ te ∈ evs, te.ts = q.pioneer
  rest : ∀ top, q'.eventLst[0]? = some top → top.ts ≠ q.pioneer
  nextTimerId : q'.nextTimerId = q.nextTimerId
  pioneer : q'.pioneer = q.pioneer

/-- The rule for the loop of `get_timo`: it returns, pops what is due, queues for reuse
what is periodic, and keeps what every turn keeps. -/
theorem getTimoLoop_pops {P : TimerQueue κ δ → Prop} (hidx : ∀ q, P q → Indexed q)
    (hkeep : ∀ q te q', P q → PopsDue q te q' → P q') {q : TimerQueue κ δ} (h : P q)
    (fired reuse : List (TimerEvent κ δ)) :
    ∃ evs q', q.getTimoLoop fired reuse = .ok (q', fired ++ evs, reuse ++ reused evs) ∧
      P q' ∧ PopsAllDue q evs q' := by
  fun_induction getTimoLoop q fired reuse with
  | case1 q fired reuse hq =>
    refine ⟨[], q, by simp [reused], h, .refl _, fun te hte => ?_, fun top htop => ?_, rfl, rfl⟩
    · cases hte
    · have hlt : 0 < q.eventLst.length := (List.getElem?_eq_some_iff.mp htop).1
      rw [← (hidx q h).size, hq] at hlt
      exact absurd hlt (Nat.lt_irrefl 0)
  | case2 q fired reuse hq f htop =>
    obtain ⟨top, htop'⟩ := exists_top (hidx q h) hq
    rw [eventAt_eq_ok.mpr htop'] at htop
    cases htop
  | case3 q fired reuse hq te htop hts f hpop =>
    obtain ⟨q', hpop', _⟩ := heapPop_removes (hidx q h) (eventAt_eq_ok.mp htop)
    rw [hpop'] at hpop
    cases hpop
  | case4 q fired reuse hq te htop hts q₁ hpop ih =>
    obtain ⟨q₁', hpop', hrem⟩ := heapPop_removes (hidx q h) (eventAt_eq_ok.mp htop)
    obtain rfl := Except.ok.inj (hpop.symm.trans hpop')
    obtain ⟨evs, q', heq, hP, hall⟩ :=
      ih (hkeep q te q₁ h ⟨eventAt_eq_ok.mp htop, hts.symm, hpop, hrem⟩)
    refine ⟨te :: evs, q', ?_, hP, (hall.perm.cons te).trans hrem.perm, fun e he => ?_, ?_,
      hall.nextTimerId.trans hrem.nextTimerId, hall.pioneer.trans hrem.pioneer⟩
    · rw [dite_eq_ite] at heq
      rw [heq]
      by_cases hint : te.interval = 0 <;> simp [reused, hint]
    · rcases List.mem_cons.mp he with rfl | he
      · exact hts.symm
      · exact hrem.pioneer ▸ hall.due e he
    · exact hrem.pioneer ▸ hall.rest
  | case5 q fired reuse hq te htop hts =>
    refine ⟨[], q, by simp [reused], h, .refl _, fun e he => ?_, fun top htop' => ?_, rfl, rfl⟩
    · cases he
    · obtain rfl := Option.some.inj ((eventAt_eq_ok.mp htop).symm.trans htop')
      exact fun heq => hts heq.symm

/-- The loop of `get_timo` keeps the invariant. -/
theorem getTimoLoop_spec {n : Nat} {q : TimerQueue κ δ} (h : Inv n q)
    (fired reuse : List (TimerEvent κ δ)) :
    ∃ evs q', q.getTimoLoop fired reuse = .ok (q', fired ++ evs, reuse ++ reused evs) ∧
      Inv n q' ∧ PopsAllDue q evs q' :=
  getTimoLoop_pops (fun _ h => h.indexed) (fun _ _ _ h hpop => h.removes hpop.removes) h fired
    reuse

/-- Re-adding the queued timers. -/
theorem readd_spec : ∀ (reuse : List (TimerEvent κ δ)) {n : Nat} {q : TimerQueue κ δ},
    Inv n q →
    ∃ q', reuse.foldlM (fun q te => Prod.snd <$> q.addTimer te) q = .ok q' ∧
      Inv (n + reuse.length) q' ∧
      (q'.eventLst.map TimerEvent.payload).Perm
        (reuse.map TimerEvent.payload ++ q.eventLst.map TimerEvent.payload) := by
  intro reuse
  induction reuse with
  | nil =>
    intro n q h
    exact ⟨q, rfl, h, List.Perm.refl _⟩
  | cons te rest ih =>
    intro n q h
    obtain ⟨q₁, hadd, hinv₁, hperm₁⟩ := addTimer_spec h te
    obtain ⟨q', hrest, hinv, hperm⟩ := ih hinv₁
    refine ⟨q', ?_, ?_, ?_⟩
    · rw [List.foldlM_cons, hadd]
      exact hrest
    · rw [List.length_cons, Nat.add_comm rest.length 1, ← Nat.add_assoc]
      exact hinv
    · have hmap := (hperm₁.map TimerEvent.payload).append_left
        (rest.map TimerEvent.payload)
      exact (hperm.trans hmap).trans List.perm_middle

/-- The end of `get_timo`: the timerfd is set, for the top or not at all. -/
theorem getTimo_sets {q q₁ q₂ : TimerQueue κ δ} {fired fired' reuse : List (TimerEvent κ δ)}
    (hloop : q.getTimoLoop fired [] = .ok (q₁, fired', reuse))
    (hadd : reuse.foldlM (fun q te => Prod.snd <$> q.addTimer te) q₁ = .ok q₂)
    (hidx : Indexed q₂) :
    ∃ q', q.getTimo fired = .ok (fired', q') ∧ SameHeap q₂ q' ∧
      (q'.eventLst = [] ∧ q'.pioneer = noPioneer ∨
        ∃ top, q'.eventLst[0]? = some top ∧ q'.pioneer = top.ts) := by
  by_cases h0 : q₂.count = 0
  · have hlen : q₂.eventLst.length = 0 := hidx.size ▸ h0
    refine ⟨q₂.disarm, ?_, arm_sameHeap _ _, .inl ⟨List.eq_nil_of_length_eq_zero hlen, rfl⟩⟩
    rw [getTimo, hloop, ok_bind]
    dsimp only
    rw [hadd, ok_bind, if_pos h0]
  · obtain ⟨top, htop⟩ := exists_top hidx h0
    refine ⟨q₂.arm top.ts, ?_, arm_sameHeap _ _, .inr ⟨top, htop, rfl⟩⟩
    rw [getTimo, hloop, ok_bind]
    dsimp only
    rw [hadd, ok_bind, if_neg h0, eventAt_eq_ok.mpr htop, ok_bind]

/-- `get_timo` returns.  It takes `evs` out of the queue and puts back the periodic
ones among them, each one period later. -/
theorem getTimo_spec {n : Nat} {q : TimerQueue κ δ} (h : Inv n q)
    (fired : List (TimerEvent κ δ)) :
    ∃ evs rest q', q.getTimo fired = .ok (fired ++ evs, q') ∧
      Inv (n + (reused evs).length) q' ∧
      (evs ++ rest).Perm q.eventLst ∧
      (q'.eventLst.map TimerEvent.payload).Perm
        ((reused evs).map TimerEvent.payload ++ rest.map TimerEvent.payload) := by
  obtain ⟨evs, q₁, hloop, hinv₁, hpops⟩ := getTimoLoop_spec h fired []
  obtain ⟨q₂, hadd, hinv₂, hperm₂⟩ := readd_spec (reused evs) hinv₁
  rw [List.nil_append] at hloop
  obtain ⟨q', hget, hsame, _⟩ := getTimo_sets hloop hadd hinv₂.indexed
  exact ⟨evs, q₁.eventLst, q', hget, hinv₂.sameHeap hsame, hpops.perm,
    hsame.eventLst ▸ hperm₂⟩

end TimerQueue

/-! ## Every run -/

namespace TimerRun

open TimerQueue

variable {κ δ : Type}

/-- Every call returns from a state with the invariant, and keeps it. -/
theorem step_inv {r : TimerRun κ δ} (h : Inv r.issued r.queue) (op : TimerOp κ δ) :
    ∃ r', r.step op = .ok r' ∧ Inv r'.issued r'.queue := by
  cases op with
  | addTimer te =>
    obtain ⟨q', hadd, hinv, _⟩ := addTimer_spec h te
    exact ⟨_, by rw [step, hadd, ok_bind], hinv⟩
  | delTimer id =>
    rcases delTimer_spec h id with ⟨_, hdel⟩ | ⟨_, _, _, q', _, _, _, _, _, hdel, _, hinv⟩
    · exact ⟨_, by rw [step, hdel, ok_bind], h⟩
    · exact ⟨_, by rw [step, hdel, ok_bind], hinv⟩
  | getTimo =>
    obtain ⟨evs, rest, q', hget, hinv, _⟩ := getTimo_spec h []
    exact ⟨_, by rw [step, hget, ok_bind], hinv⟩

/-- Every sequence of calls on a new queue returns, in a state with the invariant. -/
theorem run_returns (ops : List (TimerOp κ δ)) :
    ∃ r, run ops = .ok r ∧ Inv r.issued r.queue :=
  foldlM_returns (fun r : TimerRun κ δ => Inv r.issued r.queue)
    (fun _ op h => step_inv h op) ops start inv_empty

/-- The position index is exact: the count, the ids and `_position` all describe
the timers of the heap. -/
structure IndexExact (q : TimerQueue κ δ) : Prop where
  count : q.count = q.eventLst.length
  nodup : (q.eventLst.map TimerEvent.timerId).Nodup
  below : ∀ te ∈ q.eventLst, te.timerId < q.nextTimerId
  keys : ∀ id, (q.position id).isSome ↔ id ∈ q.eventLst.map TimerEvent.timerId
  lookup : ∀ (i : Nat) (te : TimerEvent κ δ), q.eventLst[i]? = some te →
    q.position te.timerId = some i

theorem indexExact_of_inv {n : Nat} {q : TimerQueue κ δ} (h : Inv n q) (hn : n < 2 ^ 31) :
    IndexExact q := by
  have hc := h.consistent (Nat.le_of_lt hn)
  refine ⟨hc.size, hc.nodup_ids, ?_, ?_, hc.complete⟩
  · intro te hte
    obtain ⟨k, hk, hid⟩ := h.ids te hte
    rw [hid, h.next, Int32.lt_iff_toInt_lt, Int32.toInt_ofNat_of_lt (by omega),
      Int32.toInt_ofNat_of_lt hn]
    exact Int.ofNat_lt.mpr hk
  · intro id
    constructor
    · intro hsome
      obtain ⟨p, hp⟩ := Option.isSome_iff_exists.mp hsome
      obtain ⟨te, hte, hid⟩ := hc.sound id p hp
      exact List.mem_map.mpr ⟨te, List.mem_of_getElem? hte, hid⟩
    · intro hmem
      obtain ⟨te, hte, rfl⟩ := List.mem_map.mp hmem
      obtain ⟨i, hi⟩ := List.mem_iff_getElem?.mp hte
      rw [hc.complete i te hi]
      rfl

/-- **Position index consistency.**  Every sequence of calls returns, so every
index that any of them used was in range; and as long as fewer than `2 ^ 31` ids
have been handed out the position index is exact. -/
theorem position_index_consistent (ops : List (TimerOp κ δ)) :
    ∃ r, run ops = .ok r ∧ (r.issued < 2 ^ 31 → IndexExact r.queue) := by
  obtain ⟨r, hrun, hinv⟩ := run_returns ops
  exact ⟨r, hrun, indexExact_of_inv hinv⟩

end TimerRun

end EasyReactor.Timer
