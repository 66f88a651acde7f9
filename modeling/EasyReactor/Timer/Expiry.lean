import Mathlib.Data.List.Nodup
import EasyReactor.Timer.Notifier

set_option autoImplicit false

/-!
# Timer: one expiry, from any ordered state

The other modules follow the queue from its creation.  Here it is taken in any
state that is in order: an ordered heap, an exact position index and a `_pioneer`
that is not after the heap top.  There `get_timo` delivers the timers that are due
and no others.  It leaves the heap ordered too, but the index is exact only as long
as the ids it issues for the periodic timers are free: `_next_timer_id` is an `int`,
and once it has gone round it can stand at the id of a timer that is still live.
-/

namespace EasyReactor.Timer

open EasyReactor.Foundation

namespace TimerQueue

variable {κ δ : Type}

/-- The queue is in order. -/
structure Ready (q : TimerQueue κ δ) : Prop where
  ordered : HeapOrdered q
  consistent : Consistent q
  pioneer : ∀ top, q.eventLst[0]? = some top → q.pioneer ≤ top.ts

/-- The timers that expire at `_pioneer`. -/
def dueTimers (q : TimerQueue κ δ) : List (TimerEvent κ δ) :=
  q.eventLst.filter fun te => te.ts = q.pioneer

/-- `get_timo` delivers the due timers, each once, leaves the heap in order and goes on
to the least time that is left. -/
def FiresDueSlot (q : TimerQueue κ δ) : Prop :=
  ∀ firedEvs, ∃ evs q', q.getTimo firedEvs = .ok (firedEvs ++ evs, q') ∧
    evs.Perm q.dueTimers ∧ HeapOrdered q' ∧ Consistent q' ∧
    (q'.eventLst = [] ∧ q'.pioneer = noPioneer ∨
      (∃ te ∈ q'.eventLst, te.ts = q'.pioneer) ∧ (∀ te ∈ q'.eventLst, q'.pioneer ≤ te.ts) ∧
        q'.pioneer ≠ q.pioneer)

/-- `add_timer` keeps the heap ordered and `_pioneer` not after its top. -/
def AddsInOrder (q : TimerQueue κ δ) : Prop :=
  ∀ te, ∃ id q', q.addTimer te = .ok (id, q') ∧ HeapOrdered q' ∧
    ∀ top, q'.eventLst[0]? = some top → q'.pioneer ≤ top.ts

/-- None of the ids that `get_timo` is about to issue is that of a timer which stays. -/
def IdsFree (q : TimerQueue κ δ) : Prop :=
  ∀ k < (reused q.dueTimers).length, ∀ te ∈ q.eventLst, te.ts ≠ q.pioneer →
    te.timerId ≠ q.nextTimerId + Int32.ofNat k

instance (q : TimerQueue κ δ) : Decidable (IdsFree q) :=
  inferInstanceAs (Decidable (∀ k < _, ∀ te ∈ q.eventLst, _ → _))

/-! ## Ids -/

/-- There are `2 ^ 32` ids. -/
theorem length_le_of_nodup {ids : List Int32} (h : ids.Nodup) : ids.length ≤ 2 ^ 32 := by
  have hinj : Function.Injective fun id : Int32 => id.toUInt32.toNat := by
    rintro ⟨a⟩ ⟨b⟩ hab
    exact congrArg Int32.ofUInt32 (UInt32.toNat_inj.mp hab)
  have hsub : ids.map (fun id => id.toUInt32.toNat) ⊆ List.range (2 ^ 32) := by
    intro n hn
    obtain ⟨id, _, rfl⟩ := List.mem_map.mp hn
    exact List.mem_range.mpr id.toUInt32.toNat_lt
  have hle := (List.subperm_of_subset (h.map hinj) hsub).length_le
  rwa [List.length_map, List.length_range] at hle

/-- The timers `reuse` as `add_timer` numbers them, from `next`. -/
def withIds : Int32 → List (TimerEvent κ δ) → List (TimerEvent κ δ)
  | _, [] => []
  | next, te :: rest => { te with timerId := next } :: withIds (next + 1) rest

theorem map_timerId_withIds (reuse : List (TimerEvent κ δ)) (next : Int32) :
    (withIds next reuse).map TimerEvent.timerId =
      (List.range reuse.length).map fun k => next + Int32.ofNat k := by
  induction reuse generalizing next with
  | nil => rfl
  | cons te rest ih =>
    have hfirst : next = next + Int32.ofNat 0 := by simp
    rw [withIds, List.map_cons, ih, List.length_cons, List.range_succ_eq_map, List.map_cons,
      List.map_map]
    refine congrArg₂ List.cons hfirst (List.map_congr_left fun k _ => ?_)
    rw [Function.comp_apply, Nat.succ_eq_add_one, Int32.ofNat_add, Int32.add_comm (Int32.ofNat k),
      ← Int32.add_assoc]
    rfl

theorem mem_withIds {reuse : List (TimerEvent κ δ)} {next : Int32} {e : TimerEvent κ δ}
    (he : e ∈ withIds next reuse) : ∃ te ∈ reuse, e.ts = te.ts := by
  induction reuse generalizing next with
  | nil => cases he
  | cons te rest ih =>
    rcases List.mem_cons.mp he with rfl | he
    · exact ⟨te, List.mem_cons_self, rfl⟩
    · obtain ⟨t, ht, hts⟩ := ih he
      exact ⟨t, List.mem_cons_of_mem te ht, hts⟩

/-- No id is issued twice in a row of at most `2 ^ 32`. -/
theorem nodup_issued {n : Nat} (hn : n ≤ 2 ^ 32) (next : Int32) :
    ((List.range n).map fun k => next + Int32.ofNat k).Nodup := by
  refine List.Nodup.map_on (fun i hi j hj heq => ?_) List.nodup_range
  rw [List.mem_range] at hi hj
  have heq' := (Int32.add_right_inj next).mp heq
  rcases Nat.lt_trichotomy i j with hlt | rfl | hlt
  · exact absurd heq' (ofNat_ne_of_near hlt (by omega))
  · exact rfl
  · exact absurd heq'.symm (ofNat_ne_of_near hlt (by omega))

/-! ## Re-adding -/

/-- What re-adding `reuse` does to the heap and its index. -/
structure Readds (q : TimerQueue κ δ) (reuse : List (TimerEvent κ δ))
    (q' : TimerQueue κ δ) : Prop where
  perm : q'.eventLst.Perm (withIds q.nextTimerId reuse ++ q.eventLst)
  indexed : Indexed q'
  consistent : Consistent q →
    ((withIds q.nextTimerId reuse ++ q.eventLst).map TimerEvent.timerId).Nodup → Consistent q'

theorem readd_readds : ∀ (reuse : List (TimerEvent κ δ)) {q : TimerQueue κ δ}, Indexed q →
    ∃ q', reuse.foldlM (fun q te => Prod.snd <$> q.addTimer te) q = .ok q' ∧
      Readds q reuse q' := by
  intro reuse
  induction reuse with
  | nil =>
    intro q h
    exact ⟨q, rfl, List.Perm.refl _, h, fun hc _ => hc⟩
  | cons te rest ih =>
    intro q h
    obtain ⟨q₁, hadd, hq₁⟩ := addTimer_adds h te
    obtain ⟨q', hrest, hq'⟩ := ih hq₁.indexed
    have hperm : (withIds q₁.nextTimerId rest ++ q₁.eventLst).Perm
        (withIds q.nextTimerId (te :: rest) ++ q.eventLst) := by
      rw [hq₁.nextTimerId]
      exact (hq₁.perm.append_left _).trans List.perm_middle
    refine ⟨q', ?_, hq'.perm.trans hperm, hq'.indexed, fun hc hnodup => ?_⟩
    · rw [List.foldlM_cons, hadd]
      exact hrest
    · refine hq'.consistent (hq₁.consistent hc fun e he heq => ?_)
        ((hperm.map TimerEvent.timerId).nodup_iff.mpr hnodup)
      -- the id just issued stands once in the list
      rw [withIds, List.cons_append, List.map_cons, List.map_append] at hnodup
      refine (List.nodup_cons.mp hnodup).1 ?_
      exact List.mem_append_right _ (List.mem_map.mpr ⟨e, he, heq⟩)

/-! ## The due slot -/

/-- The loop of `get_timo` takes out the due timers and leaves the later ones. -/
structure Splits (q : TimerQueue κ δ) (evs : List (TimerEvent κ δ))
    (q₁ : TimerQueue κ δ) : Prop where
  ordered : HeapOrdered q₁
  consistent : Consistent q₁
  nextTimerId : q₁.nextTimerId = q.nextTimerId
  due : evs.Perm q.dueTimers
  later : q₁.eventLst.Perm (q.eventLst.filter fun te => te.ts ≠ q.pioneer)

theorem getTimoLoop_splits {q : TimerQueue κ δ} (h : Ready q) (fired : List (TimerEvent κ δ)) :
    ∃ evs q₁, q.getTimoLoop fired [] = .ok (q₁, fired ++ evs, reused evs) ∧ Splits q evs q₁ := by
  obtain ⟨evs, q₁, hloop, ⟨hc, hord⟩, hpops⟩ :=
    getTimoLoop_pops (P := fun q => Consistent q ∧ HeapOrdered q) (fun _ h => h.1.toIndexed)
      (fun _ _ _ h hpop => ⟨hpop.removes.consistent h.1, hpop.ordered h.1.toIndexed h.2⟩)
      ⟨h.consistent, h.ordered⟩ fired []
  have hlater : ∀ te ∈ q₁.eventLst, te.ts ≠ q.pioneer := by
    intro te hte heq
    have hpos : 0 < q₁.eventLst.length := List.length_pos_of_mem hte
    have htop := List.getElem?_eq_getElem hpos
    have hmem : q₁.eventLst[0] ∈ q.eventLst :=
      hpops.perm.subset (List.mem_append_right evs (List.getElem_mem hpos))
    -- the top that is left is no later than `te` and no earlier than `_pioneer`
    have hle : q.pioneer ≤ q₁.eventLst[0].ts := by
      have hlen : 0 < q.eventLst.length := List.length_pos_of_mem hmem
      have hold := List.getElem?_eq_getElem hlen
      exact UInt64.le_trans (h.pioneer _ hold) (h.ordered.top_le hold hmem)
    exact hpops.rest _ htop (UInt64.le_antisymm (heq ▸ hord.top_le htop hte) hle)
  refine ⟨evs, q₁, hloop, hord, hc, hpops.nextTimerId, ?_, ?_⟩
  · have hfilter := hpops.perm.filter fun te => te.ts = q.pioneer
    rw [List.filter_append, List.filter_eq_self.mpr fun te hte => decide_eq_true (hpops.due te hte),
      List.filter_eq_nil_iff.mpr fun te hte => by simpa using hlater te hte,
      List.append_nil] at hfilter
    exact hfilter
  · have hfilter := hpops.perm.filter fun te => te.ts ≠ q.pioneer
    rw [List.filter_append, List.filter_eq_nil_iff.mpr fun te hte => by simpa using hpops.due te hte,
      List.filter_eq_self.mpr fun te hte => decide_eq_true (hlater te hte),
      List.nil_append] at hfilter
    exact hfilter

theorem reused_length_perm {evs evs' : List (TimerEvent κ δ)} (h : evs.Perm evs') :
    (reused evs).length = (reused evs').length := by
  simp only [reused, List.length_map]
  exact (h.filter _).length_eq

/-- The ids of the timers that stay and those issued are distinct when the latter are free. -/
theorem Splits.nodup_iff {q q₁ : TimerQueue κ δ} {evs : List (TimerEvent κ δ)} (h : Ready q)
    (hsplit : Splits q evs q₁) :
    ((withIds q₁.nextTimerId (reused evs) ++ q₁.eventLst).map TimerEvent.timerId).Nodup ↔
      IdsFree q := by
  have hle : (reused evs).length ≤ 2 ^ 32 := by
    have hids := length_le_of_nodup (h.consistent.nodup_ids)
    have hdue := hsplit.due.length_eq
    have hlive := List.length_filter_le (fun te => decide (te.ts = q.pioneer)) q.eventLst
    have hper := List.length_filter_le (fun te => decide (te.interval ≠ 0)) evs
    simp only [List.length_map, dueTimers, reused] at hids hdue ⊢
    omega
  have hstay : ∀ te, te ∈ q₁.eventLst ↔ te ∈ q.eventLst ∧ te.ts ≠ q.pioneer := by
    intro te
    rw [hsplit.later.mem_iff, List.mem_filter, decide_eq_true_eq]
  rw [List.map_append, List.nodup_append', map_timerId_withIds, hsplit.nextTimerId,
    and_iff_right (nodup_issued hle _), and_iff_right (hsplit.consistent.nodup_ids),
    reused_length_perm hsplit.due]
  constructor
  · intro hdis k hk te hte hts heq
    exact hdis (List.mem_map.mpr ⟨k, List.mem_range.mpr hk, rfl⟩)
      (List.mem_map.mpr ⟨te, (hstay te).mpr ⟨hte, hts⟩, heq⟩)
  · intro hfree id hnew hold
    obtain ⟨k, hk, rfl⟩ := List.mem_map.mp hnew
    obtain ⟨te, hte, heq⟩ := List.mem_map.mp hold
    obtain ⟨hte, hts⟩ := (hstay te).mp hte
    exact hfree k (List.mem_range.mp hk) te hte hts heq

/-- A period later is another time: a period is below `2 ^ 32`. -/
theorem advance_ts_ne {te : TimerEvent κ δ} (h : te.interval ≠ 0) : te.advance.ts ≠ te.ts := by
  intro heq
  have h0 : te.interval.toUInt64 = 0 := by
    have hts : te.ts + te.interval.toUInt64 = te.ts + 0 := by rw [UInt64.add_zero]; exact heq
    exact (UInt64.add_right_inj te.ts).mp hts
  exact h (UInt32.toUInt64_inj.mp h0)

/-- All of `get_timo`, whether or not the ids are free. -/
structure Fires (q : TimerQueue κ δ) (evs : List (TimerEvent κ δ)) (q' : TimerQueue κ δ) :
    Prop where
  due : evs.Perm q.dueTimers
  ordered : HeapOrdered q'
  consistent : Consistent q' ↔ IdsFree q
  pioneer : q'.eventLst = [] ∧ q'.pioneer = noPioneer ∨
    (∃ te ∈ q'.eventLst, te.ts = q'.pioneer) ∧ (∀ te ∈ q'.eventLst, q'.pioneer ≤ te.ts) ∧
      q'.pioneer ≠ q.pioneer

theorem getTimo_fires {q : TimerQueue κ δ} (h : Ready q) (firedEvs : List (TimerEvent κ δ)) :
    ∃ evs q', q.getTimo firedEvs = .ok (firedEvs ++ evs, q') ∧ Fires q evs q' := by
  obtain ⟨evs, q₁, hloop, hsplit⟩ := getTimoLoop_splits h firedEvs
  obtain ⟨q₂, hadd, hq₂⟩ := readd_readds (reused evs) hsplit.consistent.toIndexed
  have hord : HeapOrdered q₂ :=
    readd_ordered _ hsplit.consistent.toIndexed hsplit.ordered hadd
  have hcons : Consistent q₂ ↔ IdsFree q := by
    rw [← hsplit.nodup_iff h, ← (hq₂.perm.map TimerEvent.timerId).nodup_iff]
    refine ⟨Consistent.nodup_ids, fun hnodup => hq₂.consistent hsplit.consistent ?_⟩
    exact (hq₂.perm.map TimerEvent.timerId).nodup_iff.mp hnodup
  -- whatever is live now is not due at the old `_pioneer`
  have hnew : ∀ te ∈ q₂.eventLst, te.ts ≠ q.pioneer := by
    intro te hte
    rcases List.mem_append.mp (hq₂.perm.subset hte) with hre | hstay
    · obtain ⟨e, he, hts⟩ := mem_withIds hre
      obtain ⟨d, hd, rfl⟩ := List.mem_map.mp he
      obtain ⟨hd, hint⟩ := List.mem_filter.mp hd
      have hdue := (List.mem_filter.mp (hsplit.due.subset hd)).2
      rw [hts, ← of_decide_eq_true hdue]
      exact advance_ts_ne (of_decide_eq_true hint)
    · exact of_decide_eq_true (List.mem_filter.mp (hsplit.later.subset hstay)).2
  obtain ⟨q', hget, hsame, hset⟩ := getTimo_sets hloop hadd hq₂.indexed
  have hord' := hsame.ordered hord
  refine ⟨evs, q', hget, hsplit.due, hord', ?_, hset.imp_right fun ⟨top, htop, hts⟩ => ?_⟩
  · rw [← hcons]
    exact ⟨hsame.symm.consistent, hsame.consistent⟩
  · have hmem := List.mem_of_getElem? htop
    refine ⟨⟨top, hmem, hts.symm⟩, fun te hte => hts ▸ hord'.top_le htop hte, ?_⟩
    rw [hts]
    exact hnew top (hsame.eventLst ▸ hmem)

theorem addTimer_inOrder {q : TimerQueue κ δ} (h : Ready q) : AddsInOrder q := by
  intro te
  obtain ⟨q', hadd, _⟩ := addTimer_adds h.consistent.toIndexed te
  refine ⟨_, q', hadd, addTimer_ordered h.consistent.toIndexed h.ordered hadd, ?_⟩
  obtain ⟨top, harm⟩ := addTimer_arms h.consistent.toIndexed hadd
  intro top' htop'
  obtain rfl := Option.some.inj (harm.isTop.symm.trans htop')
  exact harm.le_top

/-- **One expiry.**  In any state that is in order, `get_timo` fires exactly the due
slot and leaves the queue in order, and `add_timer` too, if and only if the ids that
`get_timo` issues are free. -/
theorem fires_due_slot_iff {q : TimerQueue κ δ} (h : Ready q) :
    FiresDueSlot q ∧ AddsInOrder q ↔ IdsFree q := by
  constructor
  · rintro ⟨hfires, _⟩
    obtain ⟨evs, q', hget, _, _, hcons, _⟩ := hfires []
    obtain ⟨evs', q₁, hget', hq₁⟩ := getTimo_fires h []
    obtain ⟨_, rfl⟩ := Prod.mk.inj (Except.ok.inj (hget.symm.trans hget'))
    exact hq₁.consistent.mp hcons
  · intro hfree
    refine ⟨fun firedEvs => ?_, addTimer_inOrder h⟩
    obtain ⟨evs, q', hget, hq'⟩ := getTimo_fires h firedEvs
    exact ⟨evs, q', hget, hq'.due, hq'.ordered, hq'.consistent.mpr hfree, hq'.pioneer⟩

/-- A periodic timer that is due and a later one with id `7`; the next id is `next`. -/
def twoTimers (next : Int32) : TimerQueue Unit Unit where
  eventLst := [⟨(), (), 10, 1, 0⟩, ⟨(), (), 100, 0, 7⟩]
  position := fun id => if id = 0 then some 0 else if id = 7 then some 1 else none
  count := 2
  nextTimerId := next
  pioneer := 10
  itValue := timo 10

theorem twoTimers_ready (next : Int32) : Ready (twoTimers next) where
  ordered := by
    rintro (_ | _ | i) hi a b ha hb
    · exact absurd hi (Nat.lt_irrefl 0)
    · obtain rfl := Option.some.inj ha
      obtain rfl := Option.some.inj hb
      decide
    · cases hb
  consistent := by
    refine ⟨⟨rfl, fun id p hp => ?_⟩, ?_⟩
    · simp only [twoTimers] at hp ⊢
      split at hp
      · obtain rfl := Option.some.inj hp
        exact ⟨_, rfl, by simp [*]⟩
      · split at hp
        · obtain rfl := Option.some.inj hp
          exact ⟨_, rfl, by simp [*]⟩
        · cases hp
    · rintro (_ | _ | i) te hte
      · obtain rfl := Option.some.inj hte
        rfl
      · obtain rfl := Option.some.inj hte
        rfl
      · cases hte
  pioneer := by
    intro top htop
    obtain rfl := Option.some.inj htop
    exact UInt64.le_refl 10

theorem fires_due_slot_twoTimers : FiresDueSlot (twoTimers 8) ∧ AddsInOrder (twoTimers 8) :=
  (fires_due_slot_iff (twoTimers_ready 8)).mpr (by decide)

/-- `_next_timer_id` has gone round and stands at the id of the later timer. -/
theorem due_slot_duplicates_id :
    ¬ ∀ q : TimerQueue Unit Unit, Ready q → FiresDueSlot q ∧ AddsInOrder q := by
  intro hall
  obtain ⟨hfires, _⟩ := hall (twoTimers 7) (twoTimers_ready 7)
  obtain ⟨evs, q', hget, _, _, hcons, _⟩ := hfires []
  have hobs : ((twoTimers 7).getTimo []).toOption.map
      (fun r => r.2.eventLst.map TimerEvent.timerId) = some [7, 7] := by decide +kernel
  have hobs := observed_of_ok hget hobs
  exact absurd (hobs ▸ hcons.nodup_ids) (by decide)

end TimerQueue

end EasyReactor.Timer
