import EasyReactor.Buffer.Sharing

set_option autoImplicit false

/-!
# Buffer: how the pool grows

The pool gives no memory back, so what a class costs is what it had in use at its peak.
`alloc` makes a buffer only when the free list of the class is empty, and then every buffer
of the class is with a `tcp_buffer`; the same is so where the process ends because the pool
has reached its limit.
-/

namespace EasyReactor.Buffer

open EasyReactor.Foundation

namespace BufferPool

/-- How many buffers of class `c` were made so far. -/
def made (p : BufferPool) (c : MemCap) : Nat :=
  (List.range p.created).countP fun b => decide ((p.bufs b).capacity = c.bytes)

variable {p q : BufferPool}

theorem SameMemory.made (h : SameMemory p q) (c : MemCap) : q.made c = p.made c := by
  unfold BufferPool.made
  rw [h.created]
  refine List.countP_congr fun b _ => ?_
  rw [h.capacity b]

theorem SameMemory.refl (p : BufferPool) : SameMemory p p := ⟨rfl, rfl, fun _ => rfl⟩

/-- A new buffer is one of its class. -/
theorem made_newBuf (p : BufferPool) (c d : MemCap) :
    (p.newBuf c).made d = p.made d + if d = c then 1 else 0 := by
  have hnew : ((p.newBuf c).bufs p.created).capacity = c.bytes := by
    change (Function.update p.bufs p.created _ p.created).capacity = _
    rw [Function.update_self]
    rfl
  have hold : (List.range p.created).countP
      (fun b => decide (((p.newBuf c).bufs b).capacity = d.bytes)) = p.made d := by
    refine List.countP_congr fun b hb => ?_
    have hne : b ≠ p.created := Nat.ne_of_lt (List.mem_range.mp hb)
    change decide ((Function.update p.bufs p.created _ b).capacity = _) = true ↔ _
    rw [Function.update_of_ne hne]
  have hclass : ((c.bytes : Int) = d.bytes) ↔ d = c :=
    ⟨fun h => (MemCap.bytes_injective (by exact_mod_cast h)).symm, fun h => h ▸ rfl⟩
  unfold BufferPool.made
  change (List.range (p.created + 1)).countP _ = _
  rw [List.range_succ, List.countP_append, hold, List.countP_singleton, hnew]
  simp only [decide_eq_true_eq, hclass]
  rfl

/-! ## The constructor -/

theorem made_extend (c d : MemCap) (n : Nat) (p : BufferPool) (prev : BufId) :
    (extend c n p prev).made d = p.made d + if d = c then n else 0 := by
  induction n generalizing p prev with
  | zero => simp [extend]
  | succ n ih =>
    have hlink : SameMemory (p.newBuf c)
        ((p.newBuf c).setBuf prev { (p.newBuf c).bufs prev with next := some p.created }) :=
      setBuf_sameMemory rfl
    refine (ih ((p.newBuf c).setBuf prev
      { (p.newBuf c).bufs prev with next := some p.created }) p.created).trans ?_
    rw [hlink.made, made_newBuf]
    split
    next => omega
    next => omega

theorem made_addClass (c d : MemCap) (p : BufferPool) :
    (p.addClass c).made d = p.made d + if d = c then c.initialCount else 0 := by
  have hfirst : SameMemory (p.newBuf c) ((p.newBuf c).setPool c (some p.created)) :=
    setPool_sameMemory _ _ _
  refine (made_extend c d (c.initialCount - 1)
    ((p.newBuf c).setPool c (some p.created)) p.created).trans ?_
  have hpos := c.le_initialCount
  rw [hfirst.made, made_newBuf]
  split
  next => omega
  next => omega

theorem made_init (raw : BufId → Nat → UInt8) (c : MemCap) :
    (init raw).made c = c.initialCount := by
  have hempty : (empty raw).made c = 0 := rfl
  unfold init
  simp only [List.foldl_cons, List.foldl_nil, made_addClass, hempty]
  cases c <;> rfl

/-! ## Calls of the pool -/

/-- `alloc(N)` finds nothing free in the class of `N`, and one more buffer of the class would
reach the memory limit. -/
def Refuses (p : BufferPool) (N : Int) : Prop :=
  ∃ c, MemCap.forSize N = some c ∧ p.pool c = none ∧ extraMemLimit ≤ p.totalMem + c.bytes / 1024

/-- A buffer was made, as nothing was free in its class. -/
structure Makes (p q : BufferPool) (c : MemCap) (b : BufId) : Prop where
  empty : p.pool c = none
  id : b = p.created
  created : q.created = p.created + 1
  others : ∀ a, a ≠ b → (q.bufs a).capacity = (p.bufs a).capacity
  made : ∀ d, q.made d = p.made d + if d = c then 1 else 0

theorem alloc_makes (p : BufferPool) (N : Int) :
    Ends (p.alloc N)
      (fun r => p.SameMemory r.1 ∨ ∃ c b, r.2 = some b ∧ Makes p r.1 c b)
      (fun f => f = .exit ∧ p.Refuses N) := by
  unfold alloc
  cases hclass : MemCap.forSize N with
  | none => exact .inl (.refl p)
  | some c =>
    simp only
    cases hpool : p.pool c with
    | none =>
      simp only
      split
      next hlimit => exact ⟨rfl, c, hclass, hpool, hlimit⟩
      next =>
        refine .inr ⟨c, p.created, rfl, hpool, rfl, rfl, fun a ha => ?_, fun d => made_newBuf p c d⟩
        change (Function.update p.bufs p.created _ a).capacity = _
        rw [Function.update_of_ne ha]
    | some target =>
      have hpop := setPool_sameMemory p c (p.bufs target).next
      exact .inl (hpop.trans (setBuf_sameMemory rfl))

theorem revert_same (p : BufferPool) (b : BufId) :
    Ends (p.revert b) (SameMemory p) Fault.Own := by
  refine .intro (fun q hq => revert_sameMemory hq) fun f hf => ?_
  unfold revert at hf
  simp only at hf
  split at hf
  next =>
    obtain rfl := Except.error.inj hf
    trivial
  next => cases hf

end BufferPool

/-! ## Calls of a `tcp_buffer` -/

namespace TcpBuffer

open BufferPool

variable {p : BufferPool}

theorem moveTo_same (p : BufferPool) (b newBuf : BufId) :
    Ends (moveTo p b newBuf) (SameMemory p) Fault.Own := by
  unfold moveTo
  cases hx : (p.bufs newBuf).copy (p.bufs b) with
  | error f =>
    rw [IoBuffer.copy_fault hx]
    trivial
  | ok x =>
    have hset : SameMemory p (p.setBuf newBuf x) := setBuf_sameMemory (IoBuffer.copy_capacity hx)
    exact (revert_same (p.setBuf newBuf x) b).imp (fun _ h => hset.trans h) fun _ h => h

theorem fillIn_same (p : BufferPool) (b : BufId) (fill : Fill) :
    Ends (fillIn p b fill) (SameMemory p) Fault.Own := by
  have hsave : ∀ bs : List UInt8, Ends ((p.bufs b).save (p.bufs b).length bs)
      (fun x => ∀ n, SameMemory p (p.setBuf b { x with length := n })) Fault.Own := by
    intro bs
    refine .intro (fun x hx n => ?_) fun f hf => ?_
    · have hcap : x.capacity = (p.bufs b).capacity := IoBuffer.save_capacity hx
      exact setBuf_sameMemory hcap
    · rw [IoBuffer.save_fault hf]
      trivial
  cases fill with
  | send data => exact (hsave data).bind fun x hx => hx _
  | read rn res =>
    cases res with
    | eagain => exact .refl p
    | error => exact .refl p
    | bytes bs =>
      apply (hsave bs).bind
      intro x hx
      split
      next => exact hx x.length
      next =>
        split
        next => exact hx _
        next => trivial

theorem writeFd_same (p : BufferPool) (buf : TcpBuffer) (ws : List WriteResult) :
    Ends (writeFd p buf ws) (fun w => SameMemory p w.pool) Fault.Own := by
  cases buf with
  | none => trivial
  | some b =>
    unfold writeFd
    simp only
    split
    next => trivial
    next =>
      cases hload : (p.bufs b).load 0 (p.bufs b).length with
      | error f =>
        rw [IoBuffer.load_fault hload]
        trivial
      | ok offered =>
        rw [ok_bind]
        split
        next n _ _ =>
          split
          next => exact .refl p
          next =>
            cases hx : ((p.bufs b).pop (offered.take n).length).adjust with
            | error f =>
              rw [IoBuffer.adjust_fault hx]
              trivial
            | ok x =>
              have hcap := IoBuffer.adjust_capacity hx
              exact setBuf_sameMemory hcap
        next => exact .refl p
        next => exact .refl p

theorem pop_same (p : BufferPool) (buf : TcpBuffer) (len : Int) :
    Ends (buf.pop p len) (fun r => SameMemory p r.1) Fault.Own := by
  cases buf with
  | none => trivial
  | some b =>
    have hset : SameMemory p (p.setBuf b ((p.bufs b).pop len)) := setBuf_sameMemory rfl
    unfold pop
    simp only
    split
    next =>
      split
      next => exact (revert_same _ b).bind fun q hq => hset.trans hq
      next => exact hset
    next => trivial

theorem clear_same (p : BufferPool) (buf : TcpBuffer) :
    Ends (buf.clear p) (fun r => SameMemory p r.1) Fault.Own := by
  cases buf with
  | none => exact .refl p
  | some b => exact (revert_same p b).bind fun q hq => hq

theorem adjust_same (p : BufferPool) (buf : TcpBuffer) :
    Ends (buf.adjust p) (SameMemory p) Fault.Own := by
  cases buf with
  | none => exact .refl p
  | some b =>
    unfold adjust
    simp only
    cases hx : (p.bufs b).adjust with
    | error f =>
      rw [IoBuffer.adjust_fault hx]
      trivial
    | ok x => exact setBuf_sameMemory (IoBuffer.adjust_capacity hx)

/-- What `read_data` and `send_data` ask `alloc` for, to make room for `n` more bytes. -/
def asks (p : BufferPool) (buf : TcpBuffer) (n : Int) : Option Int :=
  match buf with
  | none => some n
  | some b =>
    if wrap ((p.bufs b).capacity - (p.bufs b).length) < n then some (wrap (n + (p.bufs b).length))
    else none

/-- The pool refuses what is asked of it to make room for `n` more bytes. -/
def Starves (p : BufferPool) (buf : TcpBuffer) (n : Int) : Prop :=
  ∃ N, buf.asks p n = some N ∧ p.Refuses N

/-- The first step of `read_data` or `send_data` makes a buffer for it, or none at all. -/
theorem beginFill_grows (p : BufferPool) (buf : TcpBuffer) (fill : Fill) :
    Ends (beginFill p buf fill)
      (fun r => SameMemory p r.1 ∨
        ∃ c b, Makes p r.1 c b ∧ ∀ a, a = b ∨ a ∈ buf.toList → a ∈ r.2.holds)
      (fun f => f.Own ∨ f = .exit ∧ buf.Starves p fill.size) := by
  cases buf with
  | none =>
    apply ((alloc_makes p fill.size).imp (fun _ h => h)
      fun _ hf => .inr ⟨hf.1, fill.size, rfl, hf.2⟩).bind
    rintro ⟨q, b⟩ (hsame | ⟨c, b, hb, hmakes⟩)
    · cases b with
      | none => exact .inl hsame
      | some b => exact .inl hsame
    · obtain rfl : _ = some b := hb
      refine .inr ⟨c, b, hmakes, ?_⟩
      rintro a (rfl | ha)
      · exact List.mem_singleton_self a
      · cases ha
  | some b₀ =>
    unfold beginFill
    simp only
    split
    next => exact .inl trivial
    next =>
      split
      next hfull =>
        apply ((alloc_makes p _).imp (fun _ h => h)
          fun _ hf => .inr ⟨hf.1, _, if_pos hfull, hf.2⟩).bind
        rintro ⟨q, b⟩ (hsame | ⟨c, b, hb, hmakes⟩)
        · cases b with
          | none => exact .inl hsame
          | some b => exact .inl hsame
        · obtain rfl : _ = some b := hb
          refine .inr ⟨c, b, hmakes, ?_⟩
          rintro a (rfl | ha)
          · exact List.mem_cons_self
          · exact List.mem_cons_of_mem _ ha
      next => exact .inl (.refl p)

end TcpBuffer

open BufferPool

/-- How many bytes a call is to make room for. -/
def Call.fills : Call → Option Int
  | .readData r => r.fionread
  | .sendData data => some data.length
  | .writeFd _ | .pop _ | .clear | .adjust => none

theorem Call.start_grows (p : BufferPool) (buf : TcpBuffer) (c : Call) :
    Ends (c.start p buf)
      (fun r => SameMemory p r.1 ∨
        ∃ d b, Makes p r.1 d b ∧ ∀ a, a = b ∨ a ∈ buf.toList → a ∈ r.2.holds)
      (fun f => f.Own ∨ f = .exit ∧ ∃ n, c.fills = some n ∧ buf.Starves p n) := by
  cases c with
  | readData r =>
    unfold Call.start Call.fills
    simp only
    cases r.fionread with
    | none => exact .inl (.refl p)
    | some rn =>
      apply (TcpBuffer.beginFill_grows p buf _).imp (fun _ h => h)
      exact fun f hf => hf.imp_right fun ⟨hexit, hlack⟩ => ⟨hexit, rn, rfl, hlack⟩
  | sendData data =>
    apply (TcpBuffer.beginFill_grows p buf _).imp (fun _ h => h)
    exact fun f hf => hf.imp_right fun ⟨hexit, hlack⟩ => ⟨hexit, data.length, rfl, hlack⟩
  | writeFd ws => exact (TcpBuffer.writeFd_same p buf ws).or_fail.bind fun w hw => .inl hw
  | pop len => exact (TcpBuffer.pop_same p buf len).or_fail.bind fun r hr => .inl hr
  | clear => exact (TcpBuffer.clear_same p buf).or_fail.bind fun r hr => .inl hr
  | adjust => exact (TcpBuffer.adjust_same p buf).or_fail.bind fun q hq => .inl hq

theorem Holder.resume_same (p : BufferPool) (h : Holder) :
    Ends (h.resume p) (fun r => SameMemory p r.1) Fault.Own := by
  cases h with
  | idle buf => exact .refl p
  | growing buf newBuf fill => exact (TcpBuffer.moveTo_same p buf newBuf).bind fun q hq => hq
  | filling buf fill => exact (TcpBuffer.fillIn_same p buf fill).bind fun q hq => hq

/-! ## Why a call fails -/

namespace TcpBuffer

/-- A call ends the process at the limit only where it asks for more than the pool has. -/
theorem complete_fault (p : BufferPool) (buf : TcpBuffer) (c : Call) :
    Ends (complete p buf c) (fun _ => True)
      (fun f => f.Own ∨ f = .exit ∧ ∃ n, c.fills = some n ∧ buf.Starves p n) := by
  unfold complete
  apply ((Call.start_grows p buf c).imp (fun _ _ => trivial) fun _ hf => hf).bind
  rintro ⟨q, h⟩ -
  apply (Holder.resume_same q h).or_fail.bind
  rintro ⟨q', h'⟩ -
  exact (Holder.resume_same q' h').imp (fun _ _ => trivial) fun _ hown => .inl hown

theorem readData_fault (p : BufferPool) (buf : TcpBuffer) (r : Recv) :
    Ends (buf.readData p r) (fun _ => True)
      (fun f => f.Own ∨ f = .exit ∧ ∃ n, r.fionread = some n ∧ buf.Starves p n) := by
  refine .intro (fun _ _ => trivial) fun f hf => ?_
  have hcomplete := readData_eq_complete p buf r
  rw [hf] at hcomplete
  exact (complete_fault p buf (.readData r)).of_error hcomplete

theorem sendData_fault (p : BufferPool) (buf : TcpBuffer) (data : List UInt8) :
    Ends (buf.sendData p data) (fun _ => True)
      (fun f => f.Own ∨ f = .exit ∧ buf.Starves p data.length) := by
  refine .intro (fun _ _ => trivial) fun f hf => ?_
  have hcomplete := sendData_eq_complete p buf data
  rw [hf] at hcomplete
  rcases (complete_fault p buf (.sendData data)).of_error hcomplete with hown | ⟨hexit, n, hn, h⟩
  · exact .inl hown
  · obtain rfl := Option.some.inj hn
    exact .inr ⟨hexit, h⟩

theorem data_fault (p : BufferPool) (buf : TcpBuffer) (len : Int) :
    Ends (buf.data p len) (fun _ => True) Fault.Own := by
  refine .intro (fun _ _ => trivial) fun f hf => ?_
  cases buf with
  | none =>
    unfold TcpBuffer.data at hf
    simp only at hf
    split at hf
    next => cases hf
    next =>
      obtain rfl := Except.error.inj hf
      trivial
  | some b =>
    rw [IoBuffer.load_fault hf]
    trivial

end TcpBuffer

/-! ## Any interleaving -/

namespace Shared

variable {ι : Type} {s s' : Shared ι}

/-- Every buffer of class `c` is with a `tcp_buffer`. -/
def AllHeld (s : Shared ι) (c : MemCap) : Prop :=
  ∀ b < s.pool.created, (s.pool.bufs b).capacity = c.bytes → ∃ i, b ∈ (s.holders i).holds

/-- Where a free list is empty, all buffers of its class are held. -/
theorem Apart.allHeld {owned : List BufId} (h : s.Apart owned) {c : MemCap}
    (hempty : s.pool.pool c = none) : s.AllHeld c := by
  obtain ⟨free, hacc, -⟩ := h.accounts.inv.accounted
  have hlinked := hacc.linked c
  rw [hempty] at hlinked
  intro b hb hcap
  rcases (hacc.created_iff b).mp hb with howned | ⟨d, hd⟩
  · exact (h.mem_iff b).mp howned
  · have hdcap := (hacc.reset d b hd).capacity
    obtain rfl : d = c := MemCap.bytes_injective (by omega)
    rw [hlinked.eq_nil] at hd
    cases hd

variable [DecidableEq ι]

/-- A buffer that is made comes on top of those held. -/
theorem AllHeld.put {c : MemCap} (h : s.AllHeld c) {i : ι} {buf : TcpBuffer} {b : BufId}
    {r : BufferPool × Holder} (hi : s.holders i = .idle buf) (hmakes : Makes s.pool r.1 c b)
    (hholds : ∀ a, a = b ∨ a ∈ buf.toList → a ∈ r.2.holds) : (s.put i r).AllHeld c := by
  intro a ha hcap
  by_cases hab : a = b
  · refine ⟨i, ?_⟩
    show a ∈ (Function.update s.holders i r.2 i).holds
    rw [Function.update_self]
    exact hholds a (.inl hab)
  · have hcreated : (s.put i r).pool.created = s.pool.created + 1 := hmakes.created
    rw [hcreated] at ha
    have hlt := Nat.lt_of_le_of_ne (Nat.le_of_lt_succ ha) (hmakes.id ▸ hab)
    obtain ⟨j, hj⟩ := h a hlt ((hmakes.others a hab).symm.trans hcap)
    refine ⟨j, ?_⟩
    show a ∈ (Function.update s.holders i r.2 j).holds
    by_cases hji : j = i
    · subst hji
      rw [Function.update_self]
      rw [hi] at hj
      exact hholds a (.inr hj)
    · rw [Function.update_of_ne hji]
      exact hj

/-- What the next event asks `alloc` for. -/
def asks (s : Shared ι) : Event ι → Option Int
  | .call i c =>
    match s.holders i with
    | .idle buf => c.fills.bind (buf.asks s.pool)
    | _ => none
  | .resume _ => none

/-- The next event asks for a buffer of a class that is all in use, and one more would reach
the limit. -/
def Full (s : Shared ι) (e : Event ι) : Prop :=
  ∃ N c, s.asks e = some N ∧ MemCap.forSize N = some c ∧ s.AllHeld c ∧
    extraMemLimit ≤ s.pool.totalMem + c.bytes / 1024

/-- What a step does to the number of buffers, and when the process ends. -/
theorem Apart.grows {owned : List BufId} (h : s.Apart owned) (e : Event ι) :
    Ends (s.step e)
      (fun s' => ∀ c, s'.pool.made c = s.pool.made c ∨ s'.AllHeld c)
      (fun f => f.Own ∨ f = .exit ∧ s.Full e) := by
  cases e with
  | resume i =>
    simp only [Shared.step]
    exact (Holder.resume_same s.pool (s.holders i)).or_fail.bind
      fun r hr c => .inl (hr.made c)
  | call i c =>
    simp only [Shared.step]
    cases hi : s.holders i with
    | growing b newBuf fill => exact fun _ => .inl rfl
    | filling b fill => exact fun _ => .inl rfl
    | idle buf =>
      apply ((Call.start_grows s.pool buf c).imp (fun _ h => h) _).bind
      · rintro r (hsame | ⟨d, b, hmakes, hholds⟩) k
        · exact .inl (hsame.made k)
        · by_cases hk : k = d
          · subst hk
            exact .inr ((h.allHeld hmakes.empty).put hi hmakes hholds)
          · left
            have hmade := hmakes.made k
            rw [if_neg hk, Nat.add_zero] at hmade
            exact hmade
      · rintro f (hown | ⟨hexit, n, hfills, N, hasks, d, hclass, hempty, hlimit⟩)
        · exact .inl hown
        · refine .inr ⟨hexit, N, d, ?_, hclass, h.allHeld hempty, hlimit⟩
          unfold Shared.asks
          simp only
          rw [hi, hfills]
          exact hasks

/-- There are as many buffers of class `c` as the constructor made, or as were held at one
moment of the run. -/
def AtPeak (raw : BufId → Nat → UInt8) (evs : List (Event ι)) (s : Shared ι) (c : MemCap) : Prop :=
  s.pool.made c = c.initialCount ∨ ∃ done s', done <+: evs ∧ run raw done = .ok s' ∧
    s'.pool.made c = s.pool.made c ∧ s'.AllHeld c

/-- **The pool grows to its peak.**  In every interleaving of calls on any number of
`tcp_buffer`s: a class has as many buffers as the constructor made, or as many as were in use
at one moment, every one of them; and the process ends for want of memory only at an event that
asks for a buffer of a class of which every one is in use, when one more would reach the limit. -/
theorem pool_grows_to_peak (raw : BufId → Nat → UInt8) (evs : List (Event ι)) :
    Ends (run raw evs) (fun s => ∀ c, AtPeak raw evs s c)
      (fun f => f = .exit → ∃ done e post s, evs = done ++ e :: post ∧ run raw done = .ok s ∧
        s.step e = .error .exit ∧ s.Full e) := by
  have hend : Ends (run raw evs)
      (fun s => run raw evs = .ok s ∧ (∃ owned, s.Apart owned) ∧ ∀ c, AtPeak raw evs s c)
      (fun f => f = .exit → ∃ done e post s, evs = done ++ e :: post ∧ run raw done = .ok s ∧
        s.step e = .error .exit ∧ s.Full e) := by
    refine Ends.foldlM (P := fun done (s : Shared ι) => run raw done = .ok s ∧
      (∃ owned, s.Apart owned) ∧ ∀ c, AtPeak raw done s c) ?_
      ⟨rfl, ⟨[], start_apart raw⟩, fun c => .inl (made_init raw c)⟩
    rintro done e post s hevs ⟨hrun, ⟨owned, h⟩, hpeak⟩
    apply Ends.intro
    · intro s' hs'
      have hrun' : run raw (done ++ [e]) = .ok s' := foldlM_concat_eq_ok.mpr ⟨s, hrun, hs'⟩
      refine ⟨hrun', ?_, fun c => ?_⟩
      · exact ((h.step e).imp (fun _ h => h) fun _ _ => trivial).of_ok hs'
      · rcases (h.grows e).of_ok hs' c with hsame | hheld
        · rcases hpeak c with hinit | ⟨pre, t, hpre, ht, hmade, hheld⟩
          · exact .inl (hsame.trans hinit)
          · exact .inr ⟨pre, t, hpre.trans (List.prefix_append _ _), ht, hmade.trans hsame.symm,
              hheld⟩
        · exact .inr ⟨done ++ [e], s', List.prefix_rfl, hrun', rfl, hheld⟩
    · rintro f hf rfl
      rcases (h.grows e).of_error hf with hown | ⟨-, hfull⟩
      · exact hown.elim
      · exact ⟨done, e, post, s, hevs, hrun, hf, hfull⟩
  exact hend.imp (fun s hs => hs.2.2) fun _ hf => hf

end Shared

end EasyReactor.Buffer
