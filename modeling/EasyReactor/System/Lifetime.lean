import EasyReactor.System.Objects

set_option autoImplicit false

/-!
# System: a registration is of an open descriptor of a living object

Every registration is of a number that an object owns, and names that object (`Registered`);
an object owns the number in its variable, unless it has given it back (`Fits`).  A step
that closes a number leaves this so if nobody else owns the number and it is not registered;
most steps see to that themselves, and `Careful` is what is left.
-/

namespace EasyReactor.System

open EasyReactor.Foundation EasyReactor.Loop EasyReactor.Client EasyReactor.Acceptor

/-! ## Registrations -/

/-- The callbacks of a registration are called for object `id`. -/
structure Serves (id : Nat) (ev : IoEvent IoProc) : Prop where
  reads : ev.readCb ≠ none → ev.rcbArgs = some id
  writes : ev.writeCb ≠ none → ev.wcbArgs = some id

/-- Every registration is of a descriptor that the object it is for owns, and the kernel has
it too. -/
structure Registered (owner : Nat → Option Holder) (l : EventLoop IoProc) : Prop where
  owned : ∀ fd ev, l.ioEvs fd = some ev →
    ∃ n id : Nat, fd = n ∧ owner n = some (.object id) ∧ Serves id ev
  kernel : ∀ fd, l.interest fd = (l.ioEvs fd).map IoEvent.mask
  ctlErrors : l.ctlErrors = 0

section

variable {owner : Nat → Option Holder} {l : EventLoop IoProc} {n id : Nat} {fd : Int}

/-- Who owns a number that is not registered does not matter. -/
theorem Registered.update (h : Registered owner l) (hn : l.ioEvs n = none) (x : Option Holder) :
    Registered (Function.update owner n x) l := by
  refine ⟨fun fd ev hev => ?_, h.kernel, h.ctlErrors⟩
  obtain ⟨m, id, rfl, hown, hserves⟩ := h.owned fd ev hev
  refine ⟨m, id, rfl, ?_, hserves⟩
  rw [Function.update_of_ne _]
  · exact hown
  · rintro rfl
    rw [hn] at hev
    cases hev

/-- A number that no object owns is not registered. -/
theorem Registered.none_of_owner (h : Registered owner l)
    (hn : ∀ id, owner n ≠ some (.object id)) : l.ioEvs n = none := by
  cases hev : l.ioEvs n with
  | none => rfl
  | some ev =>
    obtain ⟨m, id, hm, hown, -⟩ := h.owned _ ev hev
    obtain rfl := Int.natCast_inj.mp hm
    exact absurd hown (hn id)

theorem Registered.closeFd (h : Registered owner l) (hfd : l.ioEvs fd = none) :
    Registered owner (l.closeFd fd) := by
  refine ⟨h.owned, fun e => ?_, h.ctlErrors⟩
  change Function.update l.interest fd none e = (l.ioEvs e).map IoEvent.mask
  rw [Function.update_apply]
  split
  next he =>
    rw [he, hfd]
    rfl
  next => exact h.kernel e

theorem Registered.delIoev (h : Registered owner l) (fd : Int) :
    Registered owner (l.delIoev fd) := by
  refine ⟨fun e ev hev => ?_, fun e => ?_, h.ctlErrors⟩
  · change Function.update l.ioEvs fd none e = some ev at hev
    rw [Function.update_apply] at hev
    split at hev
    · cases hev
    · exact h.owned e ev hev
  · change Function.update l.interest fd none e =
      (Function.update l.ioEvs fd none e).map IoEvent.mask
    rw [Function.update_apply, Function.update_apply]
    split
    · rfl
    · exact h.kernel e

theorem Registered.delIoevMask (h : Registered owner l) (fd : Int) (mask : Mask) :
    Registered owner (l.delIoevMask fd mask) := by
  have howned : ∀ e ev, (l.delIoevMask fd mask).ioEvs e = some ev →
      ∃ n id : Nat, e = n ∧ owner n = some (.object id) ∧ Serves id ev := by
    intro e ev hev
    rcases l.delIoevMask_ioEvs fd mask e with hnone | ⟨ev', o, hev', hsome⟩
    · rw [hnone] at hev
      cases hev
    · rw [hsome] at hev
      obtain rfl := Option.some.inj hev
      obtain ⟨n, id, he, hown, hserves⟩ := h.owned e ev' hev'
      exact ⟨n, id, he, hown, hserves.reads, hserves.writes⟩
  cases hfd : l.ioEvs fd with
  | none =>
    have heq : l.delIoevMask fd mask = l := by
      unfold EventLoop.delIoevMask
      rw [hfd]
    rw [heq]
    exact h
  | some ev =>
    have hint : l.interest fd = some ev.mask := by
      rw [h.kernel, hfd]
      rfl
    obtain ⟨hinterest, -, herrors⟩ := EventLoop.delIoevMask_kernel hfd hint mask
    refine ⟨howned, fun e => ?_, herrors.trans h.ctlErrors⟩
    rw [hinterest]
    unfold EventLoop.delIoevMask
    rw [hfd]
    simp only
    split
    next =>
      simp only [EventLoop.epollCtl_ioEvs, Function.update_apply]
      split
      · rfl
      · exact h.kernel e
    next =>
      simp only [EventLoop.epollCtl_ioEvs, Function.update_apply]
      split
      · rfl
      · exact h.kernel e

/-- What `add_ioev` makes of the registration that there was. -/
theorem addIoev_serves (h : ∀ ev, l.ioEvs fd = some ev → Serves id ev) (proc : IoProc)
    (mask : Mask) {ev : IoEvent IoProc}
    (hev : (l.addIoev fd proc mask (some id)).ioEvs fd = some ev) : Serves id ev := by
  have hold : Serves id ((l.ioEvs fd).getD (.new IoProc)) := by
    cases hfd : l.ioEvs fd with
    | none => exact ⟨fun hr => absurd rfl hr, fun hw => absurd rfl hw⟩
    | some ev => exact h ev hfd
  unfold EventLoop.addIoev at hev
  simp only [EventLoop.epollCtl_ioEvs, Function.update_self] at hev
  obtain rfl := Option.some.inj hev
  by_cases hin : mask &&& epollIn ≠ 0
  · rw [if_pos hin]
    exact ⟨fun _ => rfl, hold.writes⟩
  · by_cases hout : mask &&& epollOut ≠ 0
    · rw [if_neg hin, if_pos hout]
      exact ⟨hold.reads, fun _ => rfl⟩
    · rw [if_neg hin, if_neg hout]
      exact ⟨hold.reads, hold.writes⟩

/-- An object registers the descriptor it owns. -/
theorem Registered.addIoev (h : Registered owner l) (hown : owner n = some (.object id))
    (proc : IoProc) (mask : Mask) : Registered owner (l.addIoev n proc mask (some id)) := by
  obtain ⟨hinterest, -, herrors⟩ :=
    EventLoop.addIoev_kernel (h.kernel n) proc mask (some id)
  obtain ⟨ev', hupdate, hmask, -⟩ := l.addIoev_ioEvs n proc mask (some id)
  refine ⟨fun e ev hev => ?_, fun e => ?_, herrors.trans h.ctlErrors⟩
  · by_cases he : e = n
    · subst he
      refine ⟨n, id, rfl, hown, addIoev_serves (fun ev hev => ?_) proc mask hev⟩
      obtain ⟨m, id', hm, hown', hserves⟩ := h.owned _ ev hev
      obtain rfl := Int.natCast_inj.mp hm
      rw [hown] at hown'
      obtain rfl := Holder.object.inj (Option.some.inj hown')
      exact hserves
    · rw [hupdate, Function.update_of_ne he] at hev
      exact h.owned e ev hev
  · rw [hinterest, hupdate, Function.update_apply, Function.update_apply]
    split
    · rw [Option.map_some, hmask]
    · exact h.kernel e

end

/-! ## Objects -/

/-- The descriptor of an object that has one. -/
def Obj.fd : Obj → Option Int
  | .timerQueue timerfd => some timerfd
  | .server o => some o.sockfd
  | .conn o => if o.connfd = -1 then none else some o.connfd
  | .client o => if ClientFrame.closing ∈ o.frames then none else some o.sockfd
  | .udpServer sockfd => some sockfd
  | .udpClient sockfd => some sockfd

theorem client_fd {o : TcpClient} (h : ClientFrame.closing ∉ o.frames) :
    (Obj.client o).fd = some o.sockfd := if_neg h

theorem conn_fd {o : TcpConn} (h : o.connfd ≠ -1) : (Obj.conn o).fd = some o.connfd := if_neg h

def AcceptStage.connfd : AcceptStage → Option Nat
  | .accepted connfd => some connfd
  | .discarding connfd => some connfd
  | _ => none

/-- What the stage or the frames of an object say about its other members. -/
def Obj.Staged : Obj → Prop
  | .conn o => o.stage ≠ .idle → o.connfd ≠ -1
  | .client o => o.frames.Nodup ∧ (.closing ∈ o.frames → o.netOk = false)
  | _ => True

/-- What `id` names owns its descriptor, and no other. -/
structure Fits (owner : Nat → Option Holder) (conns : Nat → Option Nat) (id : Nat)
    (x : Option Obj) : Prop where
  held : ∀ n : Nat, owner n = some (.object id) ↔ x.bind Obj.fd = some (n : Int)
  number : ∀ fd, x.bind Obj.fd = some fd → 0 ≤ fd
  accepted : ∀ o n, x = some (.server o) → o.stage.connfd = some n →
    owner n = some (.accepted id)
  conns : ∀ n, conns n = some id → ∃ o, x = some (.conn o) ∧ (o.connfd = -1 ∨ o.connfd = n)
  staged : ∀ o, x = some o → o.Staged

/-- A holder that `id` stands in. -/
def Concerns (id : Nat) (x : Option Holder) : Prop :=
  x = some (.object id) ∨ x = some (.accepted id)

/-- What `id` owns is the same. -/
def SameFor (owner owner' : Nat → Option Holder) (id : Nat) : Prop :=
  ∀ n, (owner' n = some (.object id) ↔ owner n = some (.object id)) ∧
    (owner n = some (.accepted id) → owner' n = some (.accepted id))

section

variable {owner owner' owner'' : Nat → Option Holder} {conns conns' : Nat → Option Nat}
  {id n : Nat} {x : Option Obj} {w : Option Holder}

theorem SameFor.refl (owner : Nat → Option Holder) (id : Nat) : SameFor owner owner id :=
  fun _ => ⟨Iff.rfl, fun h => h⟩

theorem SameFor.trans (h : SameFor owner owner' id) (h' : SameFor owner' owner'' id) :
    SameFor owner owner'' id :=
  fun n => ⟨(h' n).1.trans (h n).1, fun hn => (h' n).2 ((h n).2 hn)⟩

/-- A number changes hands that `id` has nothing to do with. -/
theorem SameFor.update (hn : ¬ Concerns id (owner n)) (hw : ¬ Concerns id w) :
    SameFor owner (Function.update owner n w) id := by
  intro m
  rw [Function.update_apply]
  split
  next hm =>
    subst hm
    refine ⟨⟨fun h => absurd (.inl h) hw, fun h => absurd (.inl h) hn⟩, ?_⟩
    exact fun h => absurd (.inr h) hn
  next => exact ⟨Iff.rfl, fun h => h⟩

theorem Fits.congr (h : Fits owner conns id x) (hs : SameFor owner owner' id)
    (hc : ∀ n, conns' n = some id → conns n = some id) : Fits owner' conns' id x where
  held n := (hs n).1.trans (h.held n)
  number := h.number
  accepted o n hx hn := (hs n).2 (h.accepted o n hx hn)
  conns n hn := h.conns n (hc n hn)
  staged := h.staged

/-- The object changes, but not its descriptor. -/
theorem Fits.setObj {o o' : Obj} (h : Fits owner conns id (some o)) (hfd : o'.fd = o.fd)
    (hacc : ∀ t n, o' = .server t → t.stage.connfd = some n → owner n = some (.accepted id))
    (hconn : ∀ t, o = .conn t → ∃ t', o' = .conn t' ∧ t'.connfd = t.connfd)
    (hstaged : o'.Staged) : Fits owner conns id (some o') where
  held n := by
    rw [h.held]
    simp only [Option.bind_some, hfd]
  number fd hx := by
    rw [Option.bind_some, hfd] at hx
    exact h.number fd hx
  accepted t n ht hn := hacc t n (Option.some.inj ht) hn
  conns n hn := by
    obtain ⟨t, ht, hnum⟩ := h.conns n hn
    obtain ⟨t', rfl, heq⟩ := hconn t (Option.some.inj ht)
    refine ⟨t', rfl, ?_⟩
    rw [heq]
    exact hnum
  staged o ho := by
    obtain rfl := Option.some.inj ho
    exact hstaged

/-- An object that just got its descriptor. -/
theorem Fits.new {o : Obj} (howner : ∀ m, owner m = some (.object id) ↔ m = n)
    (hfd : o.fd = some (n : Int)) (hserver : ∀ t, o = .server t → t.stage.connfd = none)
    (hconns : ∀ m, conns m ≠ some id) (hstaged : o.Staged) : Fits owner conns id (some o) where
  held m := by
    rw [howner, Option.bind_some, hfd, Option.some.injEq, Int.natCast_inj, eq_comm]
  number fd hx := by
    rw [Option.bind_some, hfd] at hx
    obtain rfl := Option.some.inj hx
    exact Int.natCast_nonneg n
  accepted t m ht hm := by
    rw [hserver t (Option.some.inj ht)] at hm
    cases hm
  conns m hm := absurd hm (hconns m)
  staged o' ho := by
    obtain rfl := Option.some.inj ho
    exact hstaged

/-- A name that names nothing. -/
theorem Fits.absent (howner : ∀ m, owner m ≠ some (.object id)) (hconns : ∀ m, conns m ≠ some id) :
    Fits owner conns id none where
  held m := ⟨fun h => absurd h (howner m), fun h => nomatch h⟩
  number _ h := nomatch h
  accepted _ _ h := nomatch h
  conns m hm := absurd hm (hconns m)
  staged _ h := nomatch h

end

/-- No object is in `conns` twice. -/
def Distinct (conns : Nat → Option Nat) : Prop :=
  ∀ m n id, conns m = some id → conns n = some id → m = n

/-- Every object that exists fits. -/
structure Possessed (s : Process) : Prop where
  fits : ∀ id, Fits s.table.owner s.conns id (s.living id)
  fresh : ∀ id, s.next ≤ id → s.living id = none
  undeleted : ∀ id, s.next ≤ id → s.deleted id = false
  distinct : Distinct s.conns

structure Sound (s : Process) : Prop where
  registered : Registered s.table.owner s.evs
  possessed : Possessed s

/-! ## Descriptors that are closed -/

/-- The number belongs to nobody but `w`, or to what is no object of the loop, and is not
registered. -/
def Vacant (s : Process) (w : Holder) (fd : Int) : Prop :=
  s.evs.ioEvs fd = none ∧
    (s.ownerOf fd = none ∨ s.ownerOf fd = some .other ∨ s.ownerOf fd = some w)

section

variable {s t : Process} {id n : Nat} {fd : Int} {x : Option Obj} {w : Holder}

theorem living_eq (h : s.deleted id = false) : s.living id = s.objects id := by
  rw [Process.living, h]
  rfl

theorem deleted_of_living {o : Obj} (h : s.living id = some o) : s.deleted id = false := by
  cases hdel : s.deleted id with
  | false => rfl
  | true =>
    rw [Process.living, hdel] at h
    cases h

theorem living_setObj (h : s.deleted id = false) (o : Obj) :
    (s.setObj id o).living = Function.update s.living id (some o) := by
  funext id'
  change (if s.deleted id' then none else Function.update s.objects id (some o) id') = _
  rw [Function.update_apply, Function.update_apply]
  by_cases heq : id' = id
  · rw [if_pos heq, if_pos heq, heq, h]
    rfl
  · rw [if_neg heq, if_neg heq]
    rfl

theorem living_remove (s : Process) (id : Nat) :
    (s.remove id).living = Function.update s.living id none := by
  funext id'
  change (if Function.update s.deleted id true id' then none else s.objects id') = _
  rw [Function.update_apply, Function.update_apply]
  by_cases heq : id' = id
  · rw [if_pos heq, if_pos heq]
    rfl
  · rw [if_neg heq, if_neg heq]
    rfl

theorem Possessed.lt_next (h : Possessed s) {o : Obj} (ho : s.living id = some o) :
    id < s.next := by
  by_contra hge
  rw [h.fresh id (by omega)] at ho
  cases ho

/-- One object and its descriptors change. -/
theorem possessed_update (hfits : ∀ id' ≠ id, Fits s.table.owner s.conns id' (s.living id'))
    (hfresh : ∀ id', s.next ≤ id' → s.living id' = none)
    (hliving : t.living = Function.update s.living id x) (hnext : s.next ≤ t.next)
    (hid : id < t.next) (hundeleted : ∀ id', t.next ≤ id' → t.deleted id' = false) (hconns : ∀ id' ≠ id, ∀ m, t.conns m = some id' → s.conns m = some id')
    (hdistinct : Distinct t.conns) (hsame : ∀ id' ≠ id, SameFor s.table.owner t.table.owner id')
    (hfit : Fits t.table.owner t.conns id x) : Possessed t where
  fits id' := by
    rw [hliving, Function.update_apply]
    split
    next heq =>
      subst heq
      exact hfit
    next hne => exact (hfits id' hne).congr (hsame id' hne) (hconns id' hne)
  fresh id' hle := by
    rw [hliving, Function.update_of_ne (by omega)]
    exact hfresh id' (by omega)
  undeleted := hundeleted
  distinct := hdistinct

/-- An object changes, and no descriptor. -/
theorem Possessed.setObj (h : Possessed s) {o o' : Obj} (ho : s.living id = some o)
    (hfit : Fits s.table.owner s.conns id (some o')) : Possessed (s.setObj id o') :=
  possessed_update (fun id' _ => h.fits id') h.fresh (living_setObj (deleted_of_living ho) o')
    (Nat.le_refl _) (h.lt_next ho) h.undeleted (fun _ _ _ hm => hm) h.distinct (fun _ _ => .refl _ _) hfit

theorem owner_close (s : Process) (fd : Int) (m : Nat) :
    (s.close fd).table.owner m = if (m : Int) = fd then none else s.table.owner m := by
  unfold Process.close
  by_cases hfd : 0 ≤ fd
  · simp only [if_pos hfd, Descriptors.owner_close]
    congr 1
    exact propext ⟨fun h => by omega, fun h => by omega⟩
  · simp only [if_neg hfd]
    rw [if_neg (by omega)]

theorem ownerOf_eq {m : Nat} (hm : (m : Int) = fd) : s.ownerOf fd = s.table.owner m := by
  subst hm
  unfold Process.ownerOf
  rw [if_pos (Int.natCast_nonneg m), Int.toNat_natCast]

theorem sameFor_close (h : ¬ Concerns id (s.ownerOf fd)) :
    SameFor s.table.owner (s.close fd).table.owner id := by
  intro m
  rw [owner_close]
  split
  next hm =>
    rw [ownerOf_eq hm] at h
    refine ⟨⟨nofun, fun h' => absurd (.inl h') h⟩, ?_⟩
    exact fun h' => absurd (.inr h') h
  next => exact ⟨Iff.rfl, fun h => h⟩

theorem Registered.close (h : Registered s.table.owner s.evs) (hfd : s.evs.ioEvs fd = none) :
    Registered (s.close fd).table.owner (s.close fd).evs := by
  have hclosed := h.closeFd hfd
  refine ⟨fun e ev hev => ?_, hclosed.kernel, hclosed.ctlErrors⟩
  obtain ⟨m, id, rfl, hown, hserves⟩ := hclosed.owned e ev hev
  refine ⟨m, id, rfl, ?_, hserves⟩
  rw [owner_close, if_neg]
  · exact hown
  · intro hm
    have hev' : s.evs.ioEvs (m : Int) = some ev := hev
    rw [hm, hfd] at hev'
    cases hev'

/-- Closing a vacant number does not concern the other objects. -/
theorem Vacant.not_concerns (h : Vacant s w fd) (hw : ¬ Concerns id (some w)) :
    ¬ Concerns id (s.ownerOf fd) := by
  rcases h.2 with hnone | hother | hself
  · rw [hnone]
    rintro (hc | hc) <;> cases hc
  · rw [hother]
    rintro (hc | hc) <;> cases hc
  · rw [hself]
    exact hw

theorem not_concerns_object {id' : Nat} (hne : id' ≠ id) :
    ¬ Concerns id' (some (.object id)) := by
  rintro (hc | hc)
  · exact hne (Holder.object.inj (Option.some.inj hc)).symm
  · cases hc

theorem not_concerns_none : ¬ Concerns id none := by
  rintro (hc | hc) <;> cases hc

theorem not_concerns_other : ¬ Concerns id (some .other) := by
  rintro (hc | hc) <;> cases hc

theorem not_concerns_reserve {id' : Nat} : ¬ Concerns id' (some (.reserve id)) := by
  rintro (hc | hc) <;> cases hc

/-! ## Constructors -/

/-- A system call that opens a descriptor. -/
theorem openOrExit_ends (s : Process) (w : Holder) :
    Ends (s.openOrExit w)
      (fun r => s.table.owner r.1 = none ∧
        ∃ table, r.2 = { s with table := table } ∧
          table.owner = Function.update s.table.owner r.1 (some w))
      (fun _ => True) := by
  unfold Process.openOrExit
  cases halloc : s.table.alloc w with
  | none => trivial
  | some r =>
    obtain ⟨n, table⟩ := r
    obtain ⟨hfree, howner⟩ := Descriptors.alloc_update halloc
    exact ⟨hfree, table, rfl, howner⟩

/-- A free number that is handed out is not registered. -/
theorem Registered.open (h : Registered s.table.owner s.evs) (hfree : s.table.owner n = none)
    (w : Holder) : Registered (Function.update s.table.owner n (some w)) s.evs := by
  refine h.update (h.none_of_owner fun id hown => ?_) (some w)
  rw [hfree] at hown
  cases hown

/-- `do_connect` of an object that owns at most `_sockfd`, when that is vacant. -/
theorem doConnect_sound {o : TcpClient} (hreg : Registered s.table.owner s.evs)
    (hfits : ∀ id' ≠ id, Fits s.table.owner s.conns id' (s.living id'))
    (hfresh : ∀ id', s.next ≤ id' → s.living id' = none) (hid : id < s.next)
    (hundeleted : ∀ id', s.next ≤ id' → s.deleted id' = false) (hdel : s.deleted id = false)
    (hframes : ClientFrame.closing ∉ o.frames) (hnodup : o.frames.Nodup)
    (hown : ∀ m : Nat, s.table.owner m = some (.object id) → o.sockfd = m)
    (hconns : ∀ m, s.conns m ≠ some id) (hdistinct : Distinct s.conns)
    (hvacant : o.sockfd ≠ -1 → Vacant s (.object id) o.sockfd) (c : ConnectResult) :
    Ends (s.doConnect id o c) Sound (fun _ => True) := by
  have hclosed : ∃ table evs, (if o.sockfd ≠ -1 then s.close o.sockfd else s) =
        { s with table := table, evs := evs } ∧ Registered table.owner evs ∧
      (∀ m, table.owner m ≠ some (.object id)) ∧
      ∀ id' ≠ id, SameFor s.table.owner table.owner id' := by
    split
    next hfd =>
      have hv := hvacant hfd
      refine ⟨_, _, rfl, hreg.close hv.1, fun m hm => ?_, fun id' hne => ?_⟩
      · change (s.close o.sockfd).table.owner m = _ at hm
        rw [owner_close] at hm
        split at hm
        · cases hm
        next hne => exact hne (hown m hm).symm
      · exact sameFor_close (hv.not_concerns (not_concerns_object hne))
    next hfd =>
      refine ⟨s.table, s.evs, rfl, hreg, fun m hm => ?_, fun _ _ => .refl _ _⟩
      have := hown m hm
      omega
  obtain ⟨table, evs, heq, hreg₁, hnone, hsame⟩ := hclosed
  unfold Process.doConnect
  rw [heq]
  apply (openOrExit_ends _ _).bind
  rintro ⟨n, t⟩ ⟨hfree, table', rfl, howner⟩
  simp only at hfree howner ⊢
  have hreg₂ : Registered table'.owner evs := by
    rw [howner]
    exact Registered.open (s := { s with table := table, evs := evs }) hreg₁ hfree _
  have hself : table'.owner n = some (.object id) := by
    rw [howner, Function.update_self]
  have hfit : ∀ o' : TcpClient, o'.sockfd = n → o'.frames = o.frames →
      Fits table'.owner s.conns id (some (.client o')) := by
    intro o' hfd hsame
    have hframes' : ClientFrame.closing ∉ o'.frames := hsame ▸ hframes
    refine .new (n := n) (fun m => ?_) ?_ (fun t ht => nomatch ht) hconns ?_
    · rw [howner, Function.update_apply]
      split
      next hm => simp [hm]
      next hm => simp [hm, hnone m]
    · rw [client_fd hframes', hfd]
    · exact ⟨hsame ▸ hnodup, fun hclosing => absurd hclosing hframes'⟩
  have hpossessed : ∀ (o' : TcpClient) (evs' : EventLoop IoProc), o'.sockfd = n →
      o'.frames = o.frames → Possessed ({ s with table := table', evs := evs' }.setObj id
        (.client o')) := by
    intro o' evs' hfd hsame'
    refine possessed_update hfits hfresh
      (living_setObj (s := { s with table := table', evs := evs' }) hdel _) (Nat.le_refl _) hid
      hundeleted (fun _ _ _ hm => hm) hdistinct ?_ (hfit o' hfd hsame')
    intro id' hne
    refine (hsame id' hne).trans ?_
    change SameFor table.owner table'.owner id'
    rw [howner]
    refine .update ?_ (not_concerns_object hne)
    rw [hfree]
    exact not_concerns_none
  cases c with
  | connected => exact ⟨hreg₂, hpossessed _ evs rfl rfl⟩
  | inProgress => exact ⟨hreg₂.addIoev hself _ _, hpossessed _ _ rfl rfl⟩
  | error => trivial

/-- An object that is created: it owns the number `n` alone. -/
theorem possessed_create (h : Possessed s) {o : Obj} (hnext : t.next = s.next)
    (hobjects : t.objects = s.objects) (hdeleted : t.deleted = s.deleted)
    (hconns : ∀ id m, t.conns m = some id → s.conns m = some id)
    (hdistinct : Distinct t.conns) (hsame : ∀ id ≠ s.next, SameFor s.table.owner t.table.owner id)
    (howner : ∀ m, t.table.owner m = some (.object s.next) ↔ m = n) (hfd : o.fd = some (n : Int))
    (hserver : ∀ u, o = .server u → u.stage.connfd = none) (hstaged : o.Staged) :
    Possessed (t.create o) := by
  have hunused : ∀ m, s.conns m ≠ some s.next := by
    intro m hm
    obtain ⟨u, hu, -⟩ := (h.fits s.next).conns m hm
    rw [h.fresh _ (Nat.le_refl _)] at hu
    cases hu
  have hdel : t.deleted t.next = false := by
    rw [hdeleted, hnext]
    exact h.undeleted _ (Nat.le_refl _)
  have hliving : t.living = s.living := by
    unfold Process.living
    rw [hobjects, hdeleted]
  refine @possessed_update s _ s.next (some o) (fun id' _ => h.fits id') h.fresh ?_ ?_ ?_ ?_
    (fun id' _ m hm => hconns id' m hm) hdistinct hsame ?_
  · change (t.setObj t.next o).living = _
    rw [living_setObj hdel, hliving, hnext]
  · change s.next ≤ t.next + 1
    omega
  · change s.next < t.next + 1
    omega
  · intro id' hle
    have hle' : t.next + 1 ≤ id' := hle
    change t.deleted id' = false
    rw [hdeleted]
    exact h.undeleted id' (by omega)
  · exact .new howner hfd hserver (fun m hm => hunused m (hconns _ m hm)) hstaged

/-- The number of a new object is not its own before. -/
theorem Possessed.not_owned (h : Possessed s) (m : Nat) :
    s.table.owner m ≠ some (.object s.next) := by
  intro hm
  have hfd := ((h.fits s.next).held m).mp hm
  rw [h.fresh _ (Nat.le_refl _)] at hfd
  cases hfd

/-- The table after a number for the new object was taken. -/
theorem Possessed.taken (h : Possessed s) {owner : Nat → Option Holder}
    (hfree : s.table.owner n = none)
    (howner : owner = Function.update s.table.owner n (some (.object s.next))) :
    (∀ m, owner m = some (.object s.next) ↔ m = n) ∧
      ∀ id ≠ s.next, SameFor s.table.owner owner id := by
  subst howner
  refine ⟨fun m => ?_, fun id hne => ?_⟩
  · rw [Function.update_apply]
    split
    next hm => simp [hm]
    next hm => simp [hm, h.not_owned m]
  · refine .update ?_ (not_concerns_object hne)
    rw [hfree]
    exact not_concerns_none

theorem newReader_sound (h : Sound s) {obj : Int → Obj} (hfd : ∀ fd, (obj fd).fd = some fd)
    (hserver : ∀ fd u, obj fd ≠ .server u) (hstaged : ∀ fd, (obj fd).Staged) (readCb : IoProc) :
    Ends (s.newReader obj readCb) Sound (fun _ => True) := by
  unfold Process.newReader
  apply (openOrExit_ends _ _).bind
  rintro ⟨n, t⟩ ⟨hfree, table, rfl, howner⟩
  simp only at hfree howner ⊢
  obtain ⟨hown, hsame⟩ := h.possessed.taken hfree howner
  refine ⟨?_, ?_⟩
  · have hreg : Registered table.owner s.evs := by
      rw [howner]
      exact h.registered.open hfree _
    exact hreg.addIoev ((hown n).mpr rfl) _ _
  · refine possessed_create h.possessed rfl rfl rfl (fun _ _ hm => hm) ?_ hsame hown (hfd n)
      (fun u hu => absurd hu (hserver n u)) (hstaged n)
    exact h.possessed.distinct

/-- The reserve concerns no object. -/
theorem openReserve_cases (s : Process) (id : Nat) (opens : Bool) :
    (s.openReserve id opens).2 = s ∨ ∃ n table, s.table.owner n = none ∧
      (s.openReserve id opens).2 = { s with table := table } ∧
      table.owner = Function.update s.table.owner n (some (.reserve id)) := by
  unfold Process.openReserve
  split
  next halloc =>
    obtain ⟨hfree, howner⟩ := Descriptors.alloc_update halloc
    exact .inr ⟨_, _, hfree, rfl, howner⟩
  next => exact .inl rfl

theorem newServer_sound (h : Sound s) (opens : Bool) :
    Ends (s.newServer opens) Sound (fun _ => True) := by
  unfold Process.newServer
  apply (openOrExit_ends _ _).bind
  rintro ⟨n, t⟩ ⟨hfree, table, rfl, howner⟩
  simp only at hfree howner ⊢
  obtain ⟨hown, hsame⟩ := h.possessed.taken hfree howner
  have hreg : Registered table.owner s.evs := by
    rw [howner]
    exact h.registered.open hfree _
  -- the table after the reserve was opened
  obtain ⟨table', heq, hreg', hown', hsame'⟩ : ∃ table',
      (Process.openReserve { s with table := table } s.next opens).2 =
        { s with table := table' } ∧ Registered table'.owner s.evs ∧
      (∀ m, table'.owner m = some (.object s.next) ↔ m = n) ∧
      ∀ id ≠ s.next, SameFor s.table.owner table'.owner id := by
    rcases openReserve_cases { s with table := table } s.next opens with
      heq | ⟨k, table', hk, heq, hres⟩
    · exact ⟨table, heq, hreg, hown, hsame⟩
    · simp only at hk hres
      refine ⟨table', heq, ?_, fun m => ?_, fun id hne => (hsame id hne).trans ?_⟩
      · rw [hres]
        exact Registered.open (s := { s with table := table }) hreg hk _
      · rw [hres, Function.update_apply]
        split
        next hm =>
          subst hm
          have hne : m ≠ n := by
            rintro rfl
            rw [(hown m).mpr rfl] at hk
            cases hk
          simp [hne]
        next => exact hown m
      · rw [hres]
        refine .update ?_ not_concerns_reserve
        rw [hk]
        exact not_concerns_none
  obtain ⟨fd, hpair⟩ : ∃ fd, Process.openReserve { s with table := table } s.next opens =
      (fd, { s with table := table' }) := ⟨_, Prod.ext rfl heq⟩
  rw [hpair]
  apply (Ends.any _).bind
  intro size _
  split
  · trivial
  · refine ⟨hreg'.addIoev ((hown' n).mpr rfl) _ _, ?_⟩
    refine possessed_create h.possessed rfl rfl rfl (fun _ _ hm => ?_) (fun _ _ _ hm => ?_) hsame' hown'
      rfl ?_ trivial
    · cases hm
    · cases hm
    · intro u hu
      obtain rfl := Obj.server.inj hu
      rfl

theorem newClient_sound (h : Sound s) (c : ConnectResult) :
    Ends (s.newClient c) Sound (fun _ => True) := by
  unfold Process.newClient
  refine doConnect_sound (s := { s with next := s.next + 1 }) h.registered
    (fun id' _ => h.possessed.fits id') (fun id' hle => ?_) (Nat.lt_succ_self _)
    (fun id' hle => h.possessed.undeleted id' (Nat.le_of_succ_le hle))
    (h.possessed.undeleted _ (Nat.le_refl _)) List.not_mem_nil List.nodup_nil
    (fun m hm => absurd hm (h.possessed.not_owned m)) (fun m hm => ?_) h.possessed.distinct
    (fun hne => absurd rfl hne) c
  · exact h.possessed.fresh id' (Nat.le_of_succ_le hle)
  · obtain ⟨u, hu, -⟩ := (h.possessed.fits s.next).conns m hm
    rw [h.possessed.fresh _ (Nat.le_refl _)] at hu
    cases hu

/-! ## Objects that give their descriptor back -/

/-- The object closes its own descriptor. -/
theorem closed_own (h : Possessed s) {o : Obj} (ho : s.living id = some o)
    (hfd : o.fd = some fd) :
    (∀ m, (s.close fd).table.owner m ≠ some (.object id)) ∧
      ∀ id' ≠ id, SameFor s.table.owner (s.close fd).table.owner id' := by
  have hfit := h.fits id
  rw [ho] at hfit
  refine ⟨fun m hm => ?_, fun id' hne => sameFor_close ?_⟩
  · rw [owner_close] at hm
    split at hm
    · cases hm
    next hne =>
      rw [hfit.held, Option.bind_some, hfd] at hm
      exact hne (Option.some.inj hm).symm
  · obtain ⟨n, rfl⟩ := Int.eq_ofNat_of_zero_le (hfit.number fd hfd)
    have hown : s.table.owner n = some (.object id) := by
      rw [hfit.held]
      exact hfd
    rw [ownerOf_eq rfl, hown]
    exact not_concerns_object hne

/-- `del_ioev` and `::close` -/
theorem Registered.delClose (h : Registered s.table.owner s.evs) (fd : Int) :
    Registered ((s.delIoev fd).close fd).table.owner ((s.delIoev fd).close fd).evs :=
  Registered.close (s := s.delIoev fd) (h.delIoev fd) (Function.update_self ..)

/-- An object without a descriptor. -/
theorem Fits.closed {owner : Nat → Option Holder} {conns : Nat → Option Nat} {o : Obj}
    (howner : ∀ m, owner m ≠ some (.object id)) (hfd : o.fd = none)
    (hserver : ∀ u, o ≠ .server u)
    (hconns : ∀ m, conns m = some id → ∃ u, o = .conn u ∧ u.connfd = -1) (hstaged : o.Staged) :
    Fits owner conns id (some o) where
  held m := by
    rw [Option.bind_some, hfd]
    exact ⟨fun h => absurd h (howner m), fun h => nomatch h⟩
  number fd' hx := by
    rw [Option.bind_some, hfd] at hx
    cases hx
  accepted u m hu _ := absurd (Option.some.inj hu) (hserver u)
  conns m hm := by
    obtain ⟨u, rfl, hu⟩ := hconns m hm
    exact ⟨u, rfl, .inl hu⟩
  staged o' ho := by
    obtain rfl := Option.some.inj ho
    exact hstaged

/-- Only a `tcp_conn` is in `conns`. -/
theorem Possessed.not_in_conns (h : Possessed s) {o : Obj} (ho : s.living id = some o)
    (hconn : ∀ u, o ≠ .conn u) (m : Nat) : s.conns m ≠ some id := by
  intro hm
  obtain ⟨u, hu, -⟩ := (h.fits id).conns m hm
  rw [ho] at hu
  exact hconn u (Option.some.inj hu)

/-- The object is deleted. -/
theorem possessed_remove (h : Possessed s) {o : Obj} (ho : s.living id = some o)
    (hconn : ∀ u, o ≠ .conn u) (hobjects : t.objects = s.objects)
    (hdeleted : t.deleted = s.deleted) (hnext : t.next = s.next) (hconns : t.conns = s.conns) (hnone : ∀ m, t.table.owner m ≠ some (.object id))
    (hsame : ∀ id' ≠ id, SameFor s.table.owner t.table.owner id') : Possessed (t.remove id) := by
  have hlt := h.lt_next ho
  refine @possessed_update s _ id none (fun id' _ => h.fits id') h.fresh ?_ ?_ ?_ ?_ ?_ ?_ hsame ?_
  · rw [living_remove]
    unfold Process.living
    rw [hobjects, hdeleted]
  · exact Nat.le_of_eq hnext.symm
  · change id < t.next
    rw [hnext]
    exact hlt
  · intro id' hle
    have hle' : t.next ≤ id' := hle
    change Function.update t.deleted id true id' = false
    rw [Function.update_of_ne (by omega), hdeleted]
    exact h.undeleted id' (by omega)
  · intro id' _ m hm
    rw [← hconns]
    exact hm
  · change Distinct t.conns
    rw [hconns]
    exact h.distinct
  · refine .absent hnone fun m hm => h.not_in_conns ho hconn m ?_
    rw [← hconns]
    exact hm

/-- `~udp_server` and `~udp_client`. -/
theorem destroy_udp (h : Sound s) {o : Obj} (ho : s.living id = some o)
    (hconn : ∀ u, o ≠ .conn u) (hfd : o.fd = some fd) :
    Sound (((s.delIoev fd).close fd).remove id) := by
  obtain ⟨hnone, hsame⟩ := closed_own h.possessed ho hfd
  exact ⟨h.registered.delClose fd,
    possessed_remove h.possessed ho hconn rfl rfl rfl rfl hnone hsame⟩

/-- What a vacant number is to its last owner. -/
theorem sameFor_vacant (hvacant : Vacant s (.object id) fd) {id' : Nat} (hne : id' ≠ id) :
    SameFor s.table.owner (s.close fd).table.owner id' :=
  sameFor_close (hvacant.not_concerns (not_concerns_object hne))

/-- `~tcp_client`, when `_sockfd` is vacant. -/
theorem destroy_client (h : Sound s) {o : TcpClient} (ho : s.living id = some (.client o))
    (hvacant : Vacant s (.object id) o.sockfd) : Sound ((s.close o.sockfd).remove id) := by
  have hfit := h.possessed.fits id
  rw [ho] at hfit
  refine ⟨h.registered.close hvacant.1, ?_⟩
  refine possessed_remove h.possessed ho (fun u hu => nomatch hu) rfl rfl rfl rfl (fun m hm => ?_)
    fun id' hne => sameFor_vacant hvacant hne
  rw [owner_close] at hm
  split at hm
  · cases hm
  next hne =>
    -- what the client owns is `_sockfd`
    rw [hfit.held, Option.bind_some] at hm
    unfold Obj.fd at hm
    simp only at hm
    split at hm
    · cases hm
    · exact hne (Option.some.inj hm).symm

/-- `~tcp_server`, when the reserve is vacant. -/
theorem destroy_server (h : Sound s) {o : TcpServer} (ho : s.living id = some (.server o))
    (hvacant : Vacant s (.reserve id) o.reservfd) :
    Sound ((((s.delIoev o.sockfd).close o.sockfd).close o.reservfd).remove id) := by
  obtain ⟨hnone, hsame⟩ := @closed_own s id o.sockfd h.possessed _ ho rfl
  have howner : ∀ m, (((s.delIoev o.sockfd).close o.sockfd).close o.reservfd).table.owner m =
      if (m : Int) = o.reservfd then none else (s.close o.sockfd).table.owner m :=
    owner_close _ _
  have hreserve : ∀ id', ¬ Concerns id' (((s.delIoev o.sockfd).close o.sockfd).ownerOf
      o.reservfd) := by
    intro id'
    have hcases : ((s.delIoev o.sockfd).close o.sockfd).ownerOf o.reservfd = none ∨
        ((s.delIoev o.sockfd).close o.sockfd).ownerOf o.reservfd = s.ownerOf o.reservfd := by
      by_cases hpos : 0 ≤ o.reservfd
      · obtain ⟨m, hm⟩ := Int.eq_ofNat_of_zero_le hpos
        rw [ownerOf_eq hm.symm, ownerOf_eq hm.symm, owner_close]
        split
        · exact .inl rfl
        · exact .inr rfl
      · left
        unfold Process.ownerOf
        rw [if_neg hpos]
    rcases hcases with heq | heq
    · rw [heq]
      exact not_concerns_none
    · rw [heq]
      exact hvacant.not_concerns not_concerns_reserve
  refine ⟨?_, possessed_remove h.possessed ho (fun u hu => nomatch hu) rfl rfl rfl rfl (fun m => ?_)
    fun id' hne => (hsame id' hne).trans (sameFor_close (hreserve id'))⟩
  · refine Registered.close (h.registered.delClose o.sockfd) ?_
    change Function.update s.evs.ioEvs o.sockfd none o.reservfd = none
    rw [Function.update_apply]
    split
    · rfl
    · exact hvacant.1
  · rw [howner]
    split
    · exact nofun
    · exact hnone m

end

end EasyReactor.System
