import EasyReactor.System.Lifetime

set_option autoImplicit false

/-!
# System: no registration outlives its descriptor

One lemma for each step, and the runs made of them.  Three `::close`s are made without a
look at what the number is by then: that of `_sockfd` in `do_connect` and in
`~tcp_client`, and that of `_reservfd`.  A reconnect timer outlives its client, and a
function that waits for a callback goes on whatever the callback did to its object.
-/

namespace EasyReactor.System

open EasyReactor.Foundation EasyReactor.Loop EasyReactor.Client EasyReactor.Acceptor

section

variable {s t : Process} {id n : Nat} {fd : Int}

/-! ## The rest of the process -/

/-- A number is closed that concerns no object. -/
theorem Sound.close (h : Sound s) (hfd : s.evs.ioEvs fd = none)
    (hc : ∀ id, ¬ Concerns id (s.ownerOf fd)) : Sound (s.close fd) :=
  ⟨h.registered.close hfd,
    fun id => (h.possessed.fits id).congr (sameFor_close (hc id)) (fun _ hm => hm),
    h.possessed.fresh, h.possessed.undeleted, h.possessed.distinct⟩

theorem otherCloses_sound (h : Sound s) {k : Nat} (hk : s.table.owner k = some .other) :
    Sound (s.close k) := by
  have hown : s.ownerOf k = some .other := (ownerOf_eq rfl).trans hk
  refine h.close (h.registered.none_of_owner fun id hid => ?_) fun id => ?_
  · rw [hk] at hid
    cases hid
  · rw [hown]
    exact not_concerns_other

theorem otherOpens_sound (h : Sound s) {table : Descriptors Holder}
    (halloc : s.table.alloc .other = some (n, table)) : Sound { s with table := table } := by
  obtain ⟨hfree, howner⟩ := Descriptors.alloc_update halloc
  refine ⟨?_, fun id => ?_, h.possessed.fresh, h.possessed.undeleted, h.possessed.distinct⟩
  · change Registered table.owner s.evs
    rw [howner]
    exact h.registered.open hfree _
  · refine (h.possessed.fits id).congr ?_ (fun _ hm => hm)
    change SameFor s.table.owner table.owner id
    rw [howner]
    refine .update ?_ not_concerns_other
    rw [hfree]
    exact not_concerns_none

/-! ## `do_accept` -/

/-- What is left of an object that no number is accepted for. -/
theorem Fits.congr_owned {owner owner' : Nat → Option Holder} {conns conns' : Nat → Option Nat}
    {x : Option Obj} (h : Fits owner conns id x)
    (hown : ∀ m, owner' m = some (.object id) ↔ owner m = some (.object id))
    (hacc : ∀ u k, x = some (.server u) → u.stage.connfd = some k → owner' k = some (.accepted id))
    (hc : ∀ m, conns' m = some id → conns m = some id) : Fits owner' conns' id x where
  held m := (hown m).trans (h.held m)
  number := h.number
  accepted := hacc
  conns m hm := h.conns m (hc m hm)
  staged := h.staged

/-- One system call of `do_accept`, and the stage after it. -/
theorem server_step (h : Sound s) {o o' : TcpServer} (ho : s.living id = some (.server o))
    (hobjects : t.objects = s.objects) (hdeleted : t.deleted = s.deleted)
    (hnext : t.next = s.next) (hconns : t.conns = s.conns)
    (hreg : Registered t.table.owner t.evs)
    (hsame : ∀ id' ≠ id, SameFor s.table.owner t.table.owner id')
    (hown : ∀ m, t.table.owner m = some (.object id) ↔ s.table.owner m = some (.object id))
    (hfd : o'.sockfd = o.sockfd)
    (hacc : ∀ k, o'.stage.connfd = some k → t.table.owner k = some (.accepted id)) :
    Sound (t.setObj id (.server o')) := by
  refine ⟨hreg, ?_⟩
  refine @possessed_update s _ id (some (.server o')) (fun id' _ => h.possessed.fits id')
    h.possessed.fresh ?_ ?_ ?_ ?_ ?_ ?_ hsame ?_
  · have hdel : t.deleted id = false := hdeleted ▸ deleted_of_living ho
    rw [living_setObj hdel]
    unfold Process.living
    rw [hobjects, hdeleted]
  · exact Nat.le_of_eq hnext.symm
  · change id < t.next
    rw [hnext]
    exact h.possessed.lt_next ho
  · intro id' hle
    have hle' : t.next ≤ id' := hle
    change t.deleted id' = false
    rw [hdeleted]
    exact h.possessed.undeleted id' (by omega)
  · intro id' _ m hm
    rw [← hconns]
    exact hm
  · change Distinct t.conns
    rw [hconns]
    exact h.possessed.distinct
  · have hfit := h.possessed.fits id
    rw [ho] at hfit
    have hconn : ∀ m, t.conns m ≠ some id := by
      rw [hconns]
      exact h.possessed.not_in_conns ho fun u hu => nomatch hu
    refine ⟨fun m => ?_, fun e he => hfit.number e ?_, fun u k hu hk => ?_,
      fun m hm => absurd hm (hconn m), fun u hu => ?_⟩
    · refine (hown m).trans ((hfit.held m).trans ?_)
      simp only [Option.bind_some, Obj.fd, hfd]
    · simp only [Option.bind_some, Obj.fd, hfd] at he ⊢
      exact he
    · obtain rfl := Obj.server.inj (Option.some.inj hu)
      exact hacc k hk
    · obtain rfl := Option.some.inj hu
      trivial

/-- Only the stage changes. -/
theorem server_stay (h : Sound s) {o : TcpServer} (ho : s.living id = some (.server o))
    {stage : AcceptStage} (hstage : stage.connfd = none) :
    Sound (s.setObj id (.server { o with stage := stage })) := by
  refine server_step h ho rfl rfl rfl rfl h.registered (fun _ _ => .refl _ _) (fun _ => Iff.rfl) rfl ?_
  intro k hk
  change stage.connfd = some k at hk
  rw [hstage] at hk
  cases hk

/-- An accepted number is not registered. -/
theorem Sound.not_registered (h : Sound s) (hn : s.table.owner n = some (.accepted id)) :
    s.evs.ioEvs n = none := by
  refine h.registered.none_of_owner fun id' hid => ?_
  rw [hn] at hid
  cases hid

/-- A connection is closed at once. -/
theorem server_closes (h : Sound s) {o : TcpServer} (ho : s.living id = some (.server o))
    (hn : s.table.owner n = some (.accepted id)) {stage : AcceptStage}
    (hstage : stage.connfd = none) :
    Sound ((s.close n).setObj id (.server { o with stage := stage })) := by
  refine server_step h ho rfl rfl rfl rfl (h.registered.close (h.not_registered hn))
    (fun id' hne => sameFor_close ?_) (fun m => ?_) rfl ?_
  · rw [ownerOf_eq rfl, hn]
    rintro (hc | hc)
    · cases hc
    · exact hne (Holder.accepted.inj (Option.some.inj hc)).symm
  · rw [owner_close]
    split
    next hm =>
      obtain rfl := Int.natCast_inj.mp hm
      rw [hn]
      simp
    next => rfl
  · intro k hk
    change stage.connfd = some k at hk
    rw [hstage] at hk
    cases hk

/-- The connection is given to the object `cid`, which owns no descriptor. -/
theorem initConn_sound (h : Sound s) {o : TcpServer} (ho : s.living id = some (.server o))
    (hstage : o.stage.connfd = none) (hn : s.table.owner n = some (.accepted id)) {cid : Nat}
    (htable : t.table = s.table) (hevs : t.evs = s.evs) (hobjects : t.objects = s.objects)
    (hdeleted : t.deleted = s.deleted) (hdel : s.deleted cid = false) (hnext : s.next ≤ t.next) (hcid : cid < t.next) (hne : cid ≠ id)
    (hfree : ∀ m, s.table.owner m ≠ some (.object cid))
    (hconns : ∀ id' ≠ cid, ∀ m, t.conns m = some id' → s.conns m = some id')
    (hself : ∀ m, t.conns m = some cid → m = n) (hdistinct : Distinct t.conns) :
    Sound (t.initConn cid n) := by
  have howner : (t.initConn cid n).table.owner =
      Function.update s.table.owner n (some (.object cid)) := by
    change Function.update t.table.owner n _ = _
    rw [htable]
  have hold : ∀ id' ≠ cid, ∀ m, (t.initConn cid n).table.owner m = some (.object id') ↔
      s.table.owner m = some (.object id') := by
    intro id' hid m
    rw [howner, Function.update_apply]
    split
    next hm =>
      subst hm
      rw [hn]
      simp [hid.symm]
    next => exact Iff.rfl
  have hliving : (t.initConn cid n).living =
      Function.update s.living cid (some (.conn ⟨n, .building⟩)) := by
    have hdel' : t.deleted cid = false := hdeleted ▸ hdel
    have hsame : t.living = s.living := by
      unfold Process.living
      rw [hobjects, hdeleted]
    unfold Process.initConn
    rw [living_setObj (by exact hdel'), ← hsame]
    rfl
  refine ⟨?_, fun id' => ?_, fun id' hle => ?_, fun id' hle => ?_, hdistinct⟩
  · change Registered (t.initConn cid n).table.owner t.evs
    rw [howner, hevs]
    exact h.registered.update (h.not_registered hn) _
  · rw [hliving, Function.update_apply]
    split
    next heq =>
      subst heq
      have hnum : (Obj.conn ⟨n, .building⟩).fd = some (n : Int) := conn_fd (by simp)
      refine ⟨fun m => ?_, fun e he => ?_, nofun, fun m hm => ?_, fun u hu => ?_⟩
      · rw [Option.bind_some, hnum, howner, Function.update_apply]
        split
        next hm => simp [hm]
        next hm =>
          simp only [Option.some.injEq, Int.natCast_inj]
          exact ⟨fun hc => absurd hc (hfree m), fun hc => absurd hc.symm hm⟩
      · rw [Option.bind_some, hnum] at he
        obtain rfl := Option.some.inj he
        exact Int.natCast_nonneg n
      · exact ⟨_, rfl, .inr (by rw [hself m hm])⟩
      · obtain rfl := Option.some.inj hu
        intro _ hc
        change (n : Int) = -1 at hc
        omega
    next hid =>
      by_cases hserver : id' = id
      · subst hserver
        refine (h.possessed.fits id').congr_owned (hold id' hid) (fun u k hu hk => ?_)
          (hconns id' hid)
        rw [ho] at hu
        obtain rfl := Obj.server.inj (Option.some.inj hu)
        rw [hstage] at hk
        cases hk
      · refine (h.possessed.fits id').congr ?_ (hconns id' hid)
        rw [howner]
        refine .update ?_ (not_concerns_object hid)
        rw [hn]
        rintro (hc | hc)
        · cases hc
        · exact hserver (Holder.accepted.inj (Option.some.inj hc)).symm
  · have hle' : t.next ≤ id' := hle
    rw [hliving, Function.update_of_ne (by omega)]
    exact h.possessed.fresh id' (by omega)
  · have hle' : t.next ≤ id' := hle
    change t.deleted id' = false
    rw [hdeleted]
    exact h.possessed.undeleted id' (by omega)

/-- The connection is given to the object of its number, or to a new one. -/
theorem register_sound (h : Sound s) {o : TcpServer} (ho : s.living id = some (.server o))
    (hstage : o.stage.connfd = none) (hn : s.table.owner n = some (.accepted id)) :
    Sound (s.register n) := by
  unfold Process.register
  cases hc : s.conns n with
  | some cid =>
    obtain ⟨u, hu, hnum⟩ := (h.possessed.fits cid).conns n hc
    have hfit := h.possessed.fits cid
    rw [hu] at hfit
    have hgone : u.connfd = -1 := by
      cases hnum with
      | inl hgone => exact hgone
      | inr heq =>
        have hown : s.table.owner n = some (.object cid) := by
          rw [hfit.held, Option.bind_some, conn_fd (by omega), heq]
        rw [hn] at hown
        cases hown
    refine initConn_sound h ho hstage hn rfl rfl rfl rfl (deleted_of_living hu) (Nat.le_refl _)
      (h.possessed.lt_next hu) ?_
      (fun m hm => ?_) (fun _ _ _ hm => hm) (fun m hm => h.possessed.distinct m n cid hm hc)
      h.possessed.distinct
    · rintro rfl
      rw [ho] at hu
      cases hu
    · rw [hfit.held, Option.bind_some] at hm
      simp [Obj.fd, hgone] at hm
  | none =>
    have hunused : ∀ m, s.conns m ≠ some s.next := by
      intro m hm
      obtain ⟨u, hu, -⟩ := (h.possessed.fits s.next).conns m hm
      rw [h.possessed.fresh _ (Nat.le_refl _)] at hu
      cases hu
    have hold : ∀ id', id' ≠ s.next → ∀ m,
        Function.update s.conns n (some s.next) m = some id' → s.conns m = some id' := by
      intro id' hne m hm
      rw [Function.update_apply] at hm
      split at hm
      · exact absurd (Option.some.inj hm).symm hne
      · exact hm
    have hself : ∀ m, Function.update s.conns n (some s.next) m = some s.next → m = n := by
      intro m hm
      rw [Function.update_apply] at hm
      split at hm
      next heq => exact heq
      next => exact absurd hm (hunused m)
    refine initConn_sound h ho hstage hn rfl rfl rfl rfl (h.possessed.undeleted _ (Nat.le_refl _))
      (Nat.le_succ _) (Nat.lt_succ_self _) ?_
      h.possessed.not_owned hold hself ?_
    · rintro heq
      rw [← heq, h.possessed.fresh _ (Nat.le_refl _)] at ho
      cases ho
    · intro m k id' hm hk
      by_cases hid : id' = s.next
      · subst hid
        rw [hself m hm, hself k hk]
      · exact h.possessed.distinct m k id' (hold id' hid m hm) (hold id' hid k hk)

/-- One system call of `do_accept`; before `::close(_reservfd)` the number is vacant. -/
theorem accept_sound (h : Sound s) {o : TcpServer} (ho : s.living id = some (.server o))
    (hvacant : o.stage = .releasing → Vacant s (.reserve id) o.reservfd) (r : AcceptResult)
    (opens : Bool) : Ends (s.accept id o r opens) Sound (fun _ => True) := by
  unfold Process.accept
  simp only
  have hfit := h.possessed.fits id
  rw [ho] at hfit
  have hacc : ∀ n, o.stage.connfd = some n → s.table.owner n = some (.accepted id) :=
    fun n hn => hfit.accepted o n rfl hn
  cases hstage : o.stage with
  | outside => exact h
  | releasing =>
    rw [hstage] at hvacant
    have hv := hvacant rfl
    have hsame : ∀ id', SameFor s.table.owner (s.close o.reservfd).table.owner id' :=
      fun id' => sameFor_close (hv.not_concerns not_concerns_reserve)
    refine server_step h ho rfl rfl rfl rfl (h.registered.close hv.1) (fun id' _ => hsame id')
      (fun m => (hsame id m).1) rfl ?_
    exact fun k hk => nomatch hk
  | accepted n =>
    rw [hstage] at hacc
    have hn := hacc n rfl
    simp only
    split
    · exact server_closes h ho hn rfl
    · split
      · have ho' : (s.setObj id (.server { o with stage := .accepting false })).living id =
            some (.server { o with stage := .accepting false }) := by
          rw [living_setObj (deleted_of_living ho), Function.update_self]
        exact register_sound (server_stay h ho rfl) ho' rfl hn
      · trivial
  | discarding n =>
    rw [hstage] at hacc
    exact server_closes h ho (hacc n rfl) rfl
  | reopening =>
    simp only
    have hcases := openReserve_cases s id opens
    cases hopen : s.openReserve id opens with
    | mk reservfd t =>
      rw [hopen] at hcases
      simp only at hcases ⊢
      rcases hcases with rfl | ⟨k, table, hk, rfl, hres⟩
      · exact server_step h ho rfl rfl rfl rfl h.registered (fun _ _ => .refl _ _) (fun _ => Iff.rfl) rfl
          (fun _ hk => nomatch hk)
      · have hreg : Registered table.owner s.evs := by
          rw [hres]
          exact h.registered.open hk _
        have hsame : ∀ id', SameFor s.table.owner table.owner id' := by
          intro id'
          rw [hres]
          refine .update ?_ not_concerns_reserve
          rw [hk]
          exact not_concerns_none
        exact server_step h ho rfl rfl rfl rfl hreg (fun id' _ => hsame id') (fun m => (hsame id m).1) rfl
          (fun _ hk => nomatch hk)
  | accepting connFull =>
    have hstay : ∀ stage : AcceptStage, stage.connfd = none →
        Sound (s.setObj id (.server { o with stage := stage })) :=
      fun _ hconnfd => server_stay h ho hconnfd
    simp only
    cases halloc : s.table.alloc (.accepted id) with
    | none =>
      cases r with
      | eintr => exact h
      | eagain => exact hstay .outside rfl
      | failure => trivial
      | emfile => exact hstay .releasing rfl
      | connection => exact h
    | some p =>
      obtain ⟨n, table⟩ := p
      cases r with
      | eintr => exact h
      | eagain => exact hstay .outside rfl
      | failure => trivial
      | emfile => exact h
      | connection =>
        obtain ⟨hfree, howner⟩ := Descriptors.alloc_update halloc
        have hreg : Registered table.owner s.evs := by
          rw [howner]
          exact h.registered.open hfree _
        refine server_step (t := { s with table := table }) h ho rfl rfl rfl rfl hreg
          (fun id' hne => ?_) (fun m => ?_) rfl fun k hk => ?_
        · change SameFor s.table.owner table.owner id'
          rw [howner]
          refine .update ?_ ?_
          · rw [hfree]
            exact not_concerns_none
          · rintro (hc | hc)
            · cases hc
            · exact hne (Holder.accepted.inj (Option.some.inj hc)).symm
        · change table.owner m = _ ↔ _
          rw [howner, Function.update_apply]
          split
          next hm =>
            subst hm
            rw [hfree]
            simp
          next => exact Iff.rfl
        · change table.owner k = _
          have heq : k = n := by
            cases connFull with
            | true => exact (Option.some.inj hk).symm
            | false => exact (Option.some.inj hk).symm
          rw [howner, heq, Function.update_self]

/-! ## Connections -/

/-- A living object owns its descriptor. -/
theorem Sound.owned (h : Sound s) {o : Obj} (ho : s.living id = some o) (hfd : o.fd = some fd) :
    ∃ n : Nat, fd = n ∧ s.table.owner n = some (.object id) := by
  have hfit := h.possessed.fits id
  rw [ho] at hfit
  obtain ⟨n, rfl⟩ := Int.eq_ofNat_of_zero_le (hfit.number fd hfd)
  refine ⟨n, rfl, ?_⟩
  rw [hfit.held]
  exact hfd

/-- A living object registers its descriptor. -/
theorem Sound.addIoev (h : Sound s) {o : Obj} (ho : s.living id = some o) (hfd : o.fd = some fd)
    (proc : IoProc) (mask : Mask) :
    Registered s.table.owner (s.evs.addIoev fd proc mask (some id)) := by
  obtain ⟨n, rfl, hown⟩ := h.owned ho hfd
  exact h.registered.addIoev hown proc mask

/-- `add_ioev` for a number that the object owns. -/
theorem Registered.addIoevOf (h : Registered s.table.owner t.evs)
    (hown : s.ownerOf fd = some (.object id)) (proc : IoProc) (mask : Mask) :
    Registered s.table.owner (t.evs.addIoev fd proc mask (some id)) := by
  unfold Process.ownerOf at hown
  split at hown
  next hfd =>
    obtain ⟨n, rfl⟩ := Int.eq_ofNat_of_zero_le hfd
    exact h.addIoev hown proc mask
  next => cases hown

/-- Only the registrations change. -/
theorem Sound.register (h : Sound s) {evs : EventLoop IoProc}
    (hreg : Registered s.table.owner evs) : Sound { s with evs := evs } :=
  ⟨hreg, h.possessed.fits, h.possessed.fresh, h.possessed.undeleted, h.possessed.distinct⟩

/-- The registrations change, and an object, but not its descriptor. -/
theorem obj_step (h : Sound s) {o o' : Obj} (ho : s.living id = some o) {evs : EventLoop IoProc}
    (hreg : Registered s.table.owner evs) {currConns : Int} (hfd : o'.fd = o.fd)
    (hserver : ∀ u, o' ≠ .server u)
    (hconn : ∀ u, o = .conn u → ∃ u', o' = .conn u' ∧ u'.connfd = u.connfd)
    (hstaged : o'.Staged) :
    Sound ({ s with evs := evs, currConns := currConns }.setObj id o') := by
  have hfit := h.possessed.fits id
  rw [ho] at hfit
  refine ⟨hreg, ?_⟩
  exact Possessed.setObj (s := { s with evs := evs, currConns := currConns })
    ⟨h.possessed.fits, h.possessed.fresh, h.possessed.undeleted, h.possessed.distinct⟩ ho
    (hfit.setObj hfd (fun u _ hu => absurd hu (hserver u)) hconn hstaged)

theorem conn_step (h : Sound s) {o o' : TcpConn} (ho : s.living id = some (.conn o))
    {evs : EventLoop IoProc} (hreg : Registered s.table.owner evs) {currConns : Int}
    (hfd : o'.connfd = o.connfd) (hstaged : o'.stage ≠ .idle → o'.connfd ≠ -1) :
    Sound ({ s with evs := evs, currConns := currConns }.setObj id (.conn o')) := by
  refine obj_step h ho hreg ?_ (fun u hu => nomatch hu) (fun u hu => ⟨o', rfl, ?_⟩) hstaged
  · unfold Obj.fd
    simp only [hfd]
  · obtain rfl := Obj.conn.inj hu
    exact hfd

theorem client_step (h : Sound s) {o o' : TcpClient} (ho : s.living id = some (.client o))
    {evs : EventLoop IoProc} (hreg : Registered s.table.owner evs) {currConns : Int}
    (hfd : o'.sockfd = o.sockfd)
    (hframes : ClientFrame.closing ∈ o'.frames ↔ ClientFrame.closing ∈ o.frames)
    (hnodup : o'.frames.Nodup) (hnet : ClientFrame.closing ∈ o.frames → o'.netOk = o.netOk) :
    Sound ({ s with evs := evs, currConns := currConns }.setObj id (.client o')) := by
  have hfit := h.possessed.fits id
  rw [ho] at hfit
  refine obj_step h ho hreg ?_ (fun u hu => nomatch hu) (fun u hu => nomatch hu)
    ⟨hnodup, fun hc => ?_⟩
  · unfold Obj.fd
    simp only [hframes, hfd]
  · have hc := hframes.mp hc
    exact (hnet hc).trans ((hfit.staged _ rfl).2 hc)

/-- `clean_conn` of a connection, once `connCloseCb` returned. -/
theorem connClosed_sound (h : Sound s) {o : TcpConn} (ho : s.living id = some (.conn o))
    (hfd : o.connfd ≠ -1) {currConns : Int} :
    Sound { (((s.delIoev o.connfd).setObj id (.conn ⟨-1, .idle⟩)).close o.connfd) with
      currConns := currConns } := by
  obtain ⟨hnone, hsame⟩ := closed_own h.possessed ho (conn_fd hfd)
  refine ⟨h.registered.delClose o.connfd, ?_⟩
  refine @possessed_update s _ id (some (.conn ⟨-1, .idle⟩)) (fun id' _ => h.possessed.fits id')
    h.possessed.fresh (living_setObj (s := s) (deleted_of_living ho) _) (Nat.le_refl _)
    (h.possessed.lt_next ho) h.possessed.undeleted (fun _ _ _ hm => hm) h.possessed.distinct
    hsame ?_
  exact .closed hnone rfl (fun u hu => nomatch hu) (fun _ _ => ⟨_, rfl, rfl⟩)
    (fun hne => absurd rfl hne)

/-! ## Clients -/

/-- `clean_conn` of a client, up to `onClose`. -/
theorem clientClean_sound (h : Sound s) {o : TcpClient} (ho : s.living id = some (.client o))
    (hframes : ClientFrame.closing ∉ o.frames) :
    Sound ((if o.sockfd ≠ -1 then (s.delIoev o.sockfd).close o.sockfd else s).setObj id
      (.client { o with netOk := false, frames := .closing :: o.frames })) := by
  obtain ⟨n, hn, -⟩ := h.owned ho (client_fd hframes)
  obtain ⟨hnone, hsame⟩ := closed_own h.possessed ho (client_fd hframes)
  rw [if_pos (by omega)]
  refine ⟨h.registered.delClose o.sockfd, ?_⟩
  refine @possessed_update s _ id
    (some (.client { o with netOk := false, frames := .closing :: o.frames }))
    (fun id' _ => h.possessed.fits id') h.possessed.fresh
    (living_setObj (s := s) (deleted_of_living ho) _) (Nat.le_refl _)
    (h.possessed.lt_next ho) h.possessed.undeleted (fun _ _ _ hm => hm) h.possessed.distinct
    hsame ?_
  have hfit := h.possessed.fits id
  rw [ho] at hfit
  have hgone :
      Obj.fd (.client { o with netOk := false, frames := .closing :: o.frames }) = none := by
    unfold Obj.fd
    exact if_pos List.mem_cons_self
  refine .closed hnone hgone (fun u hu => nomatch hu) (fun m hm => ?_)
    ⟨List.nodup_cons.mpr ⟨hframes, (hfit.staged _ rfl).1⟩, fun _ => rfl⟩
  exact absurd hm (h.possessed.not_in_conns ho (fun u hu => nomatch hu) m)

/-- `do_connect` of a client that has given its descriptor back, or owns `_sockfd`. -/
theorem clientConnect_sound (h : Sound s) {o o' : TcpClient}
    (ho : s.living id = some (.client o)) (hvacant : Vacant s (.object id) o.sockfd)
    (hfd : o'.sockfd = o.sockfd) (hframes : ClientFrame.closing ∉ o'.frames)
    (hnodup : o'.frames.Nodup) (c : ConnectResult) :
    Ends (s.doConnect id o' c) Sound (fun _ => True) := by
  have hfit := h.possessed.fits id
  rw [ho] at hfit
  refine doConnect_sound h.registered (fun id' _ => h.possessed.fits id') h.possessed.fresh
    (h.possessed.lt_next ho) h.possessed.undeleted (deleted_of_living ho) hframes hnodup
    (fun m hm => ?_) (h.possessed.not_in_conns ho fun u hu => nomatch hu)
    h.possessed.distinct (fun _ => hfd ▸ hvacant) c
  rw [hfit.held, Option.bind_some] at hm
  unfold Obj.fd at hm
  simp only at hm
  split at hm
  · cases hm
  · exact hfd.trans (Option.some.inj hm)

/-! ## Steps -/

/-- The object whose function runs or goes on. -/
def Step.subject : Step → Option Nat
  | .doAccept id | .accept id _ _ => some id
  | .built id | .connSend id | .connDrained id | .connClean id | .connClosed id => some id
  | .connectionCb id _ | .connected id _ | .clientSend id | .clientDrained id => some id
  | .clientClean id | .reconnect id _ | .timer id _ => some id
  | .otherOpens | .otherCloses _ | .newServer _ | .newClient _ => none
  | .newUdpServer | .newUdpClient | .destroy _ => none

def Process.server? (s : Process) (id : Nat) : Option TcpServer :=
  match s.living id with
  | some (.server o) => some o
  | _ => none

def Process.client? (s : Process) (id : Nat) : Option TcpClient :=
  match s.living id with
  | some (.client o) => some o
  | _ => none

def ClientFrame.fd? : ClientFrame → Option Int
  | .connecting fd => some fd
  | .closing => none

/-- What a step does not see to itself.  `~tcp_client` and `do_connect` find `_sockfd`
unregistered, and when `clean_conn` has closed it, it belongs to no other object; so does
`_reservfd` when it is closed; `clean_conn` is not called in its own `onClose`; and the
descriptor that `connection_cb` registers after `onConnection` is still the client's. -/
def Spares (s : Process) : Step → Prop
  | .destroy id =>
    (∀ o ∈ s.server? id, Vacant s (.reserve id) o.reservfd) ∧
      ∀ o ∈ s.client? id, Vacant s (.object id) o.sockfd
  | .accept id _ _ =>
    ∀ o ∈ s.server? id, o.stage = .releasing → Vacant s (.reserve id) o.reservfd
  | .connected id _ =>
    ∀ o ∈ s.client? id, ∀ f ∈ o.frames.head?, ∀ fd ∈ f.fd?, s.ownerOf fd = some (.object id)
  | .clientClean id => ∀ o ∈ s.client? id, .closing ∉ o.frames
  | .reconnect id _ =>
    ∀ o ∈ s.client? id, o.frames.head? = some .closing → Vacant s (.object id) o.sockfd
  | .timer id _ =>
    ∀ o ∈ s.client? id, o.frames = [] → o.timers ≠ 0 → Vacant s (.object id) o.sockfd
  | _ => True

/-- No function of a deleted object runs or goes on, and the `::close`s are spared. -/
def Careful (s : Process) (e : Step) : Prop :=
  (∀ id ∈ e.subject, s.deleted id = false) ∧ Spares s e

instance (s : Process) (w : Holder) (fd : Int) : Decidable (Vacant s w fd) :=
  inferInstanceAs (Decidable (_ ∧ _))

instance (s : Process) (e : Step) : Decidable (Spares s e) := by
  unfold Spares
  split <;> infer_instance

instance (s : Process) (e : Step) : Decidable (Careful s e) :=
  inferInstanceAs (Decidable (_ ∧ _))

theorem server?_eq {o : TcpServer} (ho : s.living id = some (.server o)) :
    s.server? id = some o := by
  rw [Process.server?, ho]

theorem client?_eq {o : TcpClient} (ho : s.living id = some (.client o)) :
    s.client? id = some o := by
  rw [Process.client?, ho]

theorem withServer_ends (h : Sound s) (hdel : s.deleted id = false)
    {f : TcpServer → Except Fault Process}
    (hf : ∀ o, s.living id = some (.server o) → Ends (f o) Sound (fun _ => True)) :
    Ends (s.withServer id f) Sound (fun _ => True) := by
  unfold Process.withServer
  split
  next o ho => exact hf o ((living_eq hdel).trans ho)
  next => exact h

theorem withConn_ends (h : Sound s) (hdel : s.deleted id = false) {stage : ConnStage}
    {f : TcpConn → Except Fault Process}
    (hf : ∀ o, s.living id = some (.conn o) → o.stage = stage → Ends (f o) Sound (fun _ => True)) :
    Ends (s.withConn id stage f) Sound (fun _ => True) := by
  unfold Process.withConn
  split
  next o ho =>
    split
    next hstage => exact hf o ((living_eq hdel).trans ho) hstage
    next => exact h
  next => exact h

theorem withClient_ends (h : Sound s) (hdel : s.deleted id = false)
    {f : TcpClient → Except Fault Process}
    (hf : ∀ o, s.living id = some (.client o) → o.frames.Nodup → Ends (f o) Sound (fun _ => True)) :
    Ends (s.withClient id f) Sound (fun _ => True) := by
  unfold Process.withClient
  split
  next o ho =>
    have ho := (living_eq hdel).trans ho
    exact hf o ho ((h.possessed.fits id).staged _ ho).1
  next => exact h

theorem destroy_sound (h : Sound s) (hspares : Spares s (.destroy id)) :
    Sound (s.destroy id) := by
  obtain ⟨hserver, hclient⟩ := hspares
  unfold Process.destroy
  cases hobj : s.living id with
  | none => exact h
  | some o =>
    cases o with
    | timerQueue => exact h
    | conn o => exact h
    | server o => exact destroy_server h hobj (hserver o (server?_eq hobj))
    | client o => exact destroy_client h hobj (hclient o (client?_eq hobj))
    | udpServer sockfd => exact destroy_udp h hobj (fun u hu => nomatch hu) rfl
    | udpClient sockfd => exact destroy_udp h hobj (fun u hu => nomatch hu) rfl

theorem step_sound (h : Sound s) {e : Step} (hcareful : Careful s e) :
    Ends (s.step e) Sound (fun _ => True) := by
  obtain ⟨hdel, hspares⟩ := hcareful
  unfold Process.step
  cases e with
  | otherOpens =>
    simp only
    split
    next => exact h
    next halloc => exact otherOpens_sound h halloc
  | otherCloses fd =>
    simp only
    split
    next hfd => exact otherCloses_sound h hfd
    next => exact h
  | newServer opens => exact newServer_sound h opens
  | newClient c => exact newClient_sound h c
  | newUdpServer =>
    exact @newReader_sound s h .udpServer (fun _ => rfl) (fun _ _ hu => nomatch hu)
      (fun _ => trivial) _
  | newUdpClient =>
    exact @newReader_sound s h .udpClient (fun _ => rfl) (fun _ _ hu => nomatch hu)
      (fun _ => trivial) _
  | destroy id => exact destroy_sound h hspares
  | doAccept id =>
    apply withServer_ends h (hdel id rfl)
    intro o ho
    split
    · exact server_stay h ho rfl
    · exact h
  | accept id r opens =>
    apply withServer_ends h (hdel id rfl)
    intro o ho
    exact accept_sound h ho (hspares o (server?_eq ho)) r opens
  | built id =>
    apply withConn_ends h (hdel id rfl)
    intro o ho hstage
    have hfit := h.possessed.fits id
    have hfd : o.connfd ≠ -1 := hfit.staged _ ho (by simp [hstage])
    have hbuilt : Sound ({ s with
        evs := s.evs.addIoev o.connfd .tcpRcb epollIn (some id)
        currConns := s.currConns + 1 }.setObj id (.conn { o with stage := .idle })) :=
      conn_step h ho (h.addIoev ho (conn_fd hfd) _ _) rfl (fun hne => absurd rfl hne)
    exact hbuilt
  | connSend id =>
    simp only
    split
    next o ho =>
      have ho := (living_eq (hdel id rfl)).trans ho
      split
      · trivial
      next hfd => exact h.register (h.addIoev ho (conn_fd hfd) _ _)
    next => exact h
  | connDrained id =>
    apply withConn_ends h (hdel id rfl)
    intro o ho hstage
    split
    · exact h
    · exact h.register (h.registered.delIoevMask _ _)
  | connClean id =>
    apply withConn_ends h (hdel id rfl)
    intro o ho hstage
    split
    · exact h
    next hfd => exact conn_step h ho h.registered rfl (fun _ => hfd)
  | connClosed id =>
    apply withConn_ends h (hdel id rfl)
    intro o ho hstage
    have hfit := h.possessed.fits id
    exact connClosed_sound h ho (hfit.staged _ ho (by simp [hstage]))
  | connectionCb id result =>
    apply withClient_ends h (hdel id rfl)
    intro o ho hnodup
    split
    · exact h
    next hframes =>
      have hframes := not_not.mp hframes
      split
      · refine client_step h ho (h.registered.delIoev _) rfl ?_ (List.nodup_singleton _)
          fun hc => ?_
        · rw [hframes]
          simp
        · rw [hframes] at hc
          cases hc
      · exact client_step h ho (h.registered.delIoev _) rfl Iff.rfl hnodup (fun _ => rfl)
  | connected id left =>
    apply withClient_ends h (hdel id rfl)
    intro o ho hnodup
    split
    next fd frames hframes =>
      have hown : s.ownerOf fd = some (.object id) :=
        hspares o (client?_eq ho) _ (by rw [hframes]; rfl) fd rfl
      rw [hframes] at hnodup
      have hs : Sound ((s.addIoev fd (.client .readCb) epollIn id).setObj id
          (.client { o with frames := frames })) := by
        refine client_step h ho (h.registered.addIoevOf hown _ _) rfl ?_ hnodup.of_cons
          (fun _ => rfl)
        rw [hframes]
        simp
      simp only
      split
      · exact hs.register (hs.registered.addIoevOf hown _ _)
      · exact hs
    next => exact h
  | clientSend id =>
    apply withClient_ends h (hdel id rfl)
    intro o ho _
    split
    next hnet =>
      have hopen : ClientFrame.closing ∉ o.frames := by
        intro hc
        have hdown := ((h.possessed.fits id).staged _ ho).2 hc
        rw [hnet] at hdown
        cases hdown
      exact h.register (h.addIoev ho (client_fd hopen) _ _)
    next => exact h
  | clientDrained id =>
    apply withClient_ends h (hdel id rfl)
    intro o ho _
    exact h.register (h.registered.delIoevMask _ _)
  | clientClean id =>
    apply withClient_ends h (hdel id rfl)
    intro o ho _
    exact clientClean_sound h ho (hspares o (client?_eq ho))
  | reconnect id c =>
    apply withClient_ends h (hdel id rfl)
    intro o ho hnodup
    split
    next frames hframes =>
      have hvacant := hspares o (client?_eq ho) (by rw [hframes]; rfl)
      rw [hframes] at hnodup
      obtain ⟨hclosing, hrest⟩ := List.nodup_cons.mp hnodup
      exact @clientConnect_sound s id h o { o with frames := frames } ho hvacant rfl hclosing
        hrest c
    next => exact h
  | timer id c =>
    apply withClient_ends h (hdel id rfl)
    intro o ho hnodup
    split
    next => exact h
    next hdue =>
      obtain ⟨hframes, htimers⟩ := not_or.mp hdue
      have hframes := not_not.mp hframes
      have hclosing : ClientFrame.closing ∉ o.frames := by simp [hframes]
      exact @clientConnect_sound s id h o { o with timers := o.timers - 1 } ho
        (hspares o (client?_eq ho) hframes htimers) rfl hclosing hnodup c

/-! ## Runs -/

theorem empty_sound (limit : Nat) (isOpen : Nat → Bool) (maxConns : Int) :
    Sound (.empty limit isOpen maxConns) := by
  refine ⟨⟨?_, fun _ => rfl, rfl⟩, fun id => ?_, fun _ _ => rfl, fun _ _ => rfl, ?_⟩
  · exact fun fd ev hev => nomatch hev
  · refine .absent (fun m hm => ?_) (fun m hm => nomatch hm)
    change (if isOpen m then some Holder.other else none) = some (.object id) at hm
    split at hm
    · cases hm
    · cases hm
  · exact fun m n id hm => nomatch hm

theorem start_sound (limit : Nat) (isOpen : Nat → Bool) (maxConns : Int) :
    Ends (Process.start limit isOpen maxConns) Sound (fun _ => True) := by
  unfold Process.start
  have hopen : Ends ((Process.empty limit isOpen maxConns).openOrExit .other)
      (fun r => Sound r.2) (fun _ => True) := by
    unfold Process.openOrExit
    cases halloc : (Process.empty limit isOpen maxConns).table.alloc .other with
    | none => trivial
    | some r => exact otherOpens_sound (empty_sound limit isOpen maxConns) halloc
  apply hopen.bind
  rintro ⟨_, s⟩ h
  exact @newReader_sound s h .timerQueue (fun _ => rfl) (fun _ _ hu => nomatch hu)
    (fun _ => trivial) .timerqueueCb

/-- The descriptor is open, and the callbacks are called for objects that exist. -/
structure Alive (s : Process) (fd : Int) (ev : IoEvent IoProc) : Prop where
  isOpen : s.ownerOf fd ≠ none
  reads : ev.readCb ≠ none → ∃ id, ev.rcbArgs = some id ∧ s.living id ≠ none
  writes : ev.writeCb ≠ none → ∃ id, ev.wcbArgs = some id ∧ s.living id ≠ none

theorem Sound.alive (h : Sound s) {ev : IoEvent IoProc} (hev : s.evs.ioEvs fd = some ev) :
    Alive s fd ev := by
  obtain ⟨n, id, rfl, hown, hserves⟩ := h.registered.owned fd ev hev
  have hobj : s.living id ≠ none := by
    intro hnone
    have hfd := ((h.possessed.fits id).held n).mp hown
    rw [hnone] at hfd
    cases hfd
  refine ⟨?_, fun hr => ⟨id, hserves.reads hr, hobj⟩, fun hw => ⟨id, hserves.writes hw, hobj⟩⟩
  rw [ownerOf_eq rfl, hown]
  simp

/-- The condition on a run, in the states it passes. -/
def RunCareful (limit : Nat) (isOpen : Nat → Bool) (maxConns : Int) (steps : List Step) : Prop :=
  match Process.start limit isOpen maxConns with
  | .ok s => Meets Process.step Careful s steps
  | .error _ => True

instance (limit : Nat) (isOpen : Nat → Bool) (maxConns : Int) (steps : List Step) :
    Decidable (RunCareful limit isOpen maxConns steps) := by
  unfold RunCareful
  split <;> infer_instance

/-- **No registration outlives its descriptor.**  In every run in which the three `::close`s
hit what they are meant for, and neither a timer nor a function that waited for a callback
comes back to an object that is gone: whatever is registered is open, its callbacks are
called for objects that exist, and no `epoll_ctl` ever failed. -/
theorem registrations_alive (limit : Nat) (isOpen : Nat → Bool) (maxConns : Int)
    (steps : List Step) (hcareful : RunCareful limit isOpen maxConns steps) :
    Ends (Process.run limit isOpen maxConns steps)
      (fun s => (∀ fd ev, s.evs.ioEvs fd = some ev → Alive s fd ev) ∧ s.evs.ctlErrors = 0)
      (fun _ => True) := by
  unfold Process.run
  apply (start_sound limit isOpen maxConns).bind_eq (fun _ he => he)
  intro s hs h
  unfold RunCareful at hcareful
  rw [hs] at hcareful
  apply (Ends.foldlM_meets (fun _ _ h hc => step_sound h hc) steps s h hcareful).imp _
    (fun _ he => he)
  exact fun s h => ⟨fun fd ev hev => h.alive hev, h.registered.ctlErrors⟩

end

/-- All five classes: a server takes a connection and loses it again, a client fails to
connect, connects, is cleaned in its `onConnection` and reconnects, and a `udp_client` and a
client that waits for its timer come and go. -/
def comeAndGo : List Step :=
  [.newServer true, .newClient .inProgress, .connectionCb 2 111, .timer 2 .inProgress,
    .connectionCb 2 0, .clientClean 2, .reconnect 2 .inProgress, .connected 2 true,
    .clientDrained 2, .doAccept 1, .accept 1 .connection true, .accept 1 .connection true,
    .built 3, .connSend 3, .connDrained 3, .connClean 3, .connClosed 3, .accept 1 .eagain true,
    .clientClean 2, .reconnect 2 .inProgress, .newUdpServer, .newUdpClient, .destroy 5,
    .newClient .inProgress, .connectionCb 6 111, .destroy 6, .destroy 1]

theorem registrations_alive_comeAndGo :
    Ends (Process.run 16 (· < 3) 100 comeAndGo)
      (fun s => (∀ fd ev, s.evs.ioEvs fd = some ev → Alive s fd ev) ∧ s.evs.ctlErrors = 0)
      (fun _ => True) :=
  registrations_alive 16 (· < 3) 100 comeAndGo (by decide +kernel)

/-- A connected client is destroyed. -/
def destroyConnected : List Step :=
  [.newClient .inProgress, .connectionCb 1 0, .connected 1 false, .destroy 1]

/-- `onClose` makes a `udp_client`, which gets the number that `do_connect` then closes. -/
def closeInUse : List Step :=
  [.newClient .inProgress, .connectionCb 1 0, .connected 1 false, .clientClean 1, .newUdpClient,
    .reconnect 1 .inProgress]

/-- The reserve is given up for a connection that is gone by then.  A `udp_client` gets its
number, and the next `EMFILE` closes it. -/
def closeReserveTwice : List Step :=
  [.newServer true, .doAccept 1, .accept 1 .emfile true, .accept 1 .emfile true,
    .accept 1 .eagain true, .newUdpClient, .doAccept 1, .accept 1 .emfile true,
    .accept 1 .emfile true]

/-- A client that waits for its timer is destroyed, and the timer ends. -/
def timerAfterDelete : List Step :=
  [.newClient .inProgress, .connectionCb 1 111, .destroy 1, .timer 1 .inProgress]

/-- A client is deleted in its `onConnection`, and `connection_cb` goes on. -/
def deleteInOnConnection : List Step :=
  [.newClient .inProgress, .connectionCb 1 0, .destroy 1, .connected 1 false]

/-- A client is deleted in its `onClose`, and `clean_conn` goes on. -/
def deleteInOnClose : List Step :=
  [.newClient .inProgress, .connectionCb 1 0, .connected 1 false, .clientClean 1, .destroy 1,
    .reconnect 1 .inProgress]

/-- What can be seen of `fd`: that it is registered, that it is open, that its write callback is
called for an object that exists, and how many `epoll_ctl`s failed. -/
def Process.observe (s : Process) (fd : Int) : Bool × Bool × Bool × Nat :=
  ((s.evs.ioEvs fd).isSome, (s.ownerOf fd).isSome,
    (s.evs.ioEvs fd).all fun ev => ev.writeCb.isNone || (ev.wcbArgs.bind s.living).isSome,
    s.evs.ctlErrors)

/-- What refutes the property: a registration of a descriptor that is not open or of an object
that does not exist, and an `epoll_ctl` that failed. -/
theorem not_all_alive {limit : Nat} {steps : List Step} {fd : Int} {x : Bool × Bool × Bool × Nat}
    (hobs : (Process.run limit (· < 3) 100 steps).toOption.map (Process.observe · fd) = some x)
    (hx : x.1 = true ∧ x.2.1 = false ∨ x.2.2.1 = false ∨ x.2.2.2 ≠ 0) :
    ¬ Ends (Process.run limit (· < 3) 100 steps)
      (fun s => (∀ fd ev, s.evs.ioEvs fd = some ev → Alive s fd ev) ∧ s.evs.ctlErrors = 0)
      (fun _ => True) := by
  intro h
  obtain ⟨s, hrun, rfl⟩ := ok_of_observed hobs
  obtain ⟨halive, herrors⟩ := h.of_ok hrun
  rcases hx with ⟨hev, hown⟩ | hdead | hctl
  · obtain ⟨ev, hev⟩ := Option.isSome_iff_exists.mp hev
    have hopen := Option.isSome_iff_ne_none.mpr (halive fd ev hev).isOpen
    simp only [Process.observe] at hown
    rw [hopen] at hown
    cases hown
  · simp only [Process.observe] at hdead
    cases hev : s.evs.ioEvs fd with
    | none =>
      rw [hev] at hdead
      cases hdead
    | some ev =>
      rw [hev, Option.all_some, Bool.or_eq_false_iff] at hdead
      obtain ⟨hcb, hargs⟩ := hdead
      have hwrites : ev.writeCb ≠ none := by
        intro hnone
        rw [hnone] at hcb
        cases hcb
      obtain ⟨id, hid, hliving⟩ := (halive fd ev hev).writes hwrites
      rw [hid, Option.bind_some, Option.isSome_eq_false_iff, Option.isNone_iff_eq_none] at hargs
      exact hliving hargs
  · exact hctl herrors

/-- Each of the `::close`s, and each of the functions that come back to a deleted client, leaves
a registration of a closed descriptor or of an object that is gone, or makes an `epoll_ctl`
fail. -/
theorem registrations_outlive :
    ¬ Ends (Process.run 16 (· < 3) 100 destroyConnected)
        (fun s => (∀ fd ev, s.evs.ioEvs fd = some ev → Alive s fd ev) ∧ s.evs.ctlErrors = 0)
        (fun _ => True) ∧
      ¬ Ends (Process.run 16 (· < 3) 100 closeInUse)
        (fun s => (∀ fd ev, s.evs.ioEvs fd = some ev → Alive s fd ev) ∧ s.evs.ctlErrors = 0)
        (fun _ => True) ∧
      ¬ Ends (Process.run 7 (· < 3) 100 closeReserveTwice)
        (fun s => (∀ fd ev, s.evs.ioEvs fd = some ev → Alive s fd ev) ∧ s.evs.ctlErrors = 0)
        (fun _ => True) ∧
      ¬ Ends (Process.run 16 (· < 3) 100 timerAfterDelete)
        (fun s => (∀ fd ev, s.evs.ioEvs fd = some ev → Alive s fd ev) ∧ s.evs.ctlErrors = 0)
        (fun _ => True) ∧
      ¬ Ends (Process.run 16 (· < 3) 100 deleteInOnConnection)
        (fun s => (∀ fd ev, s.evs.ioEvs fd = some ev → Alive s fd ev) ∧ s.evs.ctlErrors = 0)
        (fun _ => True) ∧
      ¬ Ends (Process.run 16 (· < 3) 100 deleteInOnClose)
        (fun s => (∀ fd ev, s.evs.ioEvs fd = some ev → Alive s fd ev) ∧ s.evs.ctlErrors = 0)
        (fun _ => True) := by
  refine ⟨?_, ?_, ?_, ?_, ?_, ?_⟩
  · exact @not_all_alive 16 destroyConnected 5 (true, false, true, 0) (by decide +kernel) (by decide)
  · exact @not_all_alive 16 closeInUse 5 (true, true, true, 1) (by decide +kernel) (by decide)
  · exact @not_all_alive 7 closeReserveTwice 6 (true, false, true, 0) (by decide +kernel)
      (by decide)
  · exact @not_all_alive 16 timerAfterDelete 5 (true, true, false, 0) (by decide +kernel)
      (by decide)
  · exact @not_all_alive 16 deleteInOnConnection 5 (true, false, true, 0) (by decide +kernel)
      (by decide)
  · exact @not_all_alive 16 deleteInOnClose 5 (true, true, false, 0) (by decide +kernel)
      (by decide)

end EasyReactor.System
