import EasyReactor.Workers.Ownership

set_option autoImplicit false

/-!
# Workers: the hand-off of connections

The steps of the other threads, and the batches, keep the owners too.  In a run in which
nobody else closes a connection's descriptor, and in which `handle_read` does not go on with
`ibuf.adjust()` after a `clean_conn`, every object is used by its owner only.
-/

namespace EasyReactor.Workers

open EasyReactor.Foundation EasyReactor.Loop EasyReactor.Acceptor EasyReactor.Acceptor.Server

namespace Reactor

variable {s t : Reactor} {i n : Nat}

/-! ## The other steps -/

/-- The steps of all threads.  A step of the server in a thread of its own neither moves a
connection nor takes a message from a loop that is busy with it. -/
inductive Moved (s : Reactor) (e : Event) : Reactor → Prop
  | none : Moved s e s
  | acceptor {sys u} : e = .acceptor sys →
      (s.server.threadCnt = 0 → ∀ connfd, s.server.pc ≠ .handing connfd) →
      s.acceptor sys = .ok u → Moved s e u
  | server {e' server} : e'.byAcceptor = false → s.server.step e' = .ok server →
      server.counted = s.server.counted → server.closing = s.server.closing →
      server.currConns = s.server.currConns →
      (∀ j m, (s.loops j).pc ≠ .idle → s.Told j m →
        ({ s with server := server } : Reactor).Told j m) →
      Moved s e { s with server := server }
  | takes {i n : Nat} : (s.loops i).pc = .idle → s.Told i n → Moved s e (s.take i n)
  | polls {i : Nat} {batch} : (s.loops i).pc = .idle → IsBatch (s.loops i).evs batch →
      Moved s e (s.setBatch i batch)
  | dispatches {i fd : Nat} {ready batch u} : (s.loops i).pc = .idle →
      (s.loops i).batch = (fd, ready) :: batch →
      (s.setBatch i batch).dispatch i fd ready = .ok u → Moved s e u
  | does {i n : Nat} {p r u} : e = .advance i r → (s.loops i).pc = .run n p →
      Does s i n p r u → Moved s e u

theorem doAccept_moved {e : Event} (hstep : s.serverStep .doAccept = .ok t) : Moved s e t := by
  obtain ⟨server, hserver, hstep⟩ := bind_eq_ok.mp hstep
  obtain rfl := Except.ok.inj hstep
  have hcopy := hserver
  simp only [Server.step] at hserver
  split at hserver
  next hidle =>
    obtain rfl := Except.ok.inj hserver
    refine .server rfl hcopy rfl rfl rfl fun j m _ htold => htold.imp rfl (fun _ hpc => ?_) rfl
    rw [hidle] at hpc
    cases hpc
  next =>
    obtain rfl := Except.ok.inj hserver
    exact .none

theorem startWorker_moved {e : Event} (hstep : s.serverStep (.startWorker i) = .ok t) :
    Moved s e t := by
  obtain ⟨server, hserver, hstep⟩ := bind_eq_ok.mp hstep
  obtain rfl := Except.ok.inj hstep
  have hmsgs := startWorker_msgs hserver
  rcases startWorker_cases hserver with rfl | ⟨w, w', n, fds, _, _, _, rfl⟩
  · exact .none
  · exact .server rfl hserver rfl rfl rfl fun j m _ htold =>
      htold.imp rfl (fun _ hpc => hpc) (hmsgs j)

theorem recvMsg_moved {e : Event} (hidle : (s.loops i).pc = .idle)
    (hstep : s.serverStep (.recvMsg i) = .ok t) : Moved s e t := by
  obtain ⟨server, hserver, hstep⟩ := bind_eq_ok.mp hstep
  obtain rfl := Except.ok.inj hstep
  have hmsgs := fun j (hne : j ≠ i) => recvMsg_msgs hne hserver
  rcases recvMsg_cases hserver with rfl | ⟨w, w', _, _, rfl⟩
  · exact .none
  · refine .server rfl hserver rfl rfl rfl fun j m hbusy htold => ?_
    refine htold.imp rfl (fun _ hpc => hpc) (hmsgs j ?_)
    rintro rfl
    exact hbusy hidle

/-- Every step is one of these, or nothing. -/
theorem step_moved (hbooks : s.server.Books) {e : Event} (hstep : s.step e = .ok t) :
    Moved s e t := by
  have hnone : Except.ok s = Except.ok (ε := Fault) t → Moved s e t := by
    intro heq
    obtain rfl := Except.ok.inj heq
    exact .none
  cases e with
  | acceptor sys =>
    simp only [Reactor.step] at hstep
    split at hstep
    next hzero =>
      split at hstep
      next hidle =>
        split at hstep
        next connfd hpc =>
          obtain rfl := Except.ok.inj hstep
          refine .takes hidle ?_
          unfold Told
          rw [if_pos hzero]
          exact ⟨rfl, hpc⟩
        next hpc => exact .acceptor rfl (fun _ => hpc) hstep
      next => exact hnone hstep
    next hzero => exact .acceptor rfl (fun hcnt => absurd hcnt hzero) hstep
  | doAccept =>
    simp only [Reactor.step] at hstep
    split at hstep
    next => exact hnone hstep
    next => exact doAccept_moved hstep
  | startWorker i => exact startWorker_moved hstep
  | recvMsg i =>
    simp only [Reactor.step] at hstep
    split at hstep
    next hidle => exact recvMsg_moved hidle hstep
    next => exact hnone hstep
  | takeMsg i =>
    simp only [Reactor.step] at hstep
    split at hstep
    next connfd rest hidle hmsgs =>
      obtain rfl := Except.ok.inj hstep
      refine .takes hidle ?_
      unfold Told
      split
      next hzero =>
        -- there is no worker
        unfold msgs at hmsgs
        rw [hbooks.workers_nil hzero] at hmsgs
        cases hmsgs
      next =>
        rw [hmsgs]
        rfl
    next => exact hnone hstep
  | poll i batch =>
    simp only [Reactor.step] at hstep
    split at hstep
    next hfree =>
      obtain rfl := Except.ok.inj hstep
      exact .polls hfree.1.1 hfree.2.2
    next => exact hnone hstep
  | dispatch i =>
    simp only [Reactor.step] at hstep
    split at hstep
    next hfree =>
      split at hstep
      next => exact hnone hstep
      next fd ready batch hbatch => exact .dispatches hfree.1 hbatch hstep
    next => exact hnone hstep
  | advance i r =>
    simp only [Reactor.step] at hstep
    split at hstep
    next => exact hnone hstep
    next n p hpc => exact .does rfl hpc (turn_does hstep)

/-- A step of the server that moves no connection, and registers nothing. -/
theorem Owning.server (h : s.Owning) (hbooks : t.server.Books)
    (hcounted : t.server.counted = s.server.counted)
    (hclosing : t.server.closing = s.server.closing)
    (hcurr : t.server.currConns = s.server.currConns) (hconns : t.conns = s.conns)
    (howners : t.owners = s.owners) (hpcs : ∀ j, (t.loops j).pc = (s.loops j).pc)
    (hbatch : ∀ j, (t.loops j).batch = (s.loops j).batch)
    (hshrinks : ∀ j, ∃ f, Shrinks f ∧ (t.loops j).evs = f (s.loops j).evs)
    (htold : ∀ j m, (s.loops j).pc ≠ .idle → s.Told j m → t.Told j m) : t.Owning := by
  refine ⟨hbooks, ?_, ?_, fun m j hmem => ?_, fun j m q hq hne => ?_, fun j fd hfd => ?_,
    fun j m hmem => ?_, fun j => ?_, fun j => ?_⟩
  · rw [hcurr, hcounted, h.count]
  · rw [howners]
    exact h.distinct
  · rw [howners] at hmem
    rw [hpcs]
    refine (h.fits m j hmem).imp (fun hstage hold => htold j m (fun hidle => hstage ?_) hold)
      (fun hmem => ?_) (fun hmem => ?_) (by rw [hconns])
    · rw [hidle]
      rfl
    · rwa [hcounted]
    · rwa [hclosing]
  · rw [hpcs] at hq
    rw [howners]
    exact h.place j m q hq hne
  · obtain ⟨f, hf, hevs⟩ := hshrinks j
    rw [hevs] at hfd
    rw [howners]
    exact h.watched j fd (hf.interest _ fd hfd)
  · rw [hbatch] at hmem
    rw [howners, hpcs]
    exact h.fired j m hmem
  · rw [hbatch]
    exact h.batches j
  · obtain ⟨f, hf, hevs⟩ := hshrinks j
    rw [hevs]
    exact hf.serves _ (h.serves j)

theorem shrinks_id : Shrinks fun evs => evs := ⟨fun _ _ h => h, fun _ h => h⟩

/-- A `::close` outside `clean_conn` changes interest sets only. -/
theorem elim_closeFd (s : Reactor) (fd : Option Nat) :
    (fd.elim s fun n => s.closeFd n).conns = s.conns ∧
      (fd.elim s fun n => s.closeFd n).owners = s.owners ∧
      (∀ j, ((fd.elim s fun n => s.closeFd n).loops j).pc = (s.loops j).pc) ∧
      (∀ j, ((fd.elim s fun n => s.closeFd n).loops j).batch = (s.loops j).batch) ∧
      ∀ j, ∃ f, Shrinks f ∧
        ((fd.elim s fun n => s.closeFd n).loops j).evs = f (s.loops j).evs := by
  cases fd with
  | none => exact ⟨rfl, rfl, fun _ => rfl, fun _ => rfl, fun _ => ⟨_, shrinks_id, rfl⟩⟩
  | some n => exact ⟨rfl, rfl, fun _ => rfl, fun _ => rfl, fun _ => ⟨_, shrinks_closeFd n, rfl⟩⟩

/-- A step of the acceptor's thread that gives no connection to its own loop. -/
theorem Owning.acceptor (h : s.Owning) {sys : AcceptorSys}
    (hspares : s.server.SparesConns (.acceptor sys))
    (hthreads : s.server.threadCnt = 0 → ∀ connfd, s.server.pc ≠ .handing connfd)
    (hstep : s.acceptor sys = .ok t) : t.Owning := by
  obtain ⟨server, hserver, hstep⟩ := bind_eq_ok.mp hstep
  obtain rfl := Except.ok.inj hstep
  obtain ⟨hcounted, hclosing, hcurr⟩ := acceptor_books hserver hthreads
  obtain ⟨hconns, howners, hpcs, hbatch, hshrinks⟩ := elim_closeFd s (Workers.closes s.server)
  refine h.server (h.books.step hspares hserver) hcounted hclosing hcurr hconns howners hpcs
    hbatch hshrinks fun j m _ hold => ?_
  exact hold.imp (acceptor_threadCnt hserver) (fun hzero hpc => absurd hpc (hthreads hzero m))
    (acceptor_msgs hserver j)

/-- A step of the server in which nothing is closed. -/
theorem Owning.serverStep (h : s.Owning) {e : Acceptor.Event}
    (hspares : s.server.SparesConns e) {server : Server} (hserver : s.server.step e = .ok server)
    (hcounted : server.counted = s.server.counted) (hclosing : server.closing = s.server.closing)
    (hcurr : server.currConns = s.server.currConns)
    (htold : ∀ j m, (s.loops j).pc ≠ .idle → s.Told j m →
      ({ s with server := server } : Reactor).Told j m) :
    ({ s with server := server } : Reactor).Owning :=
  h.server (h.books.step hspares hserver) hcounted hclosing hcurr rfl rfl (fun _ => rfl)
    (fun _ => rfl) (fun _ => ⟨_, shrinks_id, rfl⟩) htold

/-- An idle loop goes into a function of an object, which it owns at the latest now. -/
theorem Owning.starts (h : s.Owning) (hidle : (s.loops i).pc = .idle) {p : Point}
    (owners : List (Nat × Nat)) (hdistinct : (owners.map Prod.fst).Nodup)
    (hkeep : ∀ o ∈ s.owners, o ∈ owners) (hnew : ∀ o ∈ owners, o ∈ s.owners ∨ o = (n, i))
    (hown : (n, i) ∈ owners) (hself : s.Fits i n p.stage)
    (hnot : n ∉ (s.loops i).batch.map Prod.fst) :
    ({ s with owners := owners }.goto i (.run n p)).Owning := by
  have honly : ∀ m q, Pc.run n p = .run m q → m = n := fun m q hq => (Pc.run.inj hq).1.symm
  have hstage : ∀ {m : Nat}, m ≠ n → ∀ j,
      (({ s with owners := owners }.goto i (.run n p)).loops j).pc.stage m =
        (s.loops j).pc.stage m := by
    intro m hm j
    by_cases hj : j = i
    · subst hj
      rw [goto_pc, Pc.stage_ne fun q hq => hm (honly m q hq), hidle]
      rfl
    · rw [goto_loops_ne _ hj]
  refine ⟨h.books, h.count, hdistinct, fun m j hmem => ?_, fun j m q hq hnadj => ?_,
    fun j fd hfd => ?_, fun j m hmem => ?_, fun j => ?_, fun j => ?_⟩
  · by_cases hm : m = n
    · subst hm
      obtain rfl : j = i := congrArg Prod.snd (List.inj_on_of_nodup_map hdistinct hmem hown rfl)
      rw [goto_pc, Pc.stage_run]
      exact hself.same rfl rfl
    · rw [hstage hm]
      rcases hnew _ hmem with hold | hsame
      · exact (h.fits m j hold).same rfl rfl
      · exact absurd (congrArg Prod.fst hsame) hm
  · rcases pc_goto (fun _ => rfl) hq with ⟨rfl, hstart⟩ | ⟨_, hold⟩
    · obtain rfl := honly m q hstart
      exact hown
    · exact hkeep _ (h.place j m q hold hnadj)
  · rw [goto_evs] at hfd
    obtain ⟨m, hm, hmine⟩ := h.watched j fd hfd
    exact ⟨m, hm, hkeep _ hmine⟩
  · rw [goto_batch] at hmem
    obtain ⟨hmine, hbusy⟩ := h.fired j m hmem
    refine ⟨hkeep _ hmine, fun q hq => ?_⟩
    rcases pc_goto (fun _ => rfl) hq with ⟨rfl, hstart⟩ | ⟨_, hold⟩
    · obtain rfl := honly m q hstart
      exact hnot hmem
    · exact hbusy q hold
  · rw [goto_batch]
    exact h.batches j
  · rw [goto_evs]
    exact h.serves j

/-- An idle loop takes a connection that it has been told of. -/
theorem Owning.take (h : s.Owning) (hidle : (s.loops i).pc = .idle) (htold : s.Told i n) :
    (s.take i n).Owning := by
  have hnew := h.not_owned hidle htold
  refine h.starts hidle _ ?_ (fun o ho => List.mem_append_left _ ho) (fun o ho => ?_)
    (List.mem_append_right _ List.mem_cons_self) htold (fun hmem => ?_)
  · rw [List.map_append]
    exact List.nodup_append'.mpr ⟨h.distinct, List.nodup_singleton n,
      List.disjoint_singleton.mpr hnew⟩
  · exact (List.mem_append.mp ho).imp_right List.mem_singleton.mp
  · exact hnew (List.mem_map_of_mem (h.fired i n hmem).1)

/-- The batch of a loop that has nothing else to do changes. -/
theorem Owning.setBatch (h : s.Owning) {batch : List (Nat × Ready)}
    (hnodup : (batch.map Prod.fst).Nodup)
    (hmine : ∀ n ∈ batch.map Prod.fst, (n, i) ∈ s.owners ∧ ∀ p, (s.loops i).pc ≠ .run n p) :
    (s.setBatch i batch).Owning := by
  refine ⟨h.books, h.count, h.distinct, fun m j hmem => ?_, fun j m q hq hne => ?_,
    fun j fd hfd => ?_, fun j m hmem => ?_, fun j => ?_, fun j => ?_⟩
  · rw [setBatch_pc]
    exact (h.fits m j hmem).same rfl rfl
  · rw [setBatch_pc] at hq
    exact h.place j m q hq hne
  · rw [setBatch_evs] at hfd
    exact h.watched j fd hfd
  · rw [setBatch_batch] at hmem
    rw [setBatch_pc]
    split at hmem
    next hj =>
      subst hj
      exact hmine m hmem
    next => exact h.fired j m hmem
  · rw [setBatch_batch]
    split
    · exact hnodup
    · exact h.batches j
  · rw [setBatch_evs]
    exact h.serves j

theorem reports_interest {l : EventLoop Server.ConnIo} {fd : Int} {ready : Ready}
    (h : Reports l fd ready) : l.interest fd ≠ none := by
  intro hnone
  unfold Reports at h
  rw [hnone] at h
  exact h

theorem Owning.poll (h : s.Owning) {batch : List (Nat × Ready)} (hidle : (s.loops i).pc = .idle)
    (hbatch : IsBatch (s.loops i).evs batch) : (s.setBatch i batch).Owning := by
  refine h.setBatch hbatch.1 fun n hn => ?_
  obtain ⟨⟨m, ready⟩, hmem, rfl⟩ := List.mem_map.mp hn
  obtain ⟨k, hk, hown⟩ := h.watched i m (reports_interest (hbatch.2 _ hmem))
  obtain rfl := Int.ofNat.inj hk
  refine ⟨hown, fun p hp => ?_⟩
  rw [hidle] at hp
  cases hp

theorem Owning.dispatch (h : s.Owning) {fd : Nat} {ready : Ready} {batch : List (Nat × Ready)}
    (hidle : (s.loops i).pc = .idle) (hbatch : (s.loops i).batch = (fd, ready) :: batch)
    (hstep : (s.setBatch i batch).dispatch i fd ready = .ok t) : t.Owning := by
  have hnodup := h.batches i
  have hfired := h.fired i
  rw [hbatch] at hnodup hfired
  obtain ⟨hnot, hnodup⟩ := List.nodup_cons.mp hnodup
  have hrest := h.setBatch hnodup fun n hn => hfired n (List.mem_cons_of_mem _ hn)
  have hown := (hfired fd List.mem_cons_self).1
  have hidle' : ((s.setBatch i batch).loops i).pc = .idle := (setBatch_pc s i batch i).trans hidle
  rcases dispatch_cases (hrest.serves i) hstep with ⟨n, p, hn, hp, rfl⟩ | rfl
  · obtain rfl := Int.ofNat.inj hn
    refine hrest.starts hidle' s.owners h.distinct (fun o ho => ho) (fun o ho => .inl ho)
      hown ?_ ?_
    · have hfits := (h.fits fd i hown).same (t := s.setBatch i batch) rfl rfl
      rw [hidle, Pc.stage_idle] at hfits
      rcases hp with rfl | rfl
      · exact hfits
      · exact hfits
    · rw [setBatch_batch, if_pos rfl]
      exact hnot
  · have hserver := hrest.server (t := (s.setBatch i batch).onLoop i fun evs => evs.delIoev fd)
      hrest.books rfl rfl rfl rfl rfl
    refine hserver (onLoop_pc _ _ _) (onLoop_batch _ _ _) (fun j => ?_) (fun _ _ _ htold => htold)
    rw [onLoop_evs]
    split
    · exact ⟨_, shrinks_delIoev fd, rfl⟩
    · exact ⟨_, shrinks_id, rfl⟩

/-- `::close(_reservfd)` does not close a connection. -/
def SparesConns (s : Reactor) : Event → Prop
  | .acceptor sys => s.server.SparesConns (.acceptor sys)
  | _ => True

/-- Every step of every thread keeps the owners. -/
theorem Owning.step (h : s.Owning) {e : Event} (hspares : s.SparesConns e)
    (hstep : s.step e = .ok t) : t.Owning := by
  cases step_moved h.books hstep with
  | none => exact h
  | acceptor he hthreads hacceptor =>
    subst he
    exact h.acceptor hspares hthreads hacceptor
  | @server e' server he hserver hcounted hclosing hcurr htold =>
    have hspares' : s.server.SparesConns e' := by
      cases e' with
      | acceptor sys => cases he
      | _ => trivial
    exact h.serverStep hspares' hserver hcounted hclosing hcurr htold
  | takes hidle htold => exact h.take hidle htold
  | polls hidle hbatch => exact h.poll hidle hbatch
  | dispatches hidle hbatch hdispatch => exact h.dispatch hidle hbatch hdispatch
  | does _ hpc hdoes => exact h.does hpc hdoes

theorem start_owning (limit : Nat) (isOpen : Nat → Bool) (threadCnt : Nat) (maxConns : Int32) :
    (start limit isOpen threadCnt maxConns).Owning where
  books := start_books limit isOpen threadCnt maxConns
  count := rfl
  distinct := List.nodup_nil
  fits _ _ h := nomatch h
  place _ _ _ h := nomatch h
  watched _ _ h := absurd rfl h
  fired _ _ h := nomatch h
  batches _ := List.nodup_nil
  serves _ _ _ h := nomatch h

/-! ## What a step outside the functions of connections does -/

/-- No connection has changed its owner, and no loop its place. -/
structure Still (s t : Reactor) : Prop where
  owners : t.owners = s.owners
  inits : t.inits = s.inits
  cleans : t.cleans = s.cleans
  counted : t.server.counted = s.server.counted
  pc : ∀ j, (t.loops j).pc = (s.loops j).pc

theorem Still.rfl (s : Reactor) : Still s s :=
  ⟨.refl _, .refl _, .refl _, .refl _, fun _ => .refl _⟩

/-- A loop starts with a connection at most. -/
inductive Shift (s : Reactor) : Reactor → Prop
  | still {u : Reactor} : Still s u → Shift s u
  | takes {i n : Nat} : (s.loops i).pc = .idle → s.Told i n → Shift s (s.take i n)
  | calls {u : Reactor} {i n : Nat} {p : Point} : Still s u → (s.loops i).pc = .idle →
      p = .readData ∨ p = .writeLength → Shift s (u.goto i (.run n p))

theorem acceptor_still {sys : AcceptorSys}
    (hthreads : s.server.threadCnt = 0 → ∀ connfd, s.server.pc ≠ .handing connfd)
    (hstep : s.acceptor sys = .ok t) : Still s t := by
  obtain ⟨server, hserver, hstep⟩ := bind_eq_ok.mp hstep
  obtain rfl := Except.ok.inj hstep
  obtain ⟨hcounted, _, _⟩ := acceptor_books hserver hthreads
  cases closes s.server with
  | none => exact ⟨.refl _, .refl _, .refl _, hcounted, fun _ => .refl _⟩
  | some n => exact ⟨.refl _, .refl _, .refl _, hcounted, fun _ => .refl _⟩

theorem dispatch_shift {fd : Int} {ready : Ready} {batch : List (Nat × Ready)}
    (hidle : (s.loops i).pc = .idle)
    (hstep : (s.setBatch i batch).dispatch i fd ready = .ok t) : Shift s t := by
  have hstill : Still s (s.setBatch i batch) :=
    ⟨.refl _, .refl _, .refl _, .refl _, setBatch_pc s i batch⟩
  have hinvoke : ∀ {cb args}, (s.setBatch i batch).invoke i cb args = .ok t → Shift s t := by
    intro cb args h
    obtain ⟨_, n, p, _, hp, rfl⟩ := invoke_cases h
    exact .calls hstill hidle hp
  unfold Reactor.dispatch at hstep
  split at hstep
  · cases hstep
  split at hstep
  · exact hinvoke hstep
  · exact hinvoke hstep
  · split at hstep
    · exact hinvoke hstep
    · split at hstep
      · exact hinvoke hstep
      · obtain rfl := Except.ok.inj hstep
        refine .still ⟨.refl _, .refl _, .refl _, .refl _, fun j => ?_⟩
        rw [onLoop_pc, setBatch_pc]

/-- Every step outside the functions of connections is one of these. -/
theorem step_shift (h : s.Owning) {e : Event} (hstep : s.step e = .ok t) :
    Shift s t ∨ ∃ i r n p, e = .advance i r ∧ (s.loops i).pc = .run n p ∧ Does s i n p r t := by
  cases step_moved h.books hstep with
  | none => exact .inl (.still (.rfl s))
  | acceptor _ hthreads hacceptor => exact .inl (.still (acceptor_still hthreads hacceptor))
  | server _ _ hcounted _ _ _ =>
    exact .inl (.still ⟨.refl _, .refl _, .refl _, hcounted, fun _ => .refl _⟩)
  | takes hidle htold => exact .inl (.takes hidle htold)
  | polls _ _ => exact .inl (.still ⟨.refl _, .refl _, .refl _, .refl _, setBatch_pc s _ _⟩)
  | dispatches hidle _ hdispatch => exact .inl (dispatch_shift hidle hdispatch)
  | does he hpc hdoes => exact .inr ⟨_, _, _, _, he, hpc, hdoes⟩

/-! ## Use by the owner -/

end Reactor

/-- Whether the step from a point reads or writes the object `conns[fd]`. -/
def Point.touches : Point → Bool
  | .incConn | .exist | .clean .decConn _ | .clean (.close _) _ => false
  | _ => true

/-- Before a check of `handle_read` after which it closes the connection and goes on. -/
def Pc.checksFrame : Pc → Bool
  | .run _ .readHead | .run _ .exist => true
  | _ => false

namespace Reactor

variable {s t : Reactor} {i n : Nat}

/-- The object that the next step of loop `i` reads or writes. -/
def touching (s : Reactor) (i : Nat) : Option Nat :=
  match (s.loops i).pc with
  | .idle => none
  | .run obj p => if p.touches then some obj else none

/-- Objects are used by their owners, and nothing is owned twice. -/
structure HandedOff (s : Reactor) : Prop where
  by_owner : ∀ i obj, s.touching i = some obj → (obj, i) ∈ s.owners
  one_owner : (s.owners.map Prod.fst).Nodup

/-- `handle_read` does not find a bad frame. -/
def GoodFrame (s : Reactor) : Event → Prop
  | .advance i r => (s.loops i).pc.checksFrame = true → r.test = false
  | _ => True

def Careful (s : Reactor) (e : Event) : Prop := s.SparesConns e ∧ s.GoodFrame e

instance (s : Reactor) (e : Event) : Decidable (s.SparesConns e) :=
  match e with
  | .acceptor sys => inferInstanceAs (Decidable (s.server.SparesConns (.acceptor sys)))
  | .doAccept | .startWorker _ | .recvMsg _ | .takeMsg _ | .poll _ _ | .dispatch _
  | .advance _ _ => .isTrue trivial

instance (s : Reactor) (e : Event) : Decidable (s.GoodFrame e) :=
  match e with
  | .advance _ _ => inferInstanceAs (Decidable (_ → _))
  | .doAccept | .startWorker _ | .recvMsg _ | .takeMsg _ | .poll _ _ | .dispatch _
  | .acceptor _ => .isTrue trivial

instance (s : Reactor) (e : Event) : Decidable (s.Careful e) := inferInstanceAs (Decidable (_ ∧ _))

/-- No loop is in a `clean_conn` that `handle_read` goes on after, or past one. -/
def Prompt (s : Reactor) : Prop :=
  ∀ i n p, (s.loops i).pc = .run n p → p.adjusts = false ∧ (n, i) ∈ s.owners

theorem Prompt.goto (h : s.Prompt) {pc : Pc} (hpcs : ∀ j, (t.loops j).pc = (s.loops j).pc)
    (howners : ∀ m j, j ≠ i → (m, j) ∈ s.owners → (m, j) ∈ t.owners)
    (hself : ∀ m q, pc = .run m q → q.adjusts = false ∧ (m, i) ∈ t.owners) :
    (t.goto i pc).Prompt := by
  intro j m q hq
  rcases pc_goto hpcs hq with ⟨rfl, hnew⟩ | ⟨hj, hold⟩
  · exact hself m q hnew
  · obtain ⟨hadjusts, hmine⟩ := h j m q hold
    exact ⟨hadjusts, howners m j hj hmine⟩

theorem Prompt.does (h : s.Prompt) {p : Point} {r : Reply} (hpc : (s.loops i).pc = .run n p)
    (hgood : (Pc.run n p).checksFrame = true → r.test = false) (hdoes : Does s i n p r t) :
    t.Prompt := by
  obtain ⟨hadjusts, hown⟩ := h i n p hpc
  have hrun : ∀ {q : Point}, q.adjusts = false → ∀ m q', Pc.run n q = .run m q' →
      q'.adjusts = false ∧ (m, i) ∈ s.owners := by
    intro q hq m q' heq
    obtain ⟨rfl, rfl⟩ := Pc.run.inj heq
    exact ⟨hq, hown⟩
  have hkeep : ∀ m j, j ≠ i → (m, j) ∈ s.owners → (m, j) ∈ s.owners := fun _ _ _ hmem => hmem
  cases hdoes with
  | @goes pc stored _ hlike =>
    refine h.goto (t := { s with stored := stored }) (fun _ => rfl) hkeep fun m q hq => ?_
    obtain ⟨rfl, hsame⟩ := hlike.only m q hq
    exact ⟨hsame.trans hadjusts, hown⟩
  | adjusted _ => exact h.goto (fun _ => rfl) hkeep nofun
  | assigns _ =>
    exact h.goto (t := { s.setConn n ⟨n, some i⟩ with inits := s.inits ++ [n] }) (fun _ => rfl)
      hkeep (hrun rfl)
  | listens _ _ _ hlike =>
    refine h.goto (onLoop_pc _ _ _) hkeep fun m q hq => ?_
    obtain ⟨rfl, hsame⟩ := hlike.only m q hq
    exact ⟨hsame.trans hadjusts, hown⟩
  | unlistens _ _ hlike =>
    refine h.goto (onLoop_pc _ _ _) hkeep fun m q hq => ?_
    obtain ⟨rfl, hsame⟩ := hlike.only m q hq
    exact ⟨hsame.trans hadjusts, hown⟩
  | @counts server _ _ =>
    refine h.goto (t := { s with server := server }) (fun _ => rfl) hkeep fun m q hq => ?_
    split at hq
    · cases hq
    · exact hrun rfl m q hq
  | @cleans adjusts _ _ _ hbad =>
    refine h.goto (t := { s with cleans := s.cleans ++ [n] }) (fun _ => rfl) hkeep (hrun ?_)
    cases adjusts with
    | false => rfl
    | true =>
      obtain ⟨hp, htest⟩ := hbad rfl
      have hfalse : r.test = false := by
        rcases hp with rfl | rfl
        · exact hgood rfl
        · exact hgood rfl
      rw [htest] at hfalse
      cases hfalse
  | uncounts hp =>
    subst hp
    exact h.goto (t := s.decConn n) (fun _ => rfl) hkeep (hrun hadjusts)
  | clearsLoop hp _ =>
    subst hp
    exact h.goto (t := s.setConn n _) (fun _ => rfl) hkeep (hrun hadjusts)
  | takesFd hp _ =>
    subst hp
    exact h.goto (t := s.setConn n _) (fun _ => rfl) hkeep (hrun hadjusts)
  | @closes fd adjusts hp =>
    subst hp
    obtain rfl : adjusts = false := hadjusts
    refine h.goto (t := s.close i n fd) (fun _ => rfl) (fun m j hj hmem => ?_) nofun
    refine (List.mem_erase_of_ne fun heq => hj ?_).mpr hmem
    exact congrArg Prod.snd heq

theorem Prompt.shift (h : s.Prompt) (hown : t.Owning) (hshift : Shift s t) : t.Prompt := by
  cases hshift with
  | still hstill =>
    intro j m q hq
    rw [hstill.pc] at hq
    rw [hstill.owners]
    exact h j m q hq
  | @takes i n _ _ =>
    intro j m q hq
    rcases pc_goto (fun _ => rfl) hq with ⟨_, hnew⟩ | ⟨_, hold⟩
    · obtain ⟨rfl, rfl⟩ := Pc.run.inj hnew
      exact ⟨rfl, hown.place _ _ _ hq nofun⟩
    · obtain ⟨hadjusts, hmine⟩ := h j m q hold
      exact ⟨hadjusts, List.mem_append_left _ hmine⟩
  | @calls u i n p hstill _ hp =>
    intro j m q hq
    rcases pc_goto hstill.pc hq with ⟨_, hnew⟩ | ⟨_, hold⟩
    · obtain ⟨rfl, rfl⟩ := Pc.run.inj hnew
      rcases hp with rfl | rfl
      · exact ⟨rfl, hown.place _ _ _ hq nofun⟩
      · exact ⟨rfl, hown.place _ _ _ hq nofun⟩
    · obtain ⟨hadjusts, hmine⟩ := h j m q hold
      refine ⟨hadjusts, ?_⟩
      show (m, j) ∈ u.owners
      rwa [hstill.owners]

theorem Prompt.step (h : s.Prompt) (hown : s.Owning) {e : Event} (hcareful : s.Careful e)
    (hstep : s.step e = .ok t) : t.Prompt := by
  rcases step_shift hown hstep with hshift | ⟨i, r, n, p, rfl, hpc, hdoes⟩
  · exact h.shift (hown.step hcareful.1 hstep) hshift
  · have hgood : (s.loops i).pc.checksFrame = true → r.test = false := hcareful.2
    rw [hpc] at hgood
    exact h.does hpc hgood hdoes

/-- **The hand-off.**  In every run in which `::close(_reservfd)` closes no connection and
`handle_read` finds no bad frame, every step that uses an object is made by the loop that
owns it, and no object has two owners. -/
theorem handed_off (limit : Nat) (isOpen : Nat → Bool) (threadCnt : Nat) (maxConns : Int32)
    (evs : List Event)
    (hcareful : Meets step Careful (start limit isOpen threadCnt maxConns) evs) :
    Ends (run limit isOpen threadCnt maxConns evs) HandedOff (fun _ => True) := by
  have hend : Ends (run limit isOpen threadCnt maxConns evs) (fun s => s.Owning ∧ s.Prompt)
      (fun _ => True) := by
    refine Ends.foldlM_meets (fun s e h hc => ?_) evs _
      ⟨start_owning limit isOpen threadCnt maxConns, nofun⟩ hcareful
    exact .intro (fun t ht => ⟨h.1.step hc.1 ht, h.2.step h.1 hc ht⟩) (fun _ _ => trivial)
  refine hend.imp (fun s h => ⟨fun i obj htouch => ?_, h.1.distinct⟩) fun _ h => h
  unfold touching at htouch
  split at htouch
  · cases htouch
  next n p hpc =>
    split at htouch
    · obtain rfl := Option.some.inj htouch
      exact (h.2 i n p hpc).2
    · cases htouch

/-- The acceptor's thread, where only `::accept` has a say. -/
def acceptorStep (r : AcceptResult) : Event := .acceptor ⟨r, true⟩

/-- A step of loop `i` in which `read_data` returns 8 and the condition is `test`. -/
def goesOn (i : Nat) (test : Bool) : Event := .advance i ⟨8, test, .done⟩

/-- The constructor with two threads that start at once, and a call of `do_accept`. -/
def twoThreads : List Event :=
  List.replicate 4 (acceptorStep .eagain) ++
    [.startWorker 0, .startWorker 0, .startWorker 1, .startWorker 1] ++
    List.replicate 2 (acceptorStep .eagain) ++ [.doAccept]

/-- A connection is accepted, checked and handed to a thread. -/
def handConn : List Event := List.replicate 3 (acceptorStep .connection)

/-- Worker `i` initialises the connection of its next message. -/
def initConn (i : Nat) : List Event :=
  [.recvMsg i, .takeMsg i] ++ List.replicate 9 (goesOn i false)

/-- Worker `i` reads from the connection `fd`, and gets to the first head. -/
def readHead (i fd : Nat) : List Event :=
  [.poll i [(fd, .input)], .dispatch i, goesOn i false, goesOn i true]

/-- The peer of the connection `fd` of worker `i` is gone. -/
def hangUp (i fd : Nat) : List Event :=
  [.poll i [(fd, .input)], .dispatch i, .advance i ⟨0, false, .done⟩] ++
    List.replicate 8 (goesOn i false)

/-- The first worker reads half a frame, then its connection ends and the second one gets the
number. -/
def reuse : List Event :=
  twoThreads ++ handConn ++ initConn 0 ++ readHead 0 11 ++
    [goesOn 0 false, goesOn 0 true, goesOn 0 false] ++ hangUp 0 11 ++ handConn ++ initConn 1

theorem handed_off_reuse : Ends (run 20 (· < 3) 2 3 reuse) HandedOff (fun _ => True) :=
  handed_off 20 (· < 3) 2 3 reuse (by decide +kernel)

/-- The first worker reads a bad head and closes the connection; the second one gets the
number before the first calls `ibuf.adjust()`. -/
def overlap : List Event :=
  twoThreads ++ handConn ++ initConn 0 ++ readHead 0 11 ++ [goesOn 0 true] ++
    List.replicate 8 (goesOn 0 false) ++ handConn ++ [.recvMsg 1, .takeMsg 1]

theorem handed_off_overlap :
    ¬ ∀ (limit : Nat) (isOpen : Nat → Bool) (threadCnt : Nat) (maxConns : Int32)
      (evs : List Event), 1 ≤ threadCnt →
        Ends (run limit isOpen threadCnt maxConns evs) HandedOff (fun _ => True) := by
  intro hall
  have hobs : (run 20 (· < 3) 2 3 overlap).toOption.map (fun s => (s.touching 0, s.owners)) =
      some (some 11, [(11, 1)]) := by decide +kernel
  have hsafe := hall 20 (· < 3) 2 3 overlap (by decide)
  obtain ⟨s, hrun, hobs⟩ := ok_of_observed hobs
  obtain ⟨htouch, howners⟩ := Prod.mk.inj hobs
  have hmem := (hsafe.of_ok hrun).by_owner 0 11 htouch
  rw [howners] at hmem
  exact absurd hmem (by decide)

end Reactor

end EasyReactor.Workers
