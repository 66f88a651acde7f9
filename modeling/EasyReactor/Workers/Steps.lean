import EasyReactor.Acceptor.Numbers
import EasyReactor.Workers.Loops

set_option autoImplicit false

/-!
# Workers: what the steps do

What the pieces of a step leave alone, and one inversion lemma for the steps of a loop in a
function of a connection.
-/

namespace EasyReactor.Workers

open EasyReactor.Foundation EasyReactor.Loop EasyReactor.Acceptor EasyReactor.Acceptor.Server
  EasyReactor.Thread
open EasyReactor.Server (ConnIo)

/-! ## Registrations -/

/-- The callbacks that are registered get the object `n`. -/
structure IsFor (ev : IoEvent ConnIo) (n : Nat) : Prop where
  read : ev.readCb.isSome → ev.rcbArgs = some n
  write : ev.writeCb.isSome → ev.wcbArgs = some n

/-- The callbacks of `fd` get the object `conns[fd]`. -/
def Serves (l : EventLoop ConnIo) : Prop :=
  ∀ fd ev, l.ioEvs fd = some ev → ∃ n : Nat, fd = n ∧ IsFor ev n

/-- A change of the registrations that adds none. -/
structure Shrinks (f : EventLoop ConnIo → EventLoop ConnIo) : Prop where
  interest : ∀ l e, (f l).interest e ≠ none → l.interest e ≠ none
  serves : ∀ l, Serves l → Serves (f l)

section Registrations

variable {l : EventLoop ConnIo} {fd e : Int} {mask : Mask}

theorem eq_of_update_none {α : Type} {f : Int → Option α} {a : α}
    (h : Function.update f fd none e = some a) : f e = some a := by
  by_cases he : e = fd
  · rw [he, Function.update_self] at h
    cases h
  · rwa [Function.update_of_ne he] at h

theorem epollCtl_interest_ne (op : CtlOp) (he : e ≠ fd) :
    (l.epollCtl op fd mask).interest e = l.interest e := by
  unfold EventLoop.epollCtl
  split
  · exact Function.update_of_ne he _ _
  · exact Function.update_of_ne he _ _
  · exact Function.update_of_ne he _ _
  · rfl

/-- Only `EPOLL_CTL_ADD` adds. -/
theorem epollCtl_interest_none {op : CtlOp} (hop : op ≠ .add) (hnone : l.interest e = none) :
    (l.epollCtl op fd mask).interest e = none := by
  by_cases he : e = fd
  · subst he
    unfold EventLoop.epollCtl
    rw [hnone]
    cases op with
    | add => exact absurd rfl hop
    | mod => exact hnone
    | del => exact hnone
  · rw [epollCtl_interest_ne op he, hnone]

theorem addIoev_interest {proc : ConnIo} {args : Wire.Ptr}
    (h : (l.addIoev fd proc mask args).interest e ≠ none) : l.interest e ≠ none ∨ e = fd := by
  by_cases he : e = fd
  · exact .inr he
  · unfold EventLoop.addIoev at h
    rw [epollCtl_interest_ne _ he] at h
    exact .inl h

theorem Serves.getD (h : Serves l) (n : Nat) : IsFor ((l.ioEvs n).getD (.new ConnIo)) n := by
  cases hev : l.ioEvs n with
  | none => exact ⟨nofun, nofun⟩
  | some ev =>
    obtain ⟨m, hm, hfor⟩ := h n ev hev
    obtain rfl := Int.ofNat.inj hm
    exact hfor

theorem Serves.addIoev (h : Serves l) (n : Nat) (proc : ConnIo) (mask : Mask) :
    Serves (l.addIoev n proc mask (some n)) := by
  intro fd ev hev
  unfold EventLoop.addIoev at hev
  simp only [EventLoop.epollCtl_ioEvs] at hev
  by_cases hfd : fd = n
  · rw [hfd, Function.update_self] at hev
    obtain rfl := Option.some.inj hev
    have hold := h.getD n
    refine ⟨n, hfd, ?_⟩
    by_cases hin : mask &&& epollIn ≠ 0
    · simp only [if_pos hin]
      exact ⟨fun _ => rfl, hold.write⟩
    · simp only [if_neg hin]
      by_cases hout : mask &&& epollOut ≠ 0
      · simp only [if_pos hout]
        exact ⟨hold.read, fun _ => rfl⟩
      · simp only [if_neg hout]
        exact ⟨hold.read, hold.write⟩
  · rw [Function.update_of_ne hfd] at hev
    exact h fd ev hev

theorem shrinks_delIoev (fd : Int) : Shrinks fun evs => evs.delIoev fd where
  interest l e h := by
    obtain ⟨m, hm⟩ := Option.ne_none_iff_exists'.mp h
    rw [eq_of_update_none hm]
    exact Option.some_ne_none m
  serves l h e ev hev := h e ev (eq_of_update_none hev)

theorem shrinks_closeFd (fd : Int) : Shrinks fun evs => evs.closeFd fd where
  interest l e h := by
    obtain ⟨m, hm⟩ := Option.ne_none_iff_exists'.mp h
    rw [eq_of_update_none hm]
    exact Option.some_ne_none m
  serves _ h := h

theorem shrinks_delIoevMask (fd : Int) (mask : Mask) :
    Shrinks fun evs => evs.delIoevMask fd mask where
  interest l e h hnone := by
    refine h ?_
    unfold EventLoop.delIoevMask
    split
    · exact hnone
    · simp only
      split
      · exact epollCtl_interest_none nofun hnone
      · exact epollCtl_interest_none nofun hnone
  serves l h e ev hev := by
    rcases l.delIoevMask_ioEvs fd mask e with hnone | ⟨old, o, hold, hnew⟩
    · rw [hnone] at hev
      cases hev
    · rw [hnew] at hev
      obtain rfl := Option.some.inj hev
      obtain ⟨n, hn, hfor⟩ := h e old hold
      exact ⟨n, hn, hfor.read, hfor.write⟩

end Registrations

/-! ## Messages -/

section Messages

variable {s s' : Server}

theorem msgs_eq {i : Nat} {w : Worker} (hw : s.workers[i]? = some w) : msgs s i = w.msgs := by
  unfold msgs
  rw [hw]
  rfl

/-- Replacing a worker replaces its messages. -/
theorem msgs_set {i : Nat} {w w' : Worker} (hw : s.workers[i]? = some w)
    (hs : s'.workers = s.workers.set i w') (j : Nat) :
    msgs s' j = if j = i then w'.msgs else msgs s j := by
  obtain ⟨hi, -⟩ := List.getElem?_eq_some_iff.mp hw
  unfold msgs
  rw [hs]
  split
  next hj =>
    rw [hj, List.getElem?_set_self hi]
    rfl
  next hj => rw [List.getElem?_set_ne (Ne.symm hj)]

/-- The acceptor's thread leaves the messages that have been received alone. -/
theorem acceptor_msgs {sys : AcceptorSys} (hstep : s.acceptor sys = .ok s') (j : Nat) :
    msgs s' j = msgs s j := by
  cases acceptor_turn hstep with
  | @thread i n fds hc _ =>
    unfold msgs
    by_cases hj : j < s.workers.length
    · rw [List.getElem?_append_left hj]
    · rw [List.getElem?_append_right (Nat.not_lt.mp hj),
        List.getElem?_eq_none (Nat.not_lt.mp hj)]
      cases j - s.workers.length with
      | zero => rfl
      | succ k => rfl
  | openReserve _ | reopening _ =>
    unfold msgs
    rcases openReserve_cases s sys.opens with ⟨n, fds, _, hs⟩ | hs <;> rw [hs]
  | hand _ hhand =>
    unfold Server.handOver at hhand
    split at hhand
    · rw [(initConn_eq_ok hhand).2]
      rfl
    · split at hhand
      · cases hhand
      · rename_i w hw
        obtain rfl := Except.ok.inj hhand
        refine (msgs_set hw rfl j).trans ?_
        split
        next hj => rw [hj, msgs_eq hw]
        next => rfl
  | _ => rfl

theorem startWorker_msgs {i : Nat} (hstep : s.step (.startWorker i) = .ok s') (j : Nat) :
    msgs s' j = msgs s j := by
  rcases work_cases hstep with rfl | ⟨w, hw, hstep⟩
  · rfl
  split at hstep
  · obtain rfl := Except.ok.inj hstep
    rfl
  · obtain ⟨⟨n, s₁⟩, hopen, hstep⟩ := bind_eq_ok.mp hstep
    obtain ⟨fds, _, rfl⟩ := openOrExit_eq_ok hopen
    obtain rfl := Except.ok.inj hstep
    refine (msgs_set hw rfl j).trans ?_
    split
    next hj => rw [hj, msgs_eq hw]
    next => rfl

theorem recvMsg_msgs {i j : Nat} (hne : j ≠ i) (hstep : s.step (.recvMsg i) = .ok s') :
    msgs s' j = msgs s j := by
  rcases recvMsg_cases hstep with rfl | ⟨w, w', hw, _, rfl⟩
  · rfl
  · exact (msgs_set hw rfl j).trans (if_neg hne)

theorem acceptor_threadCnt {sys : AcceptorSys} (hstep : s.acceptor sys = .ok s') :
    s'.threadCnt = s.threadCnt := by
  cases acceptor_turn hstep with
  | openReserve _ | reopening _ =>
    rcases openReserve_cases s sys.opens with ⟨n, fds, _, hs⟩ | hs <;> rw [hs]
  | hand _ hhand =>
    rcases handOver_cases hhand with rfl | ⟨workers, i, rfl, _⟩ <;> rfl
  | _ => rfl

/-- The acceptor's thread gives a connection to a thread, not to a loop of its own. -/
theorem acceptor_books {sys : AcceptorSys} (hstep : s.acceptor sys = .ok s')
    (hthreads : s.threadCnt = 0 → ∀ n, s.pc ≠ .handing n) :
    s'.counted = s.counted ∧ s'.closing = s.closing ∧ s'.currConns = s.currConns := by
  by_cases hhand : ∃ n, s.pc = .handing n
  · obtain ⟨n, hpc⟩ := hhand
    obtain ⟨s₁, hover, rfl⟩ := acceptor_handing hpc hstep
    have hcnt : s.threadCnt ≠ 0 := fun hzero => hthreads hzero n hpc
    unfold Server.handOver at hover
    rw [if_neg hcnt] at hover
    split at hover
    · cases hover
    · obtain rfl := Except.ok.inj hover
      exact ⟨rfl, rfl, rfl⟩
  · have hsame := (acceptor_turn hstep).sameConns fun n hpc => hhand ⟨n, hpc⟩
    exact ⟨hsame.counted, hsame.closing, hsame.currConns⟩

end Messages

/-! ## Where a loop is with an object -/

/-- How far a loop is with an object it owns. -/
inductive Stage where
  /-- not in its fields yet -/
  | fresh
  /-- in `init`, not counted yet -/
  | opening
  | open
  /-- not counted any more -/
  | leaving
  /-- `_connfd` is already in a variable -/
  | shutting (fd : Int)
  deriving DecidableEq

namespace Point

def stage : Point → Stage
  | .lookup | .assign => .fresh
  | .getFlags | .setFlags | .setNodelay | .buildCb | .addIoev | .incConn => .opening
  | .clean (.close fd) _ => .shutting fd
  | .clean .closeCb _ | .clean .decConn _ => .open
  | .clean _ _ => .leaving
  | _ => .open

/-- Between the call of `init` and that of `clean_conn`. -/
def live : Point → Bool
  | .lookup | .assign | .clean _ _ => false
  | _ => true

/-- In a `clean_conn` after which `handle_read` goes on. -/
def adjusts : Point → Bool
  | .clean _ adjusts => adjusts
  | _ => false

end Point

namespace Pc

def stage (pc : Pc) (n : Nat) : Stage :=
  match pc with
  | .idle => .open
  | .run m p => if m = n then p.stage else .open

def live (pc : Pc) (n : Nat) : Bool :=
  match pc with
  | .idle => true
  | .run m p => if m = n then p.live else true

@[simp] theorem stage_idle (n : Nat) : stage .idle n = .open := rfl

@[simp] theorem stage_run (n : Nat) (p : Point) : (Pc.run n p).stage n = p.stage := if_pos rfl

theorem stage_adjust (m n : Nat) : (Pc.run n .adjust).stage m = .open := ite_self _

theorem stage_ne {pc : Pc} {m : Nat} (h : ∀ q, pc ≠ .run m q) : pc.stage m = .open := by
  cases pc with
  | idle => rfl
  | run k q =>
    refine if_neg fun hk => ?_
    subst hk
    exact h q rfl

@[simp] theorem live_run (n : Nat) (p : Point) : (Pc.run n p).live n = p.live := if_pos rfl

theorem live_ne {pc : Pc} {m : Nat} (h : ∀ q, pc ≠ .run m q) : pc.live m = true := by
  cases pc with
  | idle => rfl
  | run k q =>
    refine if_neg fun hk => ?_
    subst hk
    exact h q rfl

/-- A loop that was at `p` with `n` is at `pc`, and nothing has changed for `n`. -/
structure Like (pc : Pc) (n : Nat) (p : Point) : Prop where
  only : ∀ m q, pc = .run m q → m = n ∧ q.adjusts = p.adjusts
  stage : pc.stage n = p.stage
  live : pc.live n = p.live

theorem Like.run {n : Nat} {p q : Point} (hstage : q.stage = p.stage) (hlive : q.live = p.live)
    (hadjusts : q.adjusts = p.adjusts) : (Pc.run n q).Like n p where
  only m q' h := by
    obtain ⟨rfl, rfl⟩ := Pc.run.inj h
    exact ⟨rfl, hadjusts⟩
  stage := (stage_run n q).trans hstage
  live := (live_run n q).trans hlive

theorem Like.idle {n : Nat} {p : Point} (hstage : p.stage = .open) (hlive : p.live = true) :
    Pc.idle.Like n p :=
  ⟨nofun, hstage.symm, hlive.symm⟩

end Pc

namespace Reactor

variable {s s' : Reactor} {i n : Nat}

theorem goto_loops_self (s : Reactor) (i : Nat) (pc : Pc) :
    (s.goto i pc).loops i = { s.loops i with pc := pc } :=
  Function.update_self _ _ _

theorem goto_loops_ne {j : Nat} (pc : Pc) (hne : j ≠ i) : (s.goto i pc).loops j = s.loops j :=
  Function.update_of_ne hne _ _

@[simp] theorem goto_pc (s : Reactor) (i : Nat) (pc : Pc) : ((s.goto i pc).loops i).pc = pc := by
  rw [goto_loops_self]

@[simp] theorem goto_evs (s : Reactor) (i : Nat) (pc : Pc) (j : Nat) :
    ((s.goto i pc).loops j).evs = (s.loops j).evs := by
  by_cases hj : j = i
  · rw [hj, goto_loops_self]
  · rw [goto_loops_ne pc hj]

@[simp] theorem goto_batch (s : Reactor) (i : Nat) (pc : Pc) (j : Nat) :
    ((s.goto i pc).loops j).batch = (s.loops j).batch := by
  by_cases hj : j = i
  · rw [hj, goto_loops_self]
  · rw [goto_loops_ne pc hj]

theorem onLoop_loops (s : Reactor) (i : Nat) (f : EventLoop ConnIo → EventLoop ConnIo) (j : Nat) :
    (s.onLoop i f).loops j =
      if j = i then { s.loops j with evs := f (s.loops j).evs } else s.loops j := by
  split
  next hj =>
    subst hj
    exact Function.update_self _ _ _
  next hj => exact Function.update_of_ne hj _ _

theorem onLoop_evs (s : Reactor) (i : Nat) (f : EventLoop ConnIo → EventLoop ConnIo) (j : Nat) :
    ((s.onLoop i f).loops j).evs = if j = i then f (s.loops j).evs else (s.loops j).evs := by
  rw [onLoop_loops]
  split <;> rfl

@[simp] theorem onLoop_pc (s : Reactor) (i : Nat) (f : EventLoop ConnIo → EventLoop ConnIo)
    (j : Nat) : ((s.onLoop i f).loops j).pc = (s.loops j).pc := by
  rw [onLoop_loops]
  split <;> rfl

@[simp] theorem onLoop_batch (s : Reactor) (i : Nat) (f : EventLoop ConnIo → EventLoop ConnIo)
    (j : Nat) : ((s.onLoop i f).loops j).batch = (s.loops j).batch := by
  rw [onLoop_loops]
  split <;> rfl

theorem setBatch_loops (s : Reactor) (i : Nat) (batch : List (Nat × Ready)) (j : Nat) :
    (s.setBatch i batch).loops j =
      if j = i then { s.loops j with batch := batch } else s.loops j := by
  split
  next hj =>
    subst hj
    exact Function.update_self _ _ _
  next hj => exact Function.update_of_ne hj _ _

theorem setBatch_batch (s : Reactor) (i : Nat) (batch : List (Nat × Ready)) (j : Nat) :
    ((s.setBatch i batch).loops j).batch = if j = i then batch else (s.loops j).batch := by
  rw [setBatch_loops]
  split <;> rfl

@[simp] theorem setBatch_pc (s : Reactor) (i : Nat) (batch : List (Nat × Ready)) (j : Nat) :
    ((s.setBatch i batch).loops j).pc = (s.loops j).pc := by
  rw [setBatch_loops]
  split <;> rfl

@[simp] theorem setBatch_evs (s : Reactor) (i : Nat) (batch : List (Nat × Ready)) (j : Nat) :
    ((s.setBatch i batch).loops j).evs = (s.loops j).evs := by
  rw [setBatch_loops]
  split <;> rfl

/-- The steps of loop `i` at the point `p` in a function of the object `n`. -/
inductive Does (s : Reactor) (i n : Nat) (p : Point) (r : Reply) : Reactor → Prop
  | goes {pc} (stored : Nat → Bool) : p ≠ .adjust → pc.Like n p →
      Does s i n p r ({ s with stored := stored }.goto i pc)
  | adjusted : p = .adjust → Does s i n p r (s.goto i .idle)
  | assigns : p = .assign →
      Does s i n p r ({ s.setConn n ⟨n, some i⟩ with inits := s.inits ++ [n] }.goto i
        (.run n .getFlags))
  | listens {connfd j proc mask q} : p ≠ .adjust → p.stage = .opening ∨ p.stage = .open →
      s.conns n = some ⟨connfd, some j⟩ → (Pc.run n q).Like n p →
      Does s i n p r ((s.onLoop j fun evs => evs.addIoev connfd proc mask (some n)).goto i
        (.run n q))
  | unlistens {j f pc} : p ≠ .adjust → Shrinks f → pc.Like n p →
      Does s i n p r ((s.onLoop j f).goto i pc)
  | counts {server} : p = .incConn → s.incConn i = .ok server →
      Does s i n p r ({ s with server := server }.goto i
        (if s.stored n then .idle else .run n .store))
  | cleans {adjusts} : p ≠ .adjust → p.stage = .open → p.live = true →
      (adjusts = true → (p = .readHead ∨ p = .exist) ∧ r.test = true) →
      Does s i n p r (s.startClean i n adjusts)
  | uncounts {adjusts} : p = .clean .decConn adjusts →
      Does s i n p r ((s.decConn n).goto i (.run n (.clean .delIoev adjusts)))
  | clearsLoop {c adjusts} : p = .clean .clearLoop adjusts → s.conns n = some c →
      Does s i n p r ((s.setConn n { c with loop := none }).goto i
        (.run n (.clean .clearIbuf adjusts)))
  | takesFd {c adjusts} : p = .clean .takeFd adjusts → s.conns n = some c →
      Does s i n p r ((s.setConn n { c with connfd := -1 }).goto i
        (.run n (.clean (.close c.connfd) adjusts)))
  | closes {fd adjusts} : p = .clean (.close fd) adjusts →
      Does s i n p r ((s.close i n fd).goto i (if adjusts then .run n .adjust else .idle))

theorem viaLoop_cases {f : Int → EventLoop ConnIo → EventLoop ConnIo}
    (h : s.viaLoop n f = .ok s') :
    ∃ connfd j, s.conns n = some ⟨connfd, some j⟩ ∧ s' = s.onLoop j (f connfd) := by
  unfold viaLoop at h
  split at h
  · rename_i connfd j hconn
    exact ⟨connfd, j, hconn, (Except.ok.inj h).symm⟩
  · cases h

theorem userCall_does {r : Reply} {p q : Point} (hp : p ≠ .adjust)
    (hstage : p.stage = .opening ∨ p.stage = .open) (hq : (Pc.run n q).Like n p)
    (h : s.userCall i n r p q = .ok s') : Does s i n p r s' := by
  unfold userCall at h
  have hhere : (Pc.run n p).Like n p := .run rfl rfl rfl
  split at h
  · obtain rfl := Except.ok.inj h
    exact .goes s.stored hp hhere
  · obtain ⟨s₁, hlisten, h⟩ := bind_eq_ok.mp h
    obtain ⟨connfd, j, hconn, rfl⟩ := viaLoop_cases hlisten
    obtain rfl := Except.ok.inj h
    exact .listens hp hstage hconn hhere
  · obtain rfl := Except.ok.inj h
    exact .goes s.stored hp hq

theorem clean_does {r : Reply} {adjusts : Bool} {place : CleanPoint}
    (h : s.clean i n r adjusts place = .ok s') : Does s i n (.clean place adjusts) r s' := by
  cases place with
  | closeCb =>
    exact userCall_does (q := .clean .decConn adjusts) nofun (.inr rfl) (.run rfl rfl rfl) h
  | decConn =>
    obtain rfl := Except.ok.inj h
    exact .uncounts rfl
  | delIoev =>
    obtain ⟨s₁, hvia, h⟩ := bind_eq_ok.mp h
    obtain ⟨connfd, j, _, rfl⟩ := viaLoop_cases hvia
    obtain rfl := Except.ok.inj h
    exact .unlistens nofun (shrinks_delIoev connfd) (.run rfl rfl rfl)
  | clearLoop =>
    simp only [clean] at h
    split at h
    · cases h
    · rename_i c hc
      obtain rfl := Except.ok.inj h
      exact .clearsLoop rfl hc
  | clearIbuf | clearObuf =>
    obtain rfl := Except.ok.inj h
    exact .goes s.stored nofun (.run rfl rfl rfl)
  | takeFd =>
    simp only [clean] at h
    split at h
    · cases h
    · rename_i c hc
      obtain rfl := Except.ok.inj h
      exact .takesFd rfl hc
  | close fd =>
    obtain rfl := Except.ok.inj h
    exact .closes rfl

/-- Every step of a loop in a function of a connection is one of these. -/
theorem turn_does {r : Reply} {p : Point} (h : s.turn i n r p = .ok s') : Does s i n p r s' := by
  have hgoes : ∀ {pc : Pc}, p ≠ .adjust → pc.Like n p → Does s i n p r (s.goto i pc) :=
    fun hp hpc => .goes s.stored hp hpc
  cases p with
  | lookup =>
    simp only [turn] at h
    split at h
    · obtain rfl := Except.ok.inj h
      exact hgoes nofun (.run rfl rfl rfl)
    · cases h
  | assign =>
    obtain rfl := Except.ok.inj h
    exact .assigns rfl
  | getFlags | setFlags | setNodelay | popHead | popBody =>
    obtain rfl := Except.ok.inj h
    exact hgoes nofun (.run rfl rfl rfl)
  | buildCb => exact userCall_does (q := .addIoev) nofun (.inl rfl) (.run rfl rfl rfl) h
  | callback => exact userCall_does (q := .popBody) nofun (.inr rfl) (.run rfl rfl rfl) h
  | addIoev =>
    obtain ⟨s₁, hlisten, h⟩ := bind_eq_ok.mp h
    obtain ⟨connfd, j, hconn, rfl⟩ := viaLoop_cases hlisten
    obtain rfl := Except.ok.inj h
    exact .listens nofun (.inl rfl) hconn (.run rfl rfl rfl)
  | incConn =>
    obtain ⟨server, hserver, h⟩ := bind_eq_ok.mp h
    obtain rfl := Except.ok.inj h
    exact .counts rfl hserver
  | store =>
    obtain rfl := Except.ok.inj h
    exact .goes _ nofun (.idle rfl rfl)
  | readData =>
    simp only [turn] at h
    split at h
    · obtain rfl := Except.ok.inj h
      exact .cleans nofun rfl rfl nofun
    · obtain rfl := Except.ok.inj h
      exact hgoes nofun (.run rfl rfl rfl)
  | readLength | readWhole | writeLength =>
    obtain rfl := Except.ok.inj h
    refine hgoes nofun ?_
    cases r.test with
    | true => exact .run rfl rfl rfl
    | false => exact .run rfl rfl rfl
  | readHead =>
    simp only [turn] at h
    split at h
    · rename_i htest
      obtain rfl := Except.ok.inj h
      exact .cleans nofun rfl rfl fun _ => ⟨.inl rfl, htest⟩
    · obtain rfl := Except.ok.inj h
      exact hgoes nofun (.run rfl rfl rfl)
  | exist =>
    simp only [turn] at h
    split at h
    · rename_i htest
      obtain rfl := Except.ok.inj h
      exact .cleans nofun rfl rfl fun _ => ⟨.inr rfl, htest⟩
    · obtain rfl := Except.ok.inj h
      exact hgoes nofun (.run rfl rfl rfl)
  | adjust =>
    obtain rfl := Except.ok.inj h
    exact .adjusted rfl
  | writeFd =>
    simp only [turn] at h
    split at h
    · obtain rfl := Except.ok.inj h
      exact .cleans nofun rfl rfl nofun
    · obtain rfl := Except.ok.inj h
      refine hgoes nofun ?_
      split
      · exact .run rfl rfl rfl
      · exact .run rfl rfl rfl
  | drained =>
    obtain rfl := Except.ok.inj h
    refine hgoes nofun ?_
    cases r.test with
    | true => exact .run rfl rfl rfl
    | false => exact .idle rfl rfl
  | delWrite =>
    obtain ⟨s₁, hvia, h⟩ := bind_eq_ok.mp h
    obtain ⟨connfd, j, _, rfl⟩ := viaLoop_cases hvia
    obtain rfl := Except.ok.inj h
    exact .unlistens nofun (shrinks_delIoevMask connfd epollOut) (.idle rfl rfl)
  | clean place adjusts => exact clean_does h

theorem invoke_cases {cb : Option ConnIo} {args : Wire.Ptr} (h : s.invoke i cb args = .ok s') :
    cb.isSome ∧ ∃ n p, args = some n ∧ (p = .readData ∨ p = .writeLength) ∧
      s' = s.goto i (.run n p) := by
  unfold invoke at h
  split at h
  · exact ⟨rfl, _, _, rfl, .inl rfl, (Except.ok.inj h).symm⟩
  · exact ⟨rfl, _, _, rfl, .inr rfl, (Except.ok.inj h).symm⟩
  · cases h

/-- A callback is called with the object of its descriptor, or the descriptor is given up. -/
theorem dispatch_cases {fd : Int} {ready : Ready} (hserves : Serves (s.loops i).evs)
    (h : s.dispatch i fd ready = .ok s') :
    (∃ n p, fd = Int.ofNat n ∧ (p = .readData ∨ p = .writeLength) ∧ s' = s.goto i (.run n p)) ∨
      s' = s.onLoop i fun evs => evs.delIoev fd := by
  unfold dispatch at h
  split at h
  · cases h
  rename_i ev hev
  obtain ⟨n, hn, hfor⟩ := hserves fd ev hev
  have hread : s.invoke i ev.readCb ev.rcbArgs = .ok s' →
      ∃ p, (p = .readData ∨ p = .writeLength) ∧ s' = s.goto i (.run n p) := by
    intro hinvoke
    obtain ⟨hsome, m, p, hargs, hp, hs'⟩ := invoke_cases hinvoke
    obtain rfl := Option.some.inj ((hfor.read hsome).symm.trans hargs)
    exact ⟨p, hp, hs'⟩
  have hwrite : s.invoke i ev.writeCb ev.wcbArgs = .ok s' →
      ∃ p, (p = .readData ∨ p = .writeLength) ∧ s' = s.goto i (.run n p) := by
    intro hinvoke
    obtain ⟨hsome, m, p, hargs, hp, hs'⟩ := invoke_cases hinvoke
    obtain rfl := Option.some.inj ((hfor.write hsome).symm.trans hargs)
    exact ⟨p, hp, hs'⟩
  split at h
  · obtain ⟨p, hp, hs'⟩ := hread h
    exact .inl ⟨n, p, hn, hp, hs'⟩
  · obtain ⟨p, hp, hs'⟩ := hwrite h
    exact .inl ⟨n, p, hn, hp, hs'⟩
  · split at h
    · obtain ⟨p, hp, hs'⟩ := hread h
      exact .inl ⟨n, p, hn, hp, hs'⟩
    · split at h
      · obtain ⟨p, hp, hs'⟩ := hwrite h
        exact .inl ⟨n, p, hn, hp, hs'⟩
      · exact .inr (Except.ok.inj h).symm

end Reactor

end EasyReactor.Workers
