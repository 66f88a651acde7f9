import EasyReactor.Acceptor.TcpServer

set_option autoImplicit false

/-!
# Acceptor: what the steps do

One inversion lemma for each kind of step: what it changes when it returns, and how the
acceptor's thread fails.
-/

namespace EasyReactor.Acceptor

open EasyReactor.Foundation EasyReactor.Loop EasyReactor.Thread

/-- The connections a worker has been told of and has not initialised. -/
def Worker.pending (w : Worker) : List Nat := w.msgs ++ w.inbox.queue

/-- Replacing a worker replaces its part of the connections that wait. -/
theorem flatMap_set_perm {ws : List Worker} {i : Nat} {w : Worker} (h : ws[i]? = some w) :
    ∃ others, (ws.flatMap Worker.pending).Perm (w.pending ++ others) ∧
      ∀ w', ((ws.set i w').flatMap Worker.pending).Perm (w'.pending ++ others) := by
  induction ws generalizing i with
  | nil => cases h
  | cons v ws ih =>
    cases i with
    | zero =>
      obtain rfl := Option.some.inj h
      refine ⟨ws.flatMap Worker.pending, ?_, fun w' => ?_⟩
      · rw [List.flatMap_cons]
      · rw [List.set_cons_zero, List.flatMap_cons]
    | succ i =>
      obtain ⟨others, hold, hnew⟩ := ih h
      refine ⟨v.pending ++ others, ?_, fun w' => ?_⟩
      · rw [List.flatMap_cons]
        exact (hold.append_left v.pending).trans (List.perm_append_comm_assoc _ _ _)
      · rw [List.set_cons_succ, List.flatMap_cons]
        exact ((hnew w').append_left v.pending).trans (List.perm_append_comm_assoc _ _ _)

def Event.byAcceptor : Event → Bool
  | .acceptor _ => true
  | _ => false

theorem byAcceptor_eq {e : Event} (h : e.byAcceptor = true) : ∃ sys, e = .acceptor sys := by
  cases e with
  | acceptor sys => exact ⟨sys, rfl⟩
  | _ => cases h

namespace Server

variable {s s' : Server}

/-- The connections that wait for a worker. -/
def waiting (s : Server) : List Nat := s.workers.flatMap Worker.pending

/-- What worker `i` has lost and gained, all workers have. -/
theorem waiting_set_perm {i : Nat} {w w' : Worker} (hw : s.workers[i]? = some w)
    (hs' : s'.workers = s.workers.set i w') {lost gained : List Nat}
    (hpend : (lost ++ w'.pending).Perm (gained ++ w.pending)) :
    (lost ++ s'.waiting).Perm (gained ++ s.waiting) := by
  obtain ⟨others, hold, hnew⟩ := flatMap_set_perm hw
  unfold waiting
  rw [hs']
  have hleft := (hnew w').append_left lost
  have hmid := hpend.append_right others
  have hright := hold.symm.append_left gained
  rw [List.append_assoc, List.append_assoc] at hmid
  exact (hleft.trans hmid).trans hright

theorem openOrExit_eq_ok {w : Owner} {n : Nat} (h : s.openOrExit w = .ok (n, s')) :
    ∃ fds, s.fds.alloc w = some (n, fds) ∧ s' = { s with fds := fds } := by
  unfold openOrExit at h
  split at h
  · cases h
  · rename_i m fds hm
    obtain ⟨rfl, rfl⟩ := Prod.mk.inj (Except.ok.inj h)
    exact ⟨fds, hm, rfl⟩

theorem work_cases {i : Nat} {f : Worker → Except Fault Server} (h : s.work i f = .ok s') :
    s' = s ∨ ∃ w, s.workers[i]? = some w ∧ f w = .ok s' := by
  unfold work at h
  split at h
  · exact .inl (Except.ok.inj h).symm
  · rename_i w hw
    exact .inr ⟨w, hw, h⟩

theorem startWorker_cases {i : Nat} (h : s.step (.startWorker i) = .ok s') :
    s' = s ∨ ∃ w w' n fds, s.workers[i]? = some w ∧ w'.pending = w.pending ∧
      s.fds.alloc .other = some (n, fds) ∧
      s' = { s with fds := fds, workers := s.workers.set i w' } := by
  rcases work_cases h with rfl | ⟨w, hw, h⟩
  · exact .inl rfl
  split at h
  · exact .inl (Except.ok.inj h).symm
  · rename_i k _
    obtain ⟨⟨n, s₁⟩, hopen, h⟩ := bind_eq_ok.mp h
    obtain ⟨fds, halloc, rfl⟩ := openOrExit_eq_ok hopen
    refine .inr ⟨w, _, n, fds, hw, ?_, halloc, (Except.ok.inj h).symm⟩
    unfold Worker.pending
    split <;> rfl

theorem recvMsg_cases {i : Nat} (h : s.step (.recvMsg i) = .ok s') :
    s' = s ∨ ∃ w w', s.workers[i]? = some w ∧ w'.pending = w.pending ∧
      s' = { s with workers := s.workers.set i w' } := by
  rcases work_cases h with rfl | ⟨w, hw, h⟩
  · exact .inl rfl
  split at h
  · rename_i hidle
    refine .inr ⟨w, _, hw, ?_, (Except.ok.inj h).symm⟩
    unfold Worker.pending
    rw [hidle.2]
    exact List.append_nil _
  · exact .inl (Except.ok.inj h).symm

theorem initConn_eq_ok {connfd : Nat} (h : s.initConn connfd = .ok s') :
    (connfd : Int) < s.connsSize ∧
      s' = { s with counted := s.counted ++ [connfd], currConns := s.currConns + 1 } := by
  unfold initConn at h
  split at h
  · rename_i hlt
    exact ⟨hlt, (Except.ok.inj h).symm⟩
  · cases h

theorem handleMsg_cases {i : Nat} (h : s.step (.handleMsg i) = .ok s') :
    s' = s ∨ ∃ w connfd msgs, s.workers[i]? = some w ∧ w.msgs = connfd :: msgs ∧
      s' = { s with
        workers := s.workers.set i { w with msgs := msgs }
        counted := s.counted ++ [connfd]
        currConns := s.currConns + 1 } := by
  rcases work_cases h with rfl | ⟨w, hw, h⟩
  · exact .inl rfl
  split at h
  · exact .inl (Except.ok.inj h).symm
  · rename_i connfd msgs hmsgs
    exact .inr ⟨w, connfd, msgs, hw, hmsgs, (initConn_eq_ok h).2⟩

/-- The connection is counted, or waits for a worker. -/
theorem handOver_cases {connfd : Nat} (h : s.handOver connfd = .ok s') :
    s' = { s with counted := s.counted ++ [connfd], currConns := s.currConns + 1 } ∨
      ∃ workers i, s' = { s with workers := workers, currIndex := i } ∧
        s'.waiting.Perm (connfd :: s.waiting) := by
  unfold handOver at h
  split at h
  · exact .inl (initConn_eq_ok h).2
  · split at h
    · cases h
    · rename_i w hw
      obtain rfl := Except.ok.inj h
      refine .inr ⟨_, _, rfl, ?_⟩
      have hpend : ([] ++ Worker.pending { w with inbox := w.inbox.sendMsg connfd }).Perm
          ([connfd] ++ w.pending) := by
        simp only [Worker.pending, ThreadQueue.sendMsg, List.nil_append, ← List.append_assoc]
        exact List.perm_append_singleton _ _
      exact waiting_set_perm hw rfl hpend

/-- The steps of the acceptor's thread, by where it is. -/
inductive Turn (s : Server) (sys : AcceptorSys) : Server → Prop where
  | socket {n fds} : s.pc = .socket → s.fds.alloc .listener = some (n, fds) →
      Turn s sys { s with fds := fds, pc := .openReserve }
  | openReserve : s.pc = .openReserve →
      Turn s sys
        { s.openReserve sys.opens with pc := if s.threadCnt = 0 then .dup else .thread 0 }
  | thread {i n fds} : s.pc = .thread i → s.fds.alloc .other = some (n, fds) →
      Turn s sys
        { s with
          fds := fds
          workers := s.workers ++ [⟨.new n, 2, []⟩]
          pc := if i + 1 = s.threadCnt then .dup else .thread (i + 1) }
  | dupFails {size} : s.pc = .dup → size = s.maxConns.toInt + -1 → 0 ≤ size →
      Turn s sys { s with connsSize := size, pc := .closeNext none }
  | dup {size n fds} : s.pc = .dup → s.fds.alloc .next = some (n, fds) →
      size = s.maxConns.toInt + n → 0 ≤ size →
      Turn s sys { s with fds := fds, connsSize := size, pc := .closeNext (some n) }
  | closeNext {nextFd} : s.pc = .closeNext nextFd →
      Turn s sys { s with fds := nextFd.elim s.fds s.fds.close, pc := .idle }
  | idle : s.pc = .idle → Turn s sys s
  | again {connFull} : s.pc = .accepting connFull → Turn s sys s
  | eagain {connFull} : s.pc = .accepting connFull → sys.accept = .eagain →
      Turn s sys { s with pc := .idle }
  | emfile {connFull} : s.pc = .accepting connFull → sys.accept = .emfile →
      s.fds.alloc .conn = none → Turn s sys { s with pc := .releasing }
  | releasing : s.pc = .releasing → Turn s sys { s.closeReserve with pc := .accepting true }
  | connFull {n fds} : s.pc = .accepting true → sys.accept = .connection →
      s.fds.alloc .conn = some (n, fds) → Turn s sys { s with fds := fds, pc := .discarding n }
  | connection {n fds} : s.pc = .accepting false → sys.accept = .connection →
      s.fds.alloc .conn = some (n, fds) →
      Turn s sys { s with fds := fds, pc := .accepted n }
  | reject {n} : s.pc = .accepted n → s.maxConns.toInt ≤ s.currConns →
      Turn s sys { s with pc := .rejecting n }
  | take {n} : s.pc = .accepted n → s.currConns < s.maxConns.toInt →
      (n : Int) < s.connsSize → Turn s sys { s with pc := .handing n }
  | hand {n s'} : s.pc = .handing n → s.handOver n = .ok s' →
      Turn s sys { s' with pc := .accepting false }
  | rejecting {n} : s.pc = .rejecting n →
      Turn s sys { s with fds := s.fds.close n, pc := .accepting false }
  | discarding {n} : s.pc = .discarding n →
      Turn s sys { s with fds := s.fds.close n, pc := .reopening }
  | reopening : s.pc = .reopening →
      Turn s sys { s.openReserve sys.opens with pc := .accepting true }

theorem accept_turn {sys : AcceptorSys} {connFull : Bool} (hpc : s.pc = .accepting connFull)
    (h : s.accept connFull sys.accept = .ok s') : Turn s sys s' := by
  unfold accept at h
  split at h
  · obtain rfl := Except.ok.inj h
    exact .again hpc
  · rename_i hr
    obtain rfl := Except.ok.inj h
    exact .eagain hpc hr
  · cases h
  · rename_i hr
    split at h
    · obtain rfl := Except.ok.inj h
      exact .again hpc
    · rename_i hfull
      obtain rfl := Except.ok.inj h
      exact .emfile hpc hr hfull
  · rename_i hr
    split at h
    · obtain rfl := Except.ok.inj h
      exact .again hpc
    · rename_i n fds halloc
      obtain rfl := Except.ok.inj h
      cases connFull with
      | true => exact .connFull hpc hr halloc
      | false => exact .connection hpc hr halloc

/-- Every step of the acceptor's thread is one of these. -/
theorem acceptor_turn {sys : AcceptorSys} (h : s.acceptor sys = .ok s') : Turn s sys s' := by
  unfold acceptor at h
  split at h
  · rename_i hpc
    obtain ⟨⟨n, s₁⟩, hopen, h⟩ := bind_eq_ok.mp h
    obtain ⟨fds, halloc, rfl⟩ := openOrExit_eq_ok hopen
    obtain rfl := Except.ok.inj h
    exact .socket hpc halloc
  · rename_i hpc
    split at h
    · cases h
    · obtain rfl := Except.ok.inj h
      exact .openReserve hpc
  · rename_i i hpc
    obtain ⟨⟨n, s₁⟩, hopen, h⟩ := bind_eq_ok.mp h
    obtain ⟨fds, halloc, rfl⟩ := openOrExit_eq_ok hopen
    obtain rfl := Except.ok.inj h
    exact .thread hpc halloc
  · rename_i hpc
    split at h
    rename_i nextFd fds hdup
    obtain ⟨size, hsize, h⟩ := bind_eq_ok.mp h
    have hsize := intResult_eq_ok hsize
    split at h
    · cases h
    rename_i hpos
    obtain rfl := Except.ok.inj h
    split at hdup
    · rename_i n fds' _ halloc
      obtain ⟨rfl, rfl⟩ := Prod.mk.inj hdup
      exact .dup hpc halloc hsize (Int.not_lt.mp hpos)
    · obtain ⟨rfl, rfl⟩ := Prod.mk.inj hdup
      exact .dupFails hpc hsize (Int.not_lt.mp hpos)
  · rename_i nextFd hpc
    obtain rfl := Except.ok.inj h
    exact .closeNext hpc
  · rename_i hpc
    obtain rfl := Except.ok.inj h
    exact .idle hpc
  · rename_i connFull hpc
    exact accept_turn hpc h
  · rename_i hpc
    obtain rfl := Except.ok.inj h
    exact .releasing hpc
  · rename_i n hpc
    split at h
    · rename_i hmax
      obtain rfl := Except.ok.inj h
      exact .reject hpc hmax
    · rename_i hmax
      split at h
      · rename_i hlt
        obtain rfl := Except.ok.inj h
        exact .take hpc (Int.not_le.mp hmax) hlt
      · cases h
  · rename_i n hpc
    obtain ⟨s₁, hhand, h⟩ := bind_eq_ok.mp h
    obtain rfl := Except.ok.inj h
    exact .hand hpc hhand
  · rename_i n hpc
    obtain rfl := Except.ok.inj h
    exact .rejecting hpc
  · rename_i n hpc
    obtain rfl := Except.ok.inj h
    exact .discarding hpc
  · rename_i hpc
    obtain rfl := Except.ok.inj h
    exact .reopening hpc

/-- How the acceptor's thread can fail. -/
inductive Fails (s : Server) : Fault → Prop where
  | exit : Fails s .exit
  | overflow {nextFd : Int} : s.pc = .dup → -1 ≤ nextFd → nextFd < s.fds.limit →
      ¬(-2147483648 ≤ s.maxConns.toInt + nextFd ∧ s.maxConns.toInt + nextFd < 2147483648) →
      Fails s .undefined
  | connfdRange {n} : s.pc = .accepted n → s.currConns < s.maxConns.toInt →
      ¬(n : Int) < s.connsSize → Fails s (.assertion .connfdRange)
  | hand {n f} : s.pc = .handing n → s.handOver n = .error f → Fails s f

theorem openOrExit_eq_error {w : Owner} {f : Fault} (h : s.openOrExit w = .error f) :
    f = .exit := by
  unfold openOrExit at h
  split at h
  · exact (Except.error.inj h).symm
  · cases h

theorem accept_fails {connFull : Bool} {r : AcceptResult} {f : Fault}
    (h : s.accept connFull r = .error f) : f = .exit := by
  unfold accept at h
  split at h
  · cases h
  · cases h
  · exact (Except.error.inj h).symm
  · split at h <;> cases h
  · split at h <;> cases h

theorem acceptor_fails {sys : AcceptorSys} {f : Fault} (h : s.acceptor sys = .error f) :
    Fails s f := by
  unfold acceptor at h
  split at h
  · rcases bind_eq_error.mp h with hopen | ⟨_, _, h⟩
    · obtain rfl := openOrExit_eq_error hopen
      exact .exit
    · cases h
  · split at h
    · obtain rfl := Except.error.inj h
      exact .exit
    · cases h
  · rcases bind_eq_error.mp h with hopen | ⟨_, _, h⟩
    · obtain rfl := openOrExit_eq_error hopen
      exact .exit
    · cases h
  · rename_i hpc
    split at h
    rename_i nextFd fds hdup
    rcases bind_eq_error.mp h with hsize | ⟨size, _, h⟩
    · obtain ⟨rfl, hrange⟩ := intResult_eq_error hsize
      split at hdup
      · rename_i n fds' _ halloc
        obtain ⟨rfl, rfl⟩ := Prod.mk.inj hdup
        have hlt := (Descriptors.alloc_eq_some halloc).1
        exact .overflow hpc (by omega) (Int.ofNat_lt.mpr hlt) hrange
      · obtain ⟨rfl, rfl⟩ := Prod.mk.inj hdup
        exact .overflow hpc (Int.le_refl _) (by omega) hrange
    · split at h
      · obtain rfl := Except.error.inj h
        exact .exit
      · cases h
  · cases h
  · cases h
  · obtain rfl := accept_fails h
    exact .exit
  · cases h
  · rename_i n hpc
    split at h
    · cases h
    · rename_i hmax
      split at h
      · cases h
      · rename_i hlt
        obtain rfl := Except.error.inj h
        exact .connfdRange hpc (Int.not_le.mp hmax) hlt
  · rename_i n hpc
    rcases bind_eq_error.mp h with hhand | ⟨_, _, h⟩
    · exact .hand hpc hhand
    · cases h
  · cases h
  · cases h
  · cases h

/-- What a step that gives no connection away leaves alone. -/
structure SameConns (s s' : Server) : Prop where
  waiting : s'.waiting = s.waiting
  counted : s'.counted = s.counted
  closing : s'.closing = s.closing
  currConns : s'.currConns = s.currConns
  maxConns : s'.maxConns = s.maxConns

theorem SameConns.rfl (s : Server) : SameConns s s := ⟨.refl _, .refl _, .refl _, .refl _, .refl _⟩

theorem openReserve_cases (s : Server) (opens : Bool) :
    (∃ n fds, s.fds.alloc (.reserve s.reserves) = some (n, fds) ∧
      s.openReserve opens =
        { s with fds := fds, reservfd := some n, reserves := s.reserves + 1 }) ∨
      s.openReserve opens = { s with reservfd := none } := by
  unfold openReserve
  split
  · rename_i n fds halloc
    exact .inl ⟨n, fds, halloc, rfl⟩
  · exact .inr rfl

theorem openReserve_sameConns (s : Server) (opens : Bool) (pc : Pc) :
    SameConns s { s.openReserve opens with pc := pc } := by
  rcases openReserve_cases s opens with ⟨n, fds, _, hs⟩ | hs
  · rw [hs]
    exact ⟨.refl _, .refl _, .refl _, .refl _, .refl _⟩
  · rw [hs]
    exact ⟨.refl _, .refl _, .refl _, .refl _, .refl _⟩

/-- Every step of the acceptor's thread but the hand-over leaves the connections alone. -/
theorem Turn.sameConns {sys : AcceptorSys} (h : Turn s sys s')
    (hpc : ∀ connfd, s.pc ≠ .handing connfd) : SameConns s s' := by
  cases h with
  | openReserve | reopening => exact openReserve_sameConns s sys.opens _
  | thread =>
    refine ⟨?_, .refl _, .refl _, .refl _, .refl _⟩
    -- a new worker has nothing to wait for
    unfold waiting
    simp [Worker.pending, ThreadQueue.new]
  | idle | again => exact .rfl s
  | hand hc _ => exact absurd hc (hpc _)
  | _ => exact ⟨.refl _, .refl _, .refl _, .refl _, .refl _⟩

/-- The hand-over, in the acceptor's thread. -/
theorem acceptor_handing {sys : AcceptorSys} {connfd : Nat} (hpc : s.pc = .handing connfd)
    (h : s.acceptor sys = .ok s') :
    ∃ s₁, s.handOver connfd = .ok s₁ ∧ s' = { s₁ with pc := .accepting false } := by
  simp only [acceptor, hpc] at h
  obtain ⟨s₁, hhand, h⟩ := bind_eq_ok.mp h
  exact ⟨s₁, hhand, (Except.ok.inj h).symm⟩

/-- What only the acceptor's thread changes. -/
structure SameServer (s s' : Server) : Prop where
  limit : s'.fds.limit = s.fds.limit
  threadCnt : s'.threadCnt = s.threadCnt
  maxConns : s'.maxConns = s.maxConns
  connsSize : s'.connsSize = s.connsSize
  reservfd : s'.reservfd = s.reservfd
  reserves : s'.reserves = s.reserves
  reserveCloses : s'.reserveCloses = s.reserveCloses
  hired : s'.workers.length = s.workers.length
  currIndex : s'.currIndex = s.currIndex
  pc : s'.pc = s.pc ∨ s.pc = .idle ∧ s'.pc = .accepting false

theorem SameServer.rfl (s : Server) : SameServer s s :=
  ⟨.refl _, .refl _, .refl _, .refl _, .refl _, .refl _, .refl _, .refl _, .refl _, .inl (.refl _)⟩

/-- A step of another thread, or the call of `do_accept`. -/
theorem step_sameServer {e : Event} (he : e.byAcceptor = false) (h : s.step e = .ok s') :
    SameServer s s' := by
  cases e with
  | acceptor sys => cases he
  | doAccept =>
    simp only [Server.step] at h
    split at h
    · rename_i hidle
      obtain rfl := Except.ok.inj h
      exact { SameServer.rfl s with pc := .inr ⟨hidle, .refl _⟩ }
    · obtain rfl := Except.ok.inj h
      exact .rfl s
  | startWorker i =>
    rcases startWorker_cases h with rfl | ⟨w, w', n, fds, _, _, halloc, rfl⟩
    · exact .rfl _
    · obtain ⟨_, _, _, hlimit, _⟩ := Descriptors.alloc_eq_some halloc
      exact { SameServer.rfl s with limit := hlimit, hired := List.length_set }
  | recvMsg i =>
    rcases recvMsg_cases h with rfl | ⟨w, w', _, _, rfl⟩
    · exact .rfl _
    · exact { SameServer.rfl s with hired := List.length_set }
  | handleMsg i =>
    rcases handleMsg_cases h with rfl | ⟨w, connfd, msgs, _, _, rfl⟩
    · exact .rfl _
    · exact { SameServer.rfl s with hired := List.length_set }
  | decConn fd =>
    simp only [Server.step] at h
    split at h
    · obtain rfl := Except.ok.inj h
      exact { SameServer.rfl s with }
    · obtain rfl := Except.ok.inj h
      exact .rfl s
  | closeConn fd =>
    simp only [Server.step] at h
    split at h
    · obtain rfl := Except.ok.inj h
      exact { SameServer.rfl s with }
    · obtain rfl := Except.ok.inj h
      exact .rfl s

/-- What such a step does with descriptors and connections. -/
inductive Moves (s s' : Server) : Prop where
  /-- at most the worker's queue and messages change -/
  | keep : s'.fds = s.fds → s'.waiting.Perm s.waiting → s'.counted = s.counted →
      s'.closing = s.closing → s'.currConns = s.currConns → Moves s s'
  | opens {n fds} : s.fds.alloc .other = some (n, fds) → s'.fds = fds →
      s'.waiting.Perm s.waiting → s'.counted = s.counted → s'.closing = s.closing →
      s'.currConns = s.currConns → Moves s s'
  | init {connfd} : s'.fds = s.fds → (connfd :: s'.waiting).Perm s.waiting →
      s'.counted = s.counted ++ [connfd] → s'.closing = s.closing →
      s'.currConns = s.currConns + 1 → Moves s s'
  | dec {fd} : fd ∈ s.counted → s'.fds = s.fds → s'.waiting = s.waiting →
      s'.counted = s.counted.erase fd → s'.closing = s.closing ++ [fd] →
      s'.currConns = s.currConns - 1 → Moves s s'
  | close {fd} : fd ∈ s.closing → s'.fds = s.fds.close fd → s'.waiting = s.waiting →
      s'.counted = s.counted → s'.closing = s.closing.erase fd → s'.currConns = s.currConns →
      Moves s s'

theorem Moves.rfl (s : Server) : Moves s s :=
  .keep (.refl _) (.refl _) (.refl _) (.refl _) (.refl _)

theorem step_moves {e : Event} (he : e.byAcceptor = false) (h : s.step e = .ok s') :
    Moves s s' := by
  cases e with
  | acceptor sys => cases he
  | doAccept =>
    simp only [Server.step] at h
    split at h
    · obtain rfl := Except.ok.inj h
      exact .keep (.refl _) (.refl _) (.refl _) (.refl _) (.refl _)
    · obtain rfl := Except.ok.inj h
      exact .rfl s
  | startWorker i =>
    rcases startWorker_cases h with rfl | ⟨w, w', n, fds, hw, hpend, halloc, rfl⟩
    · exact .rfl _
    · have hperm : ([] ++ w'.pending).Perm ([] ++ w.pending) := .of_eq hpend
      exact .opens halloc (.refl _) (waiting_set_perm hw (.refl _) hperm) (.refl _) (.refl _)
        (.refl _)
  | recvMsg i =>
    rcases recvMsg_cases h with rfl | ⟨w, w', hw, hpend, rfl⟩
    · exact .rfl _
    · have hperm : ([] ++ w'.pending).Perm ([] ++ w.pending) := .of_eq hpend
      exact .keep (.refl _) (waiting_set_perm hw (.refl _) hperm) (.refl _) (.refl _) (.refl _)
  | handleMsg i =>
    rcases handleMsg_cases h with rfl | ⟨w, connfd, msgs, hw, hmsgs, rfl⟩
    · exact .rfl _
    · have hperm : ([connfd] ++ Worker.pending { w with msgs := msgs }).Perm ([] ++ w.pending) := by
        refine .of_eq ?_
        simp only [Worker.pending, hmsgs, List.cons_append, List.nil_append]
      exact .init (.refl _) (waiting_set_perm hw (.refl _) hperm) (.refl _) (.refl _) (.refl _)
  | decConn fd =>
    simp only [Server.step] at h
    split at h
    · rename_i hmem
      obtain rfl := Except.ok.inj h
      exact .dec hmem (.refl _) (.refl _) (.refl _) (.refl _) (.refl _)
    · obtain rfl := Except.ok.inj h
      exact .rfl s
  | closeConn fd =>
    simp only [Server.step] at h
    split at h
    · rename_i hmem
      obtain rfl := Except.ok.inj h
      exact .close hmem (.refl _) (.refl _) (.refl _) (.refl _) (.refl _)
    · obtain rfl := Except.ok.inj h
      exact .rfl s

end Server

end EasyReactor.Acceptor
