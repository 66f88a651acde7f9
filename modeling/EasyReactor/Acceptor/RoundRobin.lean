import Mathlib.Data.Int.CardIntervalMod
import EasyReactor.Acceptor.Range

set_option autoImplicit false

/-!
# Acceptor: the threads in turn

`get_next_thread` goes round the threads, so the `k`-th connection that `do_accept` hands to
a thread goes to thread `k` modulo their number, however slow that thread is.  Its queue is
in order, and so are the connections that the thread initialises.
-/

namespace EasyReactor.Acceptor

open EasyReactor.Foundation EasyReactor.Loop EasyReactor.Thread

/-! ## Turns -/

/-- Among the first `m` turns of `n` threads, no thread has two more than another. -/
theorem count_turns_le {n i j : Nat} (hi : i < n) (hj : j < n) (m : Nat) :
    ((List.range m).map (· % n)).count i ≤ ((List.range m).map (· % n)).count j + 1 := by
  have hcount : ∀ k, k < n → ((List.range m).map (· % n)).count k =
      m / n + if k < m % n then 1 else 0 := by
    intro k hk
    have hnat : m.count (· ≡ k [MOD n]) = ((List.range m).map (· % n)).count k := by
      induction m with
      | zero => rfl
      | succ m ih =>
        rw [Nat.count_succ, ih, List.range_succ, List.map_append, List.count_append,
          List.map_singleton, List.count_singleton, beq_eq_decide]
        simp only [Nat.ModEq, Nat.mod_eq_of_lt hk, decide_eq_true_eq]
    rw [← hnat, Nat.count_modEq_card _ (Nat.lt_of_le_of_lt (Nat.zero_le k) hk) k,
      Nat.mod_eq_of_lt hk]
  rw [hcount i hi, hcount j hj]
  split <;> split <;> omega

/-- The turn after turn `k`. -/
theorem next_turn {n k : Nat} (hn : n ≠ 0) :
    (if k % n + 1 = n then 0 else k % n + 1) = (k + 1) % n := by
  have hlt := Nat.mod_lt k (Nat.pos_of_ne_zero hn)
  have hstep : (k + 1) % n = (k % n + 1) % n := (Nat.mod_add_mod k n 1).symm
  rw [hstep]
  split
  next hlast => rw [hlast, Nat.mod_self]
  next hmore => exact (Nat.mod_eq_of_lt (by omega)).symm

/-! ## The history of a run -/

namespace Server

/-- What a step hands to a thread: the thread and the connection. -/
def deals (s : Server) : Event → List (Nat × Nat)
  | .acceptor _ =>
    match s.pc with
    | .handing connfd => if s.threadCnt = 0 then [] else [(s.nextThread, connfd)]
    | _ => []
  | _ => []

/-- The connection that worker `i` initialises in a step. -/
def inits (s : Server) (i : Nat) : Event → List Nat
  | .handleMsg k =>
    if k = i then
      match s.workers[k]? with
      | none => []
      | some w => w.msgs.take 1
    else []
  | _ => []

/-- The connections that worker `i` has still to initialise. -/
def pendingAt (s : Server) (i : Nat) : List Nat :=
  match s.workers[i]? with
  | none => []
  | some w => w.pending

end Server

/-- A server, the connections handed to threads, and those that each has initialised. -/
structure Dealing where
  server : Server
  dealt : List (Nat × Nat)
  inited : Nat → List Nat

namespace Dealing

def start (limit : Nat) (isOpen : Nat → Bool) (threadCnt : Nat) (maxConns : Int32) : Dealing :=
  ⟨.start limit isOpen threadCnt maxConns, [], fun _ => []⟩

def step (d : Dealing) (e : Event) : Except Fault Dealing := do
  let s ← d.server.step e
  .ok ⟨s, d.dealt ++ d.server.deals e, fun i => d.inited i ++ d.server.inits i e⟩

def run (limit : Nat) (isOpen : Nat → Bool) (threadCnt : Nat) (maxConns : Int32)
    (evs : List Event) : Except Fault Dealing :=
  evs.foldlM step (start limit isOpen threadCnt maxConns)

end Dealing

/-! ## One step -/

namespace Server

variable {s s' : Server}

theorem pendingAt_set {i : Nat} {w w' : Worker} (hw : s.workers[i]? = some w)
    (hs' : s'.workers = s.workers.set i w') (j : Nat) :
    s'.pendingAt j = if j = i then w'.pending else s.pendingAt j := by
  have hlt := (List.getElem?_eq_some_iff.mp hw).1
  unfold pendingAt
  rw [hs']
  by_cases hj : j = i
  · subst hj
    rw [List.getElem?_set_self hlt, if_pos rfl]
  · rw [List.getElem?_set_ne (Ne.symm hj), if_neg hj]

/-- A step that moves no message. -/
theorem pendingAt_keep {i : Nat} {w w' : Worker} (hw : s.workers[i]? = some w)
    (hs' : s'.workers = s.workers.set i w') (hpend : w'.pending = w.pending) (j : Nat) :
    s'.pendingAt j = s.pendingAt j := by
  rw [pendingAt_set hw hs', hpend]
  split
  next hj =>
    subst hj
    rw [pendingAt, hw]
  next => rfl

/-- What a step of the acceptor's thread leaves of the turns: all, or it is one. -/
structure Idles (s s' : Server) (e : Event) : Prop where
  deals : s.deals e = []
  threadCnt : s'.threadCnt = s.threadCnt
  currIndex : s'.currIndex = s.currIndex
  pending : ∀ j, s'.pendingAt j = s.pendingAt j

theorem acceptor_idles {sys : AcceptorSys} (h : s.acceptor sys = .ok s')
    (hpc : ∀ n, s.pc ≠ .handing n) : Idles s s' (.acceptor sys) := by
  have hdeals : s.deals (.acceptor sys) = [] := by
    cases hc : s.pc with
    | handing n => exact absurd hc (hpc n)
    | _ => simp only [deals, hc]
  cases acceptor_turn h with
  | hand hc _ => exact absurd hc (hpc _)
  | @thread i n fds _ _ =>
    refine ⟨hdeals, rfl, rfl, fun j => ?_⟩
    unfold pendingAt
    rcases Nat.lt_trichotomy j s.workers.length with hlt | rfl | hgt
    · rw [List.getElem?_append_left hlt]
    · rw [List.getElem?_append_right (Nat.le_refl _), Nat.sub_self, List.getElem?_eq_none
        (Nat.le_refl _)]
      rfl
    · have hlen : (s.workers ++ [(⟨.new n, 2, []⟩ : Worker)]).length ≤ j := by
        rw [List.length_append, List.length_singleton]
        exact hgt
      rw [List.getElem?_eq_none hlen, List.getElem?_eq_none (Nat.le_of_lt hgt)]
  | openReserve _ | reopening _ =>
    rcases openReserve_cases s sys.opens with ⟨n, fds, _, hs⟩ | hs
    · rw [hs]
      exact ⟨hdeals, rfl, rfl, fun _ => rfl⟩
    · rw [hs]
      exact ⟨hdeals, rfl, rfl, fun _ => rfl⟩
  | _ => exact ⟨hdeals, rfl, rfl, fun _ => rfl⟩

/-- A step of another thread, but for the message it handles. -/
theorem step_pending {e : Event} (he : e.byAcceptor = false) (h : s.step e = .ok s') (j : Nat) :
    s.inits j e ++ s'.pendingAt j = s.pendingAt j := by
  cases e with
  | acceptor sys => cases he
  | startWorker i =>
    rcases startWorker_cases h with rfl | ⟨w, w', n, fds, hw, hpend, _, rfl⟩
    · rfl
    · exact pendingAt_keep hw rfl hpend j
  | recvMsg i =>
    rcases recvMsg_cases h with rfl | ⟨w, w', hw, hpend, rfl⟩
    · rfl
    · exact pendingAt_keep hw rfl hpend j
  | handleMsg i =>
    simp only [Server.step, Server.work] at h
    cases hw : s.workers[i]? with
    | none =>
      rw [hw] at h
      obtain rfl := Except.ok.inj h
      simp [inits, hw]
    | some w =>
      rw [hw] at h
      cases hmsgs : w.msgs with
      | nil =>
        simp only [hmsgs] at h
        obtain rfl := Except.ok.inj h
        simp [inits, hw, hmsgs]
      | cons connfd msgs =>
        simp only [hmsgs] at h
        obtain ⟨-, rfl⟩ := initConn_eq_ok h
        rw [pendingAt_set hw rfl]
        by_cases hj : j = i
        · subst hj
          simp [inits, pendingAt, hw, hmsgs, Worker.pending]
        · simp [inits, hj, Ne.symm hj]
  | doAccept =>
    simp only [Server.step] at h
    split at h
    · obtain rfl := Except.ok.inj h
      rfl
    · obtain rfl := Except.ok.inj h
      rfl
  | decConn fd =>
    simp only [Server.step] at h
    split at h
    · obtain rfl := Except.ok.inj h
      rfl
    · obtain rfl := Except.ok.inj h
      rfl
  | closeConn fd =>
    simp only [Server.step] at h
    split at h
    · obtain rfl := Except.ok.inj h
      rfl
    · obtain rfl := Except.ok.inj h
      rfl

/-- Without threads the acceptor's own thread initialises the connection. -/
theorem initConn_idles {connfd : Nat} {sys : AcceptorSys} (hpc : s.pc = .handing connfd)
    (hcnt : s.threadCnt = 0) (h : s.acceptor sys = .ok s') : Idles s s' (.acceptor sys) := by
  have hdeals : s.deals (.acceptor sys) = [] := by
    simp only [deals, hpc, if_pos hcnt]
  obtain ⟨s₁, hhand, rfl⟩ := acceptor_handing hpc h
  rw [handOver, if_pos hcnt] at hhand
  obtain ⟨-, rfl⟩ := initConn_eq_ok hhand
  exact ⟨hdeals, rfl, rfl, fun _ => rfl⟩

/-- A connection goes to the next thread, behind those that wait there. -/
theorem handOver_deals {connfd : Nat} {sys : AcceptorSys} (hpc : s.pc = .handing connfd)
    (hcnt : s.threadCnt ≠ 0) (h : s.acceptor sys = .ok s') :
    s.deals (.acceptor sys) = [(s.nextThread, connfd)] ∧ s'.threadCnt = s.threadCnt ∧
      s'.currIndex = s.nextThread + 1 ∧
      ∀ j, s'.pendingAt j =
        s.pendingAt j ++ if j = s.nextThread then [connfd] else [] := by
  have hdeals : s.deals (.acceptor sys) = [(s.nextThread, connfd)] := by
    simp only [deals, hpc, if_neg hcnt]
  obtain ⟨s₁, hhand, rfl⟩ := acceptor_handing hpc h
  unfold handOver at hhand
  rw [if_neg hcnt] at hhand
  cases hw : s.workers[s.nextThread]? with
  | none =>
    rw [hw] at hhand
    cases hhand
  | some w =>
    rw [hw] at hhand
    obtain rfl := Except.ok.inj hhand
    refine ⟨hdeals, rfl, rfl, fun j => ?_⟩
    rw [pendingAt_set hw rfl]
    by_cases hj : j = s.nextThread
    · subst hj
      rw [if_pos rfl, if_pos rfl, pendingAt, hw]
      exact (List.append_assoc ..).symm
    · rw [if_neg hj, if_neg hj, List.append_nil]

end Server

/-! ## Every run -/

namespace Dealing

open EasyReactor.Acceptor.Server

/-- The turns so far, and where the connections are. -/
structure InTurn (threadCnt : Nat) (d : Dealing) : Prop where
  threads : d.server.threadCnt = threadCnt
  staff : Staffed d.server
  next : threadCnt ≠ 0 → d.server.nextThread = d.dealt.length % threadCnt
  turns : d.dealt.map Prod.fst = (List.range d.dealt.length).map (· % threadCnt)
  kept : ∀ i, d.inited i ++ d.server.pendingAt i =
    (d.dealt.filter fun x => x.1 = i).map Prod.snd

variable {threadCnt : Nat} {d d' : Dealing}

/-- A step that hands nothing over, and may initialise a connection that waits. -/
theorem InTurn.keep (h : InTurn threadCnt d) {e : Event} {s' : Server}
    (hstep : d.server.step e = .ok s') (hdeals : d.server.deals e = [])
    (hcnt : s'.threadCnt = d.server.threadCnt) (hindex : s'.currIndex = d.server.currIndex)
    (hpending : ∀ i, d.server.inits i e ++ s'.pendingAt i = d.server.pendingAt i) :
    InTurn threadCnt
      ⟨s', d.dealt ++ d.server.deals e, fun i => d.inited i ++ d.server.inits i e⟩ := by
  rw [hdeals, List.append_nil]
  refine ⟨hcnt.trans h.threads, h.staff.step hstep, fun h0 => ?_, h.turns, fun i => ?_⟩
  · rw [← h.next h0]
    unfold nextThread
    rw [hcnt, hindex]
  · rw [List.append_assoc, hpending i]
    exact h.kept i

theorem InTurn.hand (h : InTurn threadCnt d) {connfd : Nat} (hpc : d.server.pc = .handing connfd)
    (h0 : threadCnt ≠ 0) {sys : AcceptorSys} {s' : Server}
    (hstep : d.server.step (.acceptor sys) = .ok s') :
    InTurn threadCnt
      ⟨s', d.dealt ++ d.server.deals (.acceptor sys),
        fun i => d.inited i ++ d.server.inits i (.acceptor sys)⟩ := by
  have hcnt : d.server.threadCnt ≠ 0 := h.threads ▸ h0
  obtain ⟨hdeals, hsame, hindex, hpending⟩ := handOver_deals hpc hcnt hstep
  rw [hdeals, h.next h0] at *
  refine ⟨hsame.trans h.threads, h.staff.step hstep, fun _ => ?_, ?_, fun i => ?_⟩
  · show Server.nextThread s' = (d.dealt ++ [_]).length % threadCnt
    unfold nextThread
    rw [hindex, hsame, h.threads, next_turn h0, List.length_append, List.length_singleton]
  · rw [List.map_append, h.turns, List.length_append, List.length_singleton, List.range_succ,
      List.map_append]
    rfl
  · show d.inited i ++ [] ++ s'.pendingAt i = _
    rw [List.append_nil, hpending i, ← List.append_assoc, h.kept i, List.filter_append,
      List.map_append]
    by_cases hi : i = d.dealt.length % threadCnt
    · simp [hi]
    · simp [hi, Ne.symm hi]

theorem InTurn.step (h : InTurn threadCnt d) {e : Event} (hstep : d.step e = .ok d') :
    InTurn threadCnt d' := by
  obtain ⟨s', hs', hd'⟩ := bind_eq_ok.mp hstep
  obtain rfl := Except.ok.inj hd'
  cases he : e.byAcceptor with
  | false =>
    have hsame := step_sameServer he hs'
    have hdeals : d.server.deals e = [] := by
      cases e with
      | acceptor sys => cases he
      | _ => rfl
    exact h.keep hs' hdeals hsame.threadCnt hsame.currIndex fun i => step_pending he hs' i
  | true =>
    obtain ⟨sys, rfl⟩ := byAcceptor_eq he
    by_cases hpc : ∃ n, d.server.pc = .handing n
    · obtain ⟨n, hpc⟩ := hpc
      by_cases h0 : threadCnt = 0
      · obtain ⟨hdeals, hcnt, hindex, hpending⟩ := initConn_idles hpc (h.threads.trans h0) hs'
        exact h.keep hs' hdeals hcnt hindex fun i => hpending i
      · exact h.hand hpc h0 hs'
    · have hidle := acceptor_idles hs' fun n hn => hpc ⟨n, hn⟩
      exact h.keep hs' hidle.deals hidle.threadCnt hidle.currIndex fun i => hidle.pending i

/-- The record of a run: it is kept whenever the run goes on. -/
theorem run_inTurn (limit : Nat) (isOpen : Nat → Bool) (maxConns : Int32) (evs : List Event)
    {s : Server} (hrun : Server.run limit isOpen threadCnt maxConns evs = .ok s) :
    ∃ d, run limit isOpen threadCnt maxConns evs = .ok d ∧ d.server = s ∧
      InTurn threadCnt d := by
  have hstart : InTurn threadCnt (start limit isOpen threadCnt maxConns) :=
    ⟨rfl, ⟨rfl, Nat.zero_le _⟩, fun _ => (ite_self _).trans (Nat.zero_mod _).symm, rfl,
      fun _ => rfl⟩
  unfold run
  unfold Server.run at hrun
  change evs.foldlM Server.step (start limit isOpen threadCnt maxConns).server = .ok s at hrun
  generalize start limit isOpen threadCnt maxConns = d at hstart hrun ⊢
  induction evs generalizing d with
  | nil => exact ⟨d, rfl, Except.ok.inj hrun, hstart⟩
  | cons e evs ih =>
    rw [List.foldlM_cons] at hrun ⊢
    obtain ⟨s₁, hs₁, hrest⟩ := bind_eq_ok.mp hrun
    have hstep : d.step e =
        .ok ⟨s₁, d.dealt ++ d.server.deals e, fun i => d.inited i ++ d.server.inits i e⟩ := by
      rw [step, hs₁]
      rfl
    rw [hstep]
    exact ih _ (hstart.step hstep) hrest

/-- The connections dealt to thread `i`, in order. -/
def dealtTo (d : Dealing) (i : Nat) : List Nat :=
  (d.dealt.filter fun x => x.1 = i).map Prod.snd

theorem length_dealtTo (d : Dealing) (i : Nat) :
    (d.dealtTo i).length = (d.dealt.map Prod.fst).count i := by
  rw [dealtTo, List.length_map, List.count_eq_countP, List.countP_map, List.countP_eq_length_filter]
  rfl

/-- **Connections are dealt in turn.**  In every run, however the threads take turns and
whatever fails: the `k`-th connection that is handed to a thread goes to thread `k` modulo
their number; a thread initialises the connections it was given, each once and in the order
in which they were accepted, and those it has not reached wait, in that order, in its queue;
and no thread has been given two connections more than another. -/
theorem connections_dealt_in_turn (limit : Nat) (isOpen : Nat → Bool) (maxConns : Int32)
    (evs : List Event) {s : Server}
    (hrun : Server.run limit isOpen threadCnt maxConns evs = .ok s) :
    ∃ d, run limit isOpen threadCnt maxConns evs = .ok d ∧ d.server = s ∧
      d.dealt.map Prod.fst = (List.range d.dealt.length).map (· % threadCnt) ∧
      (∀ i, d.inited i ++ s.pendingAt i = d.dealtTo i) ∧
      ∀ i j, i < threadCnt → j < threadCnt →
        (d.dealtTo i).length ≤ (d.dealtTo j).length + 1 := by
  obtain ⟨d, hd, rfl, hturn⟩ := run_inTurn limit isOpen maxConns evs hrun
  refine ⟨d, hd, rfl, hturn.turns, hturn.kept, fun i j hi hj => ?_⟩
  rw [length_dealtTo, length_dealtTo, hturn.turns]
  exact count_turns_le hi hj _

/-- The constructor with two threads, one of which starts, and three connections, of which
that thread initialises one. -/
def twoThreads : List Event :=
  List.replicate 4 (.acceptor ⟨.eagain, true⟩) ++ [.startWorker 1, .startWorker 1] ++
    List.replicate 2 (.acceptor ⟨.eagain, true⟩) ++ [.doAccept] ++
    List.replicate 9 (.acceptor ⟨.connection, true⟩) ++ [.recvMsg 1, .handleMsg 1]

theorem twoThreads_runs : ∃ s, Server.run 20 (· < 3) 2 5 twoThreads = .ok s ∧
    (s.workers.map Worker.pending, s.counted) = ([[9, 11], []], [10]) :=
  ok_of_observed (by decide +kernel)

theorem connections_dealt_in_turn_twoThreads :
    ∃ s, Server.run 20 (· < 3) 2 5 twoThreads = .ok s ∧
      ∃ d, run 20 (· < 3) 2 5 twoThreads = .ok d ∧ d.server = s ∧
        d.dealt.map Prod.fst = (List.range d.dealt.length).map (· % 2) ∧
        (∀ i, d.inited i ++ s.pendingAt i = d.dealtTo i) ∧
        ∀ i j, i < 2 → j < 2 → (d.dealtTo i).length ≤ (d.dealtTo j).length + 1 := by
  obtain ⟨s, hrun, -⟩ := twoThreads_runs
  exact ⟨s, hrun, connections_dealt_in_turn 20 (· < 3) 5 twoThreads hrun⟩

end Dealing

end EasyReactor.Acceptor
