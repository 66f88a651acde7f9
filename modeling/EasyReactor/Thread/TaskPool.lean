import EasyReactor.Thread.Queue
import EasyReactor.Loop.PendingTasks

set_option autoImplicit false

/-!
# Thread: tasks posted to a pool

A task posted to a worker is a message in its queue, then an item of the pending list
of its loop, and is run at the end of a turn of `process_evs`.  The steps below are
those between which another thread may run: a `send_msg`, a `recv_msg`, and whatever a
worker does with its own messages and its own pending list.

`thread_pool::run_task(task, args)` posts to every worker through the overload that
takes an index, and does not pass `args` on: the default argument `NULL` goes instead.
-/

namespace EasyReactor.Loop.Task

variable {κ δ : Type}

/-- The `std::pair` in `_pendingFactors`. -/
def item : Task κ δ → κ × δ
  | mk func args _ => (func, args)

end EasyReactor.Loop.Task

namespace EasyReactor.Thread

open EasyReactor.Foundation EasyReactor.Loop EasyReactor.Wire

/-- `queue_msg`: `cmd_type`, and what the union holds for it. -/
inductive QueueMsg (κ : Type) where
  | newConn (connfd : Int)
  | stopThd
  | newTask (task : κ) (args : Ptr)

def QueueMsg.task? {κ : Type} : QueueMsg κ → Option (κ × Ptr)
  | newTask task args => some (task, args)
  | _ => none

/-- Where a worker's thread is in `process_evs`. -/
inductive WorkerPc where
  /-- in `epoll_wait`, or in a callback that has nothing to do with tasks -/
  | polling
  /-- in the `while` loop of `msg_comming_cb` -/
  | handling
  /-- in the `for` loop of `run_task` -/
  | running (it : Vec.Iter)

/-- A worker thread: its `thread_queue`, `msgs` of `msg_comming_cb`, and its loop. -/
structure PoolWorker (κ ι : Type) where
  queue : ThreadQueue (QueueMsg κ) ι
  msgs : List (QueueMsg κ)
  tasks : TaskLoop κ Ptr
  pc : WorkerPc

/-- The next thing a worker's thread does. -/
inductive WorkerStep (ι : Type) where
  /-- `set_loop`, when the thread starts -/
  | setLoop (loop : EventLoop ι) (proc : ι) (args : Ptr)
  /-- `epoll_wait` reports the eventfd: `msg_comming_cb` begins with `recv_msg` -/
  | recvMsg
  /-- the next turn of the `while` loop of `msg_comming_cb` -/
  | takeMsg
  /-- `process_evs` calls `run_task` -/
  | runTask
  /-- the next turn of the `for` loop of `run_task`, or its `clear` -/
  | taskTurn

namespace PoolWorker

variable {κ ι : Type} (g : Growth)

/-- A worker whose queue has the eventfd `evfd`; `_pendingFactors` is an empty vector. -/
def start (evfd : Int) : PoolWorker κ ι :=
  ⟨.new evfd, [], .start ⟨[], 0, 0, Nat.le_refl 0⟩, .polling⟩

/-- What `msg_comming_cb` does with a message, as far as tasks go. -/
def handle (w : PoolWorker κ ι) : QueueMsg κ → PoolWorker κ ι
  | .newTask task args => { w with tasks := w.tasks.addTask g (.mk task args []) }
  | _ => w

/-- A step that cannot be the next one leaves the worker as it is. -/
def step (w : PoolWorker κ ι) : WorkerStep ι → Except Fault (PoolWorker κ ι)
  | .setLoop loop proc args => .ok { w with queue := w.queue.setLoop loop proc args }
  | .recvMsg =>
    match w.pc with
    | .polling =>
      if w.queue.loop.isSome ∧ 0 < w.queue.counter then
        let (tmpQueue, queue) := w.queue.recvMsg []
        .ok { w with queue := queue, msgs := tmpQueue, pc := .handling }
      else .ok w
    | _ => .ok w
  | .takeMsg =>
    match w.pc, w.msgs with
    | .handling, [] => .ok { w with pc := .polling }
    | .handling, msg :: rest => .ok ({ w with msgs := rest }.handle g msg)
    | _, _ => .ok w
  | .runTask =>
    match w.pc with
    | .polling => .ok { w with pc := .running w.tasks.pendingFactors.first }
    | _ => .ok w
  | .taskTurn =>
    match w.pc with
    | .running it => do
      match ← w.tasks.runTaskTurn g it with
      | none =>
        .ok
          { w with
            tasks := { w.tasks with pendingFactors := w.tasks.pendingFactors.clear }
            pc := .polling }
      | some (tasks, it) => .ok { w with tasks := tasks, pc := .running it }
    | _ => .ok w

/-- What the worker has run, each function with its argument. -/
def executed (w : PoolWorker κ ι) : List (κ × Ptr) := w.tasks.executed.map Task.item

/-- The index of the first pending task that has not been run. -/
def nextTask (w : PoolWorker κ ι) : Nat :=
  match w.pc with
  | .running it => it.index
  | _ => 0

/-- What is on its way to be run: pending, received, and in the queue. -/
def waiting (w : PoolWorker κ ι) : List (κ × Ptr) :=
  (w.tasks.pendingFactors.items.drop w.nextTask).map Task.item ++
    (w.msgs ++ w.queue.queue).filterMap QueueMsg.task?

end PoolWorker

/-- A `thread_pool` of `n` threads.  `posted` is what `run_task` was asked to post. -/
structure TaskPool (κ ι : Type) (n : Nat) where
  workers : Fin n → PoolWorker κ ι
  /-- the threads that are in the broadcast `run_task`: `i`, `task` and `args` there -/
  broadcasts : Nat → Option (Nat × κ × Ptr)
  posted : Fin n → List (κ × Ptr)

/-- A step of one of the threads. -/
inductive PoolEvent (κ ι : Type) (n : Nat) where
  /-- any thread calls `run_task(thd_index, task, args)` -/
  | runTask (thdIndex : Fin n) (task : κ) (args : Ptr)
  /-- thread `poster` calls `run_task(task, args)` -/
  | broadcast (poster : Nat) (task : κ) (args : Ptr)
  /-- the next turn of its `for` loop -/
  | broadcastTurn (poster : Nat)
  /-- the acceptor hands a connection to a worker -/
  | newConn (thdIndex : Fin n) (connfd : Int)
  | worker (i : Fin n) (ws : WorkerStep ι)

namespace TaskPool

variable {κ ι : Type} {n : Nat} (g : Growth)

def start (evfds : Fin n → Int) : TaskPool κ ι n :=
  ⟨fun i => .start (evfds i), fun _ => none, fun _ => []⟩

/-- `cq->send_msg(msg)` -/
def send (s : TaskPool κ ι n) (i : Fin n) (msg : QueueMsg κ) : TaskPool κ ι n :=
  let w := s.workers i
  { s with workers := Function.update s.workers i { w with queue := w.queue.sendMsg msg } }

/-- `thread_pool::run_task(int, pendingFunc, void*)` -/
def runTask (s : TaskPool κ ι n) (thdIndex : Fin n) (task : κ) (args : Ptr) : TaskPool κ ι n :=
  s.send thdIndex (.newTask task args)

/-- The history: `item` is posted to worker `i`. -/
def post (s : TaskPool κ ι n) (i : Fin n) (item : κ × Ptr) : TaskPool κ ι n :=
  { s with posted := Function.update s.posted i (s.posted i ++ [item]) }

/-- A turn of the `for` loop of `thread_pool::run_task(pendingFunc, void*)`. -/
def broadcastTurn (s : TaskPool κ ι n) (poster : Nat) : TaskPool κ ι n :=
  match s.broadcasts poster with
  | none => s
  | some (i, task, args) =>
    if h : i < n then
      -- `run_task(i, task)`
      let s := (s.runTask ⟨i, h⟩ task none).post ⟨i, h⟩ (task, args)
      { s with broadcasts := Function.update s.broadcasts poster (some (i + 1, task, args)) }
    else { s with broadcasts := Function.update s.broadcasts poster none }

def step (s : TaskPool κ ι n) : PoolEvent κ ι n → Except Fault (TaskPool κ ι n)
  | .runTask i task args => .ok ((s.runTask i task args).post i (task, args))
  | .broadcast poster task args =>
    match s.broadcasts poster with
    | none =>
      .ok { s with broadcasts := Function.update s.broadcasts poster (some (0, task, args)) }
    | some _ => .ok s
  | .broadcastTurn poster => .ok (s.broadcastTurn poster)
  | .newConn i connfd => .ok (s.send i (.newConn connfd))
  | .worker i ws => do
    let w ← (s.workers i).step g ws
    .ok { s with workers := Function.update s.workers i w }

end TaskPool

/-! ## A worker loses nothing -/

namespace PoolWorker

variable {κ ι : Type} {g : Growth}

/-- What a worker has run, and what it will run. -/
def flow (w : PoolWorker κ ι) : List (κ × Ptr) := w.executed ++ w.waiting

/-- The iterator of `run_task`, or the one it would begin with. -/
def iter (w : PoolWorker κ ι) : Vec.Iter :=
  match w.pc with
  | .running it => it
  | _ => w.tasks.pendingFactors.first

/-- What holds of a worker between its steps. -/
structure Working (w : PoolWorker κ ι) : Prop where
  walks : w.tasks.Walks w.iter
  leaves : ∀ t ∈ w.tasks.pendingFactors.items, t.adds = []
  noMsgs : w.pc ≠ .handling → w.msgs = []
  notified : w.queue.Notified

theorem start_working (evfd : Int) : Working (start evfd : PoolWorker κ ι) where
  walks := ⟨rfl, Nat.le_refl 0, rfl⟩
  leaves t ht := by cases ht
  noMsgs _ := rfl
  notified := ThreadQueue.new_notified evfd

/-- A task that adds nothing leaves the pending list alone. -/
theorem call_leaf {l : TaskLoop κ Ptr} {t : Task κ Ptr} (ht : t.adds = []) :
    l.call g t = { l with executed := l.executed ++ [t] } := by
  rw [TaskLoop.call_eq, ht]
  simp [Vec.pushAll]

/-- The worker after a `send_msg`. -/
theorem sendMsg_working {w : PoolWorker κ ι} (h : Working w) (msg : QueueMsg κ) :
    Working { w with queue := w.queue.sendMsg msg } :=
  ⟨h.walks, h.leaves, h.noMsgs, h.notified.sendMsg msg⟩

theorem sendMsg_flow (w : PoolWorker κ ι) (msg : QueueMsg κ) :
    flow { w with queue := w.queue.sendMsg msg } = w.flow ++ msg.task?.toList := by
  have hqueue : (w.msgs ++ (w.queue.queue ++ [msg])).filterMap QueueMsg.task? =
      (w.msgs ++ w.queue.queue).filterMap QueueMsg.task? ++ msg.task?.toList := by
    rw [← List.append_assoc, List.filterMap_append]
    cases h : msg.task? <;> simp [h]
  show w.executed ++ (_ ++ (w.msgs ++ (w.queue.queue ++ [msg])).filterMap QueueMsg.task?) = _
  rw [hqueue, flow, waiting, List.append_assoc, List.append_assoc]
  rfl

/-- A message that is handled becomes the last pending task, or is no task. -/
theorem handle_spec {w : PoolWorker κ ι} (h : Working w) (hpc : w.pc = .handling)
    {msg : QueueMsg κ} {rest : List (QueueMsg κ)} (hmsgs : w.msgs = msg :: rest) :
    Working ({ w with msgs := rest, pc := .handling }.handle g msg) ∧
      ({ w with msgs := rest, pc := .handling }.handle g msg).flow = w.flow := by
  have hwalks := h.walks
  rw [iter, hpc] at hwalks
  have hother : msg.task? = none →
      Working { w with msgs := rest, pc := .handling } ∧
        flow { w with msgs := rest, pc := .handling } = w.flow := by
    intro hnone
    refine ⟨⟨hwalks, h.leaves, fun hne => absurd rfl hne, h.notified⟩, ?_⟩
    simp [flow, executed, waiting, nextTask, hpc, hmsgs, hnone]
  cases msg with
  | newConn connfd => exact hother rfl
  | stopThd => exact hother rfl
  | newTask task args =>
    constructor
    · refine ⟨TaskLoop.walks_first (TaskLoop.addTask_runOnce hwalks.order _), fun t ht => ?_,
        fun hne => absurd rfl hne, h.notified⟩
      rw [handle, TaskLoop.addTask, Vec.pushBack_items] at ht
      rcases List.mem_append.mp ht with hold | hnew
      · exact h.leaves t hold
      · rw [List.mem_singleton.mp hnew]
        rfl
    · have htask : (QueueMsg.newTask task args).task? = some (task, args) := rfl
      simp [flow, executed, waiting, nextTask, handle, TaskLoop.addTask, Vec.pushBack_items, hpc,
        hmsgs, htask, Task.item]

/-- A turn of `run_task`: the next task is run, or all have been and the list is cleared. -/
theorem taskTurn_spec {w : PoolWorker κ ι} (h : Working w) {it : Vec.Iter}
    (hpc : w.pc = .running it) :
    (it.index = w.tasks.pendingFactors.items.length ∧
      w.step g .taskTurn = .ok
        { w with
          tasks := { w.tasks with pendingFactors := w.tasks.pendingFactors.clear }
          pc := .polling }) ∨
    ∃ t rest, w.tasks.pendingFactors.items.drop it.index = t :: rest ∧
      w.step g .taskTurn = .ok
        { w with
          tasks := { w.tasks with executed := w.tasks.executed ++ [t] }
          pc := .running it.next } := by
  have hiter : w.iter = it := by
    unfold iter
    rw [hpc]
  have hwalks := h.walks
  rw [hiter] at hwalks
  have hread : w.tasks.pendingFactors.read it = some w.tasks.pendingFactors.items[it.index]? :=
    if_pos ⟨hwalks.valid, hwalks.inside⟩
  have hstep : w.step g .taskTurn = (do
      match ← w.tasks.runTaskTurn g it with
      | none =>
        .ok
          { w with
            tasks := { w.tasks with pendingFactors := w.tasks.pendingFactors.clear }
            pc := .polling }
      | some (tasks, it) => .ok { w with tasks := tasks, pc := .running it }) := by
    rw [step, hpc]
  rcases Nat.lt_or_eq_of_le hwalks.inside with hlt | heq
  · refine .inr ⟨_, _, List.drop_eq_getElem_cons hlt, ?_⟩
    have hleaf := h.leaves _ (List.getElem_mem hlt)
    rw [hstep, TaskLoop.runTaskTurn, hread, List.getElem?_eq_getElem hlt]
    dsimp only
    rw [ok_bind, call_leaf hleaf]
  · refine .inl ⟨heq, ?_⟩
    rw [hstep, TaskLoop.runTaskTurn, hread, List.getElem?_eq_none (Nat.le_of_eq heq.symm)]
    rfl

theorem taskTurn_working {w : PoolWorker κ ι} (h : Working w) {it : Vec.Iter}
    (hpc : w.pc = .running it) :
    ∃ w', w.step g .taskTurn = .ok w' ∧ Working w' ∧ w'.flow = w.flow := by
  have hiter : w.iter = it := by
    unfold iter
    rw [hpc]
  have hwalks := h.walks
  rw [hiter] at hwalks
  have hmsgs : w.msgs = [] := h.noMsgs (by simp [hpc])
  rcases taskTurn_spec (g := g) h hpc with ⟨hend, hstep⟩ | ⟨t, rest, hdrop, hstep⟩
  · have hnil : w.tasks.pendingFactors.items.drop it.index = [] :=
      List.drop_eq_nil_of_le (Nat.le_of_eq hend.symm)
    refine ⟨_, hstep, ⟨⟨rfl, Nat.le_refl 0, ?_⟩, fun t ht => (by cases ht), fun _ => hmsgs,
      h.notified⟩, ?_⟩
    · have horder := hwalks.order
      rw [hnil] at horder
      exact horder
    · simp [flow, executed, waiting, nextTask, hpc, hnil, Vec.clear]
  · have hnext : w.tasks.pendingFactors.items.drop it.next.index = rest := by
      rw [Vec.Iter.next, ← List.drop_drop, hdrop]
      rfl
    refine ⟨_, hstep, ⟨⟨hwalks.valid, ?_, ?_⟩, h.leaves, fun _ => hmsgs, h.notified⟩, ?_⟩
    · have hlen := congrArg List.length hdrop
      rw [List.length_drop, List.length_cons] at hlen
      show it.index + 1 ≤ w.tasks.pendingFactors.items.length
      omega
    · show (w.tasks.executed ++ [t]) ++ w.tasks.pendingFactors.items.drop it.next.index = _
      rw [hnext, ← hwalks.order, hdrop, List.append_assoc]
      rfl
    · simp [flow, executed, waiting, nextTask, hpc, hdrop, hnext]

/-- A worker's own steps return and lose nothing. -/
theorem step_working {w : PoolWorker κ ι} (h : Working w) (ws : WorkerStep ι) :
    ∃ w', w.step g ws = .ok w' ∧ Working w' ∧ w'.flow = w.flow := by
  cases ws with
  | setLoop loop proc args =>
    exact ⟨_, rfl, ⟨h.walks, h.leaves, h.noMsgs, h.notified.setLoop loop proc args⟩, rfl⟩
  | recvMsg =>
    unfold step
    cases hpc : w.pc with
    | polling =>
      have hmsgs : w.msgs = [] := h.noMsgs (by simp [hpc])
      dsimp only
      split
      · refine ⟨_, rfl, ⟨?_, h.leaves, fun hne => absurd rfl hne, h.notified.recvMsg⟩, ?_⟩
        · simpa only [iter, hpc] using h.walks
        · simp [flow, executed, waiting, nextTask, hpc, hmsgs, ThreadQueue.recvMsg]
      · exact ⟨w, rfl, h, rfl⟩
    | handling => exact ⟨w, rfl, h, rfl⟩
    | running it => exact ⟨w, rfl, h, rfl⟩
  | takeMsg =>
    unfold step
    cases hpc : w.pc with
    | polling => exact ⟨w, rfl, h, rfl⟩
    | running it => exact ⟨w, rfl, h, rfl⟩
    | handling =>
      cases hmsgs : w.msgs with
      | nil =>
        refine ⟨_, rfl, ⟨?_, h.leaves, fun _ => rfl, h.notified⟩, ?_⟩
        · simpa only [iter, hpc] using h.walks
        · simp [flow, executed, waiting, nextTask, hpc, hmsgs]
      | cons msg rest => exact ⟨_, rfl, handle_spec h hpc hmsgs⟩
  | runTask =>
    unfold step
    cases hpc : w.pc with
    | polling =>
      have hmsgs : w.msgs = [] := h.noMsgs (by simp [hpc])
      refine ⟨_, rfl, ⟨?_, h.leaves, fun _ => hmsgs, h.notified⟩, ?_⟩
      · simpa only [iter, hpc] using h.walks
      · simp [flow, executed, waiting, nextTask, hpc, Vec.first]
    | handling => exact ⟨w, rfl, h, rfl⟩
    | running it => exact ⟨w, rfl, h, rfl⟩
  | taskTurn =>
    cases hpc : w.pc with
    | running it => exact taskTurn_working h hpc
    | polling => exact ⟨w, by rw [step, hpc], h, rfl⟩
    | handling => exact ⟨w, by rw [step, hpc], h, rfl⟩

/-! ## A worker gets everything done -/

variable (g) in
/-- Steps of its own take a worker from `w` to `w'`. -/
def Reaches (w w' : PoolWorker κ ι) : Prop :=
  ∃ steps : List (WorkerStep ι), steps.foldlM (step g) w = .ok w'

theorem Reaches.refl (w : PoolWorker κ ι) : Reaches g w w := ⟨[], rfl⟩

theorem Reaches.cons {w w₁ w' : PoolWorker κ ι} {ws : WorkerStep ι} (h : w.step g ws = .ok w₁)
    (hrest : Reaches g w₁ w') : Reaches g w w' := by
  obtain ⟨steps, hsteps⟩ := hrest
  exact ⟨ws :: steps, by rw [List.foldlM_cons, h, ok_bind, hsteps]⟩

theorem Reaches.trans {w w₁ w' : PoolWorker κ ι} (h : Reaches g w w₁) (h' : Reaches g w₁ w') :
    Reaches g w w' := by
  obtain ⟨steps, hsteps⟩ := h
  obtain ⟨steps', hsteps'⟩ := h'
  exact ⟨steps ++ steps', by rw [List.foldlM_append, hsteps, ok_bind, hsteps']⟩

/-- A run of the worker's own steps loses nothing. -/
theorem Reaches.working {w w' : PoolWorker κ ι} (h : Working w) (hreach : Reaches g w w') :
    Working w' ∧ w'.flow = w.flow := by
  obtain ⟨steps, hsteps⟩ := hreach
  refine foldlM_keeps (fun w' => Working w' ∧ w'.flow = w.flow) ?_ steps w w' ⟨h, rfl⟩ hsteps
  rintro w₁ ws w₂ ⟨hw₁, hflow⟩ hstep
  obtain ⟨w₃, hstep', hw₃, hflow₃⟩ := step_working (g := g) hw₁ ws
  obtain rfl := Except.ok.inj (hstep.symm.trans hstep')
  exact ⟨hw₃, hflow₃.trans hflow⟩

/-- `run_task` comes to its end. -/
theorem reaches_cleared : ∀ (m : Nat) {w : PoolWorker κ ι} {it : Vec.Iter}, Working w →
    w.pc = .running it → w.tasks.pendingFactors.items.length ≤ it.index + m →
    ∃ w', Reaches g w w' ∧ w'.pc = .polling ∧ w'.queue = w.queue ∧
      w'.tasks.pendingFactors.items = [] := by
  intro m
  induction m with
  | zero =>
    intro w it h hpc hlen
    rcases taskTurn_spec (g := g) h hpc with ⟨_, hstep⟩ | ⟨_, _, hdrop, _⟩
    · exact ⟨_, .cons hstep (.refl _), rfl, rfl, rfl⟩
    · rw [List.drop_eq_nil_of_le (by omega)] at hdrop
      cases hdrop
  | succ m ih =>
    intro w it h hpc hlen
    rcases taskTurn_spec (g := g) h hpc with ⟨_, hstep⟩ | ⟨t, rest, _, hstep⟩
    · exact ⟨_, .cons hstep (.refl _), rfl, rfl, rfl⟩
    · obtain ⟨w₁, hstep₁, hw₁, _⟩ := step_working (g := g) h .taskTurn
      obtain rfl := Except.ok.inj (hstep.symm.trans hstep₁)
      obtain ⟨w', hreach, hpc', hqueue, hnil⟩ := @ih _ it.next hw₁ rfl (by
        show w.tasks.pendingFactors.items.length ≤ it.index + 1 + m
        omega)
      exact ⟨w', .cons hstep hreach, hpc', hqueue, hnil⟩

/-- `msg_comming_cb` comes to its end. -/
theorem reaches_handled : ∀ (msgs : List (QueueMsg κ)) {w : PoolWorker κ ι},
    w.pc = .handling → w.msgs = msgs →
    ∃ w', Reaches g w w' ∧ w'.pc = .polling ∧ w'.queue = w.queue := by
  intro msgs
  induction msgs with
  | nil =>
    intro w hpc hmsgs
    have hstep : w.step g .takeMsg = .ok { w with pc := .polling } := by
      rw [step, hpc, hmsgs]
    exact ⟨_, .cons hstep (.refl _), rfl, rfl⟩
  | cons msg rest ih =>
    intro w hpc hmsgs
    have hstep : w.step g .takeMsg =
        .ok ({ w with msgs := rest, pc := .handling }.handle g msg) := by
      rw [step, hpc, hmsgs]
    have hkeeps : ∀ w : PoolWorker κ ι, (w.handle g msg).pc = w.pc ∧
        (w.handle g msg).msgs = w.msgs ∧ (w.handle g msg).queue = w.queue := by
      intro w
      cases msg <;> exact ⟨rfl, rfl, rfl⟩
    obtain ⟨hpc', hmsgs', hqueue'⟩ := hkeeps { w with msgs := rest, pc := .handling }
    obtain ⟨w', hreach, hpolling, hqueue⟩ := ih hpc' hmsgs'
    exact ⟨w', .cons hstep hreach, hpolling, hqueue.trans hqueue'⟩

/-- A worker that has its loop can, by itself, run all that it has been given. -/
theorem reaches_executed {w : PoolWorker κ ι} (h : Working w) (hloop : w.queue.loop.isSome) :
    ∃ w', Reaches g w w' ∧ w'.executed = w.flow := by
  -- first what the thread is in the middle of
  obtain ⟨w₁, hreach₁, hpc₁, hqueue₁⟩ :
      ∃ w₁, Reaches g w w₁ ∧ w₁.pc = .polling ∧ w₁.queue = w.queue := by
    cases hpc : w.pc with
    | polling => exact ⟨w, .refl w, hpc, rfl⟩
    | handling => exact reaches_handled w.msgs hpc rfl
    | running it =>
      obtain ⟨w₁, hreach, hpc₁, hqueue, _⟩ := reaches_cleared (g := g) _ h hpc (Nat.le_add_left _ _)
      exact ⟨w₁, hreach, hpc₁, hqueue⟩
  have hw₁ := (hreach₁.working h).1
  -- then the messages in the queue, if there are any
  obtain ⟨w₂, hreach₂, hpc₂, hqueue₂⟩ :
      ∃ w₂, Reaches g w₁ w₂ ∧ w₂.pc = .polling ∧ w₂.queue.queue = [] := by
    by_cases hempty : w₁.queue.queue = []
    · exact ⟨w₁, .refl w₁, hpc₁, hempty⟩
    · have hready : w₁.queue.loop.isSome ∧ 0 < w₁.queue.counter :=
        ⟨hqueue₁ ▸ hloop, hw₁.notified.counter.mpr hempty⟩
      have hstep : w₁.step g .recvMsg = .ok
          { w₁ with
            queue := (w₁.queue.recvMsg []).2
            msgs := (w₁.queue.recvMsg []).1
            pc := .handling } := by
        simp only [step, hpc₁, if_pos hready]
      obtain ⟨w₂, hreach, hpc₂, hqueue⟩ := reaches_handled (g := g) _
        (w := { w₁ with
          queue := (w₁.queue.recvMsg []).2
          msgs := (w₁.queue.recvMsg []).1
          pc := .handling }) rfl rfl
      exact ⟨w₂, .cons hstep hreach, hpc₂, by rw [hqueue]; rfl⟩
  have hw₂ := (hreach₂.working hw₁).1
  -- and then the pending tasks
  have hstep : w₂.step g .runTask = .ok { w₂ with pc := .running w₂.tasks.pendingFactors.first } := by
    rw [step, hpc₂]
  obtain ⟨w₃, hstep', hw₃, _⟩ := step_working (g := g) hw₂ .runTask
  obtain rfl := Except.ok.inj (hstep.symm.trans hstep')
  obtain ⟨w', hreach₃, hpc', hqueue₃, hnil⟩ :=
    reaches_cleared (g := g) _ hw₃ rfl (Nat.le_add_left _ _)
  have hreach : Reaches g w w' := (hreach₁.trans hreach₂).trans (.cons hstep hreach₃)
  obtain ⟨hw', hflow⟩ := hreach.working h
  refine ⟨w', hreach, ?_⟩
  have hmsgs : w'.msgs = [] := hw'.noMsgs (by simp [hpc'])
  have hwaiting : w'.waiting = [] := by
    rw [waiting, hnil, hmsgs, show w'.queue.queue = [] from hqueue₃ ▸ hqueue₂]
    simp
  rw [← hflow, flow, hwaiting, List.append_nil]

end PoolWorker

/-! ## Every interleaving -/

namespace TaskPool

variable {κ ι : Type} {n : Nat} {g : Growth}

def AllWorking (s : TaskPool κ ι n) : Prop := ∀ i, (s.workers i).Working

/-- What each worker has run and will run is what was posted to it. -/
def Delivers (s : TaskPool κ ι n) : Prop := ∀ i, (s.workers i).flow = s.posted i

/-- The message a broadcast sends next carries the argument the broadcast was given. -/
def SendsOwnArgs (s : TaskPool κ ι n) : PoolEvent κ ι n → Prop
  | .broadcastTurn poster =>
    ∀ i task args, s.broadcasts poster = some (i, task, args) → i < n → args = none
  | _ => True

/-- A step on one worker that keeps what it has to do. -/
theorem update_worker {s : TaskPool κ ι n} (h : AllWorking s) (i : Fin n) {w : PoolWorker κ ι}
    (hw : w.Working) (hflow : w.flow = (s.workers i).flow) :
    AllWorking { s with workers := Function.update s.workers i w } ∧
      (Delivers { s with workers := Function.update s.workers i w } ↔ Delivers s) := by
  constructor
  · intro j
    rcases eq_or_ne j i with rfl | hne
    · simpa using hw
    · simpa [hne] using h j
  · refine forall_congr' fun j => ?_
    rcases eq_or_ne j i with rfl | hne
    · simp [hflow]
    · simp [hne]

/-- A message with `args` for a task posted with `own`. -/
theorem post_spec {s : TaskPool κ ι n} (h : AllWorking s) (i : Fin n) (task : κ) (args own : Ptr) :
    AllWorking ((s.runTask i task args).post i (task, own)) ∧
      (Delivers ((s.runTask i task args).post i (task, own)) ↔ Delivers s ∧ own = args) := by
  have hworker : ((s.runTask i task args).post i (task, own)).workers i =
      { s.workers i with queue := (s.workers i).queue.sendMsg (.newTask task args) } := by
    simp [runTask, send, post]
  have hother : ∀ j, j ≠ i → ((s.runTask i task args).post i (task, own)).workers j = s.workers j ∧
      ((s.runTask i task args).post i (task, own)).posted j = s.posted j := by
    intro j hne
    simp [runTask, send, post, hne]
  have hposted : ((s.runTask i task args).post i (task, own)).posted i =
      s.posted i ++ [(task, own)] := by
    simp [runTask, send, post]
  constructor
  · intro j
    rcases eq_or_ne j i with rfl | hne
    · rw [hworker]
      exact PoolWorker.sendMsg_working (h j) _
    · rw [(hother j hne).1]
      exact h j
  · have hflow : (((s.runTask i task args).post i (task, own)).workers i).flow =
        (s.workers i).flow ++ [(task, args)] := by
      rw [hworker, PoolWorker.sendMsg_flow]
      rfl
    constructor
    · intro hall
      have hi := hall i
      rw [hflow, hposted] at hi
      obtain ⟨hold, hnew⟩ := List.append_inj' hi rfl
      refine ⟨fun j => ?_, (Prod.mk.inj (List.cons.inj hnew).1).2.symm⟩
      rcases eq_or_ne j i with rfl | hne
      · exact hold
      · have hj := hall j
        rwa [(hother j hne).1, (hother j hne).2] at hj
    · rintro ⟨hall, rfl⟩ j
      rcases eq_or_ne j i with rfl | hne
      · rw [hflow, hposted, hall j]
      · rw [(hother j hne).1, (hother j hne).2]
        exact hall j

/-- A step returns, and keeps every task with its argument unless it is a broadcast that
sends another argument than its own. -/
theorem step_spec {s : TaskPool κ ι n} (h : AllWorking s) (ev : PoolEvent κ ι n) :
    ∃ s', s.step g ev = .ok s' ∧ AllWorking s' ∧ (Delivers s' ↔ Delivers s ∧ SendsOwnArgs s ev) := by
  cases ev with
  | runTask i task args =>
    obtain ⟨hwork, hiff⟩ := post_spec h i task args args
    exact ⟨_, rfl, hwork, hiff.trans (and_congr_right fun _ => iff_of_true rfl trivial)⟩
  | broadcast poster task args =>
    unfold step
    dsimp only
    split
    · exact ⟨_, rfl, h, (and_iff_left trivial).symm⟩
    · exact ⟨s, rfl, h, (and_iff_left trivial).symm⟩
  | broadcastTurn poster =>
    refine ⟨_, rfl, ?_⟩
    unfold broadcastTurn SendsOwnArgs
    cases hb : s.broadcasts poster with
    | none =>
      refine ⟨h, (and_iff_left fun i task args hb' => ?_).symm⟩
      rw [hb] at hb'
      cases hb'
    | some b =>
      obtain ⟨i, task, args⟩ := b
      dsimp only
      split
      · rename_i hi
        obtain ⟨hwork, hiff⟩ := post_spec h ⟨i, hi⟩ task none args
        refine ⟨hwork, hiff.trans (and_congr_right fun _ => ⟨fun hargs => ?_, fun hown => ?_⟩)⟩
        · intro i' task' args' hb' _
          obtain ⟨_, hpair⟩ := Prod.mk.inj (Option.some.inj (hb.symm.trans hb'))
          exact (Prod.mk.inj hpair).2 ▸ hargs
        · exact hown i task args hb hi
      · rename_i hi
        refine ⟨h, (and_iff_left fun i' task' args' hb' hlt => ?_).symm⟩
        obtain ⟨rfl, _⟩ := Prod.mk.inj (Option.some.inj (hb.symm.trans hb'))
        exact absurd hlt hi
  | newConn i connfd =>
    have hflow := PoolWorker.sendMsg_flow (s.workers i) (.newConn connfd)
    rw [show (QueueMsg.newConn connfd : QueueMsg κ).task?.toList = [] from rfl,
      List.append_nil] at hflow
    obtain ⟨hwork, hiff⟩ := update_worker h i (PoolWorker.sendMsg_working (h i) _) hflow
    exact ⟨_, rfl, hwork, hiff.trans (and_iff_left trivial).symm⟩
  | worker i ws =>
    obtain ⟨w, hstep, hw, hflow⟩ := PoolWorker.step_working (g := g) (h i) ws
    obtain ⟨hwork, hiff⟩ := update_worker h i hw hflow
    exact ⟨_, by rw [step, hstep, ok_bind], hwork, hiff.trans (and_iff_left trivial).symm⟩

theorem foldlM_step_iff : ∀ (evs : List (PoolEvent κ ι n)) {s : TaskPool κ ι n}, AllWorking s →
    ∃ s', evs.foldlM (step g) s = .ok s' ∧ AllWorking s' ∧
      (Delivers s' ↔ Delivers s ∧ Meets (step g) SendsOwnArgs s evs) := by
  intro evs
  induction evs with
  | nil => exact fun {s} h => ⟨s, rfl, h, (and_iff_left trivial).symm⟩
  | cons ev evs ih =>
    intro s h
    obtain ⟨s₁, hstep, h₁, hiff₁⟩ := step_spec (g := g) h ev
    obtain ⟨s', hrun, h', hiff⟩ := ih h₁
    refine ⟨s', by rw [List.foldlM_cons, hstep, ok_bind, hrun], h', ?_⟩
    rw [hiff, hiff₁, and_assoc]
    simp only [Meets, hstep]

/-- A worker's own steps, as steps of the pool. -/
theorem foldlM_worker (i : Fin n) : ∀ (steps : List (WorkerStep ι)) {s : TaskPool κ ι n}
    {w : PoolWorker κ ι}, steps.foldlM (PoolWorker.step g) (s.workers i) = .ok w →
    (steps.map (PoolEvent.worker i)).foldlM (step g) s =
      .ok { s with workers := Function.update s.workers i w } := by
  intro steps
  induction steps with
  | nil =>
    intro s w h
    obtain rfl := Except.ok.inj h
    rw [Function.update_eq_self]
    rfl
  | cons ws steps ih =>
    intro s w h
    rw [List.foldlM_cons] at h
    obtain ⟨w₁, h₁, h⟩ := bind_eq_ok.mp h
    have hrest := ih (s := { s with workers := Function.update s.workers i w₁ }) (w := w)
      (by simpa using h)
    rw [List.map_cons, List.foldlM_cons, step, h₁, ok_bind, ok_bind, hrest]
    simp only [Function.update_idem]

/-- **Posted tasks.**  In every interleaving of the posters and the workers: each worker
has run, in the order they were posted and once each, the first of the tasks posted to
it, and the others are on their way, all with their own arguments, if and only if every
broadcast that has got to a worker was given `NULL`.  A worker that has its loop runs
by its own steps all that is on its way, and whenever its queue is not empty its eventfd
is readable and its loop reads it. -/
theorem posted_tasks_run_iff (g : Growth) (evfds : Fin n → Int) (evs : List (PoolEvent κ ι n)) :
    ∃ s, evs.foldlM (step g) (start evfds) = .ok s ∧
      ((∀ i, (s.workers i).executed ++ (s.workers i).waiting = s.posted i) ↔
        Meets (step g) SendsOwnArgs (start evfds) evs) ∧
      ∀ i, ((s.workers i).queue.loop.isSome →
          ∃ (steps : List (WorkerStep ι)) (s' : TaskPool κ ι n),
            (steps.map (PoolEvent.worker i)).foldlM (step g) s = .ok s' ∧
            (s'.workers i).executed = (s.workers i).executed ++ (s.workers i).waiting) ∧
        (s.workers i).queue.Notified := by
  have hstart : AllWorking (start evfds : TaskPool κ ι n) := fun i =>
    PoolWorker.start_working (evfds i)
  obtain ⟨s, hrun, hwork, hiff⟩ := foldlM_step_iff (g := g) evs hstart
  refine ⟨s, hrun, hiff.trans (and_iff_right fun i => rfl), fun i =>
    ⟨fun hloop => ?_, (hwork i).notified⟩⟩
  obtain ⟨w', ⟨steps, hsteps⟩, hexec⟩ := PoolWorker.reaches_executed (g := g) (hwork i) hloop
  refine ⟨steps, _, foldlM_worker i steps hsteps, ?_⟩
  show (Function.update s.workers i w' i).executed = _
  rw [Function.update_self]
  exact hexec

/-- One worker, and a broadcast with an argument. -/
def broadcastRun : List (PoolEvent Unit Unit 1) :=
  [.worker 0 (.setLoop (.empty Unit) () none), .broadcast 0 () (some 5), .broadcastTurn 0,
    .worker 0 .recvMsg, .worker 0 .takeMsg, .worker 0 .takeMsg, .worker 0 .runTask,
    .worker 0 .taskTurn]

theorem broadcast_drops_args :
    ¬ ∀ evs : List (PoolEvent Unit Unit 1),
      ∃ s, evs.foldlM (step TaskLoop.doubling) (start fun _ => 7) = .ok s ∧
        ∀ i, (s.workers i).executed ++ (s.workers i).waiting = s.posted i := by
  intro hall
  obtain ⟨s, hrun, hs⟩ := hall broadcastRun
  have hobs : (broadcastRun.foldlM (step TaskLoop.doubling) (start fun _ => 7)).toOption.map
      (fun s => ((s.workers 0).executed, (s.workers 0).waiting, s.posted 0)) =
        some ([((), none)], [], [((), some 5)]) := by decide +kernel
  have hobs := observed_of_ok hrun hobs
  simp only [Prod.mk.injEq] at hobs
  have h0 := hs 0
  rw [hobs.1, hobs.2.1, hobs.2.2] at h0
  exact absurd h0 (by decide)

end TaskPool

end EasyReactor.Thread
