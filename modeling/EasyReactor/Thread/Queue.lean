import EasyReactor.Loop.IoEvents

set_option autoImplicit false

/-!
# Thread: the message queue of a worker

A `thread_queue` carries messages in a `std::queue` and the news of them in an
eventfd.  `send_msg` and `recv_msg` hold `_mutex` for all they do, so what several
threads do with the queue is a list of whole calls, in lock order.  `set_loop` is
called by the worker once its loop exists; messages may be there already.
-/

namespace EasyReactor.Thread

open EasyReactor.Loop EasyReactor.Wire

/-- The counter of an eventfd never gets beyond this. -/
def eventfdMax : Nat := 2 ^ 64 - 2

/-- `::write` of `number` to a non-blocking eventfd; `none` is `EAGAIN`. -/
def eventfdWrite (counter number : Nat) : Option Nat :=
  if counter + number ≤ eventfdMax then some (counter + number) else none

/-- `::read` of a non-blocking eventfd: what it returns, and the counter then. -/
def eventfdRead (counter : Nat) : Option (Nat × Nat) :=
  if 0 < counter then some (counter, 0) else none

/-- `thread_queue<T>`, with the counter of `_evfd`. -/
structure ThreadQueue (α κ : Type) where
  queue : List α
  evfd : Int
  counter : Nat
  loop : Option (EventLoop κ)

namespace ThreadQueue

variable {α κ : Type}

/-- `thread_queue::thread_queue`, where `::eventfd` returned `evfd`. -/
def new (evfd : Int) : ThreadQueue α κ := ⟨[], evfd, 0, none⟩

/-- `thread_queue::send_msg`; a failing `::write` is reported and nothing else. -/
def sendMsg (q : ThreadQueue α κ) (item : α) : ThreadQueue α κ :=
  { q with
    queue := q.queue ++ [item]
    counter := (eventfdWrite q.counter 1).getD q.counter }

/-- `thread_queue::recv_msg`: `tmp_queue` and the queue afterwards.  A failing `::read`
is reported and nothing else. -/
def recvMsg (q : ThreadQueue α κ) (tmpQueue : List α) : List α × ThreadQueue α κ :=
  (q.queue,
    { q with
      queue := tmpQueue
      counter := ((eventfdRead q.counter).map Prod.snd).getD q.counter })

/-- `thread_queue::set_loop` -/
def setLoop (q : ThreadQueue α κ) (loop : EventLoop κ) (proc : κ) (args : Ptr) :
    ThreadQueue α κ :=
  { q with loop := some (loop.addIoev q.evfd proc epollIn args) }

/-! ## The eventfd and the queue say the same -/

/-- The eventfd is readable exactly when there is a message, and once the worker has its
loop, that loop reads the eventfd. -/
structure Notified (q : ThreadQueue α κ) : Prop where
  counter : 0 < q.counter ↔ q.queue ≠ []
  wakes : ∀ l, q.loop = some l → (l.processEv q.evfd .input).isSome

theorem new_notified (evfd : Int) : Notified (new evfd : ThreadQueue α κ) where
  counter := by simp [new]
  wakes l hl := by cases hl

/-- The write fails only when the counter is positive already. -/
theorem Notified.sendMsg {q : ThreadQueue α κ} (h : Notified q) (item : α) :
    Notified (q.sendMsg item) where
  counter := by
    have hpos : 0 < (q.sendMsg item).counter := by
      simp only [ThreadQueue.sendMsg, eventfdWrite]
      split
      · exact Nat.succ_pos q.counter
      · rename_i hmax
        simp only [eventfdMax] at hmax
        show 0 < q.counter
        omega
    exact iff_of_true hpos (by simp [ThreadQueue.sendMsg])
  wakes := h.wakes

/-- A read empties the counter, and fails only when it is empty. -/
theorem Notified.recvMsg {q : ThreadQueue α κ} (h : Notified q) :
    Notified (q.recvMsg []).2 where
  counter := by
    have hzero : (q.recvMsg []).2.counter = 0 := by
      simp only [ThreadQueue.recvMsg, eventfdRead]
      split
      · rfl
      · rename_i hpos
        show q.counter = 0
        omega
    rw [hzero]
    simp [ThreadQueue.recvMsg]
  wakes := h.wakes

theorem Notified.setLoop {q : ThreadQueue α κ} (h : Notified q) (loop : EventLoop κ) (proc : κ)
    (args : Ptr) : Notified (q.setLoop loop proc args) where
  counter := h.counter
  wakes l hl := by
    obtain rfl := Option.some.inj hl
    rw [Option.isSome_iff_exists]
    exact ⟨proc, EventLoop.processEv_addIoev_in _ _ _ _⟩

end ThreadQueue

/-! ## Every interleaving -/

/-- A call on the queue, in lock order. -/
inductive QueueCall (α κ : Type) where
  /-- by any of the senders -/
  | send (item : α)
  /-- by the receiver, into an empty queue -/
  | recv
  /-- by the receiver -/
  | setLoop (loop : EventLoop κ) (proc : κ) (args : Ptr)

/-- A queue with its history: the messages sent, and the batches received. -/
structure QueueRun (α κ : Type) where
  queue : ThreadQueue α κ
  sent : List α
  received : List (List α)

namespace QueueRun

variable {α κ : Type}

def start (evfd : Int) : QueueRun α κ := ⟨.new evfd, [], []⟩

def step (r : QueueRun α κ) : QueueCall α κ → QueueRun α κ
  | .send item => { r with queue := r.queue.sendMsg item, sent := r.sent ++ [item] }
  | .recv =>
    let (tmpQueue, queue) := r.queue.recvMsg []
    { r with queue := queue, received := r.received ++ [tmpQueue] }
  | .setLoop loop proc args => { r with queue := r.queue.setLoop loop proc args }

def run (evfd : Int) (calls : List (QueueCall α κ)) : QueueRun α κ := calls.foldl step (start evfd)

/-- What was received and what is still in the queue is what was sent. -/
structure Faithful (r : QueueRun α κ) : Prop where
  order : r.received.flatten ++ r.queue.queue = r.sent
  notified : r.queue.Notified

theorem Faithful.step {r : QueueRun α κ} (h : Faithful r) (c : QueueCall α κ) :
    Faithful (r.step c) := by
  cases c with
  | send item =>
    refine ⟨?_, h.notified.sendMsg item⟩
    show r.received.flatten ++ (r.queue.queue ++ [item]) = r.sent ++ [item]
    rw [← List.append_assoc, h.order]
  | recv =>
    refine ⟨?_, h.notified.recvMsg⟩
    show (r.received ++ [r.queue.queue]).flatten ++ [] = r.sent
    rw [List.append_nil, List.flatten_append, List.flatten_singleton]
    exact h.order
  | setLoop loop proc args => exact ⟨h.order, h.notified.setLoop loop proc args⟩

theorem run_faithful (evfd : Int) (calls : List (QueueCall α κ)) : Faithful (run evfd calls) := by
  suffices h : ∀ r : QueueRun α κ, Faithful r → Faithful (calls.foldl QueueRun.step r) from
    h _ ⟨rfl, ThreadQueue.new_notified evfd⟩
  induction calls with
  | nil => exact fun r h => h
  | cons c calls ih => exact fun r h => ih (r.step c) (h.step c)

/-- **A worker queue loses, duplicates and reorders nothing and misses no wake-up.**  In
whatever order senders and the receiver call it, the batches received, one after the other,
and then the queue are the messages in the order they were sent; the eventfd is readable
exactly when the queue is not empty; and from `set_loop` on the worker's loop reads it. -/
theorem worker_queue_faithful (evfd : Int) (calls : List (QueueCall α κ)) :
    (run evfd calls).received.flatten ++ (run evfd calls).queue.queue = (run evfd calls).sent ∧
      (0 < (run evfd calls).queue.counter ↔ (run evfd calls).queue.queue ≠ []) ∧
      ∀ l, (run evfd calls).queue.loop = some l →
        (l.processEv (run evfd calls).queue.evfd .input).isSome := by
  have h := run_faithful evfd calls
  exact ⟨h.order, h.notified.counter, h.notified.wakes⟩

end QueueRun

end EasyReactor.Thread
