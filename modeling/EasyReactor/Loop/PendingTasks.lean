import EasyReactor.Foundation.Outcome
import EasyReactor.Foundation.Vec
import EasyReactor.Machine

set_option autoImplicit false

/-!
# Loop: pending tasks

`run_task` walks `_pendingFactors` with an iterator and compares it with `end()` anew
in every turn, so what a task appends while it runs is reached too, as long as the
vector has room for it.  Without room `push_back` moves the vector to a larger block,
and the `++it` that follows uses an iterator into the old one.
-/

namespace EasyReactor.Loop

open EasyReactor.Foundation

/-- An item of `_pendingFactors`, with the tasks that running it adds. -/
inductive Task (κ δ : Type) where
  | mk (func : κ) (args : δ) (adds : List (Task κ δ))

namespace Task

variable {κ δ : Type}

def adds : Task κ δ → List (Task κ δ)
  | mk _ _ ts => ts

mutual

/-- The tasks of a tree. -/
def size : Task κ δ → Nat
  | mk _ _ ts => 1 + sizes ts

/-- The tasks of several trees. -/
def sizes : List (Task κ δ) → Nat
  | [] => 0
  | t :: ts => t.size + sizes ts

end

@[simp] theorem sizes_nil : sizes ([] : List (Task κ δ)) = 0 := rfl

@[simp] theorem sizes_cons (t : Task κ δ) (ts : List (Task κ δ)) :
    sizes (t :: ts) = t.size + sizes ts := rfl

theorem size_eq (t : Task κ δ) : t.size = 1 + sizes t.adds := by
  cases t
  rfl

theorem sizes_append (ts us : List (Task κ δ)) : sizes (ts ++ us) = sizes ts + sizes us := by
  induction ts with
  | nil => rw [List.nil_append, sizes_nil, Nat.zero_add]
  | cons t ts ih => rw [List.cons_append, sizes_cons, ih, sizes_cons, Nat.add_assoc]

end Task

/-- An `event_loop`, as far as tasks go, with the history of its tasks. -/
structure TaskLoop (κ δ : Type) where
  pendingFactors : Vec (Task κ δ)
  /-- what `add_task` was called with -/
  added : List (Task κ δ)
  /-- what `run_task` has run -/
  executed : List (Task κ δ)

namespace TaskLoop

variable {κ δ : Type}

/-- A loop whose pending tasks are `v`. -/
def start (v : Vec (Task κ δ)) : TaskLoop κ δ := ⟨v, v.items, []⟩

section Running

variable (g : Growth)

/-- `event_loop::add_task` -/
def addTask (l : TaskLoop κ δ) (t : Task κ δ) : TaskLoop κ δ :=
  { l with pendingFactors := l.pendingFactors.pushBack g t, added := l.added ++ [t] }

/-- `func(this, args)` -/
def call (l : TaskLoop κ δ) (t : Task κ δ) : TaskLoop κ δ :=
  t.adds.foldl (addTask g) { l with executed := l.executed ++ [t] }

/-- One turn of the `for` loop of `run_task`; `none` when `it` is `end()`. -/
def runTaskTurn (l : TaskLoop κ δ) (it : Vec.Iter) :
    Except Fault (Option (TaskLoop κ δ × Vec.Iter)) :=
  match l.pendingFactors.read it with
  | none => .error .undefined
  | some none => .ok none
  | some (some t) => .ok (some (l.call g t, it.next))

variable {g}

theorem foldl_addTask (l : TaskLoop κ δ) (ts : List (Task κ δ)) :
    ts.foldl (addTask g) l =
      ⟨l.pendingFactors.pushAll g ts, l.added ++ ts, l.executed⟩ := by
  induction ts generalizing l with
  | nil => simp [Vec.pushAll]
  | cons t ts ih =>
    rw [List.foldl_cons, ih]
    simp [addTask, Vec.pushAll]

theorem call_eq (l : TaskLoop κ δ) (t : Task κ δ) :
    l.call g t =
      ⟨l.pendingFactors.pushAll g t.adds, l.added ++ t.adds, l.executed ++ [t]⟩ := by
  rw [call, foldl_addTask]

/-- What a turn finds. -/
theorem runTaskTurn_cases {l : TaskLoop κ δ} {it : Vec.Iter}
    {r : Option (TaskLoop κ δ × Vec.Iter)} (h : l.runTaskTurn g it = .ok r) :
    it.epoch = l.pendingFactors.epoch ∧
      (r = none ∧ it.index = l.pendingFactors.items.length ∨
        ∃ t rest, l.pendingFactors.items.drop it.index = t :: rest ∧
          r = some (l.call g t, it.next)) := by
  unfold runTaskTurn Vec.read at h
  split at h
  · cases h
  · rename_i hread
    split at hread
    · rename_i hvalid
      refine ⟨hvalid.1, .inl ⟨(Except.ok.inj h).symm, ?_⟩⟩
      have hge := List.getElem?_eq_none_iff.mp (Option.some.inj hread)
      omega
    · cases hread
  · rename_i t hread
    split at hread
    · rename_i hvalid
      obtain ⟨hlt, rfl⟩ := List.getElem?_eq_some_iff.mp (Option.some.inj hread)
      exact ⟨hvalid.1, .inr ⟨_, _, List.drop_eq_getElem_cons hlt, (Except.ok.inj h).symm⟩⟩
    · cases hread

/-- What is left to run after a turn. -/
theorem drop_call {l : TaskLoop κ δ} {it : Vec.Iter} {t : Task κ δ} {rest : List (Task κ δ)}
    (h : l.pendingFactors.items.drop it.index = t :: rest) :
    (l.call g t).pendingFactors.items.drop it.next.index = rest ++ t.adds := by
  have hlt : it.index < l.pendingFactors.items.length := by
    have hlen := congrArg List.length h
    rw [List.length_drop, List.length_cons] at hlen
    omega
  have hrest : l.pendingFactors.items.drop it.next.index = rest := by
    rw [Vec.Iter.next, ← List.drop_drop, h]
    rfl
  have hnext : it.next.index ≤ l.pendingFactors.items.length := hlt
  rw [call_eq, Vec.pushAll_items, List.drop_append_of_le_length hnext, hrest]

variable (g)

/-- The `for` loop of `run_task`. -/
def runTaskLoop (l : TaskLoop κ δ) (it : Vec.Iter) : Except Fault (TaskLoop κ δ) :=
  match _h : l.runTaskTurn g it with
  | .error f => .error f
  | .ok none => .ok l
  | .ok (some (l', it')) => runTaskLoop l' it'
termination_by Task.sizes (l.pendingFactors.items.drop it.index)
decreasing_by
  obtain ⟨_, ⟨hnone, _⟩ | ⟨t, rest, hdrop, hsome⟩⟩ := runTaskTurn_cases _h
  · cases hnone
  · obtain ⟨rfl, rfl⟩ := Prod.mk.inj (Option.some.inj hsome)
    rw [drop_call hdrop, hdrop, Task.sizes_append, Task.sizes_cons, t.size_eq]
    omega

/-- `event_loop::run_task` -/
def runTask (l : TaskLoop κ δ) : Except Fault (TaskLoop κ δ) := do
  let l ← l.runTaskLoop g l.pendingFactors.first
  .ok { l with pendingFactors := l.pendingFactors.clear }

end Running

/-! ## The loop of `run_task` -/

variable {g : Growth}

/-- The pending tasks, with all they add, fit the block of the vector. -/
def Fits (l : TaskLoop κ δ) : Prop :=
  Task.sizes l.pendingFactors.items ≤ l.pendingFactors.capacity

instance (l : TaskLoop κ δ) : Decidable l.Fits := inferInstanceAs (Decidable (_ ≤ _))

/-- What was run, and then what `it` has still to reach, is what was added. -/
structure Walks (l : TaskLoop κ δ) (it : Vec.Iter) : Prop where
  valid : it.epoch = l.pendingFactors.epoch
  inside : it.index ≤ l.pendingFactors.items.length
  order : l.executed ++ l.pendingFactors.items.drop it.index = l.added

/-- The length the vector will have when everything has been run. -/
def total (l : TaskLoop κ δ) (it : Vec.Iter) : Nat :=
  it.index + Task.sizes (l.pendingFactors.items.drop it.index)

/-- A turn does not change how long the vector gets, and runs the next task. -/
theorem call_order {l : TaskLoop κ δ} {it : Vec.Iter} (h : Walks l it) {t : Task κ δ}
    {rest : List (Task κ δ)} (hdrop : l.pendingFactors.items.drop it.index = t :: rest) :
    (l.call g t).total it.next = l.total it ∧
      it.next.index ≤ (l.call g t).pendingFactors.items.length ∧
      (l.call g t).executed ++ (l.call g t).pendingFactors.items.drop it.next.index =
        (l.call g t).added := by
  refine ⟨?_, ?_, ?_⟩
  · rw [total, total, drop_call hdrop, hdrop, Task.sizes_append, Task.sizes_cons, t.size_eq]
    simp only [Vec.Iter.next]
    omega
  · have hlen := congrArg List.length hdrop
    rw [List.length_drop, List.length_cons] at hlen
    rw [call_eq, Vec.pushAll_items, List.length_append]
    simp only [Vec.Iter.next]
    omega
  · rw [drop_call hdrop, call_eq, ← h.order, hdrop]
    simp

/-- Every list of tasks has at least as many tasks. -/
theorem length_le_sizes (ts : List (Task κ δ)) : ts.length ≤ Task.sizes ts := by
  induction ts with
  | nil => exact Nat.le_refl 0
  | cons t ts ih =>
    rw [List.length_cons, Task.sizes_cons, t.size_eq]
    omega

/-- An iterator into a block that the vector has left. -/
theorem runTaskLoop_moved {l : TaskLoop κ δ} {it : Vec.Iter}
    (h : it.epoch < l.pendingFactors.epoch) : l.runTaskLoop g it = .error .undefined := by
  have hread : l.pendingFactors.read it = none :=
    if_neg fun hvalid => Nat.ne_of_lt h hvalid.1
  have hturn : l.runTaskTurn g it = .error .undefined := by
    rw [runTaskTurn, hread]
  rw [runTaskLoop]
  split
  · rename_i hturn'
    rw [Except.error.inj (hturn.symm.trans hturn')]
  · rename_i hturn'
    exact absurd (hturn.symm.trans hturn') (by simp)
  · rename_i hturn'
    exact absurd (hturn.symm.trans hturn') (by simp)

/-- The loop of `run_task` comes to `end()` exactly when the vector need not grow. -/
theorem runTaskLoop_spec {l : TaskLoop κ δ} {it : Vec.Iter} (h : Walks l it) :
    l.total it ≤ l.pendingFactors.capacity ∧
        (∃ l', l.runTaskLoop g it = .ok l' ∧ l'.executed = l'.added) ∨
      l.pendingFactors.capacity < l.total it ∧ l.runTaskLoop g it = .error .undefined := by
  fun_induction runTaskLoop g l it with
  | case1 l it f hturn =>
    rw [runTaskTurn, Vec.read, if_pos ⟨h.valid, h.inside⟩] at hturn
    split at hturn
    · rename_i hread
      cases hread
    · cases hturn
    · cases hturn
  | case2 l it hturn =>
    obtain ⟨_, ⟨_, hend⟩ | ⟨_, _, _, hsome⟩⟩ := runTaskTurn_cases hturn
    · have hnil : l.pendingFactors.items.drop it.index = [] :=
        List.drop_eq_nil_of_le (Nat.le_of_eq hend.symm)
      have horder := h.order
      rw [hnil, List.append_nil] at horder
      refine .inl ⟨?_, l, rfl, horder⟩
      rw [total, hnil, Task.sizes_nil, Nat.add_zero, hend]
      exact l.pendingFactors.fits
    · cases hsome
  | case3 l it l' it' hturn ih =>
    obtain ⟨_, ⟨hnone, _⟩ | ⟨t, rest, hdrop, hsome⟩⟩ := runTaskTurn_cases hturn
    · cases hnone
    obtain ⟨rfl, rfl⟩ := Prod.mk.inj (Option.some.inj hsome)
    obtain ⟨htotal, hinside, horder⟩ := call_order (g := g) h hdrop
    by_cases hroom : l.pendingFactors.items.length + t.adds.length ≤ l.pendingFactors.capacity
    · obtain ⟨hcap, hepoch⟩ := Vec.pushAll_room (g := g) hroom
      have hcap' : (l.call g t).pendingFactors.capacity = l.pendingFactors.capacity := by
        rw [call_eq, hcap]
      have hwalks : Walks (l.call g t) it.next := by
        refine ⟨?_, hinside, horder⟩
        rw [call_eq, hepoch]
        exact h.valid
      rw [← htotal, ← hcap']
      exact ih hwalks
    · -- the vector has moved, and the iterator has not
      refine .inr ⟨?_, runTaskLoop_moved ?_⟩
      · have hrest := length_le_sizes rest
        have hadds := length_le_sizes t.adds
        have hlen := congrArg List.length hdrop
        rw [List.length_drop, List.length_cons] at hlen
        rw [total, hdrop, Task.sizes_cons, t.size_eq]
        omega
      · rw [call_eq]
        show it.epoch < _
        rw [h.valid]
        exact Vec.pushAll_full (Nat.not_le.mp hroom)

/-! ## Every run -/

/-- What happens to the tasks of a loop. -/
inductive TaskEvent (κ δ : Type) where
  /-- `add_task`, not by a task -/
  | addTask (t : Task κ δ)
  | runTask

def step (g : Growth) (l : TaskLoop κ δ) : TaskEvent κ δ → Except Fault (TaskLoop κ δ)
  | .addTask t => .ok (l.addTask g t)
  | .runTask => l.runTask g

/-- Every task added was run once, in order, or is still pending. -/
def RunOnce (l : TaskLoop κ δ) : Prop := l.executed ++ l.pendingFactors.items = l.added

/-- Whenever `run_task` is called, the pending tasks fit. -/
def FitsWhenRun (l : TaskLoop κ δ) : TaskEvent κ δ → Prop
  | .addTask _ => True
  | .runTask => l.Fits

theorem walks_first {l : TaskLoop κ δ} (h : RunOnce l) : Walks l l.pendingFactors.first :=
  ⟨rfl, Nat.zero_le _, h⟩

theorem total_first (l : TaskLoop κ δ) :
    l.total l.pendingFactors.first = Task.sizes l.pendingFactors.items :=
  Nat.zero_add _

/-- `run_task` runs everything and leaves nothing, or uses an invalid iterator. -/
theorem runTask_spec {l : TaskLoop κ δ} (h : RunOnce l) :
    l.Fits ∧ (∃ l', l.runTask g = .ok l' ∧ RunOnce l' ∧ l'.pendingFactors.items = []) ∨
      ¬ l.Fits ∧ l.runTask g = .error .undefined := by
  have hloop := runTaskLoop_spec (g := g) (walks_first h)
  rw [total_first] at hloop
  rcases hloop with ⟨hfits, l', hl', horder⟩ | ⟨hfits, herr⟩
  · refine .inl ⟨hfits, _, by rw [runTask, hl', ok_bind], ?_, rfl⟩
    show l'.executed ++ [] = l'.added
    rw [List.append_nil, horder]
  · exact .inr ⟨Nat.not_le.mpr hfits, by rw [runTask, herr, error_bind]⟩

theorem addTask_runOnce {l : TaskLoop κ δ} (h : RunOnce l) (t : Task κ δ) :
    RunOnce (l.addTask g t) := by
  show l.executed ++ (l.pendingFactors.pushBack g t).items = l.added ++ [t]
  rw [Vec.pushBack_items, ← List.append_assoc, h]

/-- A step returns exactly when the pending tasks fit. -/
theorem step_spec {l : TaskLoop κ δ} (h : RunOnce l) (ev : TaskEvent κ δ) :
    (∃ l', l.step g ev = .ok l' ∧ RunOnce l' ∧
        (ev = .runTask → l'.pendingFactors.items = [])) ∧ FitsWhenRun l ev ∨
      (∃ f, l.step g ev = .error f) ∧ ¬ FitsWhenRun l ev := by
  cases ev with
  | addTask t =>
    exact .inl ⟨⟨_, rfl, addTask_runOnce h t, fun hev => by cases hev⟩, trivial⟩
  | runTask =>
    rcases runTask_spec (g := g) h with ⟨hfits, l', hl', honce, hnil⟩ | ⟨hfits, herr⟩
    · exact .inl ⟨⟨l', hl', honce, fun _ => hnil⟩, hfits⟩
    · exact .inr ⟨⟨_, herr⟩, hfits⟩

/-- A run returns exactly when the pending tasks fit at every `run_task`, and then every
task was run once or is pending. -/
theorem foldlM_step_iff {evs : List (TaskEvent κ δ)} {l : TaskLoop κ δ} (h : RunOnce l) :
    (∃ l', evs.foldlM (step g) l = .ok l' ∧ RunOnce l' ∧
        (evs.getLast? = some .runTask → l'.pendingFactors.items = [])) ↔
      Meets (step g) FitsWhenRun l evs := by
  induction evs generalizing l with
  | nil => exact iff_of_true ⟨l, rfl, h, fun hlast => by cases hlast⟩ trivial
  | cons ev evs ih =>
    rw [List.foldlM_cons]
    simp only [Meets]
    rcases step_spec (g := g) h ev with ⟨⟨l₁, hl₁, honce, hnil⟩, hfits⟩ | ⟨⟨f, hf⟩, hfits⟩
    · rw [hl₁, ok_bind, and_iff_right hfits]
      dsimp only
      rw [← ih honce]
      refine exists_congr fun l' => and_congr_right fun hrun => and_congr_right fun _ => ?_
      cases evs with
      | nil =>
        obtain rfl := Except.ok.inj hrun
        exact ⟨fun _ hlast => (by cases hlast), fun _ hlast => hnil (by simpa using hlast)⟩
      | cons e evs => rw [List.getLast?_cons_cons]
    · rw [hf, error_bind]
      exact iff_of_false (fun ⟨_, hok, _⟩ => by cases hok) fun hmeets => hfits hmeets.1

/-- **Pending tasks.**  From any pending tasks in a vector of any capacity, in every run
of `add_task` and `run_task` calls: every iterator is used while it is valid, every task
ever added is executed exactly once, in order, and none is discarded, if and only if at
every `run_task` the pending tasks with all they add fit the capacity. -/
theorem tasks_run_once_iff (g : Growth) (v : Vec (Task κ δ)) (evs : List (TaskEvent κ δ)) :
    (∃ l, evs.foldlM (step g) (start v) = .ok l ∧
        l.executed ++ l.pendingFactors.items = l.added ∧
        (evs.getLast? = some .runTask → l.pendingFactors.items = [])) ↔
      Meets (step g) FitsWhenRun (start v) evs :=
  foldlM_step_iff rfl

/-- The capacity of `std::vector` doubles. -/
def doubling : Growth where
  next n := if n = 0 then 1 else 2 * n
  grows n := by
    split <;> omega

/-- A vector of one task, which adds another one, without room for it. -/
def fullVector : Vec (Task Unit Unit) where
  items := [.mk () () [.mk () () []]]
  capacity := 1
  epoch := 0
  fits := Nat.le_refl 1

theorem task_invalidates_iterator :
    ¬ ∀ (v : Vec (Task Unit Unit)) (evs : List (TaskEvent Unit Unit)),
      ∃ l, evs.foldlM (step doubling) (start v) = .ok l ∧
        l.executed ++ l.pendingFactors.items = l.added ∧
        (evs.getLast? = some .runTask → l.pendingFactors.items = []) := by
  intro hall
  obtain ⟨l, hrun, _⟩ := hall fullVector [.runTask]
  rcases runTask_spec (g := doubling) (l := start fullVector) rfl with ⟨hfits, _⟩ | ⟨_, herr⟩
  · exact absurd hfits (by decide)
  · rw [List.foldlM_cons, step, herr, error_bind] at hrun
    cases hrun

end TaskLoop

end EasyReactor.Loop
