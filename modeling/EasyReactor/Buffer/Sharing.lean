import EasyReactor.Buffer.Memory
import EasyReactor.Buffer.Transfer

set_option autoImplicit false

/-!
# Buffer: many `tcp_buffer`s on one pool

Any number of `tcp_buffer`s, each used by one thread at a time, and any interleaving of
the threads.  A step is what one thread does with its own buffers up to its next access to
the pool, that access included: `alloc` and `revert` are atomic under the pool's mutex.  A
`read_data` or `send_data` that needs a larger buffer takes three steps: `alloc`, `copy`
and `revert`, the new bytes.
-/

namespace EasyReactor.Buffer

open EasyReactor.Foundation

/-- A call that puts bytes behind those of a `tcp_buffer`. -/
inductive Fill where
  /-- `read_data`, where `::ioctl` has announced `rn` bytes -/
  | read (rn : Int) (res : ReadResult)
  /-- `send_data` -/
  | send (data : List UInt8)

namespace Fill

def size : Fill → Int
  | .read rn _ => rn
  | .send data => data.length

/-- The `assert(_buf->head == 0)` of the call. -/
def headAssert : Fill → Assertion
  | .read _ _ => .readHead
  | .send _ => .sendHead

end Fill

/-- A `tcp_buffer`, and where the call on it is. -/
inductive Holder where
  /-- no call -/
  | idle (buf : TcpBuffer)
  /-- before `new_buf->copy(_buf)` -/
  | growing (buf newBuf : BufId) (fill : Fill)
  /-- before `::read` or `::memcpy` -/
  | filling (buf : BufId) (fill : Fill)

/-- The buffers that a `tcp_buffer` has: its `_buf`, and the `new_buf` of a call that is
about to move to it. -/
def Holder.holds : Holder → List BufId
  | .idle buf => buf.toList
  | .growing buf newBuf _ => [newBuf, buf]
  | .filling buf _ => [buf]

/-- A call on a `tcp_buffer`, with what its system calls return. -/
inductive Call where
  | readData (r : Recv)
  | sendData (data : List UInt8)
  | writeFd (ws : List WriteResult)
  | pop (len : Int)
  | clear
  | adjust

namespace TcpBuffer

/-- `read_data` and `send_data` up to the `alloc`. -/
def beginFill (p : BufferPool) (buf : TcpBuffer) (fill : Fill) :
    Except Fault (BufferPool × Holder) :=
  match buf with
  | none => do
    let (p, newBuf) ← p.alloc fill.size
    match newBuf with
    | none => return (p, .idle none)
    | some newBuf => return (p, .filling newBuf fill)
  | some b =>
    if (p.bufs b).head ≠ 0 then
      .error (.assertion fill.headAssert)
    else if wrap ((p.bufs b).capacity - (p.bufs b).length) < fill.size then do
      let (p, newBuf) ← p.alloc (wrap (fill.size + (p.bufs b).length))
      match newBuf with
      | none => return (p, .idle (some b))
      | some newBuf => return (p, .growing b newBuf fill)
    else
      return (p, .filling b fill)

/-- The end of `read_data` and of `send_data`. -/
def fillIn (p : BufferPool) (b : BufId) : Fill → Except Fault BufferPool
  | .read rn (.bytes bs) => do
    let x ← (p.bufs b).save (p.bufs b).length bs
    if bs = [] then
      return p.setBuf b x
    else if bs.length = rn then
      return p.setBuf b { x with length := wrap (x.length + bs.length) }
    else
      .error (.assertion .readCount)
  | .read _ .eagain => return p
  | .read _ .error => return p
  | .send data => do
    let x ← (p.bufs b).save (p.bufs b).length data
    return p.setBuf b { x with length := wrap (x.length + data.length) }

end TcpBuffer

/-- The first step of a call. -/
def Call.start (p : BufferPool) (buf : TcpBuffer) : Call → Except Fault (BufferPool × Holder)
  | .readData r =>
    match r.fionread with
    | none => return (p, .idle buf)
    | some rn => buf.beginFill p (.read rn r.read)
  | .sendData data => buf.beginFill p (.send data)
  | .writeFd ws => do
    let w ← buf.writeFd p ws
    return (w.pool, .idle buf)
  | .pop len => do
    let (p, buf) ← buf.pop p len
    return (p, .idle buf)
  | .clear => do
    let (p, buf) ← buf.clear p
    return (p, .idle buf)
  | .adjust => do
    let p ← buf.adjust p
    return (p, .idle buf)

/-- The next step of a call. -/
def Holder.resume (p : BufferPool) : Holder → Except Fault (BufferPool × Holder)
  | .idle buf => return (p, .idle buf)
  | .growing buf newBuf fill => do
    let p ← TcpBuffer.moveTo p buf newBuf
    return (p, .filling newBuf fill)
  | .filling buf fill => do
    let p ← TcpBuffer.fillIn p buf fill
    return (p, .idle (some buf))

/-- The pool and the `tcp_buffer`s, one for each `i`. -/
structure Shared (ι : Type) where
  pool : BufferPool
  holders : ι → Holder

inductive Shared.Event (ι : Type) where
  | call (i : ι) (c : Call)
  | resume (i : ι)

namespace Shared

variable {ι : Type} [DecidableEq ι]

/-- The pool after its constructor, and `tcp_buffer`s without a buffer. -/
def start (ι : Type) (raw : BufId → Nat → UInt8) : Shared ι := ⟨.init raw, fun _ => .idle none⟩

def put (s : Shared ι) (i : ι) (r : BufferPool × Holder) : Shared ι :=
  ⟨r.1, Function.update s.holders i r.2⟩

/-- A `tcp_buffer` with a call in progress gets no other call. -/
def step (s : Shared ι) : Event ι → Except Fault (Shared ι)
  | .call i c =>
    match s.holders i with
    | .idle buf => do
      let r ← c.start s.pool buf
      return s.put i r
    | _ => return s
  | .resume i => do
    let r ← (s.holders i).resume s.pool
    return s.put i r

def run (raw : BufId → Nat → UInt8) (evs : List (Event ι)) : Except Fault (Shared ι) :=
  evs.foldlM step (start ι raw)

end Shared

/-! ## A call on its own -/

namespace TcpBuffer

/-- A call that nobody interrupts. -/
def complete (p : BufferPool) (buf : TcpBuffer) (c : Call) : Except Fault (BufferPool × Holder) :=
  do
    let (p, h) ← c.start p buf
    let (p, h) ← h.resume p
    h.resume p

/-- Its steps are `makeRoom` and the new bytes. -/
theorem beginFill_complete (p : BufferPool) (buf : TcpBuffer) (fill : Fill) :
    (do
      let (p, h) ← beginFill p buf fill
      let (p, h) ← h.resume p
      h.resume p) =
    (do
      let (p, room) ← makeRoom fill.headAssert p buf fill.size
      match room with
      | none => return (p, .idle buf)
      | some b => do
        let p ← fillIn p b fill
        return (p, .idle (some b))) := by
  cases buf with
  | none =>
    simp only [beginFill, makeRoom]
    cases p.alloc fill.size with
    | error f => rfl
    | ok r =>
      obtain ⟨q, newBuf⟩ := r
      cases newBuf with
      | none => rfl
      | some b =>
        simp only [ok_bind, pure, Except.pure, Holder.resume]
        cases fillIn q b fill <;> rfl
  | some b =>
    simp only [beginFill, makeRoom]
    split
    · rfl
    split
    · cases p.alloc (wrap (fill.size + (p.bufs b).length)) with
      | error f => rfl
      | ok r =>
        obtain ⟨q, newBuf⟩ := r
        cases newBuf with
        | none => rfl
        | some newBuf =>
          simp only [ok_bind, pure, Except.pure, Holder.resume]
          cases moveTo q b newBuf with
          | error f => rfl
          | ok q' => rfl
    · simp only [ok_bind, pure, Except.pure, Holder.resume]
      cases fillIn p b fill <;> rfl

theorem readData_eq_complete (p : BufferPool) (buf : TcpBuffer) (r : Recv) :
    complete p buf (.readData r) = (readData p buf r).map fun x => (x.1, .idle x.2.1) := by
  unfold complete Call.start readData
  simp only
  cases r.fionread with
  | none => rfl
  | some rn =>
    simp only
    rw [beginFill_complete]
    simp only [Fill.headAssert, Fill.size]
    cases makeRoom .readHead p buf rn with
    | error f => rfl
    | ok q =>
      obtain ⟨q, room⟩ := q
      cases room with
      | none => rfl
      | some b =>
        simp only [ok_bind]
        cases r.read with
        | eagain => rfl
        | error => rfl
        | bytes bs =>
          simp only [fillIn]
          cases (q.bufs b).save (q.bufs b).length bs with
          | error f => rfl
          | ok x =>
            simp only [ok_bind]
            split
            · rfl
            · split <;> rfl

theorem sendData_eq_complete (p : BufferPool) (buf : TcpBuffer) (data : List UInt8) :
    complete p buf (.sendData data) = (sendData p buf data).map fun x => (x.1, .idle x.2.1) := by
  unfold complete Call.start sendData
  simp only
  rw [beginFill_complete]
  simp only [Fill.headAssert, Fill.size]
  cases makeRoom .sendHead p buf data.length with
  | error f => rfl
  | ok q =>
    obtain ⟨q, room⟩ := q
    cases room with
    | none => rfl
    | some b =>
      simp only [ok_bind, fillIn]
      cases (q.bufs b).save (q.bufs b).length data <;> rfl

end TcpBuffer

/-! ## Accesses outside a buffer -/

namespace IoBuffer

variable {b other : IoBuffer} {f : Fault}

theorem load_fault {off n : Int} (h : b.load off n = .error f) : f = .undefined := by
  unfold load at h
  split at h
  · cases h
  · exact (Except.error.inj h).symm

theorem save_fault {off : Int} {bs : List UInt8} (h : b.save off bs = .error f) :
    f = .undefined := by
  unfold save at h
  split at h
  · cases h
  · exact (Except.error.inj h).symm

theorem copy_fault (h : b.copy other = .error f) : f = .undefined := by
  rcases bind_eq_error.mp h with hload | ⟨bs, _, h⟩
  · exact load_fault hload
  · rcases bind_eq_error.mp h with hsave | ⟨x, _, h⟩
    · exact save_fault hsave
    · cases h

theorem adjust_fault (h : b.adjust = .error f) : f = .undefined := by
  unfold adjust at h
  split at h
  · split at h
    · rcases bind_eq_error.mp h with hload | ⟨bs, _, h⟩
      · exact load_fault hload
      · rcases bind_eq_error.mp h with hsave | ⟨x, _, h⟩
        · exact save_fault hsave
        · cases h
    · cases h
  · cases h

end IoBuffer

/-! ## What the calls keep -/

/-- The pool accounts for its buffers and for their memory. -/
structure Accounts (p : BufferPool) (owned : List BufId) : Prop where
  inv : PoolInv p owned
  budget : Budgeted p

namespace Accounts

variable {p : BufferPool} {owned : List BufId}

theorem perm (h : Accounts p owned) {owned' : List BufId} (hp : owned.Perm owned') :
    Accounts p owned' :=
  ⟨h.inv.perm hp, h.budget⟩

theorem setBuf (h : Accounts p owned) {b : BufId} {x : IoBuffer} (hb : b ∈ owned)
    (hx : x.capacity = (p.bufs b).capacity) : Accounts (p.setBuf b x) owned :=
  ⟨h.inv.setBuf hb hx, h.budget.same (BufferPool.setBuf_sameMemory hx)⟩

theorem revert {b : BufId} (h : Accounts p (b :: owned)) :
    ∃ q, p.revert b = .ok q ∧ Accounts q owned := by
  obtain ⟨q, hq, hinv, _⟩ := revert_eq h.inv
  exact ⟨q, hq, hinv, h.budget.same (BufferPool.revert_sameMemory hq)⟩

theorem alloc (h : Accounts p owned) (N : Int) :
    Ends (p.alloc N)
      (fun r => match r.2 with
        | none => Accounts r.1 owned
        | some b => Accounts r.1 (b :: owned))
      (fun f => f = .exit) := by
  refine .intro (fun r hr => ?_) fun f hf => ((alloc_ends h.inv N).of_error hf).1
  have hends := (alloc_ends h.inv N).of_ok hr
  obtain ⟨q, b⟩ := r
  have hbudget := h.budget.alloc hr
  cases b with
  | none =>
    obtain ⟨rfl, _⟩ := hends
    exact h
  | some b => exact ⟨hends.inv, hbudget⟩

end Accounts

/-- The failure is not that of the `assert` in `revert`, which finds a class. -/
def RevertFinds (f : Fault) : Prop := f ≠ .assertion .revertIndex

theorem revertFinds_of_exit {f : Fault} (h : f = .exit) : RevertFinds f := by
  rw [h]
  exact nofun

theorem revertFinds_of_undefined {f : Fault} (h : f = .undefined) : RevertFinds f := by
  rw [h]
  exact nofun

namespace TcpBuffer

variable {p : BufferPool} {buf : TcpBuffer} {rest : List BufId}

/-- The bytes move to the new buffer, and the old one goes back to the pool. -/
theorem moveTo_accounts {b newBuf : BufId} (h : Accounts p (newBuf :: b :: rest)) :
    Ends (moveTo p b newBuf) (fun q => Accounts q (newBuf :: rest)) RevertFinds := by
  unfold moveTo
  cases hcopy : (p.bufs newBuf).copy (p.bufs b) with
  | error f => exact revertFinds_of_undefined (IoBuffer.copy_fault hcopy)
  | ok x =>
    have hset := h.setBuf List.mem_cons_self (IoBuffer.copy_capacity hcopy)
    obtain ⟨q, hq, hacc⟩ := (hset.perm (.swap b newBuf rest)).revert
    rw [ok_bind, hq]
    exact hacc

theorem beginFill_accounts (h : Accounts p (buf.toList ++ rest)) (fill : Fill) :
    Ends (beginFill p buf fill) (fun r => Accounts r.1 (r.2.holds ++ rest)) RevertFinds := by
  cases buf with
  | none =>
    unfold beginFill
    refine ((h.alloc fill.size).imp (fun _ hr => hr) fun _ => revertFinds_of_exit).bind ?_
    intro r hr
    obtain ⟨q, newBuf⟩ := r
    cases newBuf with
    | none => exact hr
    | some newBuf => exact hr
  | some b =>
    unfold beginFill
    simp only
    split
    · intro heq
      cases fill <;> cases heq
    · split
      · refine ((h.alloc _).imp (fun _ hr => hr) fun _ => revertFinds_of_exit).bind ?_
        intro r hr
        obtain ⟨q, newBuf⟩ := r
        cases newBuf with
        | none => exact hr
        | some newBuf => exact hr
      · exact h

theorem fillIn_accounts {b : BufId} (h : Accounts p (b :: rest)) (fill : Fill) :
    Ends (fillIn p b fill) (fun q => Accounts q (b :: rest)) RevertFinds := by
  -- the bytes that were saved, and a new length
  have hcounted : ∀ {bs : List UInt8} {x : IoBuffer} (n : Int),
      (p.bufs b).save (p.bufs b).length bs = .ok x →
        Accounts (p.setBuf b { x with length := n }) (b :: rest) := by
    intro bs x n hx
    have hcap : x.capacity = (p.bufs b).capacity := IoBuffer.save_capacity hx
    exact h.setBuf List.mem_cons_self hcap
  cases fill with
  | send data =>
    simp only [fillIn]
    cases hx : (p.bufs b).save (p.bufs b).length data with
    | error f => exact revertFinds_of_undefined (IoBuffer.save_fault hx)
    | ok x => exact hcounted _ hx
  | read rn res =>
    cases res with
    | eagain => exact h
    | error => exact h
    | bytes bs =>
      simp only [fillIn]
      cases hx : (p.bufs b).save (p.bufs b).length bs with
      | error f => exact revertFinds_of_undefined (IoBuffer.save_fault hx)
      | ok x =>
        rw [ok_bind]
        split
        · exact hcounted x.length hx
        · split
          · exact hcounted _ hx
          · exact nofun

theorem writeFd_accounts (h : Accounts p (buf.toList ++ rest)) (ws : List WriteResult) :
    Ends (writeFd p buf ws) (fun w => Accounts w.pool (buf.toList ++ rest)) RevertFinds := by
  cases buf with
  | none => exact nofun
  | some b =>
    unfold writeFd
    simp only
    split
    · exact nofun
    · cases hload : (p.bufs b).load 0 (p.bufs b).length with
      | error f => exact revertFinds_of_undefined (IoBuffer.load_fault hload)
      | ok offered =>
        rw [ok_bind]
        split
        · split
          · exact h
          · rename_i n _ _ _
            cases hx : ((p.bufs b).pop (offered.take n).length).adjust with
            | error f => exact revertFinds_of_undefined (IoBuffer.adjust_fault hx)
            | ok x =>
              have hcap := IoBuffer.adjust_capacity hx
              exact h.setBuf List.mem_cons_self hcap
        · exact h
        · exact h

theorem pop_accounts (h : Accounts p (buf.toList ++ rest)) (len : Int) :
    Ends (buf.pop p len) (fun r => Accounts r.1 (r.2.toList ++ rest)) RevertFinds := by
  cases buf with
  | none => exact nofun
  | some b =>
    have hset := h.setBuf (x := (p.bufs b).pop len) List.mem_cons_self rfl
    unfold pop
    simp only
    split
    · split
      · obtain ⟨q, hq, hacc⟩ := hset.revert
        rw [hq, ok_bind]
        exact hacc
      · exact hset
    · exact nofun

theorem clear_accounts (h : Accounts p (buf.toList ++ rest)) :
    Ends (buf.clear p) (fun r => Accounts r.1 (r.2.toList ++ rest)) RevertFinds := by
  cases buf with
  | none => exact h
  | some b =>
    obtain ⟨q, hq, hacc⟩ := h.revert
    unfold clear
    simp only
    rw [hq, ok_bind]
    exact hacc

theorem adjust_accounts (h : Accounts p (buf.toList ++ rest)) :
    Ends (buf.adjust p) (fun q => Accounts q (buf.toList ++ rest)) RevertFinds := by
  cases buf with
  | none => exact h
  | some b =>
    unfold adjust
    simp only
    cases hx : (p.bufs b).adjust with
    | error f => exact revertFinds_of_undefined (IoBuffer.adjust_fault hx)
    | ok x => exact h.setBuf List.mem_cons_self (IoBuffer.adjust_capacity hx)

end TcpBuffer

theorem Call.start_accounts {p : BufferPool} {buf : TcpBuffer} {rest : List BufId}
    (h : Accounts p (buf.toList ++ rest)) (c : Call) :
    Ends (c.start p buf) (fun r => Accounts r.1 (r.2.holds ++ rest)) RevertFinds := by
  cases c with
  | readData r =>
    simp only [Call.start]
    cases r.fionread with
    | none => exact h
    | some rn => exact TcpBuffer.beginFill_accounts h _
  | sendData data => exact TcpBuffer.beginFill_accounts h _
  | writeFd ws => exact (TcpBuffer.writeFd_accounts h ws).bind fun w hw => hw
  | pop len => exact (TcpBuffer.pop_accounts h len).bind fun r hr => hr
  | clear => exact (TcpBuffer.clear_accounts h).bind fun r hr => hr
  | adjust => exact (TcpBuffer.adjust_accounts h).bind fun q hq => hq

theorem Holder.resume_accounts {p : BufferPool} {holder : Holder} {rest : List BufId}
    (h : Accounts p (holder.holds ++ rest)) :
    Ends (holder.resume p) (fun r => Accounts r.1 (r.2.holds ++ rest)) RevertFinds := by
  cases holder with
  | idle buf => exact h
  | growing b newBuf fill => exact (TcpBuffer.moveTo_accounts h).bind fun q hq => hq
  | filling b fill => exact (TcpBuffer.fillIn_accounts h fill).bind fun q hq => hq

/-! ## All of them -/

namespace Shared

variable {ι : Type} {s : Shared ι}

/-- The buffers outside the free lists, and the one `tcp_buffer` that has each. -/
structure Apart (s : Shared ι) (owned : List BufId) : Prop where
  accounts : Accounts s.pool owned
  mem_iff : ∀ b, b ∈ owned ↔ ∃ i, b ∈ (s.holders i).holds
  once : ∀ i, (s.holders i).holds.Nodup
  unique : ∀ i j b, b ∈ (s.holders i).holds → b ∈ (s.holders j).holds → i = j

theorem start_apart (raw : BufId → Nat → UInt8) : Apart (start ι raw) [] where
  accounts := ⟨init_inv raw, init_budgeted raw⟩
  mem_iff b := by
    constructor
    · intro hb
      cases hb
    · rintro ⟨i, hi⟩
      cases hi
  once _ := List.nodup_nil
  unique i j b hb := by cases hb

/-- What the others have. -/
theorem Apart.rest {owned : List BufId} (h : s.Apart owned) (i : ι) :
    ∃ rest, Accounts s.pool ((s.holders i).holds ++ rest) ∧
      ∀ b, b ∈ rest ↔ ∃ j, j ≠ i ∧ b ∈ (s.holders j).holds := by
  have hnodup := h.accounts.inv.nodup
  have hrest : ∀ b, b ∈ owned.filter (· ∉ (s.holders i).holds) ↔
      ∃ j, j ≠ i ∧ b ∈ (s.holders j).holds := by
    intro b
    rw [List.mem_filter, decide_eq_true_iff, h.mem_iff]
    constructor
    · rintro ⟨⟨j, hj⟩, hi⟩
      refine ⟨j, ?_, hj⟩
      rintro rfl
      exact hi hj
    · rintro ⟨j, hne, hj⟩
      exact ⟨⟨j, hj⟩, fun hi => hne (h.unique j i b hj hi)⟩
  refine ⟨owned.filter (· ∉ (s.holders i).holds), h.accounts.perm ?_, hrest⟩
  have hdisjoint : (s.holders i).holds.Disjoint (owned.filter (· ∉ (s.holders i).holds)) := by
    intro b hi hb
    exact of_decide_eq_true (List.mem_filter.mp hb).2 hi
  rw [List.perm_ext_iff_of_nodup hnodup
    (List.nodup_append'.mpr ⟨h.once i, hnodup.filter _, hdisjoint⟩)]
  intro b
  rw [List.mem_append, hrest, h.mem_iff]
  constructor
  · rintro ⟨j, hj⟩
    by_cases hji : j = i
    · subst hji
      exact .inl hj
    · exact .inr ⟨j, hji, hj⟩
  · rintro (hi | ⟨j, _, hj⟩)
    · exact ⟨i, hi⟩
    · exact ⟨j, hj⟩

/-- A step of holder `i` that leaves the others' buffers to them. -/
theorem Apart.put [DecidableEq ι] {i : ι} {rest : List BufId} {r : BufferPool × Holder}
    {owned : List BufId} (h : s.Apart owned)
    (hrest : ∀ b, b ∈ rest ↔ ∃ j, j ≠ i ∧ b ∈ (s.holders j).holds)
    (hr : Accounts r.1 (r.2.holds ++ rest)) : (s.put i r).Apart (r.2.holds ++ rest) := by
  obtain ⟨honce, _, hdisjoint⟩ := List.nodup_append'.mp hr.inv.nodup
  have hself : (s.put i r).holders i = r.2 := Function.update_self ..
  have hother : ∀ j, j ≠ i → (s.put i r).holders j = s.holders j := fun j hj =>
    Function.update_of_ne hj ..
  refine ⟨hr, fun b => ?_, fun j => ?_, fun j k b hj hk => ?_⟩
  · rw [List.mem_append, hrest]
    constructor
    · rintro (hi | ⟨j, hne, hj⟩)
      · exact ⟨i, hself ▸ hi⟩
      · exact ⟨j, hother j hne ▸ hj⟩
    · rintro ⟨j, hj⟩
      by_cases hji : j = i
      · subst hji
        exact .inl (hself ▸ hj)
      · exact .inr ⟨j, hji, hother j hji ▸ hj⟩
  · by_cases hji : j = i
    · subst hji
      rw [hself]
      exact honce
    · rw [hother j hji]
      exact h.once j
  · by_cases hji : j = i
    · subst hji
      by_cases hkj : k = j
      · exact hkj.symm
      · rw [hself] at hj
        rw [hother k hkj] at hk
        exact absurd ((hrest b).mpr ⟨k, hkj, hk⟩) (hdisjoint hj)
    · rw [hother j hji] at hj
      by_cases hki : k = i
      · subst hki
        rw [hself] at hk
        exact absurd ((hrest b).mpr ⟨j, hji, hj⟩) (hdisjoint hk)
      · rw [hother k hki] at hk
        exact h.unique j k b hj hk

theorem Apart.step [DecidableEq ι] {owned : List BufId} (h : s.Apart owned) (e : Event ι) :
    Ends (s.step e) (fun s' => ∃ owned', s'.Apart owned') RevertFinds := by
  cases e with
  | call i c =>
    obtain ⟨rest, hacc, hrest⟩ := h.rest i
    simp only [Shared.step]
    cases hi : s.holders i with
    | idle buf =>
      rw [hi] at hacc
      exact (Call.start_accounts hacc c).bind fun r hr => ⟨_, h.put hrest hr⟩
    | growing b newBuf fill => exact ⟨owned, h⟩
    | filling b fill => exact ⟨owned, h⟩
  | resume i =>
    obtain ⟨rest, hacc, hrest⟩ := h.rest i
    exact (Holder.resume_accounts hacc).bind fun r hr => ⟨_, h.put hrest hr⟩

/-- `free` are the free lists, and every buffer is in one place. -/
structure Exclusive (s : Shared ι) (free : MemCap → List BufId) : Prop where
  linked : ∀ c, Linked s.pool.next (s.pool.pool c) (free c)
  /-- a buffer is in one free list and once there, or one `tcp_buffer` has it once -/
  one_place : ∀ b < s.pool.created,
    (∃ c, (free c).count b = 1 ∧ (∀ d, d ≠ c → b ∉ free d) ∧ ∀ i, b ∉ (s.holders i).holds) ∨
    (∃ i, (s.holders i).holds.count b = 1 ∧ (∀ j, j ≠ i → b ∉ (s.holders j).holds) ∧
      ∀ c, b ∉ free c)
  created : ∀ b, (∃ c, b ∈ free c) ∨ (∃ i, b ∈ (s.holders i).holds) → b < s.pool.created
  /-- a free buffer has the capacity of its list, length 0 and head 0 -/
  reset : ∀ c, ∀ b ∈ free c, Reset (s.pool.bufs b) c
  /-- `alloc` returns a buffer nobody has, of the least class that is large enough, and
  `NULL` past the largest class -/
  alloc : ∀ N, Ends (s.pool.alloc N)
    (fun r => match r.2 with
      | none => 8388608 < N
      | some b => N ≤ 8388608 ∧ (∀ i, b ∉ (s.holders i).holds) ∧
        ∃ c : MemCap, (r.1.bufs b).capacity = c.bytes ∧ N ≤ c.bytes ∧
          ∀ d : MemCap, N ≤ d.bytes → c.bytes ≤ d.bytes)
    (fun f => f = .exit)
  total : (s.pool.totalMem : Int) = s.pool.memory
  below : s.pool.totalMem < extraMemLimit

theorem Apart.exclusive {owned : List BufId} (h : s.Apart owned) :
    ∃ free, Exclusive s free := by
  obtain ⟨free, hacc, _⟩ := h.accounts.inv.accounted
  have hheld : ∀ c, ∀ b ∈ free c, ∀ i, b ∉ (s.holders i).holds := by
    intro c b hb i hi
    exact hacc.apart c b hb ((h.mem_iff b).mpr ⟨i, hi⟩)
  refine ⟨free, hacc.linked, fun b hb => ?_, fun b hb => ?_, hacc.reset, fun N => ?_,
    h.accounts.budget.total, h.accounts.budget.below⟩
  · rcases (hacc.created_iff b).mp hb with howned | ⟨c, hc⟩
    · obtain ⟨i, hi⟩ := (h.mem_iff b).mp howned
      refine .inr ⟨i, List.count_eq_one_of_mem (h.once i) hi, fun j hne hj => ?_, fun c hc => ?_⟩
      · exact hne (h.unique j i b hj hi)
      · exact hheld c b hc i hi
    · refine .inl ⟨c, List.count_eq_one_of_mem (hacc.free_nodup c) hc, fun d hne hd => ?_,
        hheld c b hc⟩
      exact hne (hacc.free_unique hd hc)
  · rw [hacc.created_iff, h.mem_iff]
    exact hb.symm
  · refine .intro (fun r hr => ?_) fun f hf => ((alloc_ends h.accounts.inv N).of_error hf).1
    have hends := (alloc_ends h.accounts.inv N).of_ok hr
    obtain ⟨q, b⟩ := r
    cases b with
    | none => exact hends.2
    | some b =>
      obtain ⟨c, hc, hcap⟩ := alloc_capacity h.accounts.inv hr
      have hsize := MemCap.forSize_some hc
      have hmax := c.bytes_bounds.2
      refine ⟨by omega, fun i hi => ?_, c, hcap, hsize, MemCap.forSize_least hc⟩
      have hfresh := (List.nodup_cons.mp hends.inv.nodup).1
      exact hfresh ((h.mem_iff b).mpr ⟨i, hi⟩)

/-- **Exclusive ownership.**  In every state that any interleaving of calls on any number
of `tcp_buffer`s reaches, every buffer ever made is in one place: once in the free list of
its capacity, or with one `tcp_buffer`. -/
theorem buffers_exclusive [DecidableEq ι] (raw : BufId → Nat → UInt8) (evs : List (Event ι)) :
    Ends (run raw evs) (fun s => ∃ free, Exclusive s free) RevertFinds := by
  have hend : Ends (run raw evs) (fun s : Shared ι => ∃ owned, s.Apart owned) RevertFinds := by
    refine Ends.foldlM (P := fun _ (s : Shared ι) => ∃ owned, s.Apart owned) ?_
      ⟨[], start_apart raw⟩
    intro _ e _ s _ h
    obtain ⟨owned, h⟩ := h
    exact h.step e
  refine hend.imp (fun s h => ?_) fun _ h => h
  obtain ⟨owned, h⟩ := h
  exact h.exclusive

end Shared

end EasyReactor.Buffer
