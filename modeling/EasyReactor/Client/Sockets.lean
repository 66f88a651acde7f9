import EasyReactor.Client.Serving
import EasyReactor.Foundation.Descriptors

set_option autoImplicit false

/-!
# Client: the descriptors of a client

`do_connect` and `clean_conn` close the socket and leave its number in `_sockfd`; so does
`~tcp_client`, after which a reconnect timer may still end.  Between two system calls of a
client everything else in its process may open and close descriptors.  `Process`
interleaves the calls of a run with that, over one table, and notes whose number each
`::close(_sockfd)` hits.
-/

namespace EasyReactor.Client

open EasyReactor.Foundation EasyReactor.Buffer EasyReactor.Loop EasyReactor.Wire

/-! ## The calls of a client -/

/-- A system call that takes a descriptor or gives one back. -/
inductive FdCall where
  | socket (fd : Int)
  | close (fd : Int)
  deriving DecidableEq

/-- The calls between two states.  Of all functions of a client only `do_connect` calls
`::socket`; it is the last thing `clean_conn` does, and closes first. -/
def ClientState.fdCalls (s s' : ClientState) : List FdCall :=
  (s'.closed.drop s.closed.length).map .close ++
    if s'.past.length = s.past.length then [] else [.socket s'.sockfd]

/-- A client, the calls it made so far, and whether `~tcp_client` has run.  Then `client` is
what its memory still holds. -/
structure Traced where
  client : ClientState
  calls : List FdCall
  deleted : Bool

/-- What can happen to a client and to its memory. -/
inductive LifeEvent where
  | act (a : ClientAct)
  /-- `~tcp_client` -/
  | destroy

namespace Traced

def act (cli : TcpClient) (t : Traced) (a : ClientAct) : Except Fault Traced := do
  let s ← t.client.act cli a
  return { t with client := s, calls := t.calls ++ t.client.fdCalls s }

/-- What still gets to a deleted client: `reconn_cb` does, and so does an event of a socket
that the kernel watches.  The user does not call it any more. -/
def Reached (t : Traced) : ClientAct → Prop
  | .event (.io _ _) => (t.client.evs.interest t.client.sockfd).isSome
  | .event (.timer _) => True
  | .event (.sendData _) => False
  | .cleanConn _ => False

instance (t : Traced) : ∀ a, Decidable (t.Reached a)
  | .event (.io _ _) => inferInstanceAs (Decidable (_ = true))
  | .event (.timer _) => inferInstanceAs (Decidable True)
  | .event (.sendData _) => inferInstanceAs (Decidable False)
  | .cleanConn _ => inferInstanceAs (Decidable False)

/-- `~tcp_client` -/
def destroy (t : Traced) : Traced where
  client := { t.client with evs := t.client.evs.closeFd t.client.sockfd }
  calls := t.calls ++ [.close t.client.sockfd]
  deleted := true

/-- One event.  When a callback of the client deletes it, the destructor comes after the rest
of the event here. -/
def step (cli : TcpClient) (t : Traced) : LifeEvent → Except Fault Traced
  | .act a => if t.deleted ∧ ¬ t.Reached a then return t else t.act cli a
  | .destroy => if t.deleted then return t else return t.destroy

/-- A client is constructed, used and destroyed.  A system call that ends the process is the
last one; the run in which it does not has the same calls up to there. -/
def run (cli : TcpClient) (rawIn rawOut : Nat → UInt8) (c : Connect) (events : List LifeEvent) :
    Except Fault Traced := do
  let s ← ClientState.construct rawIn rawOut c
  events.foldlM (step cli) ⟨s, (ClientState.new rawIn rawOut).fdCalls s, false⟩

end Traced

/-! ## The process -/

/-- Who owns a descriptor: the client, or another part of the process. -/
inductive Owner (τ : Type) where
  | client
  | other (t : τ)
  deriving DecidableEq

/-- The process of a client that has `calls` to make. -/
structure Process (τ : Type) where
  table : Descriptors (Owner τ)
  calls : List FdCall
  /-- the arguments of its `::close` so far, and who owned them then -/
  closes : List (Int × Option (Owner τ))

/-- Who makes the next system call. -/
inductive ProcessCall (τ : Type) where
  /-- the client makes its next call -/
  | client
  | opens (t : τ)
  | closes (t : τ) (fd : Nat)

namespace Process

variable {τ : Type}

/-- One system call.  The other parts of the process close what they opened; `.error` says
that there is no such call. -/
def step [DecidableEq τ] (p : Process τ) : ProcessCall τ → Except Unit (Process τ)
  | .client =>
    match p.calls with
    | [] => .error ()
    | .socket fd :: calls =>
      match p.table.alloc .client with
      | none => .error ()
      | some (n, table) =>
        if (n : Int) = fd then .ok { p with table := table, calls := calls } else .error ()
    | .close fd :: calls =>
      let own := if 0 ≤ fd then p.table.owner fd.toNat else none
      .ok { table := if 0 ≤ fd then p.table.close fd.toNat else p.table
            calls := calls
            closes := p.closes ++ [(fd, own)] }
  | .opens t =>
    match p.table.alloc (.other t) with
    | none => .ok p
    | some (_, table) => .ok { p with table := table }
  | .closes t fd =>
    if p.table.owner fd = some (.other t) then .ok { p with table := p.table.close fd }
    else .error ()

def run [DecidableEq τ] (table : Descriptors (Owner τ)) (calls : List FdCall)
    (next : List (ProcessCall τ)) : Except Unit (Process τ) :=
  next.foldlM step ⟨table, calls, []⟩

end Process

/-! ## One socket at a time -/

/-- What is held after a call by who holds one descriptor at a time and closes no other. -/
def FdCall.hold : Option Int → FdCall → Option (Option Int)
  | none, .socket fd => some (some fd)
  | some held, .close fd => if fd = held then some none else none
  | _, _ => none

/-- The calls left go with the descriptor held, which is what the client owns. -/
structure Orderly {τ : Type} (held : Option Int) (p : Process τ) : Prop where
  calls : (p.calls.foldlM FdCall.hold held).isSome
  owner : ∀ n, p.table.owner n = some .client ↔ held = some (n : Int)
  number : ∀ fd, held = some fd → 0 ≤ fd
  closes : ∀ x ∈ p.closes, x.2 = some .client

section

variable {τ : Type} [DecidableEq τ] {p : Process τ} {held : Option Int}

/-- The client's next call. -/
theorem Orderly.client (h : Orderly held p) :
    Ends (p.step .client) (fun p' => ∃ held', Orderly held' p') (fun _ => True) := by
  have hcalls := h.calls
  unfold Process.step
  simp only
  cases hp : p.calls with
  | nil => trivial
  | cons call calls =>
    rw [hp, List.foldlM_cons] at hcalls
    cases call with
    | socket fd =>
      cases held with
      | some fd' => simp [FdCall.hold] at hcalls
      | none =>
        simp only
        cases hal : p.table.alloc .client with
        | none => trivial
        | some r =>
          obtain ⟨n, table⟩ := r
          obtain ⟨-, -, -, -, howner⟩ := Descriptors.alloc_eq_some hal
          simp only
          split
          next hn =>
            subst hn
            refine ⟨some (n : Int), ⟨hcalls, fun m => ?_, fun fd hfd => ?_, h.closes⟩⟩
            · rw [howner]
              have hold := h.owner m
              split
              next hm => simp [hm]
              next hm =>
                rw [hold]
                simp only [reduceCtorEq, Option.some.injEq, Int.natCast_inj, false_iff]
                exact fun heq => hm heq.symm
            · have := Option.some.inj hfd
              omega
          next => trivial
    | close fd =>
      cases held with
      | none => simp [FdCall.hold] at hcalls
      | some fd' =>
        have hfd : fd = fd' := by
          by_contra hne
          simp [FdCall.hold, hne] at hcalls
        subst hfd
        have hpos := h.number fd rfl
        have hown : p.table.owner fd.toNat = some .client := by
          rw [h.owner, Int.toNat_of_nonneg hpos]
        refine ⟨none, ⟨?_, fun m => ?_, fun fd' hfd' => ?_, ?_⟩⟩
        · simpa [FdCall.hold] using hcalls
        · simp only
          rw [if_pos hpos, Descriptors.owner_close]
          split
          next => simp
          next hm =>
            rw [h.owner]
            simp only [Option.some.injEq, reduceCtorEq, iff_false]
            omega
        · cases hfd'
        · intro x hx
          simp only at hx
          rw [if_pos hpos, hown] at hx
          rcases List.mem_append.mp hx with hx | hx
          · exact h.closes x hx
          · rw [List.mem_singleton] at hx
            rw [hx]

/-- Any other part of the process. -/
theorem Orderly.step (h : Orderly held p) (call : ProcessCall τ) :
    Ends (p.step call) (fun p' => ∃ held', Orderly held' p') (fun _ => True) := by
  cases call with
  | client => exact h.client
  | opens t =>
    unfold Process.step
    simp only
    cases hal : p.table.alloc (.other t) with
    | none => exact ⟨held, h⟩
    | some r =>
      obtain ⟨n, table⟩ := r
      obtain ⟨-, hfree, -, -, howner⟩ := Descriptors.alloc_eq_some hal
      refine ⟨held, h.calls, fun m => ?_, h.number, h.closes⟩
      rw [howner, ← h.owner]
      split
      next hm =>
        subst hm
        rw [hfree]
        simp
      next => rfl
  | closes t fd =>
    unfold Process.step
    simp only
    split
    next hown =>
      refine ⟨held, h.calls, fun m => ?_, h.number, h.closes⟩
      rw [← h.owner, Descriptors.owner_close]
      split
      next hm =>
        subst hm
        rw [hown]
        simp
      next => rfl
    next => trivial

/-- Calls that hold one descriptor at a time close what they took, whatever else happens in
the process. -/
theorem run_orderly {calls : List FdCall} {table : Descriptors (Owner τ)}
    (hcalls : (calls.foldlM FdCall.hold none).isSome)
    (hnone : ∀ n, table.owner n ≠ some .client) (next : List (ProcessCall τ)) :
    Ends (Process.run table calls next) (fun p => ∀ x ∈ p.closes, x.2 = some .client)
      (fun _ => True) := by
  have hstart : Orderly none (⟨table, calls, []⟩ : Process τ) := by
    refine ⟨hcalls, fun n => ?_, fun fd hfd => ?_, fun x hx => ?_⟩
    · simpa using hnone n
    · cases hfd
    · cases hx
  unfold Process.run
  apply (Ends.foldlM (P := fun _ p => ∃ held, Orderly held p) (fun _ call _ p _ hp => ?_)
    ⟨none, hstart⟩).imp _ (fun _ he => he)
  · rintro p ⟨held, hp⟩
    exact hp.closes
  · obtain ⟨held, hp⟩ := hp
    exact hp.step call

end

/-! ## The calls of one event -/

/-- Neither the socket nor the log of the calls changes. -/
structure Steady (s s' : ClientState) : Prop where
  sockfd : s'.sockfd = s.sockfd
  closed : s'.closed = s.closed
  past : s'.past = s.past

/-- The socket is closed, and there is a new one. -/
structure Replaced (s s' : ClientState) : Prop where
  closed : s'.closed = s.closed ++ [s.sockfd]
  past : s'.past = s.past ++ [s.session]
  sockfd : 0 ≤ s'.sockfd

section

variable {cli : TcpClient} {s s' s'' : ClientState}

theorem Steady.refl (s : ClientState) : Steady s s := ⟨rfl, rfl, rfl⟩

theorem Steady.trans (h : Steady s s') (h' : Steady s' s'') : Steady s s'' :=
  ⟨h'.sockfd.trans h.sockfd, h'.closed.trans h.closed, h'.past.trans h.past⟩

theorem send_steady (s : ClientState) (m : Msg) :
    Ends (s.send m) (Steady s) (fun _ => True) := by
  have hsend : Ends (s.sendData m.body m.cmdid) (fun r => Steady s r.1) (fun _ => True) := by
    unfold ClientState.sendData
    split
    · exact .refl s
    · simp only
      split
      · exact .refl s
      · apply (Ends.any _).bind
        intro x _
        apply (Ends.any _).bind
        intro y _
        split
        · exact ⟨rfl, rfl, rfl⟩
        · exact ⟨rfl, rfl, rfl⟩
  unfold ClientState.send
  apply hsend.bind
  rintro ⟨t, ret⟩ ht
  simp only
  split
  · exact ⟨ht.sockfd, ht.closed, ht.past⟩
  · exact ⟨ht.sockfd, ht.closed, ht.past⟩

theorem callback_steady (s : ClientState) (msgs : List Msg) :
    Ends (s.callback msgs) (Steady s) (fun _ => True) := by
  have hrun : Ends (msgs.foldlM ClientState.send s) (Steady s) (fun _ => True) :=
    Ends.foldlM (P := fun _ => Steady s)
      (fun _ m _ t _ ht => (send_steady t m).imp (fun _ ht' => ht.trans ht') (fun _ he => he))
      (.refl s)
  unfold ClientState.callback
  cases hf : msgs.foldlM ClientState.send s with
  | ok s' => exact hrun.of_ok hf
  | error g => trivial

theorem callIf_steady (s : ClientState) (cb : Option ConnCallback) (args : Ptr) :
    Ends (s.callIf cb args) (Steady s) (fun _ => True) := by
  cases cb with
  | none => exact .refl s
  | some f => exact callback_steady s _

/-- `do_connect` on a client that has a socket. -/
theorem doConnect_replaced (hfd : s.sockfd ≠ -1) (c : Connect) :
    Ends (s.doConnect cli c) (Replaced s) (fun _ => True) := by
  unfold ClientState.doConnect
  rw [if_pos hfd]
  cases c.socket with
  | none => trivial
  | some fd =>
    simp only
    cases c.connect with
    | error => trivial
    | inProgress => exact ⟨rfl, rfl, Int.natCast_nonneg fd⟩
    | connected =>
      apply (callIf_steady _ _ _).imp _ (fun _ he => he)
      intro s' hs
      refine ⟨hs.closed, hs.past, ?_⟩
      rw [hs.sockfd]
      exact Int.natCast_nonneg fd

theorem connectionCb_steady (s : ClientState) (fd result : Int) :
    Ends (s.connectionCb cli fd result) (Steady s) (fun _ => True) := by
  unfold ClientState.connectionCb
  simp only
  split
  · apply (callIf_steady _ _ _).bind
    intro s₁ h₁
    split
    · exact ⟨h₁.sockfd, h₁.closed, h₁.past⟩
    · exact ⟨h₁.sockfd, h₁.closed, h₁.past⟩
  · exact ⟨rfl, rfl, rfl⟩

/-- The loop of `handle_read`, unless it cleans the connection. -/
theorem readLoop_steady (s : ClientState) (c : Connect) (fuel : Nat) :
    Ends (ClientState.readLoop cli c fuel s) (fun r => r.2 = false → Steady s r.1)
      (fun _ => True) := by
  induction fuel generalizing s with
  | zero => trivial
  | succ fuel ih =>
    unfold ClientState.readLoop
    split
    · apply (Ends.any _).bind
      intro bs _
      simp only
      split
      · exact fun _ => .refl s
      · split
        · apply (Ends.any _).bind
          intro s' _ hclean
          cases hclean
        · unfold ClientState.dispatch
          rw [bind_assoc]
          apply (Ends.any _).bind
          intro body _
          rw [bind_assoc]
          apply (Ends.any _).bind
          rintro ⟨func, usrData⟩ -
          apply (callback_steady _ _).bind
          intro s₁ h₁
          apply (ih _).imp _ (fun _ he => he)
          intro r hr hclean
          have h₂ := hr hclean
          exact ⟨h₂.sockfd.trans h₁.sockfd, h₂.closed.trans h₁.closed, h₂.past.trans h₁.past⟩
    · exact fun _ => .refl s

/-- `handle_read` once it read something, unless the loop finds a command id nobody
registered. -/
theorem received_steady {pending bs : List UInt8} (hup : Up s) (w : Pending s pending) (c : Connect)
    (hknown : ¬ UnknownHead cli { s.ibuf with length := wrap (s.ibuf.length + bs.length) }) :
    Ends (s.received cli bs c) (Steady s) (fun _ => True) := by
  have hint := (wrap_bounds (s.ibuf.length + bs.length)).2
  have w' : Pending (s.filled bs) pending := w
  rw [received_eq]
  apply ((readLoop_output (hup.filled bs) w' c (Nat.lt_succ_self _) hint).and_post
    (readLoop_steady _ c _)).bind
  rintro ⟨t, cleaned⟩ ⟨hr, hsteady⟩
  cases cleaned with
  | true =>
    obtain ⟨hunknown, -⟩ := hr
    exact absurd hunknown hknown
  | false =>
    have ht := hsteady rfl
    apply (Ends.any _).bind
    intro ibuf _
    exact ⟨ht.sockfd, ht.closed, ht.past⟩

/-- A `handle_read` that does not give the connection up. -/
theorem handleRead_steady {pending : List UInt8} (hup : Up s) (w : Pending s pending) {r : Recv}
    (hg : ¬ GivesUp cli s r) (c : Connect) :
    Ends (s.handleRead cli r c) (Steady s) (fun _ => True) := by
  obtain ⟨fionread, read⟩ := r
  unfold ClientState.handleRead
  split
  · trivial
  · cases fionread with
    | none => exact .refl s
    | some rn =>
      simp only
      split
      · cases read with
        | eagain => trivial
        | error => exact absurd trivial hg
        | bytes bs =>
          simp only
          apply (Ends.any _).bind_eq (fun _ _ => trivial)
          intro x hx _
          obtain rfl := IoBuffer.save_eq hx
          split
          next hnil => exact absurd (.inl hnil) hg
          next =>
            split
            · have hup₁ : Up { s with
                  ibuf := { s.ibuf with data := store s.ibuf.data s.ibuf.length.toNat bs } } :=
                hup.congr rfl rfl rfl rfl
              have w₁ : Pending { s with
                  ibuf := { s.ibuf with data := store s.ibuf.data s.ibuf.length.toNat bs } }
                  pending := w
              apply (received_steady hup₁ w₁ c fun hunknown => hg (.inr hunknown)).imp _
                (fun _ he => he)
              exact fun s' hs => ⟨hs.sockfd, hs.closed, hs.past⟩
            · trivial
      · trivial

/-- A `handle_write` in which no `write` fails. -/
theorem handleWrite_steady {pending : List UInt8} (hup : Up s) (w : Pending s pending)
    {ws : List WriteResult} (hg : errorLeft s.obuf.length.toNat ws = none) (c : Connect) :
    Ends (s.handleWrite cli ws c) (Steady s) (fun _ => True) := by
  apply (handleWrite_ends (P := Steady s) (Q := Steady s) (E := fun _ => False) hup (.refl s) w
    (fun ht _ _ => ⟨ht.sockfd, ht.closed, ht.past⟩) (fun _ _ he _ => he.elim)
    (fun ht => ⟨ht.sockfd, ht.closed, ht.past⟩) ws c ?_).imp (fun _ hs => hs.2)
    (fun _ _ => trivial)
  intro left hleft
  rw [hg] at hleft
  cases hleft

/-- `clean_conn` is not called: no `handle_read` gives the connection up, no `write` fails,
and the user does not call it. -/
def KeepsSocket (cli : TcpClient) (s : ClientState) : ClientAct → Prop
  | .event e =>
    IoMeets (fun r => ¬ GivesUp cli s r) (fun ws => errorLeft s.obuf.length.toNat ws = none) s e
  | .cleanConn _ => False

instance (cli : TcpClient) (s : ClientState) : ∀ a, Decidable (KeepsSocket cli s a)
  | .event e => inferInstanceAs (Decidable (IoMeets _ _ s e))
  | .cleanConn _ => inferInstanceAs (Decidable False)

/-- No reconnect timer ends. -/
def TimerIdle (s : ClientState) : ClientAct → Prop
  | .event (.timer _) => s.timers = 0
  | _ => True

instance (s : ClientState) : ∀ a, Decidable (TimerIdle s a)
  | .event (.timer _) => inferInstanceAs (Decidable (_ = _))
  | .event (.io _ _) | .event (.sendData _) | .cleanConn _ => inferInstanceAs (Decidable True)

/-- `clean_conn` is not called, and no reconnect timer ends after `~tcp_client`. -/
def Tame (cli : TcpClient) (t : Traced) : LifeEvent → Prop
  | .act a => if t.deleted then TimerIdle t.client a else KeepsSocket cli t.client a
  | .destroy => True

instance (cli : TcpClient) (t : Traced) : ∀ e, Decidable (Tame cli t e)
  | .act a =>
    inferInstanceAs
      (Decidable (if t.deleted then TimerIdle t.client a else KeepsSocket cli t.client a))
  | .destroy => inferInstanceAs (Decidable True)

/-- One event that does not clean the connection. -/
theorem act_moves (hphase : Phase s) (hout : ∃ pending, Pending s pending) (hfd : 0 ≤ s.sockfd)
    {a : ClientAct} (hk : KeepsSocket cli s a) :
    Ends (s.act cli a) (fun s' => Steady s s' ∨ Replaced s s') (fun _ => True) := by
  obtain ⟨pending, w⟩ := hout
  cases a with
  | cleanConn c => exact hk.elim
  | event e =>
    cases e with
    | sendData m => exact (send_steady s m).imp (fun _ hs => .inl hs) (fun _ he => he)
    | timer c =>
      unfold ClientState.act ClientState.step
      simp only
      split
      · exact .inl (.refl s)
      · have hne : s.sockfd ≠ -1 := by omega
        apply (doConnect_replaced (s := { s with timers := s.timers - 1 }) hne c).imp _
          (fun _ he => he)
        exact fun s' hs => .inr ⟨hs.closed, hs.past, hs.sockfd⟩
    | io ready sys =>
      have hk' : CallMeets (fun r => ¬ GivesUp cli s r)
        (fun ws => errorLeft s.obuf.length.toNat ws = none) sys
        (s.evs.processEv s.sockfd ready) := hk
      have hup : ∀ cb, s.evs.processEv s.sockfd ready = some cb → cb ≠ .connectionCb → Up s := by
        intro cb hev hcb
        cases hphase with
        | connected hup => exact hup
        | waiting hwait =>
          rw [hwait.bare.processEv] at hev
          cases hev
        | connecting hconn =>
          rcases hconn.listens.processEv hev with hr | hw
          · cases hr
          · exact absurd (Option.some.inj hw).symm hcb
      unfold ClientState.act ClientState.step
      simp only
      cases hev : s.evs.processEv s.sockfd ready with
      | none => exact .inl (.refl s)
      | some cb =>
        rw [hev] at hk'
        have hsteady : Ends (s.runIo cli cb sys) (Steady s) (fun _ => True) := by
          cases cb with
          | readCb => exact handleRead_steady (hup _ hev (by decide)) w hk' _
          | writeCb => exact handleWrite_steady (hup _ hev (by decide)) w hk' _
          | connectionCb => exact connectionCb_steady s _ _
        exact hsteady.imp (fun _ hs => .inl hs) (fun _ he => he)

end

/-! ## Runs -/

/-- A client that holds its socket, and no other, after the calls it made. -/
structure Holding (t : Traced) : Prop where
  phase : Phase t.client
  output : ∃ pending, Pending t.client pending
  sockfd : 0 ≤ t.client.sockfd
  calls : t.calls.foldlM FdCall.hold none = some (some t.client.sockfd)

/-- A client that has given its socket back. -/
structure Gone (t : Traced) : Prop where
  unwatched : t.client.evs.interest t.client.sockfd = none
  calls : t.calls.foldlM FdCall.hold none = some none

/-- What is known in every state: of a client, or of its memory. -/
def Accountable (t : Traced) : Prop := if t.deleted then Gone t else Holding t

/-- The condition on a run, in the states it passes. -/
def RunTame (cli : TcpClient) (rawIn rawOut : Nat → UInt8) (c : Connect)
    (events : List LifeEvent) : Prop :=
  match ClientState.construct rawIn rawOut c with
  | .ok s =>
    Meets (Traced.step cli) (Tame cli) ⟨s, (ClientState.new rawIn rawOut).fdCalls s, false⟩ events
  | .error _ => True

instance (cli : TcpClient) (rawIn rawOut : Nat → UInt8) (c : Connect) (events : List LifeEvent) :
    Decidable (RunTame cli rawIn rawOut c events) :=
  match h : ClientState.construct rawIn rawOut c with
  | .ok s =>
    have : Decidable (Meets (Traced.step cli) (Tame cli)
        ⟨s, (ClientState.new rawIn rawOut).fdCalls s, false⟩ events) := decidableMeets _ _ _
    decidable_of_iff _ (by rw [RunTame, h])
  | .error _ => .isTrue (by rw [RunTame, h]; trivial)

section

variable {cli : TcpClient} {s s' : ClientState} {t : Traced}

theorem Steady.fdCalls (h : Steady s s') : s.fdCalls s' = [] := by
  unfold ClientState.fdCalls
  rw [h.closed, h.past, List.drop_length, if_pos rfl]
  rfl

theorem Replaced.fdCalls (h : Replaced s s') :
    s.fdCalls s' = [.close s.sockfd, .socket s'.sockfd] := by
  unfold ClientState.fdCalls
  rw [h.closed, h.past, List.drop_left, if_neg (by simp)]
  rfl

/-- One event of a client. -/
theorem Holding.act (h : Holding t) {a : ClientAct} (hk : KeepsSocket cli t.client a) :
    Ends (t.act cli a) (fun t' => t'.deleted = t.deleted ∧ Holding t') (fun _ => True) := by
  have hphase : Ends (t.client.act cli a)
      (fun s' => Phase s' ∧ ∃ pending, Pending s' pending) (fun _ => True) := by
    cases a with
    | event e => exact (phase_keeps cli).step h.phase h.output e trivial
    | cleanConn c => exact hk.elim
  unfold Traced.act
  apply (hphase.and_post (act_moves h.phase h.output h.sockfd hk)).bind
  rintro s' ⟨⟨hphase', hout⟩, hmoves⟩
  refine ⟨rfl, ?_⟩
  cases hmoves with
  | inl hs =>
    refine ⟨hphase', hout, ?_, ?_⟩
    · rw [hs.sockfd]
      exact h.sockfd
    · rw [hs.fdCalls, List.append_nil, hs.sockfd]
      exact h.calls
  | inr hr =>
    refine ⟨hphase', hout, hr.sockfd, ?_⟩
    rw [hr.fdCalls, List.foldlM_append, h.calls]
    simp [FdCall.hold]

theorem Holding.destroy (h : Holding t) : Gone t.destroy where
  unwatched := Function.update_self _ _ _
  calls := by
    unfold Traced.destroy
    rw [List.foldlM_append, h.calls]
    simp [FdCall.hold]

/-- Nothing gets to the memory of a deleted client, unless a timer ends. -/
theorem Gone.step (h : Gone t) (hdeleted : t.deleted = true) {a : ClientAct}
    (hidle : TimerIdle t.client a) : t.step cli (.act a) = .ok t := by
  unfold Traced.step
  simp only
  split
  next => rfl
  next hreached =>
    have hreached : t.Reached a := by
      by_contra hno
      exact hreached ⟨hdeleted, hno⟩
    cases a with
    | cleanConn c => exact hreached.elim
    | event e =>
      cases e with
      | sendData m => exact hreached.elim
      | io ready sys =>
        unfold Traced.Reached at hreached
        rw [h.unwatched] at hreached
        cases hreached
      | timer c =>
        have hstep : t.client.act cli (.event (.timer c)) = .ok t.client := if_pos hidle
        unfold Traced.act
        rw [hstep, ok_bind, Steady.fdCalls (.refl _), List.append_nil]
        rfl

theorem accountable_of_deleted (hdeleted : t.deleted = true) : Accountable t ↔ Gone t := by
  rw [Accountable, if_pos hdeleted]

theorem accountable_of_alive (halive : t.deleted = false) : Accountable t ↔ Holding t := by
  rw [Accountable, halive]
  exact Iff.rfl

/-- One event. -/
theorem Accountable.step (h : Accountable t) (e : LifeEvent) (htame : Tame cli t e) :
    Ends (t.step cli e) Accountable (fun _ => True) := by
  cases hdel : t.deleted with
  | true =>
    have hgone := (accountable_of_deleted hdel).mp h
    cases e with
    | act a =>
      have hidle : TimerIdle t.client a := by
        unfold Tame at htame
        simp only at htame
        rwa [if_pos hdel] at htame
      rw [hgone.step hdel hidle]
      exact h
    | destroy =>
      unfold Traced.step
      simp only
      rw [if_pos hdel]
      exact h
  | false =>
    have hhold := (accountable_of_alive hdel).mp h
    have halive : ¬ t.deleted = true := by
      rw [hdel]
      decide
    cases e with
    | act a =>
      have hkeeps : KeepsSocket cli t.client a := by
        unfold Tame at htame
        simp only at htame
        rwa [if_neg halive] at htame
      unfold Traced.step
      simp only
      rw [if_neg fun hd => halive hd.1]
      apply (hhold.act hkeeps).imp _ (fun _ he => he)
      rintro t' ⟨hdel', ht'⟩
      exact (accountable_of_alive (hdel'.trans hdel)).mpr ht'
    | destroy =>
      unfold Traced.step
      simp only
      rw [if_neg halive]
      exact (accountable_of_deleted rfl).mpr hhold.destroy

/-- The constructor. -/
theorem Holding.new (rawIn rawOut : Nat → UInt8) (c : Connect) :
    Ends (ClientState.construct rawIn rawOut c)
      (fun s => Holding ⟨s, (ClientState.new rawIn rawOut).fdCalls s, false⟩) (fun _ => True) := by
  have hfirst : Ends (ClientState.construct rawIn rawOut c)
      (fun s => s.closed = [] ∧ s.past = [.new (-1)] ∧ 0 ≤ s.sockfd) (fun _ => True) := by
    unfold ClientState.construct ClientState.doConnect
    cases c.socket with
    | none => trivial
    | some fd =>
      simp only
      cases c.connect with
      | error => trivial
      | inProgress => exact ⟨rfl, rfl, Int.natCast_nonneg fd⟩
      | connected => exact ⟨rfl, rfl, Int.natCast_nonneg fd⟩
  apply (((construct_ends rawIn rawOut c).imp (fun _ hr => hr) (fun _ _ => trivial)).and_post
    hfirst).imp _ (fun _ he => he)
  rintro s ⟨hr, hclosed, hpast, hfd⟩
  refine ⟨hr.phase, hr.output.window (pending_new rawIn rawOut), hfd, ?_⟩
  unfold ClientState.fdCalls
  rw [hclosed, hpast]
  rfl

end

/-- A client that closes descriptor 0 twice before it opens it again closes what something
else in the process has opened in between. -/
theorem closes_twice (calls : List FdCall) {acts : List LifeEvent}
    (hcalls : (Traced.run (quietClient [1]) (fun _ => 0) (fun _ => 0) ⟨some 0, .inProgress⟩
      acts).toOption.map Traced.calls = some ([.socket 0, .close 0, .close 0] ++ calls)) :
    ¬ Ends (Traced.run (quietClient [1]) (fun _ => 0) (fun _ => 0) ⟨some 0, .inProgress⟩ acts)
      (fun t => ∀ (table : Descriptors (Owner Unit)) (next : List (ProcessCall Unit)),
        (∀ n, table.owner n ≠ some .client) →
        Ends (Process.run table t.calls next) (fun p => ∀ x ∈ p.closes, x.2 = some .client)
          (fun _ => True))
      (fun _ => True) := by
  intro h
  obtain ⟨t, hrun, hmade⟩ := ok_of_observed hcalls
  have hown := h.of_ok hrun ⟨16, fun _ => none⟩ [.client, .client, .opens (), .client]
    (fun _ => by simp)
  rw [hmade] at hown
  have hcloses : (Process.run (⟨16, fun _ => none⟩ : Descriptors (Owner Unit))
      ([.socket 0, .close 0, .close 0] ++ calls)
      [.client, .client, .opens (), .client]).toOption.map Process.closes =
      some [(0, some .client), (0, some (.other ()))] := by
    rfl
  obtain ⟨p, hp, hcloses⟩ := ok_of_observed hcloses
  have hmem : ((0 : Int), some (Owner.other ())) ∈ p.closes := by
    rw [hcloses]
    simp
  have hclient : some (Owner.other ()) = some Owner.client := hown.of_ok hp _ hmem
  cases hclient

end EasyReactor.Client
