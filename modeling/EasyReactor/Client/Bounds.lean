import EasyReactor.Client.Confined
import EasyReactor.Client.Decoding

set_option autoImplicit false

/-!
# Client: the bounds of `ibuf`

`readSteps` lists what one `handle_read` does with `ibuf`, one statement after another.
The length field of the peer gets as far as the second `pop` only for a frame that is all
there, or for one that is not: the comparison in between lets through what announces more.
-/

namespace EasyReactor.Client

open EasyReactor.Foundation EasyReactor.Buffer EasyReactor.Loop EasyReactor.Wire

/-- The unconsumed bytes lie in the memory of the buffer. -/
structure InBounds (x : IoBuffer) : Prop where
  head : 0 ≤ x.head
  length : 0 ≤ x.length
  fits : x.head + x.length ≤ x.capacity

instance (x : IoBuffer) : Decidable (InBounds x) :=
  decidable_of_iff (0 ≤ x.head ∧ 0 ≤ x.length ∧ x.head + x.length ≤ x.capacity)
    ⟨fun h => ⟨h.1, h.2.1, h.2.2⟩, fun h => ⟨h.head, h.length, h.fits⟩⟩

/-- What `handle_read` does with `ibuf`. -/
inductive ReadStep where
  /-- `ibuf`, after a statement that changed it -/
  | ibuf (x : IoBuffer)
  /-- `_dispatcher.cb(ibuf.data + ibuf.head, length, cmdid, this)` -/
  | callback (x : IoBuffer) (length : Int)

namespace ReadStep

/-- The buffer is in bounds, and a callback is given bytes that were received. -/
def Safe : ReadStep → Prop
  | ibuf x => InBounds x
  | callback x length => 0 ≤ length ∧ length ≤ x.length

instance : ∀ t : ReadStep, Decidable t.Safe
  | ibuf x => inferInstanceAs (Decidable (InBounds x))
  | callback _ _ => inferInstanceAs (Decidable (_ ∧ _))

/-- `ibuf` once the step is done, if it was `x` before. -/
def after (x : IoBuffer) : ReadStep → IoBuffer
  | ibuf y => y
  | callback _ _ => x

end ReadStep

/-- The steps of the loop of `handle_read`. -/
def loopSteps (cli : TcpClient) : Nat → ClientState → List ReadStep
  | 0, _ => []
  | fuel + 1, s =>
    if s.ibuf.length ≥ commuHeadLength then
      match s.ibuf.load s.ibuf.head commuHeadLength with
      | .error _ => []
      | .ok bytes =>
        let head := CommuHead.ofBytes bytes
        if wrap (head.length.toInt + commuHeadLength) < s.ibuf.length then
          -- sub-package
          []
        else
          let s := { s with ibuf := s.ibuf.pop commuHeadLength }
          .ibuf s.ibuf ::
            if ¬ cli.dispatcher.exist head.cmdid then
              []
            else
              .callback s.ibuf head.length.toInt ::
                match s.dispatch cli head with
                | .error _ => []
                | .ok s =>
                  let s := { s with ibuf := s.ibuf.pop head.length.toInt }
                  .ibuf s.ibuf :: loopSteps cli fuel s
    else
      []

/-- The steps of a `handle_read` that finds `bs` to read, from `ibuf.length += ret` on. -/
def readSteps (cli : TcpClient) (s : ClientState) (bs : List UInt8) : List ReadStep :=
  match s.ibuf.save s.ibuf.length bs with
  | .error _ => []
  | .ok ibuf =>
    let s := { s with ibuf := ibuf }.filled bs
    .ibuf s.ibuf :: loopSteps cli (s.ibuf.length.toNat + 1) s

section

variable {cli : TcpClient} {s : ClientState} {pending bs held all : List UInt8} {x : IoBuffer}

theorem inBounds_of_window {off : Nat} (w : Window x off all) : InBounds x := by
  have hfits := w.fits
  refine ⟨?_, ?_, ?_⟩
  · rw [w.head]
    omega
  · rw [w.length]
    omega
  · rw [w.head, w.length]
    omega

/-! ## The steps of the loop -/

theorem loopSteps_idle (cli : TcpClient) (fuel : Nat) (h : s.ibuf.length < commuHeadLength) :
    loopSteps cli fuel s = [] := by
  cases fuel with
  | zero => rfl
  | succ fuel => rw [loopSteps, if_neg (by omega)]

theorem loopSteps_wait (w : Window s.ibuf 0 all)
    (h : all.length < commuHeadLength ∨
      wrap ((CommuHead.ofBytes all).length.toInt + commuHeadLength) < all.length) (fuel : Nat) :
    loopSteps cli fuel s = [] := by
  have hl := w.length
  by_cases hlen : all.length < commuHeadLength
  · exact loopSteps_idle cli fuel (by omega)
  · have hwait := h.resolve_left hlen
    rw [← hl] at hwait
    cases fuel with
    | zero => rfl
    | succ fuel =>
      rw [loopSteps, if_pos (by omega), w.load_front (by omega)]
      simp only
      rw [CommuHead.ofBytes_take (by omega), if_pos hwait]

/-- What the first turn does with a header that is not waited for. -/
theorem loopSteps_headed (w : Window s.ibuf 0 all) (h : Headed all) (fuel : Nat) :
    loopSteps cli (fuel + 1) s =
      .ibuf (s.ibuf.pop commuHeadLength) ::
        if ¬ cli.dispatcher.exist (CommuHead.ofBytes all).cmdid then
          []
        else
          .callback (s.ibuf.pop commuHeadLength) (CommuHead.ofBytes all).length.toInt ::
            match { s with ibuf := s.ibuf.pop commuHeadLength }.dispatch cli
              (CommuHead.ofBytes all) with
            | .error _ => []
            | .ok t =>
              .ibuf (t.ibuf.pop (CommuHead.ofBytes all).length.toInt) ::
                loopSteps cli fuel
                  { t with ibuf := t.ibuf.pop (CommuHead.ofBytes all).length.toInt } := by
  have hhead := h.header
  have hready := h.ready
  rw [← w.length] at hready
  rw [loopSteps, if_pos (by rw [w.length]; omega), w.load_front hhead]
  simp only
  rw [CommuHead.ofBytes_take hhead, if_neg hready]

/-- The loop keeps to the bounds unless the header announces more than is there. -/
theorem loopSteps_safe_iff (cli : TcpClient) (hpend : Pending s pending)
    (w : Window s.ibuf 0 all) (fuel : Nat) :
    (∀ t ∈ loopSteps cli (fuel + 1) s, t.Safe) ↔ turn cli.dispatcher.exist all ≠ .short := by
  have hhead := commuHeadLength_eq
  cases hturn : turn cli.dispatcher.exist all with
  | wait =>
    cases turn_eq hturn with
    | wait early =>
      rw [loopSteps_wait w early]
      exact ⟨fun _ => by simp, fun _ => by simp⟩
  | unknown =>
    cases turn_eq hturn with
    | unknown headed unknown =>
      rw [loopSteps_headed w headed, if_pos (by simp [unknown])]
      refine ⟨fun _ => by simp, fun _ t ht => ?_⟩
      obtain rfl := List.mem_singleton.mp ht
      exact inBounds_of_window (w.pop headed.header)
  | whole m =>
    cases turn_eq hturn with
    | whole headed known length =>
      have w₁ := w.pop headed.header
      have hlen₁ := w₁.length
      rw [List.length_drop] at hlen₁
      have hlen := headed.header
      obtain ⟨-, w₂⟩ := pop_whole w headed.header length
      have hdispatch :=
        dispatch_ends (s := { s with ibuf := s.ibuf.pop commuHeadLength }) hpend known
      rw [loopSteps_headed w headed, if_neg (by simp [known])]
      refine ⟨fun _ => by simp, fun _ t ht => ?_⟩
      rcases List.mem_cons.mp ht with rfl | ht
      · exact inBounds_of_window w₁
      · rcases List.mem_cons.mp ht with rfl | ht
        · exact ⟨by omega, by omega⟩
        · split at ht
          next => cases ht
          next t' ht' =>
            obtain ⟨body, -, hcall⟩ := hdispatch.of_ok ht'
            have hibuf : t'.ibuf = s.ibuf.pop commuHeadLength := hcall.ibuf
            rw [← hibuf] at w₂
            have hz := w₂.length
            rw [loopSteps_idle cli fuel (by simp only [hz, List.length_nil]; omega)] at ht
            obtain rfl := List.mem_singleton.mp ht
            exact inBounds_of_window w₂
  | short =>
    cases turn_eq hturn with
    | short headed known length =>
      have hlen₁ := (w.pop headed.header).length
      rw [List.length_drop] at hlen₁
      have hlen := headed.header
      rw [loopSteps_headed w headed, if_neg (by simp [known])]
      refine ⟨fun h => ?_, fun h => absurd rfl h⟩
      have hbody : 0 ≤ (CommuHead.ofBytes all).length.toInt ∧
          (CommuHead.ofBytes all).length.toInt ≤ (s.ibuf.pop commuHeadLength).length :=
        h _ (List.mem_cons_of_mem _ (List.mem_cons_self ..))
      omega

/-- The two pops of a frame that is not waited for leave nothing, or less. -/
theorem pop_headed (w : Window x 0 all) (h : Headed all) {body : List UInt8}
    (hbody : (x.pop commuHeadLength).load (x.pop commuHeadLength).head
      (CommuHead.ofBytes all).length.toInt = .ok body) :
    ((x.pop commuHeadLength).pop (CommuHead.ofBytes all).length.toInt).length ≤ 0 := by
  have hhead := commuHeadLength_eq
  have hlen := h.header
  have hannounced := h.length_le
  have hsmall := w.small
  have w₁ := w.pop hlen
  have hbounds := (IoBuffer.load_bounds hbody).2.2
  rw [w₁.head, IoBuffer.pop_capacity] at hbounds
  change wrap ((x.pop commuHeadLength).length - _) ≤ 0
  rw [w₁.length, List.length_drop, wrap_of_range (by omega) (by omega)]
  omega

/-- The steps end with the `ibuf` that the loop leaves. -/
theorem readLoop_steps (hup : Up s) (hpend : Pending s pending) (w : Window s.ibuf 0 all)
    (c : Connect) {fuel : Nat} (hfuel : all.length < fuel) :
    Ends (ClientState.readLoop cli c fuel s)
      (fun r => r.1.ibuf = (loopSteps cli fuel s).foldl ReadStep.after s.ibuf)
      (fun _ => True) := by
  have hhead := commuHeadLength_eq
  obtain ⟨fuel, rfl⟩ := Nat.exists_eq_succ_of_ne_zero (Nat.ne_zero_of_lt hfuel)
  by_cases headed : Headed all
  · have hlen := headed.header
    obtain ⟨fuel, rfl⟩ := Nat.exists_eq_succ_of_ne_zero (n := fuel) (by omega)
    rw [readLoop_headed w headed, loopSteps_headed w headed]
    by_cases known : cli.dispatcher.exist (CommuHead.ofBytes all).cmdid = true
    · have hdispatch :=
        dispatch_ends (s := { s with ibuf := s.ibuf.pop commuHeadLength }) hpend known
      rw [if_neg (not_not.mpr known), if_neg (not_not.mpr known)]
      apply hdispatch.bind_eq (fun _ _ => trivial)
      rintro t ht ⟨body, hbody, hcall⟩
      have hibuf : t.ibuf = s.ibuf.pop commuHeadLength := hcall.ibuf
      have hempty := pop_headed w headed hbody
      rw [← hibuf] at hempty
      -- a second turn finds nothing
      rw [readLoop_idle cli c fuel (by simp only; omega), ht]
      simp only
      rw [loopSteps_idle cli _ (by simp only; omega)]
      rfl
    · have hup₁ : Up { s with ibuf := s.ibuf.pop commuHeadLength } := hup.congr rfl rfl rfl rfl
      rw [if_pos known, if_pos known]
      apply ((cleanConn_ends hup₁ hpend c).imp (fun _ hr => hr) (fun _ _ => trivial)).bind
      intro t hr
      exact hr.ibuf
  · have early : all.length < commuHeadLength ∨
        wrap ((CommuHead.ofBytes all).length.toInt + commuHeadLength) < all.length := by
      by_contra hno
      rw [not_or] at hno
      exact headed ⟨by omega, hno.2⟩
    rw [readLoop_wait w early, loopSteps_wait w early]
    rfl

/-! ## One `handle_read` -/

/-- `handle_read`, up to the loop. -/
theorem handleRead_chunk (cli : TcpClient) (hup : Up s) (w : Window s.ibuf 0 held) (hne : bs ≠ [])
    (hfit : (held.length : Int) + bs.length ≤ s.ibuf.capacity) (c : Connect) :
    ∃ x, s.ibuf.save s.ibuf.length bs = .ok x ∧
      Window { x with length := wrap (x.length + bs.length) } 0 (held ++ bs) ∧
      s.handleRead cli (.chunk bs) c = { s with ibuf := x }.received cli bs c := by
  have hl := w.length
  have hsmall := w.small
  obtain ⟨x, hx, wx⟩ := w.append hfit
  refine ⟨x, hx, wx, ?_⟩
  unfold ClientState.handleRead Recv.chunk
  simp only
  rw [if_neg (by simp [hup.netOk]), if_pos (by rw [hl, wrap_of_range (by omega) (by omega)]; omega),
    hx, ok_bind, if_neg hne, if_pos trivial]

/-- A `handle_read` keeps to the bounds, and ends, unless a header announces more than is
there. -/
theorem handleRead_safe_iff (hup : Up s) (hpend : Pending s pending) (w : Window s.ibuf 0 held)
    (hne : bs ≠ []) (hfit : (held.length : Int) + bs.length ≤ s.ibuf.capacity) (c : Connect) :
    ((∀ t ∈ readSteps cli s bs, t.Safe) ∧ s.handleRead cli (.chunk bs) c ≠ .error .fuel) ↔
      turn cli.dispatcher.exist (held ++ bs) ≠ .short := by
  obtain ⟨x, hx, wx, -⟩ := handleRead_chunk cli hup w hne hfit c
  have w₀ : Window ({ s with ibuf := x }.filled bs).ibuf 0 (held ++ bs) := wx
  have hpend₀ : Pending ({ s with ibuf := x }.filled bs) pending := hpend
  unfold readSteps
  rw [hx]
  simp only [List.forall_mem_cons]
  rw [loopSteps_safe_iff cli hpend₀ w₀]
  refine ⟨fun h => h.1.2, fun hturn => ⟨⟨inBounds_of_window wx, hturn⟩, fun herr => ?_⟩⟩
  cases (handleRead_ends hup hpend w (.chunk bs) c).of_error herr bs rfl hne hfit with
  | exit _ fault => cases fault
  | overflow fault =>
    obtain ⟨⟨g, hg⟩, -⟩ := fault
    cases hg
  | short ht => exact hturn ht

/-- A command that is not registered leaves the head behind its header. -/
theorem received_unknown (hup : Up s) (hpend : Pending s pending)
    (w : Window { s.ibuf with length := wrap (s.ibuf.length + bs.length) } 0 all)
    (hturn : turn cli.dispatcher.exist all = .unknown) (c : Connect) :
    Ends (s.received cli bs c) (fun s' => s'.ibuf.head = commuHeadLength) (fun _ => True) := by
  have w₀ : Window (s.filled bs).ibuf 0 all := w
  have hl := w₀.length
  have hfuel : all.length < (s.filled bs).ibuf.length.toNat + 1 := by omega
  rw [received_eq]
  apply ((readLoop_ends (hup.filled bs) hpend w₀ c hfuel).imp (fun _ hr => hr)
    (fun _ _ => trivial)).and_post (readLoop_steps (hup.filled bs) hpend w₀ c hfuel) |>.bind
  rintro ⟨t, cleaned⟩ ⟨hloop, hibuf⟩
  cases hloop with
  | waits ht => cases hturn.symm.trans ht
  | whole ht => cases hturn.symm.trans ht
  | short ht => cases hturn.symm.trans ht
  | dropped ht =>
    cases turn_eq ht with
    | unknown headed unknown =>
      rw [loopSteps_headed w₀ headed, if_pos (by simp [unknown])] at hibuf
      have hhead := (w₀.pop headed.header).head
      rw [Nat.zero_add] at hhead
      simp only at hibuf ⊢
      rw [if_pos trivial]
      change t.ibuf.head = _
      rw [hibuf]
      exact hhead

/-- A `handle_read` that returns leaves `ibuf` at head 0 unless the command is not
registered. -/
theorem handleRead_head_iff (hup : Up s) (hpend : Pending s pending) (w : Window s.ibuf 0 held)
    (hne : bs ≠ []) (hfit : (held.length : Int) + bs.length ≤ s.ibuf.capacity) (c : Connect) :
    Ends (s.handleRead cli (.chunk bs) c)
      (fun s' => s'.ibuf.head = 0 ↔ turn cli.dispatcher.exist (held ++ bs) ≠ .unknown)
      (fun _ => True) := by
  obtain ⟨x, -, wx, hread⟩ := handleRead_chunk cli hup w hne hfit c
  have hup₁ : Up { s with ibuf := x } := hup.congr rfl rfl rfl rfl
  rw [hread]
  by_cases hturn : turn cli.dispatcher.exist (held ++ bs) = .unknown
  · apply (received_unknown hup₁ hpend wx hturn c).imp _ (fun _ _ => trivial)
    intro s' hhead
    rw [hhead]
    exact ⟨fun h => absurd h (by decide), fun h => absurd hturn h⟩
  · apply (received_ends hup₁ hpend wx c).imp _ (fun _ _ => trivial)
    intro s' hafter
    cases hafter with
    | waits _ hk => exact ⟨fun _ => hturn, fun _ => hk.held.head⟩
    | whole _ hk => exact ⟨fun _ => hturn, fun _ => hk.held.head⟩
    | dropped ht => exact absurd ht hturn

/-! ## Runs -/

/-- If `handle_read` finds a header that it does not wait for, its command is registered and
its frame all there. -/
def ReadsWhole (cli : TcpClient) (s : ClientState) (r : Recv) : Prop :=
  match r.fionread, r.read with
  | some _, .bytes bs => bs ≠ [] →
    turn cli.dispatcher.exist (heldBytes s ++ bs) ≠ .unknown ∧
      turn cli.dispatcher.exist (heldBytes s ++ bs) ≠ .short
  | _, _ => True

instance (cli : TcpClient) (s : ClientState) : ∀ r : Recv, Decidable (ReadsWhole cli s r)
  | ⟨none, _⟩ => inferInstanceAs (Decidable True)
  | ⟨some _, .bytes _⟩ => inferInstanceAs (Decidable (_ → _))
  | ⟨some _, .eagain⟩ => inferInstanceAs (Decidable True)
  | ⟨some _, .error⟩ => inferInstanceAs (Decidable True)

/-- The event does not make `handle_read` consume what it should not. -/
def Measured (cli : TcpClient) (s : ClientState) : ClientEvent → Prop :=
  IoMeets (ReadsWhole cli s) (fun _ => True) s

instance (cli : TcpClient) (s : ClientState) (e : ClientEvent) : Decidable (Measured cli s e) :=
  inferInstanceAs (Decidable (IoMeets _ _ s e))

/-- Both buffers hold bytes at head 0. -/
structure Homed (s : ClientState) : Prop where
  pending : ∃ pending, Pending s pending
  held : ∃ held, Window s.ibuf 0 held

variable {s' : ClientState}

/-- What keeps `ibuf` and appends to `obuf`. -/
theorem Homed.extends (h : Homed s) (hibuf : s'.ibuf = s.ibuf) (ho : Extends s s') : Homed s' := by
  obtain ⟨pending, w⟩ := h.pending
  refine ⟨ho.window w, ?_⟩
  rw [hibuf]
  exact h.held

theorem handleRead_homed (hup : Up s) (hdrained : Drained s) (h : Homed s) (r : Recv) (c : Connect)
    (hg : ReadsWhole cli s r) :
    Ends (s.handleRead cli r c) (fun s' => Phase s' ∧ Homed s') (fun _ => True) := by
  obtain ⟨pending, wp⟩ := h.pending
  obtain ⟨held, w⟩ := h.held
  apply (handleRead_ends hup wp w r c).imp _ (fun _ _ => trivial)
  intro s' hs
  cases hs with
  | ignored => exact ⟨.connected hup hdrained, h⟩
  | @ended s' ibuf fionread read kept renewed =>
    have h₁ : Homed { s with ibuf := ibuf } := ⟨⟨pending, wp⟩, ⟨held, kept⟩⟩
    exact ⟨renewed.phase, h₁.extends renewed.ibuf renewed.output⟩
  | read bs fionread read nonempty fits after =>
    obtain ⟨fion, read'⟩ := r
    simp only at read fionread
    subst read
    obtain ⟨rn, rfl⟩ := Option.ne_none_iff_exists'.mp fionread
    have hturn := hg nonempty
    rw [heldBytes_eq w] at hturn
    cases after with
    | dropped ht => exact absurd ht hturn.1
    | waits ht hk =>
      exact ⟨.connected hk.up (hk.drained hdrained), hk.output.window wp, ⟨_, hk.held⟩⟩
    | whole ht hk =>
      exact ⟨.connected hk.up (hk.drained hdrained), hk.output.window wp, ⟨_, hk.held⟩⟩

theorem handleWrite_homed (hup : Up s) (h : Homed s) (ws : List WriteResult) (c : Connect) :
    Ends (s.handleWrite cli ws c) (fun s' => Phase s' ∧ Homed s') (fun _ => True) := by
  obtain ⟨pending, w⟩ := h.pending
  apply (handleWrite_ends (P := Homed) (Q := Homed) (E := fun _ => True) hup h w _ _ _ ws c
    (fun _ _ => trivial)).imp (fun _ ht => ht) (fun _ _ => trivial)
  · exact fun ht _ wx => ⟨⟨_, wx⟩, ht.held⟩
  · exact fun ht _ _ hr => ht.extends hr.ibuf hr.output
  · exact fun ht => ⟨ht.pending, ht.held⟩

theorem homed_keeps (cli : TcpClient) : Keeps cli (Measured cli) Homed where
  pending h := h.pending
  called h hc := h.extends hc.ibuf hc.output
  established h hs := h.extends hs.ibuf hs.output
  failed h := ⟨h.pending, h.held⟩
  retried h _ hr := h.extends hr.ibuf hr.output
  read hup hdrained h hev hg := handleRead_homed hup hdrained h _ _ (hg.read hev)
  write hup h _ _ := handleWrite_homed hup h _ _

theorem new_homed (rawIn rawOut : Nat → UInt8) : Homed (.new rawIn rawOut) :=
  ⟨⟨[], .of_new (by decide) (by decide) rawOut⟩, ⟨[], .of_new (by decide) (by decide) rawIn⟩⟩

theorem Phase.up (h : Phase s) (hnet : s.netOk = true) : Up s := by
  cases h with
  | connecting h => cases h.netOk.symm.trans hnet
  | waiting h => cases h.netOk.symm.trans hnet
  | connected up _ => exact up

/-- **The bounds of the client's input.**  In every run in which `handle_read` takes no header
off `ibuf` whose command is not registered or whose body is not all there, `ibuf` stays in
bounds and at head 0.  The next `handle_read`, whatever it finds, is safe in all its steps
and ends exactly when no header announces more than is there, and leaves the head at 0
exactly when it takes off no command that is not registered. -/
theorem ibuf_within_bounds (cli : TcpClient) (rawIn rawOut : Nat → UInt8) (c : Connect)
    (events : List ClientEvent) (hg : RunMeets (Measured cli) cli rawIn rawOut c events) :
    Ends (ClientState.run cli rawIn rawOut c events)
      (fun s => InBounds s.ibuf ∧ s.ibuf.head = 0 ∧
        ∀ bs next, s.netOk = true → bs ≠ [] → s.ibuf.length + bs.length ≤ s.ibuf.capacity →
          ((∀ t ∈ readSteps cli s bs, t.Safe) ∧
              s.handleRead cli (.chunk bs) next ≠ .error .fuel ↔
            turn cli.dispatcher.exist (heldBytes s ++ bs) ≠ .short) ∧
          ∀ s', s.handleRead cli (.chunk bs) next = .ok s' →
            (s'.ibuf.head = 0 ↔ turn cli.dispatcher.exist (heldBytes s ++ bs) ≠ .unknown))
      (fun _ => True) := by
  apply ((homed_keeps cli).run (new_homed rawIn rawOut) hg).imp _ (fun _ _ => trivial)
  rintro s ⟨hphase, h⟩
  obtain ⟨pending, wp⟩ := h.pending
  obtain ⟨held, w⟩ := h.held
  refine ⟨inBounds_of_window w, w.head, ?_⟩
  intro bs next hnet hne hfit
  have hup := hphase.up hnet
  rw [w.length] at hfit
  rw [heldBytes_eq w]
  exact ⟨handleRead_safe_iff hup wp w hne hfit next,
    fun s' hs' => (handleRead_head_iff hup wp w hne hfit next).of_ok hs'⟩

end

/-- A connection is established and reads one frame. -/
theorem ibuf_within_bounds_whole :
    Ends (ClientState.run (quietClient [1]) (fun _ => 0) (fun _ => 0) ⟨some 4, .inProgress⟩
        [.io .output noCalls, arrival noCalls [1, 0, 0, 0, 1, 0, 0, 0, 7]])
      (fun s => InBounds s.ibuf ∧ s.ibuf.head = 0 ∧
        ∀ bs next, s.netOk = true → bs ≠ [] → s.ibuf.length + bs.length ≤ s.ibuf.capacity →
          ((∀ t ∈ readSteps (quietClient [1]) s bs, t.Safe) ∧
              s.handleRead (quietClient [1]) (.chunk bs) next ≠ .error .fuel ↔
            turn (quietClient [1]).dispatcher.exist (heldBytes s ++ bs) ≠ .short) ∧
          ∀ s', s.handleRead (quietClient [1]) (.chunk bs) next = .ok s' →
            (s'.ibuf.head = 0 ↔
              turn (quietClient [1]).dispatcher.exist (heldBytes s ++ bs) ≠ .unknown))
      (fun _ => True) :=
  ibuf_within_bounds (quietClient [1]) (fun _ => 0) (fun _ => 0) ⟨some 4, .inProgress⟩
    [.io .output noCalls, arrival noCalls [1, 0, 0, 0, 1, 0, 0, 0, 7]] (by decide +kernel)

/-- A header arrives that announces a hundred bytes, and nothing else: the callback is given
a hundred bytes that were not received, and `ibuf.length` goes below zero. -/
theorem body_not_received :
    ¬ ∀ s, ClientState.run (quietClient [1]) (fun _ => 0) (fun _ => 0) ⟨some 4, .inProgress⟩
        [.io .output noCalls] = .ok s → s.netOk = true → s.ibuf.length + 8 ≤ s.ibuf.capacity →
      ∀ t ∈ readSteps (quietClient [1]) s [1, 0, 0, 0, 100, 0, 0, 0], t.Safe := by
  intro h
  have hobs : (ClientState.run (quietClient [1]) (fun _ => 0) (fun _ => 0) ⟨some 4, .inProgress⟩
      [.io .output noCalls]).toOption.map (fun s => (s.netOk,
        decide (s.ibuf.length + 8 ≤ s.ibuf.capacity),
        decide (∀ t ∈ readSteps (quietClient [1]) s [1, 0, 0, 0, 100, 0, 0, 0], t.Safe))) =
      some (true, true, false) := by
    decide +kernel
  obtain ⟨s, hrun, hobs⟩ := ok_of_observed hobs
  obtain ⟨hnet, hobs⟩ := Prod.mk.inj hobs
  obtain ⟨hfit, hunsafe⟩ := Prod.mk.inj hobs
  exact of_decide_eq_false hunsafe (h s hrun hnet (of_decide_eq_true hfit))

end EasyReactor.Client
