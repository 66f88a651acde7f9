import EasyReactor.Client.Serving
import EasyReactor.Server.EmptyFrame

set_option autoImplicit false

/-!
# Delivery: which messages get through

`tcp_client::send_data` takes what fits `obuf`; `tcp_conn::handle_read` takes bodies up to
`MSG_LENGTH_LIMIT`.  A message that was accepted is dispatched exactly when its body keeps
to the second bound, which the client does not check.
-/

namespace EasyReactor.Delivery

open EasyReactor.Foundation EasyReactor.Buffer EasyReactor.Loop EasyReactor.Wire
open EasyReactor.Client

/-- The server dispatches `m` when its frame has arrived, and closes the connection only for
what arrived behind it: whatever server has a callback for it, whatever whole frames arrive
before it, and however the stream is cut.  `before` is decoded up to its end; no message but
`m` matters. -/
def GetsThrough (m : Msg) : Prop :=
  ∀ (srv : Server.TcpServer) (raw : BufId → Nat → UInt8) (before : List Server.PoolCommand)
    (connfd loop : Nat) (arrivals : List Server.Arrival) (pre post : List UInt8) (ms : List Msg),
    srv.dispatcher.exist m.cmdid = true →
    refDecode srv.dispatcher.exist pre = ⟨ms, some []⟩ →
    (∀ m' ∈ ms ++ (refDecode srv.dispatcher.exist post).msgs, m'.body ≠ []) →
    Server.Arrival.received arrivals = pre ++ m.frame ++ post →
    (∀ bs ∈ Server.Arrival.chunks arrivals, bs ≠ [] ∧ bs.length ≤ 8388608 - 65536) →
    Ends (Server.ConnState.run srv raw before connfd loop
        (arrivals.map Server.Arrival.event))
      (fun s => s.dispatched = ms ++ m :: (refDecode srv.dispatcher.exist post).msgs ∧
        (s.conn.connfd = -1 ↔ (refDecode srv.dispatcher.exist post).rest = none))
      (fun e => e = .exit ∨ ∃ g, e = .callback g)

/-! ## The client -/

/-- An accepted body fits `obuf`. -/
theorem sendData_fits {s s' : ClientState} {pending data : List UInt8} {cmdid : Int32}
    (w : Pending s pending) (h : s.sendData data cmdid = .ok (s', 0)) :
    data.length < 2147483648 := by
  have hsmall := w.small
  cases (sendData_ends w data cmdid).of_ok h with
  | accepted obuf netOk fits appended => omega

/-- A connected client accepts what fits behind the pending bytes. -/
theorem sendData_accepts {s : ClientState} {pending data : List UInt8} (hnet : s.netOk = true)
    (w : Pending s pending)
    (hfit : pending.length + (commuHeadLength : Int) + data.length ≤ s.obuf.capacity)
    (cmdid : Int32) : ∃ s', s.sendData data cmdid = .ok (s', 0) := by
  have hsmall := w.small
  have hends := sendData_ends w data cmdid
  cases hsend : s.sendData data cmdid with
  | error e =>
    have hover := (hends.of_error hsend).exceeds
    omega
  | ok r =>
    cases hends.of_ok hsend with
    | refused full =>
      have hfull := full hnet
      rw [wrap_of_range (by omega) (by omega)] at hfull
      omega
    | accepted => exact ⟨_, rfl⟩

/-- `obuf` is in order in every run. -/
theorem run_pending (cli : TcpClient) (rawIn rawOut : Nat → UInt8) (c : Connect)
    (events : List ClientEvent) :
    Ends (ClientState.run cli rawIn rawOut c events) (fun s => ∃ pending, Pending s pending)
      (fun _ => True) := by
  have hnew : ∃ pending, Pending (.new rawIn rawOut) pending :=
    ⟨[], Window.of_new (by decide) (by decide) rawOut⟩
  have hmeets : RunMeets (fun _ _ => True) cli rawIn rawOut c events := by
    unfold RunMeets
    split
    · exact .of_forall (fun _ _ => trivial) _ _
    · trivial
  exact ((phase_keeps cli).run hnew hmeets).imp (fun _ hs => hs.2) (fun _ he => he)

/-! ## The server -/

/-- A header with a length past the limit is rejected as soon as it is there. -/
theorem parse_frame_long {registered : Int32 → Bool} {m : Msg}
    (hlong : msgLengthLimit < m.body.length) (hint : m.body.length < 2147483648)
    (t : List UInt8) : parse registered (m.frame ++ t) = .reject := by
  have hhead : CommuHead.ofBytes (m.frame ++ t) = m.head := by
    unfold Msg.frame
    rw [List.append_assoc, CommuHead.ofBytes_bytes]
  unfold parse
  rw [List.length_append, Msg.length_frame, if_neg (by omega), hhead]
  simp only
  rw [Msg.head_length hint, if_pos (by omega)]

/-- A quiet server with nothing else in the pool reads every stream to its end, or to where
it is rejected. -/
theorem run_quiet_tracks {table : List Int32} {chunks : List (List UInt8)}
    (hchunks : ∀ bs ∈ chunks, bs ≠ [] ∧ bs.length ≤ 8388608 - 65536)
    (hbodies : ∀ m ∈ (refDecode table.contains chunks.flatten).msgs, m.body ≠ []) :
    Ends (Server.ConnState.run (Server.quietServer table) (fun _ _ => 0) [] 0 0
        (chunks.map fun bs => .readable (.chunk bs)))
      (Server.Tracks (Server.quietServer table) chunks.flatten) (fun _ => False) := by
  have hex := Server.exist_quiet table
  rw [Server.run_eq]
  have hstart := Server.start_ends (Server.quietServer table) (fun _ _ => 0) [] 0 0
  apply (hstart.imp (fun _ hs => hs) _).bind
  · rintro s₀ ⟨h₀, hd₀, hquiet⟩
    obtain ⟨hobuf, -, hothers⟩ := hquiet rfl
    rw [List.foldlM_map]
    have hrun : Ends (chunks.foldlM (fun s bs => s.step (Server.quietServer table)
          (.readable (.chunk bs))) s₀)
        (fun s => Server.Silent (Server.quietServer table) s ∧
          Server.Tracks (Server.quietServer table) chunks.flatten s) (fun _ => False) := by
      apply Ends.foldlM (P := fun done s => Server.Silent (Server.quietServer table) s ∧
        Server.Tracks (Server.quietServer table) done.flatten s) _
        ⟨Server.silent_quiet hobuf (hothers rfl), h₀.tracks hd₀⟩
      rintro done bs post s hsplit ⟨hsil, htr⟩
      obtain ⟨hne, hsmall⟩ := hchunks bs (by simp [hsplit])
      have hflat : (done ++ [bs]).flatten = done.flatten ++ bs := by simp
      rw [hflat]
      cases hr : (refDecode (Server.quietServer table).dispatcher.exist done.flatten).rest with
      | none =>
        have hstep := @Server.step_cleaned (Server.quietServer table) s (htr.cleaned hr) (.chunk bs)
        have htr' := (htr.step_stuck hr bs).of_ok hstep
        rw [hstep]
        exact ⟨hsil, htr'⟩
      | some r =>
        have hrlen : r.length < 65536 := parse_wait_length (Decoder.decode_rest hr).1
        apply (htr.step_chunk hr bs).imp
        · rintro s' (⟨-, -, htr', -, hsil'⟩ | ⟨hdrop, -⟩)
          · exact ⟨hsil' hsil, htr'⟩
          · cases hdrop with
            | inl hnil => exact absurd hnil hne
            | inr hbig => omega
        · intro e he
          cases he with
          | early he => exact he.2 hsil
          | overflow he hover => omega
          | empty he hne' hfits hend =>
            rw [← Server.endsEmpty_stream _ hr hne, hex] at hend
            obtain ⟨m, hm, hnil⟩ := hend.mem
            refine hbodies m ?_ hnil
            have hall : chunks.flatten = (done.flatten ++ bs) ++ post.flatten := by
              rw [hsplit]
              simp
            rw [hall]
            exact (Decoder.decode_msgs_prefix _ _).subset hm
    exact hrun.imp (fun _ hs => hs.2) (fun _ he => he)
  · rintro e (⟨-, hne⟩ | ⟨-, hne⟩)
    · exact hne rfl
    · exact hne rfl

/-! ## Which messages get through -/

/-- The frame of a message the server takes, in the middle of a stream. -/
theorem refDecode_middle {registered : Int32 → Bool} {m : Msg} {pre post : List UInt8}
    {ms : List Msg} (hm : m.Sendable registered)
    (hpre : refDecode registered pre = ⟨ms, some []⟩) :
    refDecode registered (pre ++ m.frame ++ post) =
      ⟨ms ++ m :: (refDecode registered post).msgs, (refDecode registered post).rest⟩ := by
  have hrest : (refDecode registered pre).rest = some [] := by rw [hpre]
  rw [List.append_assoc, refDecode_append hrest, List.nil_append, refDecode_frame hm, hpre]
  rfl

/-- A body within the limit gets through, whatever the cut. -/
theorem getsThrough_of_le {m : Msg} (hbody : m.body ≠ [])
    (hle : m.body.length ≤ msgLengthLimit) : GetsThrough m := by
  intro srv raw before connfd loop arrivals pre post ms hreg hpre hbodies hstream hchunks
  have hdecode := @refDecode_middle _ _ _ post _ ⟨hreg, hle⟩ hpre
  rw [← hstream] at hdecode
  have hall : ∀ m' ∈ (refDecode srv.dispatcher.exist (Server.Arrival.received arrivals)).msgs,
      m'.body ≠ [] := by
    rw [hdecode]
    intro m' hm'
    rcases List.mem_append.mp hm' with hms | hrest
    · exact hbodies m' (List.mem_append_left _ hms)
    · rcases List.mem_cons.mp hrest with rfl | hpost
      · exact hbody
      · exact hbodies m' (List.mem_append_right _ hpost)
  apply (Server.decoding_chunk_independent srv raw before connfd loop arrivals hchunks hall).imp
    _ (fun _ he => he)
  rintro s ⟨hd, hclosed, -⟩
  rw [hdecode] at hd hclosed
  exact ⟨hd, hclosed⟩

/-- A longer one ends the connection of a server that gets its frame byte by byte. -/
theorem not_getsThrough {m : Msg} (hlong : msgLengthLimit < m.body.length)
    (hint : m.body.length < 2147483648) : ¬ GetsThrough m := by
  intro h
  have hflat : (m.frame.map fun b => [b]).flatten = m.frame := by
    rw [← List.flatMap_def]
    exact List.flatMap_singleton' m.frame
  have hdecode : refDecode [m.cmdid].contains m.frame = ⟨[], none⟩ := by
    have hreject := @parse_frame_long [m.cmdid].contains m hlong hint []
    rw [List.append_nil] at hreject
    exact Decoder.decode_reject hreject
  have hchunks : ∀ bs ∈ m.frame.map fun b => [b], bs ≠ [] ∧ bs.length ≤ 8388608 - 65536 := by
    intro bs hbs
    obtain ⟨b, -, rfl⟩ := List.mem_map.mp hbs
    exact ⟨by simp, by simp⟩
  have harrivals : Server.Arrival.chunks (m.frame.map fun b => .chunk [b]) =
      m.frame.map fun b => [b] := by
    unfold Server.Arrival.chunks
    rw [List.filterMap_map, ← List.filterMap_eq_map]
    rfl
  have hthrough := h (Server.quietServer [m.cmdid]) (fun _ _ => 0) [] 0 0
    (m.frame.map fun b => .chunk [b]) [] [] [] (by
      rw [Server.exist_quiet]
      simp) (refDecode_nil _) (by
      rw [refDecode_nil]
      simp) (by
      unfold Server.Arrival.received
      rw [harrivals, hflat]
      simp) (by
      rw [harrivals]
      exact hchunks)
  have hquiet := @run_quiet_tracks [m.cmdid] (m.frame.map fun b => [b]) hchunks (by
    rw [hflat, hdecode]
    simp)
  rw [List.map_map] at hthrough hquiet
  cases hrun : Server.ConnState.run (Server.quietServer [m.cmdid]) (fun _ _ => 0) [] 0 0
      (m.frame.map fun b => .readable (.chunk [b])) with
  | error e => exact (hquiet.of_error hrun).elim
  | ok s =>
    have hsome : s.dispatched = m :: _ := (hthrough.of_ok hrun).1
    have hnone := (hquiet.of_ok hrun).dispatched
    rw [hflat, Server.exist_quiet, hdecode, hsome] at hnone
    cases hnone

/-! ## The two bounds -/

/-- In every run of a client: a message with a body that `send_data` accepts gets through to
every server that knows it exactly when the body keeps to `MSG_LENGTH_LIMIT`. -/
theorem accepted_gets_through_iff (cli : TcpClient) (rawIn rawOut : Nat → UInt8) (c : Connect)
    (events : List ClientEvent) :
    Ends (ClientState.run cli rawIn rawOut c events)
      (fun s => ∀ m s', m.body ≠ [] → s.sendData m.body m.cmdid = .ok (s', 0) →
        (GetsThrough m ↔ m.body.length ≤ msgLengthLimit))
      (fun _ => True) := by
  apply (run_pending cli rawIn rawOut c events).imp _ (fun _ he => he)
  rintro s ⟨pending, w⟩ m s' hbody hsend
  refine ⟨fun hthrough => ?_, getsThrough_of_le hbody⟩
  by_contra hlong
  exact not_getsThrough (by omega) (sendData_fits w hsend) hthrough

/-- A connected client accepts a body one byte over the limit. -/
theorem accepted_does_not_get_through :
    ¬ ∀ (cli : TcpClient) (rawIn rawOut : Nat → UInt8) (c : Connect)
      (events : List ClientEvent),
      Ends (ClientState.run cli rawIn rawOut c events)
        (fun s => ∀ m s', m.body ≠ [] → s.sendData m.body m.cmdid = .ok (s', 0) →
          GetsThrough m)
        (fun _ => True) := by
  intro hall
  have hrun := hall (quietClient [1]) (fun _ => 0) (fun _ => 0) ⟨some 4, .inProgress⟩
    [.io .output noCalls]
  have hpending := run_pending (quietClient [1]) (fun _ => 0) (fun _ => 0) ⟨some 4, .inProgress⟩
    [.io .output noCalls]
  have hobs : (ClientState.run (quietClient [1]) (fun _ => 0) (fun _ => 0) ⟨some 4, .inProgress⟩
      [.io .output noCalls]).toOption.map (fun s => (s.netOk, s.obuf.length, s.obuf.capacity)) =
        some (true, 0, 4194304) := by
    decide +kernel
  obtain ⟨s, heq, hobs⟩ := ok_of_observed hobs
  simp only [Prod.mk.injEq] at hobs
  obtain ⟨hnet, hlen, hcap⟩ := hobs
  obtain ⟨pending, w⟩ := hpending.of_ok heq
  have hempty := w.length
  have hbody : (List.replicate 65529 (0 : UInt8)).length = 65529 := List.length_replicate
  have hlimit : msgLengthLimit = 65528 := rfl
  have hhead : commuHeadLength = 8 := rfl
  obtain ⟨s', hsend⟩ := @sendData_accepts _ _ (List.replicate 65529 0) hnet w (by omega) 1
  have hlong := @not_getsThrough ⟨1, List.replicate 65529 0⟩
    (by simp only [hbody]; omega) (by simp only [hbody]; omega)
  refine hlong (hrun.of_ok heq ⟨1, List.replicate 65529 0⟩ s' ?_ hsend)
  exact List.ne_nil_of_length_pos (by simp only [hbody]; omega)

end EasyReactor.Delivery
