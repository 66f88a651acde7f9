import EasyReactor.Server.Decoding

set_option autoImplicit false

/-!
# Server: the frame that fails an `assert`

A registered frame without a body, arriving so that it ends what is buffered, makes
`tcp_buffer::pop` fail its `assert`.  Nothing else a peer can send does.
-/

namespace EasyReactor.Server

open EasyReactor.Foundation EasyReactor.Buffer EasyReactor.Loop EasyReactor.Wire

/-- Every chunk is there and fits the largest buffer together with what is left of the
stream before it. -/
def Accepted (registered : Int32 → Bool) (chunks : List (List UInt8)) : Prop :=
  ∀ pre chunk post, chunks = pre ++ chunk :: post → chunk ≠ [] ∧
    ∀ r, (refDecode registered pre.flatten).rest = some r →
      r.length + chunk.length ≤ 8388608

theorem Accepted.concat {registered : Int32 → Bool} {chunks : List (List UInt8)}
    {chunk : List UInt8} (h : Accepted registered chunks) (hne : chunk ≠ [])
    (hfits : ∀ r, (refDecode registered chunks.flatten).rest = some r →
      r.length + chunk.length ≤ 8388608) : Accepted registered (chunks ++ [chunk]) := by
  intro a c b hab
  cases List.eq_nil_or_concat b with
  | inl hb =>
    subst hb
    obtain ⟨rfl, hc⟩ := List.append_inj' hab rfl
    obtain rfl := (List.cons.inj hc).1
    exact ⟨hne, hfits⟩
  | inr hb =>
    obtain ⟨b', x, rfl⟩ := hb
    apply h a c b'
    rw [List.concat_eq_append, ← List.cons_append, ← List.append_assoc] at hab
    exact (List.append_inj' hab rfl).1

/-- The chunks end with a registered frame without a body, and all of them are read. -/
def EndsInEmptyFrame (registered : Int32 → Bool) (chunks : List (List UInt8)) : Prop :=
  Accepted registered chunks ∧ EndsEmpty (refDecode registered chunks.flatten)

/-! ## No other stream fails an `assert` -/

/-- The state after the chunks `cs`: they were all read, or the connection is cleaned. -/
def Reads (srv : TcpServer) (cs : List (List UInt8)) (s : ConnState) : Prop :=
  (Accepted srv.dispatcher.exist cs ∧ Tracks srv cs.flatten s) ∨ Cleaned s

theorem Reads.step {srv : TcpServer} {s : ConnState} {done : List Arrival}
    (h : Reads srv (Arrival.chunks done) s) (a : Arrival)
    (hno : ¬ EndsInEmptyFrame srv.dispatcher.exist (Arrival.chunks (done ++ [a]))) :
    Ends (s.step srv a.event) (Reads srv (Arrival.chunks (done ++ [a])))
      (fun e => ∀ which, e ≠ .assertion which) := by
  cases a with
  | others c =>
    rw [Arrival.chunks_append, Arrival.chunks_others, List.append_nil]
    have hexit : ∀ e : Fault, e = .exit → ∀ which, e ≠ .assertion which := by
      rintro _ rfl which
      simp
    cases h with
    | inl htracks =>
      exact (htracks.2.step_others c).imp (fun _ hs => .inl ⟨htracks.1, hs⟩) hexit
    | inr hc => exact (step_others_cleaned hc c).imp (fun _ hs => .inr hs.1) hexit
  | chunk bs =>
    rw [Arrival.chunks_append, Arrival.chunks_chunk] at hno ⊢
    have hflat : (Arrival.chunks done ++ [bs]).flatten = (Arrival.chunks done).flatten ++ bs := by
      simp
    cases h with
    | inr hc =>
      rw [show Arrival.event (.chunk bs) = .readable (.chunk bs) from rfl, step_cleaned hc]
      exact .inr hc
    | inl htracks =>
      obtain ⟨hacc, htr⟩ := htracks
      cases hr : (refDecode srv.dispatcher.exist (Arrival.chunks done).flatten).rest with
      | none =>
        have hc := htr.cleaned hr
        rw [show Arrival.event (.chunk bs) = .readable (.chunk bs) from rfl, step_cleaned hc]
        exact .inr hc
      | some r =>
        have hconcat : bs ≠ [] → r.length + bs.length ≤ 8388608 →
            Accepted srv.dispatcher.exist (Arrival.chunks done ++ [bs]) := by
          intro hne hfits
          apply hacc.concat hne
          intro r' hr'
          rw [hr] at hr'
          obtain rfl := Option.some.inj hr'
          exact hfits
        apply (htr.step_chunk hr bs).imp
        · rintro s' (⟨hne, hfits, htr', -⟩ | ⟨-, hc, -⟩)
          · refine .inl ⟨hconcat hne hfits, ?_⟩
            rw [hflat]
            exact htr'
          · exact .inr hc
        · intro e he which
          cases he with
          | early he =>
            rcases he.1 with rfl | ⟨g, rfl⟩
            · simp
            · simp
          | overflow he hover =>
            subst he
            simp
          | empty he hne hfits hend =>
            rw [← endsEmpty_stream _ hr hne, ← hflat] at hend
            exact absurd ⟨hconcat hne hfits, hend⟩ hno

/-- A run in which no prefix of the chunks ends in an empty frame fails no `assert`. -/
theorem run_no_assertion (srv : TcpServer) (raw : BufId → Nat → UInt8)
    (before : List PoolCommand) (connfd loop : Nat) (arrivals : List Arrival)
    (hno : ∀ pre, pre <+: Arrival.chunks arrivals →
      ¬ EndsInEmptyFrame srv.dispatcher.exist pre) :
    Ends (ConnState.run srv raw before connfd loop (arrivals.map Arrival.event))
      (fun _ => True) (fun e => ∀ which, e ≠ .assertion which) := by
  rw [run_eq]
  apply ((start_ends srv raw before connfd loop).imp (fun _ hs => hs) _).bind
  · rintro s₀ ⟨h₀, hd₀, -⟩
    rw [List.foldlM_map]
    have hstart : Reads srv (Arrival.chunks []) s₀ :=
      .inl ⟨fun pre chunk post h => by simp [Arrival.chunks] at h, h₀.tracks hd₀⟩
    have hrun : Ends (arrivals.foldlM (fun s a => s.step srv (Arrival.event a)) s₀)
        (Reads srv (Arrival.chunks arrivals)) (fun e => ∀ which, e ≠ .assertion which) := by
      apply Ends.foldlM (P := fun done s => Reads srv (Arrival.chunks done) s) _ hstart
      intro done a post s hsplit h
      apply h.step a
      apply hno
      have hall : arrivals = done ++ [a] ++ post := by
        rw [hsplit, List.append_assoc]
        rfl
      rw [hall, Arrival.chunks_append (done ++ [a])]
      exact List.prefix_append _ _
    exact hrun.imp (fun _ _ => trivial) (fun _ he => he)
  · rintro e (⟨rfl, -⟩ | ⟨⟨g, rfl⟩, -⟩) which
    · simp
    · simp

/-! ## An empty frame at the end does -/

/-- The `assert` fails for some server, on some pool. -/
theorem run_quiet_aborts {table : List Int32} {chunks : List (List UInt8)}
    (h : EndsInEmptyFrame table.contains chunks) (more : List (List UInt8)) :
    ConnState.run (quietServer table) (fun _ _ => 0) [] 0 0
        ((chunks ++ more).map fun bs => .readable (.chunk bs)) =
      .error (.assertion .popLength) := by
  obtain ⟨hacc, hempty⟩ := h
  have hex := exist_quiet table
  have hopen : ∀ pre, pre <+: chunks → (refDecode table.contains pre.flatten).rest ≠ none := by
    rintro pre ⟨post, rfl⟩ hnone
    have hrest := hempty.1
    rw [List.flatten_append, refDecode_stuck hnone, hnone] at hrest
    cases hrest
  rw [run_eq]
  have hstart := start_ends (quietServer table) (fun _ _ => 0) [] 0 0
  cases hs₀ : ConnState.start (quietServer table) (fun _ _ => 0) [] 0 0 with
  | error e =>
    rcases hstart.of_error hs₀ with ⟨-, hne⟩ | ⟨-, hne⟩
    · exact absurd rfl hne
    · exact absurd rfl hne
  | ok s₀ =>
    obtain ⟨h₀, hd₀, hquiet⟩ := hstart.of_ok hs₀
    obtain ⟨hobuf, -, hothers⟩ := hquiet rfl
    rw [ok_bind, List.map_append, List.foldlM_append, List.foldlM_map]
    have hrun : Ends (chunks.foldlM (fun s bs => s.step (quietServer table)
          (.readable (.chunk bs))) s₀)
        (fun s => Silent (quietServer table) s ∧ Tracks (quietServer table) chunks.flatten s ∧
          ¬ EndsEmpty (refDecode table.contains chunks.flatten))
        (fun e => e = .assertion .popLength) := by
      apply Ends.foldlM (P := fun done s => Silent (quietServer table) s ∧
        Tracks (quietServer table) done.flatten s ∧
          ¬ EndsEmpty (refDecode table.contains done.flatten))
      · rintro done bs post s hsplit ⟨hsil, htr, -⟩
        obtain ⟨hne, hfits⟩ := hacc done bs post hsplit
        have hdone : done <+: chunks := ⟨bs :: post, hsplit.symm⟩
        obtain ⟨r, hr⟩ := Option.ne_none_iff_exists'.mp (hopen done hdone)
        have hr' : (refDecode (quietServer table).dispatcher.exist done.flatten).rest = some r := by
          rw [hex]
          exact hr
        have hfit := hfits r hr
        have hflat : (done ++ [bs]).flatten = done.flatten ++ bs := by simp
        rw [hflat]
        apply (htr.step_chunk hr' bs).imp
        · rintro s' (⟨-, -, htr', hend, hsil'⟩ | ⟨hdrop, -⟩)
          · rw [hex] at hend
            exact ⟨hsil' hsil, htr', hend⟩
          · cases hdrop with
            | inl hnil => exact absurd hnil hne
            | inr hbig => omega
        · intro e he
          cases he with
          | early he => exact absurd hsil he.2
          | overflow he hover => omega
          | empty he => exact he
      · refine ⟨silent_quiet hobuf (hothers rfl), h₀.tracks hd₀, ?_⟩
        exact not_endsEmpty_of_nil (by simp)
    cases hfold : chunks.foldlM (fun s bs => s.step (quietServer table)
        (.readable (.chunk bs))) s₀ with
    | ok s => exact absurd hempty (hrun.of_ok hfold).2.2
    | error e =>
      have he := hrun.of_error hfold
      subst he
      rfl

/-- A server with the dispatcher table `table` survives the chunks, whatever its callbacks
and the rest of the process do, exactly when no prefix of them ends in an empty frame. -/
theorem no_assertion_iff (table : List Int32) (chunks : List (List UInt8)) :
    (∀ (srv : TcpServer) (raw : BufId → Nat → UInt8) (before : List PoolCommand)
        (connfd loop : Nat) (arrivals : List Arrival),
        (∀ cmdid, srv.dispatcher.exist cmdid = table.contains cmdid) →
        Arrival.chunks arrivals = chunks → ∀ which,
        ConnState.run srv raw before connfd loop (arrivals.map Arrival.event) ≠
          .error (.assertion which)) ↔
      ∀ pre, pre <+: chunks → ¬ EndsInEmptyFrame table.contains pre := by
  constructor
  · rintro hall pre ⟨more, rfl⟩ hend
    have hchunks : Arrival.chunks ((pre ++ more).map Arrival.chunk) = pre ++ more := by
      unfold Arrival.chunks
      rw [List.filterMap_map]
      exact List.filterMap_some
    apply hall (quietServer table) (fun _ _ => 0) [] 0 0 ((pre ++ more).map Arrival.chunk)
      (fun cmdid => by rw [exist_quiet]) hchunks .popLength
    rw [List.map_map]
    exact run_quiet_aborts hend more
  · intro hno srv raw before connfd loop arrivals hexist hchunks which herr
    have hex : srv.dispatcher.exist = table.contains := funext hexist
    have hrun := run_no_assertion srv raw before connfd loop arrivals (by
      rw [hchunks, hex]
      exact hno)
    exact hrun.of_error herr which rfl

/-- A single frame without a body, read by a server that has a callback for it. -/
theorem empty_frame_aborts :
    ConnState.run (quietServer [1]) (fun _ _ => 0) [] 0 0
        [.readable (.chunk (Msg.mk 1 []).frame)] =
      .error (.assertion .popLength) := by
  have hsend : (Msg.mk 1 []).Sendable ([1] : List Int32).contains := ⟨by decide, by decide⟩
  have hdecode : refDecode ([1] : List Int32).contains (Msg.mk 1 []).frame =
      ⟨[Msg.mk 1 []], some []⟩ := by
    have hframe := refDecode_frame hsend []
    rwa [List.append_nil, refDecode_nil] at hframe
  have hacc : Accepted ([1] : List Int32).contains [] := by
    intro pre chunk post h
    cases pre <;> cases h
  have hend : EndsInEmptyFrame ([1] : List Int32).contains [(Msg.mk 1 []).frame] := by
    refine ⟨hacc.concat (by decide) ?_, ?_⟩
    · intro r hr
      rw [List.flatten_nil, refDecode_nil] at hr
      obtain rfl := Option.some.inj hr
      decide
    · rw [List.flatten_singleton, hdecode]
      exact ⟨rfl, _, rfl, rfl⟩
  exact run_quiet_aborts hend []

end EasyReactor.Server
