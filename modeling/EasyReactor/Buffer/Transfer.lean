import EasyReactor.Buffer.TcpBuffer

set_option autoImplicit false

/-!
# Buffer: bytes in and bytes out

What `read_data`, `send_data` and `write_fd` do to the bytes a `tcp_buffer` holds, one
statement each.  A buffer that holds its bytes at head 0 passes every `assert` on the way.
-/

namespace EasyReactor.Buffer

open EasyReactor.Foundation

namespace TcpBuffer

variable {p : BufferPool} {buf : TcpBuffer} {rest : List BufId} {bs : List UInt8}

theorem setBuf_self (p : BufferPool) (b : BufId) (x : IoBuffer) : (p.setBuf b x).bufs b = x :=
  Function.update_self ..

/-- Bytes behind those of a buffer that has room for them. -/
theorem append_ends {b : BufId} {q : BufferPool} (w : Window (q.bufs b) 0 bs)
    (add : List UInt8) :
    Ends ((q.bufs b).save (q.bufs b).length add)
      (fun x => Holds (q.setBuf b { x with length := wrap (x.length + add.length) }) (some b) 0
          (bs ++ add) ∧ bs.length + add.length ≤ (q.bufs b).capacity)
      (fun e => e = .undefined ∧ (q.bufs b).capacity < bs.length + add.length) := by
  apply (w.append_ends add).imp
  · rintro x ⟨w', hfit⟩
    refine ⟨?_, hfit⟩
    change Window (Function.update q.bufs b _ b) _ _
    rw [Function.update_self]
    exact w'
  · exact fun e he => he

/-- A pop, whatever the buffer holds, touches no other buffer. -/
theorem pop_keeps (h : PoolInv p (buf.toList ++ rest)) (len : Int) :
    Ends (buf.pop p len) (fun r => Keeps rest p r.1 r.2)
      (fun e => e = .assertion .popLength) := by
  cases buf with
  | none => rfl
  | some b =>
    have hk := (Keeps.refl h).setBuf (x := (p.bufs b).pop len) rfl
    unfold pop
    simp only
    split
    · split
      · obtain ⟨q, hq, hk'⟩ := hk.revert
        rw [hq, ok_bind]
        exact hk'
      · exact hk
    · rfl

theorem adjust_keeps (h : PoolInv p (buf.toList ++ rest)) :
    Ends (buf.adjust p) (fun q => Keeps rest p q buf) (fun _ => True) := by
  cases buf with
  | none => exact .refl h
  | some b =>
    unfold adjust
    simp only
    cases hx : (p.bufs b).adjust with
    | error e => trivial
    | ok x => exact (Keeps.refl h).setBuf (IoBuffer.adjust_capacity hx)

/-- A buffer that is there holds at least one byte. -/
def Filled (p : BufferPool) (buf : TcpBuffer) : Prop :=
  ∀ b ∈ buf.toList, 0 < (p.bufs b).length ∧ (p.bufs b).length ≤ 8388608

theorem filled_none (p : BufferPool) : Filled p none := fun _ hb => by cases hb

theorem filled_some {b : BufId} :
    Filled p (some b) ↔ 0 < (p.bufs b).length ∧ (p.bufs b).length ≤ 8388608 :=
  ⟨fun h => h b (List.mem_singleton_self b), fun h a ha => by
    obtain rfl := List.mem_singleton.mp ha
    exact h⟩

/-- Whether a buffer is there shows in its length. -/
theorem Filled.length_pos (h : Filled p buf) : buf ≠ none ↔ 0 < buf.length p := by
  cases buf with
  | none => simp [length]
  | some b => simpa [length] using (filled_some.mp h).1

/-- `tcp_buffer::pop` gives a buffer back rather than keep it empty. -/
theorem Filled.pop (h : Filled p buf) {len : Int} (hlen : 0 ≤ len) :
    Ends (buf.pop p len) (fun r => Filled r.1 r.2) (fun _ => True) := by
  cases buf with
  | none => trivial
  | some b =>
    obtain ⟨hpos, hcap⟩ := filled_some.mp h
    unfold TcpBuffer.pop
    simp only
    split
    next hle =>
      have hwrap : ((p.bufs b).pop len).length = (p.bufs b).length - len :=
        wrap_of_range (by omega) (by omega)
      split
      next hz =>
        apply (Ends.any _).bind
        intro q _
        exact filled_none q
      next hz =>
        apply filled_some.mpr
        rw [setBuf_self]
        omega
    next => trivial

/-- `adjust` moves bytes, and keeps their number. -/
theorem Filled.adjust (h : Filled p buf) :
    Ends (buf.adjust p) (fun q => Filled q buf) (fun _ => True) := by
  cases buf with
  | none => exact h
  | some b =>
    unfold TcpBuffer.adjust
    simp only
    cases hx : (p.bufs b).adjust with
    | error e => trivial
    | ok x =>
      apply filled_some.mpr
      rw [setBuf_self, IoBuffer.adjust_length hx]
      exact filled_some.mp h

/-- Counting in the bytes that were written keeps the pool accounted for. -/
theorem counted {b : BufId} {q : BufferPool} (h : Keeps rest p q (some b)) {x : IoBuffer}
    {off : Int} {add : List UInt8} (hx : (q.bufs b).save off add = .ok x) (n : Int) :
    Keeps rest p (q.setBuf b { x with length := n }) (some b) := by
  have hcap := IoBuffer.save_capacity hx
  exact h.setBuf hcap

/-- `read_data` of a chunk: the bytes are appended, or there is no buffer large enough. -/
theorem readData_ends (h : PoolInv p (buf.toList ++ rest)) (hold : Holds p buf 0 bs)
    (chunk : List UInt8) :
    Ends (readData p buf (.chunk chunk))
      (fun r => Keeps rest p r.1 r.2.1 ∧
        (r.2.2 = chunk.length ∧ (chunk ≠ [] → Holds r.1 r.2.1 0 (bs ++ chunk)) ∧
            bs.length + chunk.length ≤ 8388608 ∨
          r.2.2 = -1 ∧ 8388608 < bs.length + chunk.length))
      (fun e => (e = .exit ∧ 9 ≤ rest.length) ∨
        (e = .undefined ∧ 2147483648 ≤ bs.length + chunk.length)) := by
  unfold readData Recv.chunk
  simp only
  apply ((makeRoom_ends .readHead h chunk.length).imp (fun _ hr => hr)
    (fun e he => (he bs hold).imp_right (And.imp_right (by omega)))).bind
  rintro ⟨q, room⟩ hr
  cases room with
  | none =>
    obtain ⟨rfl, hfull⟩ := hr
    refine ⟨.refl h, .inr ⟨rfl, ?_⟩⟩
    have hbig := hfull bs hold
    omega
  | some b =>
    obtain ⟨hk, hw⟩ := hr
    obtain ⟨w, hroom⟩ := hw bs hold
    have hcap : (q.bufs b).capacity ≤ 8388608 := (hk.inv.capacity (by simp)).2
    simp only
    cases hx : (q.bufs b).save (q.bufs b).length chunk with
    | error e =>
      obtain ⟨he, hlt⟩ := (append_ends w chunk).of_error hx
      refine .inr ⟨he, ?_⟩
      by_contra hno
      have hfit := hroom (by omega)
      exact absurd hlt (Int.not_lt.mpr hfit)
    | ok x =>
      obtain ⟨hx', hfit⟩ := (append_ends w chunk).of_ok hx
      change (bs.length : Int) + chunk.length ≤ (q.bufs b).capacity at hfit
      rw [ok_bind]
      split
      next hnil =>
        have hcap := IoBuffer.save_capacity hx
        refine ⟨hk.setBuf hcap, .inl ⟨?_, fun hne => absurd hnil hne, by omega⟩⟩
        rw [hnil]
        rfl
      next hne =>
        rw [if_pos trivial]
        exact ⟨counted hk hx _, .inl ⟨rfl, fun _ => hx', by omega⟩⟩

/-- `read_data`, whatever the system calls return, touches no other buffer. -/
theorem readData_keeps (h : PoolInv p (buf.toList ++ rest)) (r : Recv) :
    Ends (readData p buf r) (fun r => Keeps rest p r.1 r.2.1) (fun _ => True) := by
  unfold readData
  cases r.fionread with
  | none => exact .refl h
  | some rn =>
    simp only
    apply ((makeRoom_ends .readHead h rn).imp (fun _ hr => hr) (fun _ _ => trivial)).bind
    rintro ⟨q, room⟩ hr
    cases room with
    | none =>
      obtain ⟨rfl, -⟩ := hr
      exact .refl h
    | some b =>
      have hk : Keeps rest p q (some b) := hr.1
      cases r.read with
      | eagain => exact hk
      | error => exact hk
      | bytes bs =>
        simp only
        cases hx : (q.bufs b).save (q.bufs b).length bs with
        | error e => trivial
        | ok x =>
          rw [ok_bind]
          split
          · exact hk.setBuf (IoBuffer.save_capacity hx)
          · split
            · exact counted hk hx _
            · trivial

/-- A read that delivers bytes leaves them in the buffer, whatever it held before. -/
theorem readData_filled (h : PoolInv p (buf.toList ++ rest)) (r : Recv) :
    Ends (readData p buf r) (fun r => r.2.2 ≠ -1 → r.2.2 ≠ 0 → Filled r.1 r.2.1)
      (fun _ => True) := by
  unfold readData
  cases r.fionread with
  | none => exact fun hne => absurd rfl hne
  | some rn =>
    simp only
    apply ((makeRoom_ends .readHead h rn).imp (fun _ hr => hr) (fun _ _ => trivial)).bind
    rintro ⟨q, room⟩ hr
    cases room with
    | none => exact fun hne => absurd rfl hne
    | some b =>
      have hk : Keeps rest p q (some b) := hr.1
      have hcap : (q.bufs b).capacity ≤ 8388608 := (hk.inv.capacity (by simp)).2
      cases r.read with
      | eagain => exact fun hne => absurd rfl hne
      | error => exact fun hne => absurd rfl hne
      | bytes bs =>
        simp only
        cases hx : (q.bufs b).save (q.bufs b).length bs with
        | error e => trivial
        | ok x =>
          rw [ok_bind]
          split
          · exact fun _ hne => absurd rfl hne
          next hne =>
            split
            · intro _ _
              have hpos := List.length_pos_iff.mpr hne
              have hin := IoBuffer.save_bounds hx
              apply filled_some.mpr
              rw [setBuf_self, IoBuffer.save_eq hx]
              simp only
              rw [wrap_of_range (by omega) (by omega)]
              omega
            · trivial

/-- `send_data`, whatever the buffer holds, touches no other buffer. -/
theorem sendData_keeps (h : PoolInv p (buf.toList ++ rest)) (data : List UInt8) :
    Ends (sendData p buf data) (fun r => Keeps rest p r.1 r.2.1) (fun _ => True) := by
  unfold sendData
  apply ((makeRoom_ends .sendHead h data.length).imp (fun _ hr => hr) (fun _ _ => trivial)).bind
  rintro ⟨q, room⟩ hr
  cases room with
  | none =>
    obtain ⟨rfl, -⟩ := hr
    exact .refl h
  | some b =>
    apply (Ends.any _).bind_eq (fun _ _ => trivial)
    intro x hx _
    exact counted hr.1 hx _

/-- How a `send_data` on a buffer that holds `bs` returns: there is no buffer large enough and
nothing changes, or the bytes are appended. -/
inductive Appended (rest : List BufId) (p : BufferPool) (buf : TcpBuffer) (bs data : List UInt8) :
    BufferPool × TcpBuffer × Int → Prop where
  | refused (full : bs.length + data.length < 2147483648 → 8388608 < bs.length + data.length) :
      Appended rest p buf bs data (p, buf, -1)
  | appended {q : BufferPool} {buf' : TcpBuffer} (keeps : Keeps rest p q buf')
      (made : buf' ≠ none) (held : Holds q buf' 0 (bs ++ data))
      (fits : bs.length + data.length ≤ 8388608) : Appended rest p buf bs data (q, buf', 0)

/-- `send_data` on a buffer that holds `bs`.  Away from head 0 its `assert` fails; at head 0
what can go wrong is the memory limit, as long as the sum of the lengths does not overflow. -/
theorem sendData_ends (h : PoolInv p (buf.toList ++ rest)) {off : Nat} (hold : Holds p buf off bs)
    (data : List UInt8) :
    Ends (sendData p buf data) (Appended rest p buf bs data)
      (fun e => off = 0 → bs.length + data.length < 2147483648 → e = .exit ∧ 9 ≤ rest.length) := by
  by_cases hmoved : ∃ b, buf = some b ∧ off ≠ 0
  · obtain ⟨b, rfl, hoff⟩ := hmoved
    have hhead : (p.bufs b).head ≠ 0 := by
      rw [Window.head hold]
      omega
    unfold sendData makeRoom
    simp only
    rw [if_pos hhead]
    exact fun hzero => absurd hzero hoff
  · have hold₀ : Holds p buf 0 bs := by
      apply hold.at_head
      rintro b rfl
      have hzero : off = 0 := by
        by_contra hoff
        exact hmoved ⟨b, rfl, hoff⟩
      rw [Window.head hold, hzero]
      rfl
    unfold sendData
    apply ((makeRoom_ends .sendHead h data.length).imp (fun _ hr => hr) _).bind
    · rintro ⟨q, room⟩ hr
      cases room with
      | none =>
        obtain ⟨rfl, hlarge⟩ := hr
        refine .refused fun hlt => ?_
        have hfull := hlarge bs hold₀ (by omega)
        omega
      | some b =>
        obtain ⟨hk, hw⟩ := hr
        obtain ⟨w, hroom⟩ := hw bs hold₀
        have hcap : (q.bufs b).capacity ≤ 8388608 := (hk.inv.capacity (by simp)).2
        apply (append_ends w data).bind_eq
        · rintro e ⟨-, hfull⟩ - hlt
          exact absurd hfull (Int.not_lt.mpr (hroom (by omega)))
        · rintro x hx ⟨hheld, hfits⟩
          have hfits : (bs.length : Int) + data.length ≤ (q.bufs b).capacity := hfits
          exact .appended (counted hk hx _) (by simp) hheld (by omega)
    · intro e he _ hlt
      cases he bs hold₀ with
      | inl hexit => exact hexit
      | inr hover => omega

end TcpBuffer

/-! ## `write` -/

theorem uninterrupted_suffix (ws : List WriteResult) : (uninterrupted ws).2 <:+ ws := by
  fun_induction uninterrupted ws with
  | case1 => exact List.suffix_refl _
  | case2 ws ih => exact ih.trans (List.suffix_cons _ _)
  | case3 w ws => exact List.suffix_cons _ _

/-- A result other than the `EAGAIN` of an empty list was taken off the list. -/
theorem uninterrupted_fst (ws : List WriteResult) :
    (uninterrupted ws).1 = .eagain ∨
      (uninterrupted ws).1 ∈ ws ∧ (uninterrupted ws).2.length < ws.length := by
  fun_induction uninterrupted ws with
  | case1 => exact .inl rfl
  | case2 ws ih =>
    apply ih.imp_right
    rintro ⟨hmem, hlen⟩
    refine ⟨List.mem_cons_of_mem _ hmem, ?_⟩
    rw [List.length_cons]
    omega
  | case3 w ws => exact .inr ⟨List.mem_cons_self .., by simp⟩

namespace TcpBuffer

variable {p : BufferPool} {rest : List BufId} {bs : List UInt8}

/-- `write_fd`: what the socket took is gone from the front of the buffer.  A buffer that
holds its bytes at head 0 passes the `assert`. -/
theorem writeFd_ends {b : BufId} (h : PoolInv p (b :: rest)) (ws : List WriteResult) :
    Ends (writeFd p (some b) ws)
      (fun r => Keeps rest p r.pool (some b) ∧ r.script <:+ ws ∧
        (r.ret = r.taken.length ∧ r.taken ≠ [] ∧ r.script.length < ws.length ∨
          r.ret = 0 ∧ r.taken = [] ∨ r.ret = -1 ∧ r.taken = [] ∧ .error ∈ ws) ∧
        ∀ bs, Window (p.bufs b) 0 bs →
          ∃ left, bs = r.taken ++ left ∧ Holds r.pool (some b) 0 left)
      (fun _ => ∀ bs, ¬ Window (p.bufs b) 0 bs) := by
  have hk : Keeps rest p p (some b) := .refl h
  have hnone : ∀ bs, Window (p.bufs b) 0 bs → ∃ left, bs = [] ++ left ∧ Holds p (some b) 0 left :=
    fun bs w => ⟨bs, rfl, w⟩
  have hsuffix := uninterrupted_suffix ws
  have hfst := uninterrupted_fst ws
  unfold writeFd
  simp only
  split
  next hhead =>
    intro bs w
    exact absurd w.head hhead
  next hhead =>
    cases hload : (p.bufs b).load 0 (p.bufs b).length with
    | error e =>
      intro bs w
      rw [w.load_start] at hload
      cases hload
    | ok offered =>
      have hoffered : ∀ bs, Window (p.bufs b) 0 bs → offered = bs := by
        intro bs w
        rw [w.load_start] at hload
        exact (Except.ok.inj hload).symm
      rw [ok_bind]
      cases hws : uninterrupted ws with
      | mk r ws' =>
        rw [hws] at hsuffix hfst
        cases r with
        | wrote n =>
          obtain ⟨left, hleft⟩ := List.take_prefix n offered
          simp only
          generalize offered.take n = taken at hleft ⊢
          split
          next hz => exact ⟨hk, hsuffix, .inr (.inl ⟨rfl, rfl⟩), hnone⟩
          next hz =>
            cases hx : ((p.bufs b).pop taken.length).adjust with
            | error e =>
              intro bs w
              rw [← hoffered bs w, ← hleft] at w
              obtain ⟨x, hx', -⟩ := w.pop_adjust
              rw [hx] at hx'
              cases hx'
            | ok x =>
              have hcap := IoBuffer.adjust_capacity hx
              refine ⟨hk.setBuf hcap, hsuffix, .inl ⟨rfl, hz, ?_⟩, ?_⟩
              · exact (hfst.resolve_left (by simp)).2
              · intro bs w
                have hbs : bs = taken ++ left := (hoffered bs w).symm.trans hleft.symm
                refine ⟨left, hbs, ?_⟩
                rw [hbs] at w
                obtain ⟨x', hx', w'⟩ := w.pop_adjust
                rw [hx] at hx'
                obtain rfl := Except.ok.inj hx'
                change Window (Function.update p.bufs b x b) _ _
                rw [Function.update_self]
                exact w'
        | error =>
          refine ⟨hk, hsuffix, .inr (.inr ⟨rfl, rfl, ?_⟩), hnone⟩
          exact (hfst.resolve_left (by simp)).1
        | eagain => exact ⟨hk, hsuffix, .inr (.inl ⟨rfl, rfl⟩), hnone⟩
        | eintr => exact ⟨hk, hsuffix, .inr (.inl ⟨rfl, rfl⟩), hnone⟩

/-- `write_fd` returns only for a window at head 0. -/
theorem writeFd_head {b : BufId} {ws : List WriteResult} {r : Written}
    (h : writeFd p (some b) ws = .ok r) : (p.bufs b).head = 0 := by
  unfold writeFd at h
  simp only at h
  split at h
  · cases h
  next hhead => exact not_not.mp hhead

/-- What the socket takes of the bytes a buffer holds, at one `write_fd`. -/
theorem writeFd_taken {b : BufId} {ws : List WriteResult} {r : Written}
    (w : Window (p.bufs b) 0 bs) (h : writeFd p (some b) ws = .ok r) (htaken : r.taken ≠ []) :
    ∃ n, uninterrupted ws = (.wrote n, r.script) ∧ r.taken = bs.take n := by
  have hhead := writeFd_head h
  unfold writeFd at h
  simp only at h
  rw [if_neg (not_not.mpr hhead), w.load_start, ok_bind] at h
  cases hws : uninterrupted ws with
  | mk res ws' =>
    rw [hws] at h
    cases res with
    | wrote n =>
      simp only at h
      split at h
      · obtain rfl := Except.ok.inj h
        exact absurd rfl htaken
      · obtain ⟨x, -, h⟩ := bind_eq_ok.mp h
        obtain rfl := Except.ok.inj h
        exact ⟨n, rfl, rfl⟩
    | error =>
      obtain rfl := Except.ok.inj h
      exact absurd rfl htaken
    | eagain =>
      obtain rfl := Except.ok.inj h
      exact absurd rfl htaken
    | eintr =>
      obtain rfl := Except.ok.inj h
      exact absurd rfl htaken

/-- A `write` that takes something returns, and leaves the rest at head 0. -/
theorem writeFd_wrote {b : BufId} {ws ws' : List WriteResult} {n : Nat}
    (w : Window (p.bufs b) 0 bs) (hbs : bs ≠ []) (hn : n ≠ 0)
    (hws : uninterrupted ws = (.wrote n, ws')) :
    ∃ q, writeFd p (some b) ws = .ok ⟨q, bs.take n, (bs.take n).length, ws'⟩ ∧
      Window (q.bufs b) 0 (bs.drop n) := by
  have htake : bs.take n ≠ [] := by simp [hbs, hn]
  have hsplit : Window (p.bufs b) 0 (bs.take n ++ bs.drop n) := by
    rw [List.take_append_drop]
    exact w
  obtain ⟨x, hx, w'⟩ := hsplit.pop_adjust
  have hhead : (p.bufs b).head = 0 := w.head
  refine ⟨p.setBuf b x, ?_, ?_⟩
  · unfold writeFd
    simp only
    rw [if_neg (not_not.mpr hhead), w.load_start, ok_bind, hws]
    simp only
    rw [if_neg htake, hx, ok_bind]
    rfl
  · rw [setBuf_self]
    exact w'

end TcpBuffer

end EasyReactor.Buffer
