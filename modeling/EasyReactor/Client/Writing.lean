import EasyReactor.Client.Calls
import EasyReactor.Buffer.Transfer

set_option autoImplicit false

/-!
# Client: what `handle_write` makes of `obuf`

The rule for the loop of `handle_write`: bytes move from the front of `obuf` to the socket,
until `obuf` is empty, the socket takes no more, or a `write` fails and the connection is
given up.  `errorLeft` is how many bytes are pending in the last case.
-/

namespace EasyReactor.Client

open EasyReactor.Foundation EasyReactor.Buffer EasyReactor.Loop EasyReactor.Wire

/-- How many of `left` bytes are not written yet when a `write` fails. -/
def errorLeft : Nat → List WriteResult → Option Nat
  | _, [] => none
  | _, .eagain :: _ => none
  | left, .eintr :: ws => errorLeft left ws
  | left, .error :: _ => if left = 0 then none else some left
  | left, .wrote n :: ws => if left = 0 ∨ n = 0 then none else errorLeft (left - n) ws

/-- What comes of a `write` that is not interrupted. -/
theorem errorLeft_uninterrupted (left : Nat) (ws : List WriteResult) :
    errorLeft left ws = match uninterrupted ws with
      | (.wrote n, ws) => if left = 0 ∨ n = 0 then none else errorLeft (left - n) ws
      | (.error, _) => if left = 0 then none else some left
      | (_, _) => none := by
  fun_induction uninterrupted ws with
  | case1 => rfl
  | case2 ws ih => exact ih
  | case3 w ws hw =>
    cases w with
    | eintr => exact absurd rfl hw
    | _ => rfl

theorem errorLeft_eq_none {ws : List WriteResult} (h : .error ∉ ws) (left : Nat) :
    errorLeft left ws = none := by
  fun_induction errorLeft left ws with
  | case1 => rfl
  | case2 => rfl
  | case3 left ws ih => exact ih (List.not_mem_of_not_mem_cons h)
  | case4 => exact absurd (List.mem_cons_self ..) h
  | case5 => exact absurd (List.mem_cons_self ..) h
  | case6 => rfl
  | case7 left n ws _ ih => exact ih (List.not_mem_of_not_mem_cons h)

section

variable {cli : TcpClient} {s : ClientState} {P Q : ClientState → Prop} {E : Nat → Prop}

/-- The rule for the loop: `P` is kept by every `write`, `E` is known of the bytes pending
when one fails, and `Q` is to hold on the next socket. -/
theorem writeLoop_ends
    (hwrote : ∀ {t taken left x}, P t → Pending t (taken ++ left) → Window x 0 left →
      P { t with obuf := x, session := { t.session with sent := t.session.sent ++ taken } })
    (hfailed : ∀ {t t' pending}, P t → Pending t pending → E pending.length → Renewed t t' → Q t')
    (c : Connect) {fuel : Nat} {ws : List WriteResult} (hfuel : ws.length < fuel) (hup : Up s)
    (h : P s) {pending : List UInt8} (w : Pending s pending)
    (hg : ∀ left ∈ errorLeft pending.length ws, E left) :
    Ends (ClientState.writeLoop cli c fuel s ws)
      (fun r => if r.2 then Phase r.1 ∧ Q r.1 else Up r.1 ∧ P r.1)
      (fun e => (∃ left, E left) ∧ (e = .exit ∨ Overflow cli e)) := by
  induction fuel generalizing s pending ws with
  | zero => omega
  | succ fuel ih =>
    rw [ClientState.writeLoop]
    split
    next hlen =>
      rw [w.load_start, ok_bind]
      rw [w.length] at hlen
      rw [errorLeft_uninterrupted] at hg
      have hfst := uninterrupted_fst ws
      cases hws : uninterrupted ws with
      | mk r ws' =>
        rw [hws] at hg hfst
        cases r with
        | eintr => exact ⟨hup, h⟩
        | eagain => exact ⟨hup, h⟩
        | error =>
          have hE : E pending.length := by
            apply hg
            simp only
            rw [if_neg (by omega)]
            rfl
          apply ((cleanConn_ends hup w c).imp (fun _ hr => hr) (fun _ he => ⟨⟨_, hE⟩, he⟩)).bind
          exact fun s' hr => ⟨hr.phase, hfailed h w hE hr⟩
        | wrote n =>
          simp only at hg hfst ⊢
          split
          next => exact ⟨hup, h⟩
          next htaken =>
            have hshort : ws'.length < ws.length := by
              cases hfst with
              | inl heq => cases heq
              | inr hmem => exact hmem.2
            have wsplit : Pending s (pending.take n ++ pending.drop n) := by
              rw [List.take_append_drop]
              exact w
            obtain ⟨x, hx, wx⟩ := wsplit.pop_adjust
            rw [hx, ok_bind]
            refine ih (by omega) ?_ (hwrote h wsplit wx) wx ?_
            · exact hup.congr rfl rfl rfl rfl
            · intro left hleft
              apply hg
              rw [if_neg]
              · rw [List.length_drop] at hleft
                exact hleft
              · rintro (hz | rfl)
                · omega
                · exact htaken rfl
    next => exact ⟨hup, h⟩

/-- The rule for `handle_write`. -/
theorem handleWrite_ends (hup : Up s) (h : P s) {pending : List UInt8} (w : Pending s pending)
    (hwrote : ∀ {t taken left x}, P t → Pending t (taken ++ left) → Window x 0 left →
      P { t with obuf := x, session := { t.session with sent := t.session.sent ++ taken } })
    (hfailed : ∀ {t t' pending}, P t → Pending t pending → E pending.length → Renewed t t' → Q t')
    (hdone : ∀ {t} {evs : EventLoop ClientIo}, P t → Q { t with evs := evs })
    (ws : List WriteResult) (c : Connect)
    (hg : ∀ left ∈ errorLeft s.obuf.length.toNat ws, E left) :
    Ends (s.handleWrite cli ws c) (fun s' => Phase s' ∧ Q s')
      (fun e => s.obuf.length ≠ 0 → (∃ left, E left) ∧ (e = .exit ∨ Overflow cli e)) := by
  rw [w.length, Int.toNat_natCast] at hg
  unfold ClientState.handleWrite
  split
  next =>
    apply ((writeLoop_ends hwrote hfailed c (Nat.lt_succ_self _) hup h w hg).imp (fun _ hr => hr)
      (fun _ he _ => he)).bind
    rintro ⟨t, cleaned⟩ hr
    cases cleaned with
    | true => exact hr
    | false =>
      obtain ⟨hup', ht⟩ : Up t ∧ P t := hr
      simp only
      rw [if_neg (by simp)]
      split
      next =>
        refine ⟨.connected ⟨hup'.netOk, hup'.timers, hup'.sockfd, ?_⟩ ?_, hdone ht⟩
        · exact hup'.listens.delIoevMask _
        · exact fun hw => absurd hw EventLoop.not_watches_delIoevMask
      next hlen => exact ⟨.connected hup' fun _ => hlen, hdone ht⟩
  next hassert => exact fun hlen => absurd ⟨w.head, hlen⟩ hassert

end

end EasyReactor.Client
