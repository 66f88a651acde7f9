import Mathlib.Algebra.Group.Nat.Defs
import Mathlib.Data.Int.Basic

set_option autoImplicit false

/-!
# Machine: how a modelled call can end

A C++ call either returns, or ends the process.  Every modelled function that can
end the process returns `Except Fault _`; the reasons are kept apart, because
several results are about one of them only (an `assert` that fails is not the
memory limit of the buffer pool being reached).
-/

namespace EasyReactor

/-- The `assert`s of the modelled functions, one constructor each. -/
inductive Assertion where
  /-- `buffer_pool::revert`: `_pool.find(index) != _pool.end()` -/
  | revertIndex
  /-- `tcp_buffer::pop`: `_buf && len <= _buf->length` -/
  | popLength
  /-- `input_buffer::read_data`: `_buf->head == 0` -/
  | readHead
  /-- `input_buffer::read_data` and `tcp_client::handle_read`: `ret == rn` -/
  | readCount
  /-- `output_buffer::send_data`: `_buf->head == 0` -/
  | sendHead
  /-- `output_buffer::write_fd`: `_buf && _buf->head == 0` -/
  | writeHead
  /-- `msg_dispatcher::cb`: `exist(cmdid)` -/
  | cbExist
  /-- `tcp_client::handle_read`: `net_ok` -/
  | clientNetOk
  /-- `tcp_client::handle_read`: `rn <= ibuf.capacity - ibuf.length` -/
  | clientSpace
  /-- `tcp_client::handle_read`: `errno != EAGAIN` -/
  | clientErrno
  /-- `tcp_client::handle_write`: `obuf.head == 0 && obuf.length` -/
  | clientWrite
  /-- `event_loop::process_evs`: `it != _io_evs.end()` -/
  | ioevFound
  /-- `tcp_server::do_accept`: `connfd < _conns_size` -/
  | connfdRange
  deriving DecidableEq, Repr

/-- Why a call did not return. -/
inductive Fault where
  /-- an `assert` failed -/
  | assertion (which : Assertion)
  /-- `::exit`, by `exit_if`, `exit_log` or directly -/
  | exit
  /-- undefined behaviour: an access outside an object or through `NULL` -/
  | undefined
  /-- the budget of a modelled loop ran out; the loops are shown never to need more -/
  | fuel
  /-- the process ended inside a user callback -/
  | callback (inner : Fault)
  deriving DecidableEq, Repr

/-- A fault of the running code itself: no `::exit`, and none inside a user callback. -/
def Fault.Own : Fault → Prop
  | .assertion _ => True
  | .undefined => True
  | .fuel => True
  | .exit => False
  | .callback _ => False

/-! ## `int` arithmetic -/

/-- The result of an `int` operation; overflow is undefined. -/
def intResult (x : Int) : Except Fault Int :=
  if -2147483648 ≤ x ∧ x < 2147483648 then .ok x else .error .undefined

theorem intResult_eq_ok {x y : Int} (h : intResult x = .ok y) : y = x := by
  unfold intResult at h
  split at h
  · exact (Except.ok.inj h).symm
  · cases h

theorem intResult_eq_error {x : Int} {f : Fault} (h : intResult x = .error f) :
    f = .undefined ∧ ¬(-2147483648 ≤ x ∧ x < 2147483648) := by
  unfold intResult at h
  split at h
  · cases h
  · rename_i hrange
    exact ⟨(Except.error.inj h).symm, hrange⟩

/-- A 32-bit two's complement `int`: the value a mathematical integer wraps to. -/
@[irreducible] def wrap (x : Int) : Int := Int.bmod x (2 ^ 32)

theorem wrap_of_range {x : Int} (hlo : -2147483648 ≤ x) (hhi : x < 2147483648) :
    wrap x = x := by
  unfold wrap
  rw [Int.bmod_def]
  split <;> omega

theorem wrap_of_overflow {x : Int} (hlo : 2147483648 ≤ x) (hhi : x < 6442450944) :
    wrap x = x - 4294967296 := by
  unfold wrap
  rw [Int.bmod_def]
  split <;> omega

theorem wrap_bounds (x : Int) : -2147483648 ≤ wrap x ∧ wrap x < 2147483648 := by
  unfold wrap
  rw [Int.bmod_def]
  split <;> omega

end EasyReactor
