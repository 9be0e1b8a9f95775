/-
The system state the socket shims of `c/socket.c` act on, and the primitives they call.

The shims call into the kernel through `accept`, `fcntl` and `ax_sendmsg`, and report
failure through `errno`. None of these is in the sources: `accept` and `ax_sendmsg` are
taken as parameters (any transition of the state, with the one promise `accept4` relies
on), and `fcntl` is modelled from the spec for the two commands the shims use, `F_SETFD`
and `F_SETFL`. The state is what those calls read and write: the descriptor table with each
descriptor's fd flags and file status flags, the pending-connection queue of each listening
descriptor, `errno`, and the diagnostics `unimplemented` prints.

The constants are the Linux values the C library's headers (`errno.h`, `fcntl.h`,
`sys/socket.h`) define; the headers are not part of the sources.
-/
import Mathlib

set_option autoImplicit false

namespace Axlibc.Kernel

/-! ## Constants -/

/-- `EBADF`. -/
def EBADF : Int := 9

/-- `ENOMEM`. -/
def ENOMEM : Int := 12

/-- `EINVAL`. -/
def EINVAL : Int := 22

/-- `F_SETFD`. -/
def F_SETFD : Int := 2

/-- `F_SETFL`. -/
def F_SETFL : Int := 4

/-- `FD_CLOEXEC`. -/
def FD_CLOEXEC : BitVec 32 := 1

/-- `O_NONBLOCK`. -/
def O_NONBLOCK : BitVec 32 := 0o4000

/-- `SOCK_NONBLOCK`, equal to `O_NONBLOCK`. -/
def SOCK_NONBLOCK : BitVec 32 := 0o4000

/-- `SOCK_CLOEXEC`, equal to `O_CLOEXEC`. -/
def SOCK_CLOEXEC : BitVec 32 := 0o2000000

/-! ## State -/

/-- What the descriptor table holds for an open descriptor: its fd flags (`F_SETFD`) and
its file status flags (`F_SETFL`). -/
structure FdEntry where
  fd_flags : BitVec 32
  status_flags : BitVec 32
  deriving DecidableEq, Repr

/-- One line `unimplemented` prints: the function, and the arguments it was given. -/
structure Diag where
  func : String
  args : List Int
  deriving DecidableEq, Repr

/-- The state the shims and the primitives under them act on. Peers waiting on a listening
descriptor are named by the address `accept` reports for them. -/
structure Sys where
  fds : Int → Option FdEntry
  pending : Int → List Nat
  errno : Int
  diags : List Diag

/-! ## `fcntl` -/

/-- Modelled from the spec: `fcntl(fd, F_SETFD, arg)` replaces the fd flags of an open
descriptor and `fcntl(fd, F_SETFL, arg)` its file status flags, both returning `0`; a
descriptor that is not open fails with `EBADF`, any other command with `EINVAL`. -/
def fcntl (fd cmd : Int) (arg : BitVec 32) (s : Sys) : Int × Sys :=
  match s.fds fd with
  | none => (-1, { s with errno := EBADF })
  | some e =>
    if cmd = F_SETFD then
      (0, { s with fds := Function.update s.fds fd (some { e with fd_flags := arg }) })
    else if cmd = F_SETFL then
      (0, { s with fds := Function.update s.fds fd (some { e with status_flags := arg }) })
    else (-1, { s with errno := EINVAL })

/-- `F_SETFD` on an open descriptor: only that descriptor's fd flags change. -/
theorem fcntl_setfd {fd : Int} {s : Sys} {e : FdEntry} (h : s.fds fd = some e) (arg : BitVec 32) :
    fcntl fd F_SETFD arg s =
      (0, { s with fds := Function.update s.fds fd (some { e with fd_flags := arg }) }) := by
  simp [fcntl, h]

/-- `F_SETFL` on an open descriptor: only that descriptor's status flags change. -/
theorem fcntl_setfl {fd : Int} {s : Sys} {e : FdEntry} (h : s.fds fd = some e) (arg : BitVec 32) :
    fcntl fd F_SETFL arg s =
      (0, { s with fds := Function.update s.fds fd (some { e with status_flags := arg }) }) := by
  simp [fcntl, h, F_SETFL, F_SETFD]

/-! ## The primitives under the shims -/

/-- `accept(fd, addr, len)` as the kernel runs it: any transition of the state, with the
one promise the shim relies on, that a descriptor it returns (a result `≥ 0`) is open
afterwards. `addr` and `len` are the caller's out-parameters, passed through. -/
structure AcceptPrim where
  run : Int → Nat → Nat → Sys → Int × Sys
  returns_open : ∀ fd addr len s, 0 ≤ (run fd addr len s).1 →
    ((run fd addr len s).2.fds (run fd addr len s).1).isSome

end Axlibc.Kernel
