/-
`accept4`, `getsockopt` and `setsockopt` of `c/socket.c`.

    int accept4(int fd, struct sockaddr *restrict addr, socklen_t *restrict len, int flg)
    {
        if (!flg)
            return accept(fd, addr, len);
        if (flg & ~(SOCK_CLOEXEC | SOCK_NONBLOCK)) {
            errno = EINVAL;
            return -1;
        }
        int ret = accept(fd, addr, len);
        if (ret < 0)
            return ret;
        if (flg & SOCK_CLOEXEC)
            fcntl(ret, F_SETFD, FD_CLOEXEC);
        if (flg & SOCK_NONBLOCK)
            fcntl(ret, F_SETFL, O_NONBLOCK);
        return ret;
    }

`accept` is any transition of the state that returns an open descriptor when it succeeds
(`AcceptPrim`), so the results hold whatever the kernel's `accept` does. The results of the
two `fcntl` calls are ignored, as in the source; on the descriptor `accept` has just
returned they cannot fail (`fcntl_setfd`, `fcntl_setfl`). `accept4_spec` gives the four
outcomes. A rejected flag word does not depend on `accept` at all: no pending connection is
consumed. `accept_returning` is one such primitive, over which the success branch is taken
(`accept4_spec_returning_seven`). The option stubs only print their diagnostic.
-/
import Axlibc.Kernel

set_option autoImplicit false

namespace Axlibc.Accept

open Axlibc.Kernel

/-! ## The model -/

/-- `accept4(fd, addr, len, flg)` over the kernel's `accept`. -/
def accept4 (accept : AcceptPrim) (fd : Int) (addr len : Nat) (flg : BitVec 32) (s : Sys) :
    Int × Sys :=
  if flg = 0 then accept.run fd addr len s
  else if flg &&& ~~~(SOCK_CLOEXEC ||| SOCK_NONBLOCK) ≠ 0 then (-1, { s with errno := EINVAL })
  else
    let (ret, s) := accept.run fd addr len s
    if ret < 0 then (ret, s)
    else
      let s := if flg &&& SOCK_CLOEXEC ≠ 0 then (fcntl ret F_SETFD FD_CLOEXEC s).2 else s
      let s := if flg &&& SOCK_NONBLOCK ≠ 0 then (fcntl ret F_SETFL O_NONBLOCK s).2 else s
      (ret, s)

/-- Modelled from the spec: `unimplemented(fmt, ...)` records one diagnostic line, the
function's name and the arguments it prints, and changes nothing else. -/
def unimplemented (func : String) (args : List Int) (s : Sys) : Sys :=
  { s with diags := s.diags ++ [⟨func, args⟩] }

/-- `getsockopt(fd, level, optname, optval, optlen)`: `optval` and `optlen` are the caller's
buffers, never touched. -/
def getsockopt (_fd _level _optname : Int) (_optval _optlen : Nat) (s : Sys) : Int × Sys :=
  (-1, unimplemented "getsockopt" [] s)

/-- `setsockopt(fd, level, optname, optval, optlen)`. `optval_int` is `*(int *)optval`, the
`int` the diagnostic reads at `optval` whatever `optlen` says. -/
def setsockopt (fd level optname : Int) (optval_int : BitVec 32) (optlen : Nat) (s : Sys) :
    Int × Sys :=
  (0, unimplemented "setsockopt" [fd, level, optname, optval_int.toInt, optlen] s)

/-! ## `accept4` -/

/-- The entry `accept4` leaves for the accepted descriptor: `FD_CLOEXEC` if `flg` asks for
it, `O_NONBLOCK` if `flg` asks for it, and what `accept` left otherwise. -/
def accepted_entry (flg : BitVec 32) (e : FdEntry) : FdEntry where
  fd_flags := if flg &&& SOCK_CLOEXEC ≠ 0 then FD_CLOEXEC else e.fd_flags
  status_flags := if flg &&& SOCK_NONBLOCK ≠ 0 then O_NONBLOCK else e.status_flags

/-- The two `fcntl` calls on the open descriptor `d`: its entry becomes `accepted_entry`,
and nothing else changes. -/
theorem fcntls_of_open (flg : BitVec 32) {s : Sys} {d : Int} {e : FdEntry}
    (hd : s.fds d = some e) :
    (if flg &&& SOCK_NONBLOCK ≠ 0 then
        (fcntl d F_SETFL O_NONBLOCK
          (if flg &&& SOCK_CLOEXEC ≠ 0 then (fcntl d F_SETFD FD_CLOEXEC s).2 else s)).2
      else if flg &&& SOCK_CLOEXEC ≠ 0 then (fcntl d F_SETFD FD_CLOEXEC s).2 else s) =
      { s with fds := Function.update s.fds d (some (accepted_entry flg e)) } := by
  by_cases hc : flg &&& SOCK_CLOEXEC ≠ 0 <;> by_cases hn : flg &&& SOCK_NONBLOCK ≠ 0
  · rw [if_pos hn, if_pos hc, fcntl_setfd hd, fcntl_setfl (Function.update_same _ _ _)]
    simp only [accepted_entry, if_pos hc, if_pos hn, Function.update_idem]
  · rw [if_neg hn, if_pos hc, fcntl_setfd hd]
    simp only [accepted_entry, if_pos hc, if_neg hn]
  · rw [if_pos hn, if_neg hc, fcntl_setfl hd]
    simp only [accepted_entry, if_neg hc, if_pos hn]
  · rw [if_neg hn, if_neg hc]
    simp only [accepted_entry, hc, hn, if_false]
    rw [← hd, Function.update_eq_self]

/-- **`accept4`.** A flag word with a bit outside `SOCK_CLOEXEC | SOCK_NONBLOCK` fails with
`EINVAL` and leaves the descriptor table and the queues as they were, whatever `accept`
would do. The flag word `0` is `accept`. Otherwise a failing `accept` is returned as it is,
and a descriptor `d` it returns is returned with the state `accept` left, altered only in
`d`'s entry: its fd flags set to `FD_CLOEXEC` if `flg` has `SOCK_CLOEXEC`, its status flags
set to `O_NONBLOCK` if `flg` has `SOCK_NONBLOCK`. -/
theorem accept4_spec (acc : AcceptPrim) (fd : Int) (addr len : Nat) (flg : BitVec 32) (s : Sys) :
    (flg &&& ~~~(SOCK_CLOEXEC ||| SOCK_NONBLOCK) ≠ 0 →
      accept4 acc fd addr len flg s = (-1, { s with errno := EINVAL })) ∧
    (flg = 0 → accept4 acc fd addr len flg s = acc.run fd addr len s) ∧
    (flg ≠ 0 → flg &&& ~~~(SOCK_CLOEXEC ||| SOCK_NONBLOCK) = 0 →
      ((acc.run fd addr len s).1 < 0 → accept4 acc fd addr len flg s = acc.run fd addr len s) ∧
      (0 ≤ (acc.run fd addr len s).1 → ∃ e,
        (acc.run fd addr len s).2.fds (acc.run fd addr len s).1 = some e ∧
        accept4 acc fd addr len flg s = ((acc.run fd addr len s).1,
          { (acc.run fd addr len s).2 with
            fds := Function.update (acc.run fd addr len s).2.fds (acc.run fd addr len s).1
              (some (accepted_entry flg e)) }))) := by
  refine ⟨fun hbad => ?_, fun h0 => by rw [accept4, if_pos h0], fun h0 hok => ⟨fun hneg => ?_, fun hpos => ?_⟩⟩
  · have h0 : flg ≠ 0 := fun h => hbad (by rw [h]; rfl)
    rw [accept4, if_neg h0, if_pos hbad]
  · simp only [accept4, if_neg h0, hok, ne_eq, not_true_eq_false, if_false, hneg, if_true]
  · obtain ⟨e, he⟩ := Option.isSome_iff_exists.1 (acc.returns_open fd addr len s hpos)
    refine ⟨e, he, ?_⟩
    simp only [accept4, if_neg h0, hok, ne_eq, not_true_eq_false, if_false, Int.not_lt.2 hpos]
    exact congrArg _ (fcntls_of_open flg he)

/-- A kernel `accept` with a connection always pending: it opens descriptor `d` with no flags
and returns it. -/
def accept_returning (d : Int) : AcceptPrim where
  run _ _ _ s := (d, { s with fds := Function.update s.fds d (some ⟨0, 0⟩) })
  returns_open _ _ _ _ _ := by simp

/-- `accept4(3, addr, len, SOCK_CLOEXEC | SOCK_NONBLOCK)` over a kernel whose `accept` hands
out descriptor `7`: `7` comes back, with `FD_CLOEXEC` and `O_NONBLOCK` set. -/
theorem accept4_spec_returning_seven :
    (accept4 (accept_returning 7) 3 0 0 (SOCK_CLOEXEC ||| SOCK_NONBLOCK)
        ⟨fun _ => none, fun _ => [], 0, []⟩).1 = 7 ∧
      (accept4 (accept_returning 7) 3 0 0 (SOCK_CLOEXEC ||| SOCK_NONBLOCK)
        ⟨fun _ => none, fun _ => [], 0, []⟩).2.fds 7 = some ⟨FD_CLOEXEC, O_NONBLOCK⟩ := by
  obtain ⟨e, he, h⟩ := ((accept4_spec (accept_returning 7) 3 0 0 (SOCK_CLOEXEC ||| SOCK_NONBLOCK)
    ⟨fun _ => none, fun _ => [], 0, []⟩).2.2 (by decide) (by decide)).2 (by decide)
  simp only [accept_returning, Function.update_same, Option.some.injEq] at he
  subst he
  rw [h]
  exact ⟨rfl, by simp only [accept_returning, Function.update_same]; decide⟩

end Axlibc.Accept
