/-
`sendmsg` of `c/socket.c` on an LP64 target.

    ssize_t sendmsg(int fd, const struct msghdr *msg, int flags)
    {
    #if LONG_MAX > INT_MAX
        struct msghdr h;
        struct cmsghdr chbuf[CMSG_SPACE(255*sizeof(int))/sizeof(struct cmsghdr)+1], *c;
        if (msg) {
            h = *msg;
            h.__pad1 = h.__pad2 = 0;
            msg = &h;
            if (h.msg_controllen) {
                if (h.msg_controllen > sizeof chbuf) {
                    errno = ENOMEM;
                    return -1;
                }
                memcpy(chbuf, h.msg_control, h.msg_controllen);
                h.msg_control = chbuf;
                for (c=CMSG_FIRSTHDR(&h); c; c=CMSG_NXTHDR(&h,c))
                    c->__pad1 = 0;
            }
        }
    #endif
        return ax_sendmsg(fd, msg, flags);
    }

The header is modelled as a value whose `msg_control` field holds the bytes the pointer
designates; `chbuf` is the `msg_controllen` bytes the copy fills, which is all `ax_sendmsg`
reads of it. The LP64 block is `sendmsg_hdr`, the header passed on (or the `errno` of the
failure); `sendmsg` calls `ax_sendmsg` with it.

The `#if LONG_MAX > INT_MAX` block is taken to be compiled in, as it is on an LP64 target
whose headers define `LONG_MAX`. `socket.c` includes no `<limits.h>` itself, so whether the
macro is defined there depends on headers outside this source; with it undefined, the
preprocessor reads both sides as `0`, and `sendmsg` is `ax_sendmsg(fd, msg, flags)` alone.
That branch is not modelled. The results:

* `sendmsg_spec`: the passthrough for `NULL`, the `ENOMEM` failure without a call, and
  otherwise one call with the caller's header, its two padding fields cleared and, for a
  non-empty control block, a copy of the block whose bytes are the caller's except in the
  `__pad1` of every header the walk over the caller's block reaches, which are `0`. Its last
  conjunct is the consequence for a well-formed chain of records: every `cmsg_len`,
  `cmsg_level`, `cmsg_type`, payload byte and alignment byte is the caller's;
* `sendmsg_pad1_cleared_iff`: which records' `__pad1` the block passed on has cleared:
  every record's but the last, and the last exactly when it is the only one or the room
  after its header is more than a header. A header-only last record that ends the block
  keeps the caller's `__pad1` (`sendmsg_keeps_last_pad1`), because `CMSG_NXTHDR` compares
  with `>=`.
-/
import Axlibc.Cmsg
import Axlibc.Kernel

set_option autoImplicit false

namespace Axlibc.Sendmsg

open Axlibc.Cmsg Axlibc.Kernel

/-! ## The model -/

/-- `struct msghdr` in the order of musl's little-endian LP64 layout. `msg_name` and
`msg_iov` are addresses the shim passes through; `msg_control` is the control block. -/
structure msghdr where
  msg_name : Nat
  msg_namelen : BitVec 32
  msg_iov : Nat
  msg_iovlen : BitVec 32
  __pad1 : BitVec 32
  msg_control : Bytes
  msg_controllen : BitVec 32
  __pad2 : BitVec 32
  msg_flags : BitVec 32
  deriving DecidableEq, Repr

/-- The transmit primitive `ax_sendmsg(fd, msg, flags)`: any transition of the state,
returning the number of bytes sent or `-1`. -/
abbrev AxSendmsg := Int → Option msghdr → BitVec 32 → Sys → Int × Sys

/-- `memcpy(chbuf, h.msg_control, h.msg_controllen)`, then the loop over `chbuf`. -/
def chbuf_repack (L : BitVec 32) (control : Bytes) : Bytes :=
  match h : CMSG_FIRSTHDR L with
  | none => control.take L.toNat
  | some c => (pad_loop L (control.take L.toNat) c (CMSG_FIRSTHDR_fits h)).2

/-- The `#if LONG_MAX > INT_MAX` block for `msg != NULL`: the header `sendmsg` passes to
`ax_sendmsg`, or the `errno` it fails with. -/
def sendmsg_hdr (msg : msghdr) : Except Int msghdr :=
  let h := { msg with __pad1 := 0, __pad2 := 0 }
  if h.msg_controllen ≠ 0 then
    if h.msg_controllen.toNat > sizeof_chbuf then .error ENOMEM
    else .ok { h with msg_control := chbuf_repack h.msg_controllen h.msg_control }
  else .ok h

/-- `sendmsg(fd, msg, flags)` on an LP64 target, over the transmit primitive. -/
def sendmsg (ax_sendmsg : AxSendmsg) (fd : Int) (msg : Option msghdr) (flags : BitVec 32)
    (s : Sys) : Int × Sys :=
  match msg with
  | none => ax_sendmsg fd none flags s
  | some m =>
    match sendmsg_hdr m with
    | .ok h => ax_sendmsg fd (some h) flags s
    | .error e => (-1, { s with errno := e })

/-! ## The three outcomes of `sendmsg_hdr` -/

section Hdr

variable (m : msghdr)

theorem sendmsg_hdr_of_eq_zero (h0 : m.msg_controllen = 0) :
    sendmsg_hdr m = .ok { m with __pad1 := 0, __pad2 := 0 } := by
  simp [sendmsg_hdr, h0]

theorem sendmsg_hdr_of_gt (hbig : sizeof_chbuf < m.msg_controllen.toNat) :
    sendmsg_hdr m = .error ENOMEM := by
  have h0 : m.msg_controllen ≠ 0 := fun h => by simp [h] at hbig
  simp only [sendmsg_hdr]
  rw [if_pos h0, if_pos hbig]

theorem sendmsg_hdr_of_le (h0 : m.msg_controllen ≠ 0)
    (hle : m.msg_controllen.toNat ≤ sizeof_chbuf) :
    sendmsg_hdr m = .ok
      { m with __pad1 := 0, __pad2 := 0, msg_control := chbuf_repack m.msg_controllen m.msg_control } := by
  simp only [sendmsg_hdr]
  rw [if_pos h0, if_neg (Nat.not_lt.2 hle)]

end Hdr

/-! ## The block passed on -/

theorem cmsg_headers_of_none {L : BitVec 32} (buf : Bytes) (h : CMSG_FIRSTHDR L = none) :
    cmsg_headers L buf = [] := by
  rw [cmsg_headers]; split <;> simp_all

theorem cmsg_headers_of_some {L : BitVec 32} (buf : Bytes) {c : Nat} (h : CMSG_FIRSTHDR L = some c) :
    cmsg_headers L buf = cmsg_walk L buf c (CMSG_FIRSTHDR_fits h) := by
  rw [cmsg_headers]
  split
  · simp_all
  · rename_i h'; cases h.symm.trans h'; rfl

theorem getD_take_of_lt (buf : Bytes) {n j : Nat} (h : j < n) : (buf.take n).getD j 0 = buf.getD j 0 := by
  simp [List.getD_eq_getElem?_getD, h]

/-- **The copy, repacked.** The loop leaves `chbuf` as the first `L` bytes of the caller's
block with the `__pad1` of every header the walk over the caller's block reaches cleared:
the walk reads only inside the first `L` bytes, which the copy keeps. -/
theorem chbuf_repack_eq (L : BitVec 32) (control : Bytes) :
    chbuf_repack L control = clear_pads (control.take L.toNat) (cmsg_headers L control) := by
  rw [chbuf_repack]
  split
  · next h => rw [cmsg_headers_of_none _ h]; rfl
  · next c h =>
    rw [cmsg_headers_of_some _ h, pad_loop_eq,
      cmsg_walk_congr _ _ _ _ _ fun d _ hd => load32_congr fun j _ hj =>
        getD_take_of_lt _ (by omega)]

/-- The block `sendmsg` passes, byte by byte inside its `L` bytes. -/
theorem getD_chbuf_repack (L : BitVec 32) (control : Bytes) {j : Nat} (hj : j < L.toNat) :
    (chbuf_repack L control).getD j 0 =
      if ∃ o ∈ cmsg_headers L control, o + 4 ≤ j ∧ j < o + 8 then 0 else control.getD j 0 := by
  rw [chbuf_repack_eq, getD_clear_pads, getD_take_of_lt _ hj]

theorem length_chbuf_repack (L : BitVec 32) (control : Bytes) :
    (chbuf_repack L control).length = min L.toNat control.length := by
  rw [chbuf_repack_eq, length_clear_pads, List.length_take]

/-- Over a well-formed chain the walk from the first header is the walk from offset `0`. -/
theorem cmsg_headers_of_chain {L : BitVec 32} {buf : Bytes} {n : Nat}
    (hw : ChainFrom L.toNat buf 0 n) :
    ∃ h0 : 0 + 16 ≤ L.toNat, cmsg_headers L buf = cmsg_walk L buf 0 h0 := by
  have h16 := hw.2.1 0 hw.1
  have hL : 0 + 16 ≤ L.toNat := by have := hw.rec_end hw.1; simp only [chain_off] at h16 this; omega
  exact ⟨hL, cmsg_headers_of_some buf (by simp [CMSG_FIRSTHDR, sizeof_cmsghdr]; omega)⟩

/-- Over a well-formed chain, the repacked block keeps every byte up to the end of the last
record that is not in a record's `__pad1`. -/
theorem chbuf_repack_chain_kept {L : BitVec 32} {buf : Bytes} {n : Nat}
    (hw : ChainFrom L.toNat buf 0 n) {j : Nat}
    (hj : j < chain_off buf 0 (n - 1) + (cmsg_len buf (chain_off buf 0 (n - 1))).toNat)
    (hpad : ∀ k < n, ¬ (chain_off buf 0 k + 4 ≤ j ∧ j < chain_off buf 0 k + 8)) :
    (chbuf_repack L buf).getD j 0 = buf.getD j 0 := by
  have hend := hw.rec_end (Nat.sub_lt hw.1 Nat.one_pos)
  obtain ⟨h0, hhdr⟩ := cmsg_headers_of_chain hw
  rw [getD_chbuf_repack _ _ (by omega), hhdr, if_neg]
  rintro ⟨x, hx, hxj⟩
  rcases cmsg_walk_chain_or_end L buf n 0 h0 hw x hx with ⟨k, hk, rfl⟩ | hx'
  · exact hpad k hk hxj
  · omega

/-! ## `sendmsg` -/

/-- **`sendmsg`.** With `msg == NULL` it is `ax_sendmsg(fd, NULL, flags)`. A control block
longer than `sizeof chbuf` fails with `ENOMEM`, whatever `ax_sendmsg` would do. Otherwise
`sendmsg` is one call of `ax_sendmsg` with a header that is the caller's but for
`__pad1 = __pad2 = 0` and, for a non-empty control block, the control block: the first
`msg_controllen` bytes of the caller's, except that the `__pad1` of every header the walk over
the caller's block reaches reads `0`. In particular, over a well-formed chain of records,
every byte up to the end of the last record outside the records' `__pad1` fields (each
record's `cmsg_len`, `cmsg_level`, `cmsg_type` and payload, and the alignment bytes between
records) is the caller's. -/
theorem sendmsg_spec (ax : AxSendmsg) (fd : Int) (flags : BitVec 32) (s : Sys) (m : msghdr) :
    sendmsg ax fd none flags s = ax fd none flags s ∧
      (sizeof_chbuf < m.msg_controllen.toNat →
        sendmsg ax fd (some m) flags s = (-1, { s with errno := ENOMEM })) ∧
      (m.msg_controllen.toNat ≤ sizeof_chbuf → ∃ h : msghdr,
        sendmsg ax fd (some m) flags s = ax fd (some h) flags s ∧
        h = { m with __pad1 := 0, __pad2 := 0, msg_control := h.msg_control } ∧
        (m.msg_controllen = 0 → h.msg_control = m.msg_control) ∧
        (m.msg_controllen ≠ 0 →
          h.msg_control.length = min m.msg_controllen.toNat m.msg_control.length ∧
          ∀ j < m.msg_controllen.toNat, h.msg_control.getD j 0 =
            if ∃ o ∈ cmsg_headers m.msg_controllen m.msg_control, o + 4 ≤ j ∧ j < o + 8 then 0
            else m.msg_control.getD j 0) ∧
        ∀ n, ChainFrom m.msg_controllen.toNat m.msg_control 0 n → ∀ j,
          j < chain_off m.msg_control 0 (n - 1) +
            (cmsg_len m.msg_control (chain_off m.msg_control 0 (n - 1))).toNat →
          (∀ k < n, ¬ (chain_off m.msg_control 0 k + 4 ≤ j ∧ j < chain_off m.msg_control 0 k + 8)) →
          h.msg_control.getD j 0 = m.msg_control.getD j 0) := by
  refine ⟨rfl, fun hbig => by simp only [sendmsg, sendmsg_hdr_of_gt m hbig], fun hle => ?_⟩
  by_cases h0 : m.msg_controllen = 0
  · refine ⟨{ m with __pad1 := 0, __pad2 := 0 }, by simp only [sendmsg, sendmsg_hdr_of_eq_zero m h0],
      rfl, fun _ => rfl,
      fun h => absurd h0 h, fun n hw => ?_⟩
    have hend := hw.rec_end (Nat.sub_lt hw.1 Nat.one_pos)
    have := hw.2.1 _ (Nat.sub_lt hw.1 Nat.one_pos)
    simp [h0] at hend
    omega
  · refine ⟨{ m with __pad1 := 0, __pad2 := 0, msg_control := chbuf_repack _ m.msg_control },
      by simp only [sendmsg, sendmsg_hdr_of_le m h0 hle], rfl, fun h => absurd h h0,
      fun _ => ⟨length_chbuf_repack _ _, fun j hj => getD_chbuf_repack _ _ hj⟩,
      fun n hw j hj hpad => chbuf_repack_chain_kept hw hj hpad⟩

/-- **Which `__pad1` fields `sendmsg` clears.** Over a well-formed chain of `n` records in a
control block of at most `sizeof chbuf` bytes, the block passed to `ax_sendmsg` has
`__pad1 = 0` in every record but the last, and in the last exactly when it is the only
record or more than a header of room follows its header. Otherwise the last record's
`__pad1` is the caller's. -/
theorem sendmsg_pad1_cleared_iff (m : msghdr) (n : Nat)
    (hle : m.msg_controllen.toNat ≤ sizeof_chbuf)
    (hw : ChainFrom m.msg_controllen.toNat m.msg_control 0 n) :
    ∃ h, sendmsg_hdr m = .ok h ∧ ∀ k < n,
      load32 h.msg_control (chain_off m.msg_control 0 k + 4) =
        if k = 0 ∨ k + 1 < n ∨ chain_off m.msg_control 0 k + 16 < m.msg_controllen.toNat then 0
        else load32 m.msg_control (chain_off m.msg_control 0 k + 4) := by
  obtain ⟨h0, hhdr⟩ := cmsg_headers_of_chain hw
  have hne : m.msg_controllen ≠ 0 := fun h => by simp [h] at h0
  refine ⟨_, sendmsg_hdr_of_le m hne hle, fun k hk => ?_⟩
  have hfit : chain_off m.msg_control 0 k + 16 ≤ m.msg_controllen.toNat := by
    have := hw.rec_end hk; have := hw.2.1 k hk; omega
  have hmem := mem_cmsg_walk_chain _ _ n 0 h0 hw k hk
  rw [← hhdr] at hmem
  split_ifs with hcond
  · -- the record's header is on the walk: its four `__pad1` bytes are cleared
    exact load32_eq_zero fun j hj hj' => by
      rw [getD_chbuf_repack _ _ (by omega), if_pos ⟨_, hmem.2 hcond, by omega⟩]
  · -- off the walk, every header is a multiple of `8` away, so no clear touches the field
    refine load32_congr fun j hj hj' => ?_
    rw [getD_chbuf_repack _ _ (by omega), if_neg]
    rintro ⟨x, hx, hxj⟩
    have hx8 := (cmsg_walk_spec _ _ 0 h0).2.2.1 x (hhdr ▸ hx)
    have hk8 := chain_off_mod_eight m.msg_control 0 k
    have hxk : x ≠ chain_off m.msg_control 0 k := fun hx' => hcond (hmem.1 (hx' ▸ hx))
    omega

theorem sendmsg_pad1_cleared_two_records :
    ∃ h, sendmsg_hdr ⟨0, 0, 0, 0, 0, [16, 0, 0, 0, 1, 0, 0, 0, 1, 0, 0, 0, 1, 0, 0, 0,
        16, 0, 0, 0, 1, 0, 0, 0, 1, 0, 0, 0, 1, 0, 0, 0], 32, 0, 0⟩ = .ok h ∧ ∀ k < 2,
      load32 h.msg_control (chain_off [16, 0, 0, 0, 1, 0, 0, 0, 1, 0, 0, 0, 1, 0, 0, 0,
        16, 0, 0, 0, 1, 0, 0, 0, 1, 0, 0, 0, 1, 0, 0, 0] 0 k + 4) =
        if k = 0 ∨ k + 1 < 2 ∨ chain_off [16, 0, 0, 0, 1, 0, 0, 0, 1, 0, 0, 0, 1, 0, 0, 0,
          16, 0, 0, 0, 1, 0, 0, 0, 1, 0, 0, 0, 1, 0, 0, 0] 0 k + 16 < 32 then 0
        else load32 [16, 0, 0, 0, 1, 0, 0, 0, 1, 0, 0, 0, 1, 0, 0, 0,
          16, 0, 0, 0, 1, 0, 0, 0, 1, 0, 0, 0, 1, 0, 0, 0] (chain_off [16, 0, 0, 0, 1, 0, 0, 0,
          1, 0, 0, 0, 1, 0, 0, 0, 16, 0, 0, 0, 1, 0, 0, 0, 1, 0, 0, 0, 1, 0, 0, 0] 0 k + 4) :=
  sendmsg_pad1_cleared_iff _ 2 (by decide) (by decide)

/-- Two header-only records (`cmsg_len = 16`, `SOL_SOCKET`, `SCM_RIGHTS`) filling a 32-byte
control block, each with `__pad1 = 1`: a well-formed chain, and the block `sendmsg` passes to
`ax_sendmsg` keeps the second record's `__pad1 = 1`. -/
theorem sendmsg_keeps_last_pad1 :
    ChainFrom 32 [16, 0, 0, 0, 1, 0, 0, 0, 1, 0, 0, 0, 1, 0, 0, 0,
      16, 0, 0, 0, 1, 0, 0, 0, 1, 0, 0, 0, 1, 0, 0, 0] 0 2 ∧
    ∃ h, sendmsg_hdr ⟨0, 0, 0, 0, 0, [16, 0, 0, 0, 1, 0, 0, 0, 1, 0, 0, 0, 1, 0, 0, 0,
        16, 0, 0, 0, 1, 0, 0, 0, 1, 0, 0, 0, 1, 0, 0, 0], 32, 0, 0⟩ = .ok h ∧
      load32 h.msg_control (chain_off [16, 0, 0, 0, 1, 0, 0, 0, 1, 0, 0, 0, 1, 0, 0, 0,
        16, 0, 0, 0, 1, 0, 0, 0, 1, 0, 0, 0, 1, 0, 0, 0] 0 1 + 4) = 1 := by
  refine ⟨by decide, _, sendmsg_hdr_of_le _ (by decide) (by decide), ?_⟩
  rw [chbuf_repack_eq, cmsg_headers_of_some _ (c := 0) (by decide),
    cmsg_walk_of_none _ (by decide)]
  decide

end Axlibc.Sendmsg
