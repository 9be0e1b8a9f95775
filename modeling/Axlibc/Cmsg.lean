/-
The control-message macros of `c/socket.c`, and the loop `sendmsg` runs over a control block.

On an LP64 target `sendmsg` copies the caller's control block into a stack buffer `chbuf`
and clears the `__pad1` field of every header the `CMSG_FIRSTHDR`/`CMSG_NXTHDR` walk reaches:

    for (c=CMSG_FIRSTHDR(&h); c; c=CMSG_NXTHDR(&h,c))
        c->__pad1 = 0;

The walk reads each header's `cmsg_len` from the buffer the loop is writing. This file
models the block as its bytes, the macros in the machine arithmetic the source uses
(`socklen_t` is 32 bits, `size_t` and pointer differences 64), and the loop as a
well-founded recursion whose measure is the room left after the current header. It proves:

* the 64-bit arithmetic of `__CMSG_LEN` and of the comparison in `CMSG_NXTHDR` never wraps,
  and equals its `Nat` reading (`alignUp8_toNat`, `CMSG_NXTHDR_eq`);
* a header `CMSG_NXTHDR` returns lies whole inside the block and at least 16 bytes past the
  current one (`CMSG_NXTHDR_fits`), which is the loop's termination argument;
* the loop over the buffer it mutates visits exactly the headers of the walk over the
  original block and clears their `__pad1` and nothing else (`pad_loop_eq`);
* the loop runs at most `L / 16` times, at word-aligned offsets inside the block
  (`pad_loop_bounds`).

`struct cmsghdr` is the musl layout for a little-endian LP64 target: `cmsg_len` in bytes
`[0, 4)`, `__pad1` in `[4, 8)`, `cmsg_level` in `[8, 12)`, `cmsg_type` in `[12, 16)`.
-/
import Mathlib

set_option autoImplicit false

namespace Axlibc.Cmsg

/-! ## Bytes -/

/-- A control block: the bytes of the buffer, from its first byte. Reads past the end give
`0`; `pad_loop_bounds` shows the loop never makes one. -/
abbrev Bytes := List (BitVec 8)

/-- The 32-bit little-endian field at byte offset `p`. -/
def load32 (buf : Bytes) (p : Nat) : BitVec 32 :=
  buf.getD (p + 3) 0 ++ buf.getD (p + 2) 0 ++ buf.getD (p + 1) 0 ++ buf.getD p 0

/-- Store a 32-bit little-endian value at byte offset `p`. -/
def store32 (buf : Bytes) (p : Nat) (v : BitVec 32) : Bytes :=
  (((buf.set p (v.extractLsb' 0 8)).set (p + 1) (v.extractLsb' 8 8)).set (p + 2)
    (v.extractLsb' 16 8)).set (p + 3) (v.extractLsb' 24 8)

theorem getD_set_zero (buf : Bytes) (i j : Nat) :
    (buf.set i 0).getD j 0 = if i = j then 0 else buf.getD j 0 := by
  rw [List.getD_eq_getElem?_getD, List.getElem?_set]
  split_ifs <;> simp [List.getD_eq_getElem?_getD]

/-- A zero store clears its four bytes and no other. -/
@[simp] theorem getD_store32_zero (buf : Bytes) (p j : Nat) :
    (store32 buf p 0).getD j 0 = if p ≤ j ∧ j < p + 4 then 0 else buf.getD j 0 := by
  have h0 : ∀ k, (0 : BitVec 32).extractLsb' k 8 = 0 := fun k => by
    apply BitVec.eq_of_toNat_eq; simp [BitVec.extractLsb']
  simp only [store32, h0, getD_set_zero]
  split_ifs <;> first | rfl | omega

@[simp] theorem length_store32 (buf : Bytes) (p : Nat) (v : BitVec 32) :
    (store32 buf p v).length = buf.length := by
  simp [store32]

/-- A load reads its four bytes only. -/
theorem load32_congr {buf buf' : Bytes} {p : Nat}
    (h : ∀ j, p ≤ j → j < p + 4 → buf'.getD j 0 = buf.getD j 0) :
    load32 buf' p = load32 buf p := by
  simp only [load32, h p le_rfl (by omega), h (p + 1) (by omega) (by omega),
    h (p + 2) (by omega) (by omega), h (p + 3) (by omega) (by omega)]

/-! ## The header -/

/-- `sizeof (struct cmsghdr)`. -/
def sizeof_cmsghdr : Nat := 16

/-- `c->cmsg_len` for the header at offset `c`. -/
def cmsg_len (buf : Bytes) (c : Nat) : BitVec 32 := load32 buf c

/-- `c->__pad1 = 0` for the header at offset `c`. -/
def clear_pad1 (buf : Bytes) (c : Nat) : Bytes := store32 buf (c + 4) 0

/-- Clearing one header's `__pad1` leaves the `cmsg_len` of any header whose length field
does not overlap it. -/
theorem cmsg_len_clear_pad1 (buf : Bytes) (c d : Nat) (h : d + 4 ≤ c + 4 ∨ c + 8 ≤ d) :
    cmsg_len (clear_pad1 buf c) d = cmsg_len buf d :=
  load32_congr fun j hj hj' => by rw [clear_pad1, getD_store32_zero, if_neg (by omega)]

/-! ## The macros, in machine arithmetic -/

/-- `(x + 8 - 1) & ~(8 - 1)` in 64-bit arithmetic: the shape shared by `__CMSG_LEN`
(with `sizeof(long)`) and `CMSG_ALIGN` (with `sizeof(size_t)`), both `8` on LP64. -/
def alignUp8 (x : BitVec 64) : BitVec 64 := (x + 8 - 1) &&& ~~~(8 - 1)

/-- `__CMSG_LEN(cmsg)`: the 32-bit `cmsg_len` widens to `size_t` in the addition. -/
def __CMSG_LEN (len : BitVec 32) : BitVec 64 := alignUp8 (len.setWidth 64)

/-- `CMSG_ALIGN(len)`. -/
def CMSG_ALIGN (len : BitVec 64) : BitVec 64 := alignUp8 len

/-- `CMSG_SPACE(len)`. -/
def CMSG_SPACE (len : BitVec 64) : BitVec 64 := CMSG_ALIGN len + CMSG_ALIGN 16

/-- `sizeof chbuf`: `CMSG_SPACE(255*sizeof(int))/sizeof(struct cmsghdr)+1` headers. -/
def sizeof_chbuf : Nat := ((CMSG_SPACE (255 * 4)).toNat / sizeof_cmsghdr + 1) * sizeof_cmsghdr

theorem sizeof_chbuf_eq : sizeof_chbuf = 1056 := by decide

/-- `__CMSG_NEXT(cmsg)`: the offset `__CMSG_LEN(cmsg)` bytes past the header at `c`. -/
def __CMSG_NEXT (buf : Bytes) (c : Nat) : Nat := c + (__CMSG_LEN (cmsg_len buf c)).toNat

/-- `CMSG_FIRSTHDR(mhdr)` for a block of `msg_controllen` bytes, as an offset. -/
def CMSG_FIRSTHDR (msg_controllen : BitVec 32) : Option Nat :=
  if msg_controllen.toNat ≥ sizeof_cmsghdr then some 0 else none

/-- `CMSG_NXTHDR(mhdr, cmsg)` for the header at offset `c` of a block of `L` bytes, as an
offset. `__MHDR_END(mhdr) - (unsigned char *)(cmsg)` is a `ptrdiff_t`, which the comparison
converts to the `size_t` of its left side. -/
def CMSG_NXTHDR (L : BitVec 32) (buf : Bytes) (c : Nat) : Option Nat :=
  if (cmsg_len buf c).toNat < sizeof_cmsghdr ∨
      BitVec.ofInt 64 ((L.toNat : Int) - c) ≤ __CMSG_LEN (cmsg_len buf c) + 16#64 then none
  else some (__CMSG_NEXT buf c)

/-! ## The arithmetic does not wrap -/

theorem and_not_seven (x : BitVec 64) : x &&& ~~~(8 - 1 : BitVec 64) = (x >>> 3) <<< 3 := by
  have hmask : ∀ i : Fin 64, (~~~(8 - 1 : BitVec 64)).getLsbD i = !decide (i.val < 3) := by
    decide
  apply BitVec.eq_of_getLsbD_eq
  intro i
  rw [BitVec.getLsbD_and, hmask, BitVec.getLsbD_shiftLeft, BitVec.getLsbD_ushiftRight]
  by_cases h : i.val < 3
  · simp [h]
  · simp [h, show 3 + (i.val - 3) = i.val by omega]

/-- **No wrap in the rounding.** Below `2^64 - 7`, `alignUp8` is rounding up to a multiple
of `8`. -/
theorem alignUp8_toNat (x : BitVec 64) (h : x.toNat + 7 < 2 ^ 64) :
    (alignUp8 x).toNat = (x.toNat + 7) / 8 * 8 := by
  have h7 : (x + 8 - 1).toNat = x.toNat + 7 := by
    rw [BitVec.toNat_sub, BitVec.toNat_add]; simp; omega
  rw [alignUp8, and_not_seven, BitVec.toNat_shiftLeft, BitVec.toNat_ushiftRight, h7,
    Nat.shiftLeft_eq, Nat.shiftRight_eq_div_pow]
  have : (x.toNat + 7) / 2 ^ 3 * 2 ^ 3 ≤ x.toNat + 7 := Nat.div_mul_le_self _ _
  exact Nat.mod_eq_of_lt (by omega)

/-- `__CMSG_LEN` of any 32-bit length: `cmsg_len` rounded up to a multiple of `8`, at most
`2^32`. -/
theorem __CMSG_LEN_toNat (len : BitVec 32) :
    (__CMSG_LEN len).toNat = (len.toNat + 7) / 8 * 8 := by
  have := len.isLt
  rw [__CMSG_LEN, alignUp8_toNat _ (by simp; omega)]
  simp only [BitVec.toNat_setWidth, Nat.mod_eq_of_lt (by omega : len.toNat < 2 ^ 64)]

/-- The sum `__CMSG_LEN(cmsg) + sizeof(struct cmsghdr)` in `size_t` does not wrap. -/
theorem __CMSG_LEN_add_toNat (len : BitVec 32) :
    (__CMSG_LEN len + 16#64).toNat = (len.toNat + 7) / 8 * 8 + 16 := by
  have := len.isLt
  rw [BitVec.toNat_add, __CMSG_LEN_toNat]; simp; omega

/-- `CMSG_SPACE(len)` below `2^63` does not wrap: the payload rounded up to a multiple of
`8`, plus one header. -/
theorem CMSG_SPACE_toNat (len : BitVec 64) (h : len.toNat < 2 ^ 63) :
    (CMSG_SPACE len).toNat = (len.toNat + 7) / 8 * 8 + 16 := by
  have h16 : CMSG_ALIGN 16 = 16#64 := by decide
  rw [CMSG_SPACE, h16, BitVec.toNat_add, CMSG_ALIGN, alignUp8_toNat _ (by omega)]
  simp only [BitVec.toNat_ofNat]
  omega

/-- The pointer difference `__MHDR_END(mhdr) - (unsigned char *)(cmsg)` from a header
inside the block, converted to `size_t`, is the room left. -/
theorem ptrdiff_toNat (L : BitVec 32) (c : Nat) (hc : c ≤ L.toNat) :
    (BitVec.ofInt 64 ((L.toNat : Int) - c)).toNat = L.toNat - c := by
  have := L.isLt
  rw [BitVec.toNat_ofInt]; omega

/-- **`CMSG_NXTHDR` in `Nat`.** For a header inside the block, the macro's comparison is
the plain `(cmsg_len + 7) / 8 * 8 + 16 ≥ L - c`. -/
theorem CMSG_NXTHDR_eq (L : BitVec 32) (buf : Bytes) (c : Nat) (hc : c ≤ L.toNat) :
    CMSG_NXTHDR L buf c =
      if (cmsg_len buf c).toNat < 16 ∨
          L.toNat - c ≤ ((cmsg_len buf c).toNat + 7) / 8 * 8 + 16 then none
      else some (c + ((cmsg_len buf c).toNat + 7) / 8 * 8) := by
  simp only [CMSG_NXTHDR, BitVec.le_def, ptrdiff_toNat L c hc, __CMSG_LEN_add_toNat,
    __CMSG_NEXT, __CMSG_LEN_toNat, sizeof_cmsghdr]

/-- **What `CMSG_NXTHDR` returns fits.** From a header inside the block, the next header
starts at least 16 bytes further on, at the current offset plus a multiple of `8`, past the
current record's `cmsg_len`, and lies whole inside the block with room to spare. -/
theorem CMSG_NXTHDR_fits {L : BitVec 32} {buf : Bytes} {c c' : Nat}
    (h : CMSG_NXTHDR L buf c = some c') (hc : c + 16 ≤ L.toNat) :
    c + 16 ≤ c' ∧ c' + 16 < L.toNat ∧ c + (cmsg_len buf c).toNat ≤ c' ∧ c' % 8 = c % 8 := by
  rw [CMSG_NXTHDR_eq L buf c (by omega)] at h
  split_ifs at h with hg
  cases h
  omega

/-- `CMSG_NXTHDR` reads the buffer only through the current header's `cmsg_len`. -/
theorem CMSG_NXTHDR_congr {L : BitVec 32} {buf buf' : Bytes} {c : Nat}
    (h : cmsg_len buf' c = cmsg_len buf c) : CMSG_NXTHDR L buf' c = CMSG_NXTHDR L buf c := by
  simp only [CMSG_NXTHDR, __CMSG_NEXT, h]

/-! ## The walk and the loop -/

/-- The headers the `CMSG_FIRSTHDR`/`CMSG_NXTHDR` walk reaches from the header at offset
`c`, in a block nobody writes to. -/
def cmsg_walk (L : BitVec 32) (buf : Bytes) (c : Nat) (hc : c + 16 ≤ L.toNat) : List Nat :=
  match h : CMSG_NXTHDR L buf c with
  | none => [c]
  | some c' => c :: cmsg_walk L buf c' (CMSG_NXTHDR_fits h hc).2.1.le
termination_by L.toNat - c
decreasing_by have := (CMSG_NXTHDR_fits h hc).1; omega

/-- The loop of `sendmsg` from the header at offset `c`: the body clears `c->__pad1`, then
`CMSG_NXTHDR` reads the buffer the body has just written. Returns the offsets the body ran
on, in order, and the block the loop leaves. -/
def pad_loop (L : BitVec 32) (buf : Bytes) (c : Nat) (hc : c + 16 ≤ L.toNat) :
    List Nat × Bytes :=
  match h : CMSG_NXTHDR L (clear_pad1 buf c) c with
  | none => ([c], clear_pad1 buf c)
  | some c' =>
    let r := pad_loop L (clear_pad1 buf c) c' (CMSG_NXTHDR_fits h hc).2.1.le
    (c :: r.1, r.2)
termination_by L.toNat - c
decreasing_by have := (CMSG_NXTHDR_fits h hc).1; omega

/-- The block with the `__pad1` of each listed header cleared, in order. -/
def clear_pads (buf : Bytes) (cs : List Nat) : Bytes := cs.foldl clear_pad1 buf

section Walk

variable {L : BitVec 32} {buf : Bytes} {c : Nat} (hc : c + 16 ≤ L.toNat)

theorem cmsg_walk_of_none (h : CMSG_NXTHDR L buf c = none) : cmsg_walk L buf c hc = [c] := by
  rw [cmsg_walk]; split <;> simp_all

theorem cmsg_walk_of_some {c' : Nat} (h : CMSG_NXTHDR L buf c = some c') :
    cmsg_walk L buf c hc = c :: cmsg_walk L buf c' (CMSG_NXTHDR_fits h hc).2.1.le := by
  rw [cmsg_walk]
  split
  · simp_all
  · rename_i h'; cases h.symm.trans h'; rfl

theorem pad_loop_of_none (h : CMSG_NXTHDR L (clear_pad1 buf c) c = none) :
    pad_loop L buf c hc = ([c], clear_pad1 buf c) := by
  rw [pad_loop]; split <;> simp_all

theorem pad_loop_of_some {c' : Nat} (h : CMSG_NXTHDR L (clear_pad1 buf c) c = some c') :
    pad_loop L buf c hc =
      (c :: (pad_loop L (clear_pad1 buf c) c' (CMSG_NXTHDR_fits h hc).2.1.le).1,
        (pad_loop L (clear_pad1 buf c) c' (CMSG_NXTHDR_fits h hc).2.1.le).2) := by
  rw [pad_loop]
  split
  · simp_all
  · rename_i h'; cases h.symm.trans h'; rfl

end Walk

/-- The walk from `c` reads the buffer only through the `cmsg_len` of headers at `c` or
beyond that fit in the block. -/
theorem cmsg_walk_congr (L : BitVec 32) (buf buf' : Bytes) (c : Nat) (hc : c + 16 ≤ L.toNat)
    (h : ∀ d, c ≤ d → d + 16 ≤ L.toNat → cmsg_len buf' d = cmsg_len buf d) :
    cmsg_walk L buf' c hc = cmsg_walk L buf c hc := by
  induction c, hc using cmsg_walk.induct L buf with
  | case1 c hc hn =>
    rw [cmsg_walk_of_none hc hn,
      cmsg_walk_of_none hc (by rwa [CMSG_NXTHDR_congr (h c le_rfl hc)])]
  | case2 c hc c' hs ih =>
    have hs' : CMSG_NXTHDR L buf' c = some c' := by rwa [CMSG_NXTHDR_congr (h c le_rfl hc)]
    have hle := (CMSG_NXTHDR_fits hs hc).1
    rw [cmsg_walk_of_some hc hs, cmsg_walk_of_some hc hs',
      ih fun d hd hd' => h d (by omega) hd']

/-- **The loop walks the original block.** Clearing a `__pad1` never changes a `cmsg_len`
the walk reads later, so the loop over the buffer it mutates runs its body on exactly the
headers of the walk over the caller's block, and leaves the block with their `__pad1`
cleared. -/
theorem pad_loop_eq (L : BitVec 32) (buf : Bytes) (c : Nat) (hc : c + 16 ≤ L.toNat) :
    pad_loop L buf c hc = (cmsg_walk L buf c hc, clear_pads buf (cmsg_walk L buf c hc)) := by
  induction buf, c, hc using pad_loop.induct L with
  | case1 buf c hc hn =>
    have hn' : CMSG_NXTHDR L buf c = none := by
      rwa [← CMSG_NXTHDR_congr (cmsg_len_clear_pad1 buf c c (.inl le_rfl))]
    rw [pad_loop_of_none hc hn, cmsg_walk_of_none hc hn']
    rfl
  | case2 buf c hc c' hs ih =>
    have hs' : CMSG_NXTHDR L buf c = some c' := by
      rwa [← CMSG_NXTHDR_congr (cmsg_len_clear_pad1 buf c c (.inl le_rfl))]
    have hle := (CMSG_NXTHDR_fits hs hc).1
    rw [pad_loop_of_some hc hs, ih, cmsg_walk_of_some hc hs',
      cmsg_walk_congr L buf _ c' _ fun d hd _ => cmsg_len_clear_pad1 buf c d (.inr (by omega))]
    rfl

/-- `clear_pads` byte by byte: a byte inside the `__pad1` of a listed header is `0`, every
other byte is the block's. -/
theorem getD_clear_pads (buf : Bytes) (cs : List Nat) (j : Nat) :
    (clear_pads buf cs).getD j 0 =
      if ∃ o ∈ cs, o + 4 ≤ j ∧ j < o + 8 then 0 else buf.getD j 0 := by
  induction cs generalizing buf with
  | nil => simp [clear_pads]
  | cons c cs ih =>
    show (clear_pads (clear_pad1 buf c) cs).getD j 0 = _
    have hcons : (∃ o ∈ c :: cs, o + 4 ≤ j ∧ j < o + 8) ↔
        (c + 4 ≤ j ∧ j < c + 8) ∨ ∃ o ∈ cs, o + 4 ≤ j ∧ j < o + 8 := by
      simp only [List.mem_cons, or_and_right, exists_or, exists_eq_left]
    rw [ih, clear_pad1, getD_store32_zero]
    by_cases h1 : ∃ o ∈ cs, o + 4 ≤ j ∧ j < o + 8
    · rw [if_pos h1, if_pos (hcons.2 (.inr h1))]
    · by_cases h2 : c + 4 ≤ j ∧ j < c + 8
      · rw [if_neg h1, if_pos (by omega), if_pos (hcons.2 (.inl h2))]
      · rw [if_neg h1, if_neg (by omega), if_neg fun h => (hcons.1 h).elim h2 h1]

@[simp] theorem length_clear_pads (buf : Bytes) (cs : List Nat) :
    (clear_pads buf cs).length = buf.length := by
  induction cs generalizing buf with
  | nil => rfl
  | cons c cs ih => exact (ih (clear_pad1 buf c)).trans (length_store32 _ _ _)

/-- The header `CMSG_FIRSTHDR` returns fits in the block. -/
theorem CMSG_FIRSTHDR_fits {L : BitVec 32} {c : Nat} (h : CMSG_FIRSTHDR L = some c) :
    c + 16 ≤ L.toNat := by
  simp only [CMSG_FIRSTHDR, sizeof_cmsghdr] at h
  split_ifs at h with hL
  cases h; omega

/-- The headers the walk reaches from `CMSG_FIRSTHDR` in a block of `L` bytes. -/
def cmsg_headers (L : BitVec 32) (buf : Bytes) : List Nat :=
  match h : CMSG_FIRSTHDR L with
  | none => []
  | some c => cmsg_walk L buf c (CMSG_FIRSTHDR_fits h)

/-- **What the walk visits.** From a header `c` inside the block: `c` first; each next
header at least 16 bytes on and past the current record's `cmsg_len`; every header at `c`
or beyond, at the same offset mod 8, and whole inside the block; so at most `(L - c) / 16`
of them. -/
theorem cmsg_walk_spec (L : BitVec 32) (buf : Bytes) (c : Nat) (hc : c + 16 ≤ L.toNat) :
    (cmsg_walk L buf c hc).head? = some c ∧
      (cmsg_walk L buf c hc).Chain' (fun o o' => o + 16 ≤ o' ∧ o + (cmsg_len buf o).toNat ≤ o') ∧
      (∀ o ∈ cmsg_walk L buf c hc, c ≤ o ∧ o % 8 = c % 8 ∧ o + 16 ≤ L.toNat) ∧
      16 * (cmsg_walk L buf c hc).length ≤ L.toNat - c := by
  induction c, hc using cmsg_walk.induct L buf with
  | case1 c hc hn =>
    rw [cmsg_walk_of_none hc hn]
    refine ⟨rfl, List.chain'_singleton _, fun o ho => ?_, by simp; omega⟩
    rw [List.mem_singleton.1 ho]; omega
  | case2 c hc c' hs ih =>
    obtain ⟨hhead, hchain, hmem, hlen⟩ := ih
    have hfit := CMSG_NXTHDR_fits hs hc
    rw [cmsg_walk_of_some hc hs]
    refine ⟨rfl, List.chain'_cons'.2 ⟨fun y hy => ?_, hchain⟩, fun o ho => ?_, ?_⟩
    · rw [hhead, Option.mem_some_iff] at hy; subst hy; omega
    · rcases List.mem_cons.1 ho with rfl | ho
      · omega
      · have := hmem o ho; omega
    · rw [List.length_cons]; omega

/-- **The loop is bounded.** For any control length `L ≥ 16` and any bytes in the block,
the loop runs its body at most `L / 16` times, on headers at word-aligned offsets
`0 = o₁ < o₂ < ⋯`, each whole inside the block (so every `cmsg_len` read and `__pad1` write
is), each past the previous record's `cmsg_len`; and at each of them the `size_t` sum and
the pointer difference `CMSG_NXTHDR` compares are their `Nat` values. -/
theorem pad_loop_bounds (L : BitVec 32) (buf : Bytes) (hL : 16 ≤ L.toNat) :
    (pad_loop L buf 0 hL).1.length ≤ L.toNat / 16 ∧ (pad_loop L buf 0 hL).1.head? = some 0 ∧
      (pad_loop L buf 0 hL).1.Chain'
        (fun o o' => o + 16 ≤ o' ∧ o + (cmsg_len buf o).toNat ≤ o') ∧
      ∀ o ∈ (pad_loop L buf 0 hL).1, o % 8 = 0 ∧ o + 16 ≤ L.toNat ∧
        (__CMSG_LEN (cmsg_len buf o) + 16#64).toNat = ((cmsg_len buf o).toNat + 7) / 8 * 8 + 16 ∧
        (BitVec.ofInt 64 ((L.toNat : Int) - o)).toNat = L.toNat - o := by
  obtain ⟨hhead, hchain, hmem, hlen⟩ := cmsg_walk_spec L buf 0 hL
  simp only [pad_loop_eq]
  refine ⟨by omega, hhead, hchain, fun o ho => ?_⟩
  have := hmem o ho
  exact ⟨by omega, this.2.2, __CMSG_LEN_add_toNat _, ptrdiff_toNat L o (by omega)⟩

theorem pad_loop_bounds_at_32 :
    (pad_loop 32#32 (List.replicate 32 0) 0 (by decide)).1.length ≤ 32 / 16 :=
  (pad_loop_bounds 32#32 (List.replicate 32 0) (by decide)).1

/-! ## Well-formed chains of records -/

theorem __CMSG_NEXT_eq (buf : Bytes) (c : Nat) :
    __CMSG_NEXT buf c = c + ((cmsg_len buf c).toNat + 7) / 8 * 8 := by
  rw [__CMSG_NEXT, __CMSG_LEN_toNat]

/-- A header `CMSG_NXTHDR` returns is `__CMSG_NEXT` of the current one. -/
theorem CMSG_NXTHDR_eq_some {L : BitVec 32} {buf : Bytes} {c c' : Nat}
    (h : CMSG_NXTHDR L buf c = some c') : c' = __CMSG_NEXT buf c := by
  simp only [CMSG_NXTHDR] at h
  split_ifs at h
  exact (Option.some.inj h).symm

/-- Past a record of at least a header, `CMSG_NXTHDR` goes on exactly when the next header
leaves more than a header of room: the `>=` of the macro. -/
theorem CMSG_NXTHDR_of_le_len (L : BitVec 32) (buf : Bytes) {c : Nat} (hc : c ≤ L.toNat)
    (h16 : 16 ≤ (cmsg_len buf c).toNat) :
    CMSG_NXTHDR L buf c =
      if __CMSG_NEXT buf c + 16 < L.toNat then some (__CMSG_NEXT buf c) else none := by
  rw [CMSG_NXTHDR_eq L buf c hc, __CMSG_NEXT_eq]
  split_ifs <;> first | rfl | omega

/-- The offset of record `k` of a chain whose first record is at `o`: each record
`__CMSG_LEN` bytes after the previous. -/
def chain_off (buf : Bytes) (o : Nat) : Nat → Nat
  | 0 => o
  | k + 1 => chain_off buf (__CMSG_NEXT buf o) k

/-- **A well-formed chain** of `n ≥ 1` control-message records from offset `o` of a block of
`L` bytes: every `cmsg_len` at least a header, and the last record ending inside the
block. -/
def ChainFrom (L : Nat) (buf : Bytes) (o n : Nat) : Prop :=
  0 < n ∧ (∀ k < n, 16 ≤ (cmsg_len buf (chain_off buf o k)).toNat) ∧
    chain_off buf o (n - 1) + (cmsg_len buf (chain_off buf o (n - 1))).toNat ≤ L

instance (L : Nat) (buf : Bytes) (o n : Nat) : Decidable (ChainFrom L buf o n) :=
  inferInstanceAs (Decidable (_ ∧ _ ∧ _))

theorem chain_off_succ (buf : Bytes) (o k : Nat) :
    chain_off buf o (k + 1) = __CMSG_NEXT buf (chain_off buf o k) := by
  induction k generalizing o with
  | zero => rfl
  | succ k ih => exact ih (__CMSG_NEXT buf o)

theorem chain_off_mono (buf : Bytes) (o : Nat) {k k' : Nat} (h : k ≤ k') :
    chain_off buf o k ≤ chain_off buf o k' := by
  induction h with
  | refl => exact le_rfl
  | step _ ih => rw [chain_off_succ, __CMSG_NEXT_eq]; omega

/-- Records step by multiples of `8`. -/
theorem chain_off_mod_eight (buf : Bytes) (o k : Nat) : chain_off buf o k % 8 = o % 8 := by
  induction k with
  | zero => rfl
  | succ k ih => rw [chain_off_succ, __CMSG_NEXT_eq]; omega

/-- Four zero bytes load as `0`. -/
theorem load32_eq_zero {buf : Bytes} {p : Nat} (h : ∀ j, p ≤ j → j < p + 4 → buf.getD j 0 = 0) :
    load32 buf p = 0 := by
  rw [load32, h p le_rfl (by omega), h (p + 1) (by omega) (by omega),
    h (p + 2) (by omega) (by omega), h (p + 3) (by omega) (by omega)]
  decide

section Chain

variable {L : Nat} {buf : Bytes} {o n : Nat}

/-- Every record of a well-formed chain ends inside the block. -/
theorem ChainFrom.rec_end (hw : ChainFrom L buf o n) {k : Nat} (hk : k < n) :
    chain_off buf o k + (cmsg_len buf (chain_off buf o k)).toNat ≤ L := by
  rcases Nat.lt_or_ge k (n - 1) with hlt | hge
  · have h1 := chain_off_mono buf o (Nat.succ_le_of_lt hlt)
    rw [chain_off_succ, __CMSG_NEXT_eq] at h1
    have := hw.2.2
    omega
  · obtain rfl : k = n - 1 := by omega
    exact hw.2.2

/-- Each record of a well-formed chain is at least a header long, so the next one starts at
least 16 bytes on. -/
theorem ChainFrom.step (hw : ChainFrom L buf o n) {k : Nat} (hk : k < n) :
    chain_off buf o k + 16 ≤ chain_off buf o (k + 1) := by
  have := hw.2.1 k hk
  rw [chain_off_succ, __CMSG_NEXT_eq]
  omega

/-- A record before the last of a well-formed chain leaves room for two headers. -/
theorem ChainFrom.room (hw : ChainFrom L buf o n) {k : Nat} (hk : k + 1 < n) :
    chain_off buf o k + 32 ≤ L := by
  have := hw.rec_end hk
  have := hw.2.1 _ hk
  have := hw.step (Nat.lt_of_succ_lt hk)
  omega

/-- A chain of two records or more, without its first record. -/
theorem ChainFrom.tail (hw : ChainFrom L buf o (n + 2)) :
    ChainFrom L buf (__CMSG_NEXT buf o) (n + 1) :=
  ⟨n.succ_pos, fun k hk => hw.2.1 (k + 1) (by omega), hw.2.2⟩

end Chain

/-- **How the walk meets a chain.** Over a well-formed chain of `n` records, the walk from
the first reaches record `k` exactly when it is the first, or not the last, or the last with
more than a header of room after its header. -/
theorem mem_cmsg_walk_chain (L : BitVec 32) (buf : Bytes) (n : Nat) :
    ∀ o (hc : o + 16 ≤ L.toNat), ChainFrom L.toNat buf o n → ∀ k < n,
      (chain_off buf o k ∈ cmsg_walk L buf o hc ↔
        k = 0 ∨ k + 1 < n ∨ chain_off buf o k + 16 < L.toNat) := by
  induction n with
  | zero => exact fun _ _ hw => absurd hw.1 (Nat.lt_irrefl 0)
  | succ n ih =>
    intro o hc hw k hk
    have hhead : o ∈ cmsg_walk L buf o hc :=
      List.mem_of_mem_head? (cmsg_walk_spec L buf o hc).1
    rcases k with _ | j
    · exact iff_of_true hhead (.inl rfl)
    rcases n with _ | m
    · omega
    have h16 : 16 ≤ (cmsg_len buf o).toNat := hw.2.1 0 (by omega)
    have hnext := CMSG_NXTHDR_of_le_len L buf (Nat.le_of_add_right_le hc) h16
    -- record `j + 1` is the `j`-th of the chain from the second record
    have hfirst : __CMSG_NEXT buf o ≤ chain_off buf o (j + 1) :=
      chain_off_mono buf (__CMSG_NEXT buf o) (Nat.zero_le j)
    have hgap : o + 16 ≤ __CMSG_NEXT buf o := hw.step (k := 0) (by omega)
    by_cases hroom : __CMSG_NEXT buf o + 16 < L.toNat
    · rw [if_pos hroom] at hnext
      rw [cmsg_walk_of_some hc hnext, List.mem_cons, or_iff_right (by omega)]
      have hsucc : chain_off buf o (j + 1) = chain_off buf (__CMSG_NEXT buf o) j := rfl
      have hj0 : j = 0 → chain_off buf o (j + 1) = __CMSG_NEXT buf o := by rintro rfl; rfl
      exact (ih _ _ hw.tail j (by omega)).trans (by omega)
    · rw [if_neg hroom] at hnext
      rw [cmsg_walk_of_none hc hnext, List.mem_singleton]
      have hlast : j < m → chain_off buf o (j + 1) + 32 ≤ L.toNat := fun hj => hw.room (by omega)
      omega

/-- Over a well-formed chain, the walk from the first record stays on the records until it
has passed the end of the last. -/
theorem cmsg_walk_chain_or_end (L : BitVec 32) (buf : Bytes) (n : Nat) :
    ∀ o (hc : o + 16 ≤ L.toNat), ChainFrom L.toNat buf o n → ∀ x ∈ cmsg_walk L buf o hc,
      (∃ k < n, x = chain_off buf o k) ∨
        chain_off buf o (n - 1) + (cmsg_len buf (chain_off buf o (n - 1))).toNat ≤ x := by
  induction n with
  | zero => exact fun _ _ hw => absurd hw.1 (Nat.lt_irrefl 0)
  | succ n ih =>
    intro o hc hw x hx
    cases hN : CMSG_NXTHDR L buf o with
    | none =>
      rw [cmsg_walk_of_none hc hN, List.mem_singleton] at hx
      exact .inl ⟨0, n.succ_pos, hx⟩
    | some o' =>
      rw [cmsg_walk_of_some hc hN, List.mem_cons] at hx
      rcases hx with rfl | hx
      · exact .inl ⟨0, n.succ_pos, rfl⟩
      obtain rfl := CMSG_NXTHDR_eq_some hN
      have hge := ((cmsg_walk_spec L buf _ _).2.2.1 x hx).1
      rcases n with _ | m
      · -- past a single record, the walk is at or after its end
        right
        rw [__CMSG_NEXT_eq] at hge
        show o + (cmsg_len buf o).toNat ≤ x
        omega
      · rcases ih _ _ hw.tail x hx with ⟨k, hk, rfl⟩ | hend
        · exact .inl ⟨k + 1, by omega, rfl⟩
        · exact .inr hend

end Axlibc.Cmsg
