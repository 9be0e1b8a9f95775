/-
The control-message format of `c/socket.c`, as the `CMSG_FIRSTHDR`/`CMSG_NXTHDR` walk reads
it, and what `sendmsg`'s repacking does to it.

A control block is read as a list of records: from each header the walk reaches, its
`cmsg_len`, `cmsg_level` and `cmsg_type` and the `cmsg_len - 16` data bytes after the header,
as far as the block goes (`cmsg_records`). Three results are proved here.

* `sendmsg_keeps_records`: the block `sendmsg` hands to `ax_sendmsg` reads as exactly the
  records of the caller's block, whatever the caller's bytes. Clearing a `__pad1` never
  touches a `cmsg_len` the walk reads, nor any field or data byte of a record it reaches,
  because the headers the walk reaches are 16 bytes apart and each lies past the previous
  record's `cmsg_len`. No well-formedness is assumed: a malformed block reads the same
  before and after.
* `sendmsg_hdr_idem`: the header `sendmsg` prepares for `ax_sendmsg` is prepared again as
  itself, since repacking a repacked block changes nothing (`chbuf_repack_idem`).
* `cmsg_records_encode`: messages laid out as a sender lays them out, one every
  `CMSG_SPACE(len)` bytes with `cmsg_len = CMSG_LEN(len) = 16 + len`, read back as those
  messages, except that a last message with no data after a first is not reached: the `>=`
  of `CMSG_NXTHDR` stops the walk one header short of the end.

The layout of `struct cmsghdr` is musl's on a little-endian LP64 target: `cmsg_len`,
`__pad1`, `cmsg_level`, `cmsg_type`, four bytes each.
-/
import Axlibc.Sendmsg

set_option autoImplicit false

namespace Axlibc.CmsgFormat

open Axlibc.Cmsg Axlibc.Kernel Axlibc.Sendmsg

/-! ## What the walk reads -/

/-- A control message as the walk reads it. -/
structure Record where
  len : BitVec 32
  level : BitVec 32
  type : BitVec 32
  data : Bytes
  deriving DecidableEq, Repr

/-- The record whose header is at offset `o` of a block of `L` bytes: the three header fields
and the data bytes `[o + 16, o + cmsg_len)`, cut at the end of the block. -/
def record_at (L : Nat) (buf : Bytes) (o : Nat) : Record where
  len := cmsg_len buf o
  level := load32 buf (o + 8)
  type := load32 buf (o + 12)
  data := (List.range (min (o + (cmsg_len buf o).toNat) L - (o + 16))).map
    fun k => buf.getD (o + 16 + k) 0

/-- The records of a block of `L` bytes, in the order the walk reaches their headers. -/
def cmsg_records (L : BitVec 32) (buf : Bytes) : List Record :=
  (cmsg_headers L buf).map (record_at L.toNat buf)

/-! ## The headers the walk reaches -/

/-- The walk reads the buffer only through the `cmsg_len` of the headers it reaches. -/
theorem cmsg_walk_congr_of_mem (L : BitVec 32) (buf buf' : Bytes) (c : Nat)
    (hc : c + 16 ≤ L.toNat) (h : ∀ d ∈ cmsg_walk L buf c hc, cmsg_len buf' d = cmsg_len buf d) :
    cmsg_walk L buf' c hc = cmsg_walk L buf c hc := by
  induction c, hc using cmsg_walk.induct L buf with
  | case1 c hc hn =>
    have hc' := h c (by rw [cmsg_walk_of_none hc hn]; exact List.mem_singleton_self c)
    rw [cmsg_walk_of_none hc hn, cmsg_walk_of_none hc (by rwa [CMSG_NXTHDR_congr hc'])]
  | case2 c hc c' hs ih =>
    rw [cmsg_walk_of_some hc hs] at h
    rw [cmsg_walk_of_some hc hs,
      cmsg_walk_of_some hc (by rwa [CMSG_NXTHDR_congr (h c (List.mem_cons_self _ _))]),
      ih fun d hd => h d (List.mem_cons_of_mem _ hd)]

theorem cmsg_headers_congr_of_mem (L : BitVec 32) (buf buf' : Bytes)
    (h : ∀ d ∈ cmsg_headers L buf, cmsg_len buf' d = cmsg_len buf d) :
    cmsg_headers L buf' = cmsg_headers L buf := by
  cases hf : CMSG_FIRSTHDR L with
  | none => rw [cmsg_headers_of_none _ hf, cmsg_headers_of_none _ hf]
  | some c =>
    rw [cmsg_headers_of_some _ hf] at h ⊢
    rw [cmsg_headers_of_some _ hf]
    exact cmsg_walk_congr_of_mem L buf buf' c _ h

/-- Each header the walk reaches lies whole inside the block, and every later one is at
least 16 bytes on and past its record's `cmsg_len`. -/
theorem cmsg_headers_spec (L : BitVec 32) (buf : Bytes) :
    (∀ o ∈ cmsg_headers L buf, o + 16 ≤ L.toNat) ∧
      (cmsg_headers L buf).Pairwise
        (fun o o' => o + 16 ≤ o' ∧ o + (cmsg_len buf o).toNat ≤ o') := by
  cases hf : CMSG_FIRSTHDR L with
  | none => rw [cmsg_headers_of_none _ hf]; simp
  | some c =>
    rw [cmsg_headers_of_some _ hf]
    obtain ⟨-, hchain, hmem, -⟩ := cmsg_walk_spec L buf c (CMSG_FIRSTHDR_fits hf)
    have htrans : IsTrans Nat (fun o o' => o + 16 ≤ o' ∧ o + (cmsg_len buf o).toNat ≤ o') :=
      ⟨fun _ _ _ h1 h2 => ⟨by omega, by omega⟩⟩
    exact ⟨fun o ho => (hmem o ho).2.2, List.chain'_iff_pairwise.1 hchain⟩

/-- Two different headers the walk reaches: one is at least 16 bytes before the other and
not inside its record. -/
theorem cmsg_headers_apart (L : BitVec 32) (buf : Bytes) {o o' : Nat}
    (ho : o ∈ cmsg_headers L buf) (ho' : o' ∈ cmsg_headers L buf) (hne : o ≠ o') :
    (o + 16 ≤ o' ∧ o + (cmsg_len buf o).toNat ≤ o') ∨
      (o' + 16 ≤ o ∧ o' + (cmsg_len buf o').toNat ≤ o) := by
  have hsym : (cmsg_headers L buf).Pairwise fun a b =>
      (a + 16 ≤ b ∧ a + (cmsg_len buf a).toNat ≤ b) ∨ (b + 16 ≤ a ∧ b + (cmsg_len buf b).toNat ≤ a) :=
    (cmsg_headers_spec L buf).2.imp Or.inl
  exact hsym.forall (fun _ _ h => h.symm) ho ho' hne

/-- No byte of a record the walk reaches, its own `__pad1` apart, lies in the `__pad1` of a
header the walk reaches. -/
theorem not_mem_pad_of_record (L : BitVec 32) (buf : Bytes) {o j : Nat}
    (ho : o ∈ cmsg_headers L buf) (hj : o ≤ j) (hj' : j < o + max 16 (cmsg_len buf o).toNat)
    (hpad : ¬ (o + 4 ≤ j ∧ j < o + 8)) :
    ¬ ∃ o' ∈ cmsg_headers L buf, o' + 4 ≤ j ∧ j < o' + 8 := by
  rintro ⟨o', ho', hj1, hj2⟩
  obtain rfl | hne := eq_or_ne o o'
  · exact hpad ⟨hj1, hj2⟩
  rcases cmsg_headers_apart L buf ho ho' hne with h | h <;> omega

/-- `record_at` reads its header's fields and data, and not its `__pad1`. -/
theorem record_at_congr {L : Nat} {buf buf' : Bytes} {o : Nat} (hL : o + 16 ≤ L)
    (h : ∀ j, o ≤ j → j < L → j < o + max 16 (cmsg_len buf o).toNat →
      ¬ (o + 4 ≤ j ∧ j < o + 8) → buf'.getD j 0 = buf.getD j 0) :
    record_at L buf' o = record_at L buf o := by
  have hlen : cmsg_len buf' o = cmsg_len buf o :=
    load32_congr fun j hj hj' => h j hj (by omega) (by omega) (by omega)
  simp only [record_at, hlen, Record.mk.injEq, true_and]
  refine ⟨load32_congr fun j hj hj' => h j (by omega) (by omega) (by omega) (by omega),
    load32_congr fun j hj hj' => h j (by omega) (by omega) (by omega) (by omega),
    List.map_congr_left fun k hk => ?_⟩
  rw [List.mem_range] at hk
  exact h _ (by omega) (by omega) (by omega) (by omega)

/-! ## `sendmsg` keeps every record -/

/-- The loop clears no byte of a record the walk reaches but its `__pad1`. -/
theorem getD_chbuf_repack_of_record (L : BitVec 32) (control : Bytes) {o : Nat}
    (ho : o ∈ cmsg_headers L control) (j : Nat) (hj : o ≤ j) (hjL : j < L.toNat)
    (hj' : j < o + max 16 (cmsg_len control o).toNat) (hpad : ¬ (o + 4 ≤ j ∧ j < o + 8)) :
    (chbuf_repack L control).getD j 0 = control.getD j 0 := by
  rw [getD_chbuf_repack _ _ hjL, if_neg (not_mem_pad_of_record L control ho hj hj' hpad)]

/-- The walk over the repacked block reaches the caller's headers. -/
theorem cmsg_headers_chbuf_repack (L : BitVec 32) (control : Bytes) :
    cmsg_headers L (chbuf_repack L control) = cmsg_headers L control :=
  cmsg_headers_congr_of_mem _ _ _ fun d hd => load32_congr fun j hj hj' =>
    getD_chbuf_repack_of_record L control hd j hj
      (by have := (cmsg_headers_spec L control).1 d hd; omega) (by omega) (by omega)

/-- **Repacking keeps every record.** The block the loop leaves in `chbuf` reads as the
caller's block, record for record: the walk reaches the same headers, and no record's
fields or data lie in a `__pad1` the loop clears. -/
theorem cmsg_records_chbuf_repack (L : BitVec 32) (control : Bytes) :
    cmsg_records L (chbuf_repack L control) = cmsg_records L control := by
  rw [cmsg_records, cmsg_records, cmsg_headers_chbuf_repack]
  exact List.map_congr_left fun o ho =>
    record_at_congr ((cmsg_headers_spec L control).1 o ho) (getD_chbuf_repack_of_record L control ho)

/-- Repacking a repacked block changes nothing: the walk reaches the same headers, whose
`__pad1` fields are already clear. -/
theorem chbuf_repack_idem (L : BitVec 32) (control : Bytes) :
    chbuf_repack L (chbuf_repack L control) = chbuf_repack L control := by
  have hlen := length_chbuf_repack L control
  refine List.ext_getElem (by rw [length_chbuf_repack, hlen]; omega) fun j h1 h2 => ?_
  have hj : j < L.toNat := by omega
  rw [← List.getD_eq_getElem _ 0 h1, ← List.getD_eq_getElem _ 0 h2, getD_chbuf_repack _ _ hj,
    cmsg_headers_chbuf_repack, getD_chbuf_repack _ _ hj]
  split_ifs <;> rfl

/-- **`sendmsg` changes no record.** For any control block `sendmsg` accepts, the header it
hands to `ax_sendmsg` has the caller's `msg_controllen`, and its control block reads as the
caller's, record for record: the same `cmsg_len`, `cmsg_level`, `cmsg_type` and data, in the
same order. Only the `__pad1` fields differ. -/
theorem sendmsg_keeps_records (ax : AxSendmsg) (fd : Int) (flags : BitVec 32) (s : Sys)
    (m : msghdr) (hle : m.msg_controllen.toNat ≤ sizeof_chbuf) :
    ∃ h : msghdr, sendmsg ax fd (some m) flags s = ax fd (some h) flags s ∧
      h.msg_controllen = m.msg_controllen ∧
      cmsg_records h.msg_controllen h.msg_control = cmsg_records m.msg_controllen m.msg_control := by
  by_cases h0 : m.msg_controllen = 0
  · exact ⟨{ m with __pad1 := 0, __pad2 := 0 },
      by simp only [sendmsg, sendmsg_hdr_of_eq_zero m h0], rfl, rfl⟩
  · exact ⟨{ m with __pad1 := 0, __pad2 := 0, msg_control := chbuf_repack m.msg_controllen m.msg_control },
      by simp only [sendmsg, sendmsg_hdr_of_le m h0 hle], rfl, cmsg_records_chbuf_repack _ _⟩

theorem sendmsg_keeps_records_two_records :
    ∃ h : msghdr, sendmsg (fun _ _ _ s => (0, s)) 0 (some ⟨0, 0, 0, 0, 0,
        [16, 0, 0, 0, 1, 0, 0, 0, 1, 0, 0, 0, 1, 0, 0, 0, 16, 0, 0, 0, 1, 0, 0, 0, 1, 0, 0, 0, 1, 0, 0, 0],
        32, 0, 0⟩) 0 ⟨fun _ => none, fun _ => [], 0, []⟩ =
        (0, ⟨fun _ => none, fun _ => [], 0, []⟩) ∧
      h.msg_controllen = 32 ∧
      cmsg_records h.msg_controllen h.msg_control = cmsg_records 32
        [16, 0, 0, 0, 1, 0, 0, 0, 1, 0, 0, 0, 1, 0, 0, 0, 16, 0, 0, 0, 1, 0, 0, 0, 1, 0, 0, 0, 1, 0, 0, 0] :=
  sendmsg_keeps_records _ 0 0 _ _ (by decide)

/-- **`sendmsg` prepares its own header as itself.** A header `sendmsg` hands to
`ax_sendmsg` goes through the same preparation unchanged: its pads are clear, its block fits
in `chbuf`, and repacking it clears only `__pad1` fields that are already zero. -/
theorem sendmsg_hdr_idem (m h : msghdr) (hm : sendmsg_hdr m = .ok h) : sendmsg_hdr h = .ok h := by
  by_cases h0 : m.msg_controllen = 0
  · rw [sendmsg_hdr_of_eq_zero m h0] at hm
    cases hm
    exact sendmsg_hdr_of_eq_zero _ h0
  · by_cases hle : m.msg_controllen.toNat ≤ sizeof_chbuf
    · rw [sendmsg_hdr_of_le m h0 hle] at hm
      have hh := (Except.ok.inj hm).symm
      rw [sendmsg_hdr_of_le h (by rw [hh]; exact h0) (by rw [hh]; exact hle), hh]
      simp only [chbuf_repack_idem]
    · rw [sendmsg_hdr_of_gt m (by omega)] at hm
      cases hm

/-- The two-record block of 32 bytes, both `__pad1` fields set, with both header pads set:
the header `sendmsg` prepares is prepared again as itself. -/
theorem sendmsg_hdr_idem_two_records :
    ∃ h, sendmsg_hdr ⟨0, 0, 0, 0, 7, [16, 0, 0, 0, 1, 0, 0, 0, 1, 0, 0, 0, 1, 0, 0, 0,
        16, 0, 0, 0, 1, 0, 0, 0, 1, 0, 0, 0, 1, 0, 0, 0], 32, 9, 0⟩ = .ok h ∧
      sendmsg_hdr h = .ok h :=
  ⟨_, sendmsg_hdr_of_le _ (by decide) (by decide),
    sendmsg_hdr_idem _ _ (sendmsg_hdr_of_le _ (by decide) (by decide))⟩

/-! ## The layout a sender builds -/

/-- The four little-endian bytes of a 32-bit field. -/
def bytes32 (v : BitVec 32) : Bytes :=
  [v.extractLsb' 0 8, v.extractLsb' 8 8, v.extractLsb' 16 8, v.extractLsb' 24 8]

/-- A control message as a sender fills it in: its level, type and data, and whatever its
`__pad1` happens to hold. -/
structure Message where
  pad1 : BitVec 32
  level : BitVec 32
  type : BitVec 32
  data : Bytes
  deriving DecidableEq, Repr

/-- The header a sender writes: `cmsg_len = CMSG_LEN(len) = 16 + len`, `__pad1`,
`cmsg_level` and `cmsg_type`. -/
def Message.header (p : Message) : Bytes :=
  bytes32 (BitVec.ofNat 32 (16 + p.data.length)) ++ bytes32 p.pad1 ++ bytes32 p.level ++
    bytes32 p.type

/-- `CMSG_SPACE(len)` for the message's `len` data bytes: what it takes of the block. -/
def Message.space (p : Message) : Nat := (CMSG_SPACE (BitVec.ofNat 64 p.data.length)).toNat

/-- One message in its `CMSG_SPACE(len)` bytes: the header, the data, and zero bytes up to
the next header. -/
def encode_one (p : Message) : Bytes :=
  p.header ++ p.data ++ List.replicate (p.space - (16 + p.data.length)) 0

/-- Messages laid out one after another from the start of the block. -/
def encode : List Message → Bytes
  | [] => []
  | p :: ps => encode_one p ++ encode ps

/-- What the walk should read of a message. -/
def Message.record (p : Message) : Record :=
  ⟨BitVec.ofNat 32 (16 + p.data.length), p.level, p.type, p.data⟩

@[simp] theorem Message.length_header (p : Message) : p.header.length = 16 := rfl

theorem encode_one_append (p : Message) (rest : Bytes) :
    encode_one p ++ rest =
      p.header ++ (p.data ++ (List.replicate (p.space - (16 + p.data.length)) 0 ++ rest)) := by
  simp only [encode_one, List.append_assoc]

theorem length_encode_one (p : Message) :
    (encode_one p).length = 16 + p.data.length + (p.space - (16 + p.data.length)) := by
  simp only [encode_one, List.length_append, Message.length_header, List.length_replicate]

/-- Below `2^63` data bytes, `CMSG_SPACE` is the data rounded up to `8` and a header. -/
theorem Message.space_eq (p : Message) (h : p.data.length < 2 ^ 63) :
    p.space = (p.data.length + 7) / 8 * 8 + 16 := by
  rw [Message.space, CMSG_SPACE_toNat _ (by rw [BitVec.toNat_ofNat]; omega), BitVec.toNat_ofNat,
    Nat.mod_eq_of_lt (by omega)]

/-- A message takes 16 bytes exactly when it carries no data, and more otherwise. -/
theorem length_encode_one_eq_16_iff (p : Message) :
    (encode_one p).length = 16 ↔ p.data = [] := by
  rw [length_encode_one]
  constructor
  · intro h; exact List.length_eq_zero.1 (by omega)
  · intro h; simp only [h, List.length_nil, Message.space]; decide

theorem le_length_encode (ps : List Message) : 16 * ps.length ≤ (encode ps).length := by
  induction ps with
  | nil => simp [encode]
  | cons p ps ih =>
    have := length_encode_one p
    simp only [encode, List.length_append, List.length_cons]; omega

/-- More than a header's 16 bytes follow the start of `q` exactly when `q` has data or
another message comes after it. -/
theorem lt_length_encode_cons_iff (q : Message) (qs : List Message) :
    16 < (encode (q :: qs)).length ↔ ¬ (qs = [] ∧ q.data = []) := by
  have hq := length_encode_one_eq_16_iff q
  have := length_encode_one q
  have := le_length_encode qs
  simp only [encode, List.length_append]
  constructor
  · rintro h ⟨rfl, h0⟩
    simp only [hq.2 h0, encode, List.length_nil] at h
    omega
  · intro h
    rcases Classical.not_and_iff_or_not_not.1 h with h | h
    · have := List.length_pos.2 h; omega
    · have : (encode_one q).length ≠ 16 := fun h' => h (hq.1 h')
      omega

/-! ## Reading the layout back -/

theorem bytes32_concat (v : BitVec 32) :
    v.extractLsb' 24 8 ++ v.extractLsb' 16 8 ++ v.extractLsb' 8 8 ++ v.extractLsb' 0 8 = v := by
  apply BitVec.eq_of_getLsbD_eq
  intro ⟨i, hi⟩
  simp only [BitVec.getLsbD_append, BitVec.getLsbD_extractLsb']
  interval_cases i <;> rfl

/-- The header's fields, read back by `load32` at offsets `0`, `8` and `12`. -/
theorem load32_header_append (p : Message) (post : Bytes) :
    load32 (p.header ++ post) 0 = BitVec.ofNat 32 (16 + p.data.length) ∧
      load32 (p.header ++ post) 8 = p.level ∧ load32 (p.header ++ post) 12 = p.type :=
  ⟨bytes32_concat _, bytes32_concat _, bytes32_concat _⟩

@[simp] theorem getD_append_length (pre buf : Bytes) (k : Nat) :
    (pre ++ buf).getD (pre.length + k) 0 = buf.getD k 0 := by
  rw [List.getD_append_right _ _ _ _ (Nat.le_add_right _ _), Nat.add_sub_cancel_left]

/-- Reading past a prefix reads what follows it. -/
theorem load32_append_length (pre buf : Bytes) (k : Nat) :
    load32 (pre ++ buf) (pre.length + k) = load32 buf k := by
  simp only [load32, Nat.add_assoc, getD_append_length]

section Read

variable (pre rest : Bytes) (p : Message)

theorem cmsg_len_encode_one :
    cmsg_len (pre ++ (encode_one p ++ rest)) pre.length = BitVec.ofNat 32 (16 + p.data.length) := by
  rw [cmsg_len, encode_one_append, ← Nat.add_zero pre.length, load32_append_length]
  exact (load32_header_append p _).1

/-- The record the walk reads at a message laid out at `pre.length`, whole inside the block,
is the message's. -/
theorem record_at_encode_one {L : Nat} (hL : pre.length + (encode_one p).length ≤ L)
    (hn : 16 + p.data.length < 2 ^ 32) :
    record_at L (pre ++ (encode_one p ++ rest)) pre.length = p.record := by
  have hlen : (BitVec.ofNat 32 (16 + p.data.length)).toNat = 16 + p.data.length := by
    rw [BitVec.toNat_ofNat, Nat.mod_eq_of_lt hn]
  have hone := length_encode_one p
  simp only [record_at, cmsg_len_encode_one, hlen, Message.record, Record.mk.injEq, true_and]
  rw [encode_one_append, load32_append_length, load32_append_length]
  refine ⟨(load32_header_append p _).2.1, (load32_header_append p _).2.2, ?_⟩
  rw [show min (pre.length + (16 + p.data.length)) L - (pre.length + 16) = p.data.length by omega]
  refine List.ext_getElem (by simp) fun k h1 h2 => ?_
  rw [List.length_map, List.length_range] at h1
  rw [List.getElem_map, List.getElem_range, ← List.getD_eq_getElem _ 0 h2, ← List.append_assoc,
    show pre.length + 16 + k = (pre ++ p.header).length + k by simp, getD_append_length,
    List.getD_append _ _ _ _ h1]

/-- `CMSG_NXTHDR` from a message laid out at `pre.length`: the next header is
`CMSG_SPACE(len)` bytes on, and the walk goes there when more than a header of the block
follows the message. -/
theorem CMSG_NXTHDR_encode_one (L : BitVec 32)
    (hL : L.toNat = pre.length + (encode_one p).length + rest.length) :
    CMSG_NXTHDR L (pre ++ (encode_one p ++ rest)) pre.length =
      if 16 < rest.length then some (pre.length + (encode_one p).length) else none := by
  have hL32 := L.isLt
  have hone := length_encode_one p
  have hlen : (cmsg_len (pre ++ (encode_one p ++ rest)) pre.length).toNat = 16 + p.data.length := by
    rw [cmsg_len_encode_one, BitVec.toNat_ofNat, Nat.mod_eq_of_lt (by omega)]
  have hspace := p.space_eq (by omega)
  have hnext : __CMSG_NEXT (pre ++ (encode_one p ++ rest)) pre.length =
      pre.length + (encode_one p).length := by
    rw [__CMSG_NEXT_eq, hlen]; omega
  rw [CMSG_NXTHDR_of_le_len _ _ (by omega) (by omega), hnext]
  by_cases h : 16 < rest.length
  · rw [if_pos (by omega), if_pos h]
  · rw [if_neg (by omega), if_neg h]

end Read

/-- The messages of `p :: ps` the walk reaches: all of them but a last one with no data
after a first. -/
def reached (p : Message) : List Message → List Message
  | [] => [p]
  | q :: qs => p :: if qs = [] ∧ q.data = [] then [] else reached q qs

/-- **The walk over a laid-out block.** From a message laid out at `pre.length`, with the
block ending where the messages end, the walk reads the messages `reached` keeps. -/
theorem walk_encode (L : BitVec 32) (ps : List Message) : ∀ (p : Message) (pre buf : Bytes)
    (c : Nat), c = pre.length → buf = pre ++ (encode_one p ++ encode ps) →
    L.toNat = pre.length + (encode_one p).length + (encode ps).length → ∀ (hc : c + 16 ≤ L.toNat),
    (cmsg_walk L buf c hc).map (record_at L.toNat buf) = (reached p ps).map Message.record := by
  have hL32 := L.isLt
  induction ps with
  | nil =>
    intro p pre buf c hc0 hbuf hL hc
    subst hc0 hbuf
    have hN := CMSG_NXTHDR_encode_one pre (encode []) p L hL
    rw [if_neg (by simp [encode])] at hN
    rw [cmsg_walk_of_none hc hN, List.map_singleton,
      record_at_encode_one _ _ _ (by omega) (by have := length_encode_one p; omega)]
    rfl
  | cons q qs ih =>
    intro p pre buf c hc0 hbuf hL hc
    subst hc0
    have hone := length_encode_one p
    have hcons : (encode (q :: qs)).length = (encode_one q).length + (encode qs).length := by
      simp [encode]
    have hhead : record_at L.toNat buf pre.length = p.record := by
      rw [hbuf]; exact record_at_encode_one pre (encode (q :: qs)) p (by omega) (by omega)
    have hN : CMSG_NXTHDR L buf pre.length = if ¬ (qs = [] ∧ q.data = [])
        then some (pre.length + (encode_one p).length) else none := by
      rw [hbuf, CMSG_NXTHDR_encode_one pre (encode (q :: qs)) p L hL]
      simp only [lt_length_encode_cons_iff]
    by_cases hend : qs = [] ∧ q.data = []
    · -- a last message with no data is a bare header: the walk stops before it
      rw [if_neg (not_not.2 hend)] at hN
      rw [cmsg_walk_of_none hc hN, List.map_singleton, hhead]
      simp only [reached, if_pos hend, List.map_singleton]
    · rw [if_pos hend] at hN
      rw [cmsg_walk_of_some hc hN, List.map_cons, hhead]
      simp only [reached, if_neg hend, List.map_cons, List.cons.injEq, true_and]
      exact ih q (pre ++ encode_one p) buf _ (by simp) (by rw [hbuf]; simp [encode])
        (by simp only [List.length_append]; omega) _

theorem reached_eq (p : Message) (ps : List Message) :
    reached p ps = p :: if ps.getLast?.map Message.data = some [] then ps.dropLast else ps := by
  induction ps generalizing p with
  | nil => rfl
  | cons q qs ih =>
    cases qs with
    | nil => by_cases hq : q.data = [] <;> simp [reached, hq]
    | cons r rs =>
      rw [reached, if_neg (by simp), ih, List.getLast?_cons_cons, List.dropLast_cons₂]
      split_ifs <;> rfl

/-- **Round trip.** A block holding messages laid out as a sender lays them out, each in its
`CMSG_SPACE(len)` bytes with `cmsg_len = CMSG_LEN(len)`, reads back as those messages, except
that a last message with no data after a first is not reached: `CMSG_NXTHDR` stops when no
more than a header's 16 bytes are left after the current message. -/
theorem cmsg_records_encode (ps : List Message) (hL : (encode ps).length < 2 ^ 32) :
    cmsg_records (BitVec.ofNat 32 (encode ps).length) (encode ps) =
      (if 2 ≤ ps.length ∧ ps.getLast?.map Message.data = some [] then ps.dropLast else ps).map
        Message.record := by
  have hlen : (BitVec.ofNat 32 (encode ps).length).toNat = (encode ps).length := by
    rw [BitVec.toNat_ofNat, Nat.mod_eq_of_lt hL]
  cases ps with
  | nil => rfl
  | cons p qs =>
    have h16 := le_length_encode (p :: qs)
    have hfirst : CMSG_FIRSTHDR (BitVec.ofNat 32 (encode (p :: qs)).length) = some 0 := by
      rw [List.length_cons] at h16
      rw [CMSG_FIRSTHDR, if_pos (by rw [hlen, sizeof_cmsghdr]; omega)]
    rw [cmsg_records, cmsg_headers_of_some _ hfirst,
      walk_encode _ qs p [] (encode (p :: qs)) 0 rfl rfl (by rw [hlen]; simp [encode]), reached_eq]
    cases qs with
    | nil => rfl
    | cons r rs =>
      have h2 : 2 ≤ (p :: r :: rs).length := by simp
      simp only [h2, true_and, List.getLast?_cons_cons, List.dropLast_cons₂]
      split_ifs <;> rfl

/-- Two messages, the last a bare header: only the first is read back. -/
theorem cmsg_records_encode_bare_last :
    cmsg_records (BitVec.ofNat 32 (encode [⟨0, 1, 1, [7]⟩, ⟨0, 1, 2, []⟩]).length)
        (encode [⟨0, 1, 1, [7]⟩, ⟨0, 1, 2, []⟩]) = [Message.record ⟨0, 1, 1, [7]⟩] :=
  (cmsg_records_encode _ (by decide)).trans (by decide)

end Axlibc.CmsgFormat
