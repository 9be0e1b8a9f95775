/-
`include/sched.h`: the CPU-set macros.

On an LP64 target `cpu_set_t` is `128 / sizeof(long) = 16` words of `unsigned long`, and
`CPU_SET_S(i, size, set)` sets bit `i` of the set after testing the byte that holds it
against `size`:

    #define __CPU_op_S(i, size, set, op)                                            \
        ((i) / 8U >= (size) ? 0                                                     \
                            : (((unsigned long *)(set))[(i) / 8 / sizeof(long)] op( \
                                  1UL << ((i) % (8 * sizeof(long))))))

The macro is type-generic. `i` keeps the C type the caller gave it, and each of the three
operations on it (`/ 8U`, `/ 8 / sizeof(long)`, `% (8 * sizeof(long))`) applies C's usual
arithmetic conversions on its own. They are written out below for the three index types a
caller passes (`int`, `long`, `size_t`); everything else here is proved from them.

What comes out:

* for an index in `[0, 1024)` of any of the three types, `CPU_SET` sets exactly bit `i % 64`
  of word `i / 64` (`CPU_SET_of_lt`);
* an `int` or `size_t` index outside that range leaves the set alone, and so does a `long`
  index below `-7` or above `1023` (`CPU_SET_of_out`);
* a `long` index in `[-7, -1]` gets past the guard. `(i) / 8U` is a *signed* division
  there (`8U` converts to `long`), it truncates to `0`, and `0 >= 128` is false. The modulo
  then converts `i` to `unsigned long`, so bit `64 + i` of word `0` is set
  (`CPU_SET_long_of_neg`);
* for the sized macro the guard is byte-granular but the write is a whole word, so the write
  stays inside the set exactly when `size` is a multiple of `sizeof(long)`, and, for `int`
  indices, at most `2^28` bytes: above that a negative `int` passes the guard and its
  quotient `(i) / 8` (negative, converted to `size_t`) names a word far outside the set
  (`CPU_SET_S_int_frame`).

The set is the word memory `Nat → BitVec 64` that `(unsigned long *)(set)` indexes, so
"changes no other bit" also covers words past the end of the object.

`size` is read here as a `size_t`, which is what `CPU_SET` passes (`sizeof(cpu_set_t)`). The
macro is type-generic in `size` as well: against an `int`, `unsigned int` or `long` size, the
`long` quotient of a `long` index is compared signed. `Axlibc.CpuSet` models that comparison
(`CPU_SET_S_typed`) and shows it agrees with `CPU_SET_S` for a `size_t` size.
-/
import Mathlib

set_option autoImplicit false

namespace Axlibc.Sched

/-! ## C integer conversions -/

/-- The C integer types a caller passes as the CPU index of the type-generic macros. -/
inductive CType where
  | int
  | long
  | size_t
  deriving DecidableEq, Repr

/-- Least value of each type on LP64. -/
def CType.min : CType → Int
  | .int => -2 ^ 31
  | .long => -2 ^ 63
  | .size_t => 0

/-- Greatest value of each type on LP64. -/
def CType.max : CType → Int
  | .int => 2 ^ 31 - 1
  | .long => 2 ^ 63 - 1
  | .size_t => 2 ^ 64 - 1

/-- A CPU index as the macro receives it: a value of one of the three types, in its range. -/
structure CpuIndex where
  ty : CType
  val : Int
  ge_min : ty.min ≤ val
  le_max : val ≤ ty.max

/-- An integer converted to an unsigned type of `w` bits (C11 6.3.1.3): reduced mod `2^w`. -/
def toUnsigned (w : Nat) (x : Int) : Nat := (x % (2 ^ w : Nat)).toNat

/-- C's `/` on signed operands truncates toward zero; at the divisor `8` that is
`Int.tdiv`, written here with floor division so that `omega` can use it. -/
theorem tdiv_eight (x : Int) : x.tdiv 8 = if 0 ≤ x then x / 8 else -((-x) / 8) := by
  split
  · exact Int.tdiv_eq_ediv (by assumption) (by decide)
  · rw [← Int.neg_tdiv_neg, Int.tdiv_neg, Int.tdiv_eq_ediv (by omega) (by decide)]

/-! ## The macros -/

/-- `(i) / 8U`, at the type its comparison with a `size_t` bound converts it to.
For `int`, `i` converts to `unsigned int`; for `long`, `8U` converts to `long` and the
signed quotient then converts to `unsigned long`; for `size_t` the division is unsigned.
`CPU_SET` passes a `size_t` bound (`sizeof(cpu_set_t)`); the comparison with a bound of
another type is `Axlibc.CpuSet.guard_rejects`. -/
def div_8U : CType → Int → Nat
  | .int, i => toUnsigned 32 i / 8
  | .long, i => toUnsigned 64 (i.tdiv 8)
  | .size_t, i => i.toNat / 8

/-- `(i) / 8 / sizeof(long)`: the signed quotient `(i) / 8` converts to `size_t` before
the second division. This is the word the macro writes. -/
def word_index : CType → Int → Nat
  | .int, i | .long, i => toUnsigned 64 (i.tdiv 8) / 8
  | .size_t, i => i.toNat / 8 / 8

/-- `(i) % (8 * sizeof(long))`: `i` converts to `size_t`. This is the bit within the word. -/
def bit_index : CType → Int → Nat
  | .int, i | .long, i => toUnsigned 64 i % 64
  | .size_t, i => i.toNat % 64

/-- `__CPU_op_S(i, size, set, op)` with a `size_t` size, on the words `(unsigned long *)(set)`
indexes. The value of the expression (`0`, or the new word) is discarded by every caller in
the header. -/
def __CPU_op_S (i : CpuIndex) (size : Nat) (set : Nat → BitVec 64)
    (op : BitVec 64 → BitVec 64 → BitVec 64) : Nat → BitVec 64 :=
  if div_8U i.ty i.val ≥ size then set
  else
    Function.update set (word_index i.ty i.val)
      (op (set (word_index i.ty i.val)) (1#64 <<< bit_index i.ty i.val))

/-- `CPU_SET_S(i, size, set)`: `__CPU_op_S` with `|=`. -/
def CPU_SET_S (i : CpuIndex) (size : Nat) (set : Nat → BitVec 64) : Nat → BitVec 64 :=
  __CPU_op_S i size set (· ||| ·)

/-- `sizeof(cpu_set_t)`: `128 / sizeof(long)` words of `sizeof(unsigned long)` bytes. -/
def sizeof_cpu_set_t : Nat := 128 / 8 * 8

/-- `CPU_SET(i, set)`: the sized macro at `sizeof(cpu_set_t)`. -/
def CPU_SET (i : CpuIndex) (set : Nat → BitVec 64) : Nat → BitVec 64 :=
  CPU_SET_S i sizeof_cpu_set_t set

/-- `CPU_ZERO_S(size, set)`, that is `memset(set, 0, size)`, on the little-endian word view:
the words inside `[0, size)` are cleared, a word that straddles `size` loses its low
`size % 8` bytes (the shift is `64` or more for a word wholly inside, which clears it). -/
def CPU_ZERO_S (size : Nat) (set : Nat → BitVec 64) : Nat → BitVec 64 := fun w =>
  if size ≤ 8 * w then set w else set w &&& (BitVec.allOnes 64 <<< (8 * (size - 8 * w)))

/-- `CPU_ZERO(set)`. -/
def CPU_ZERO (set : Nat → BitVec 64) : Nat → BitVec 64 :=
  CPU_ZERO_S sizeof_cpu_set_t set

/-! ## The index arithmetic, type by type -/

section Index

variable (t : CType) (i : Int)

/-- A nonnegative index of any type: `(i) / 8U` is the byte `i / 8`. -/
theorem div_8U_of_nonneg (h0 : 0 ≤ i) (hmax : i ≤ t.max) : div_8U t i = i.toNat / 8 := by
  cases t <;> simp only [CType.max] at hmax <;>
    simp only [div_8U, toUnsigned, tdiv_eight, if_pos h0] <;> omega

/-- A nonnegative index of any type writes word `i / 64`. -/
theorem word_index_of_nonneg (h0 : 0 ≤ i) (hmax : i ≤ t.max) :
    word_index t i = i.toNat / 64 := by
  cases t <;> simp only [CType.max] at hmax <;>
    simp only [word_index, toUnsigned, tdiv_eight, if_pos h0] <;> omega

/-- A nonnegative index of any type sets bit `i % 64`. -/
theorem bit_index_of_nonneg (h0 : 0 ≤ i) (hmax : i ≤ t.max) : bit_index t i = i.toNat % 64 := by
  cases t <;> simp only [CType.max] at hmax <;> simp only [bit_index, toUnsigned] <;> omega

theorem bit_index_lt : bit_index t i < 64 := by
  cases t <;> simp only [bit_index] <;> omega

/-- A negative `int` converts to `unsigned int` at `2^32 + i ≥ 2^31`, so its byte is at
least `2^28`. -/
theorem div_8U_int_of_neg (h : i < 0) (hmin : CType.int.min ≤ i) : 2 ^ 28 ≤ div_8U .int i := by
  simp only [div_8U, toUnsigned, CType.min] at *; omega

/-- A `long` in `[-7, -1]`: the signed quotient truncates to `0`, and the modulo sees
`2^64 + i`. -/
theorem long_of_small_neg (h1 : -7 ≤ i) (h2 : i ≤ -1) :
    div_8U .long i = 0 ∧ word_index .long i = 0 ∧ bit_index .long i = (64 + i).toNat := by
  simp only [div_8U, word_index, bit_index, toUnsigned, tdiv_eight,
    if_neg (show ¬ 0 ≤ i by omega)]
  omega

/-- A `long` at or below `-8` has a negative quotient, which converts to a huge `size_t`. -/
theorem div_8U_long_of_le (h1 : i ≤ -8) (hmin : CType.long.min ≤ i) : 2 ^ 63 ≤ div_8U .long i := by
  simp only [div_8U, toUnsigned, tdiv_eight, if_neg (show ¬ 0 ≤ i by omega), CType.min] at *
  omega

end Index

/-- **The guard of `CPU_SET`.** At `size = sizeof(cpu_set_t) = 128` the write goes through
exactly for the indices in `[0, 1024)` and, by the truncating division, for the `long`
indices in `[-7, -1]`. -/
theorem div_8U_lt_cpu_set_iff (i : CpuIndex) :
    div_8U i.ty i.val < sizeof_cpu_set_t ↔
      (0 ≤ i.val ∧ i.val < 1024) ∨ (i.ty = .long ∧ -7 ≤ i.val ∧ i.val < 0) := by
  obtain ⟨t, v, hmin, hmax⟩ := i
  simp only [sizeof_cpu_set_t]
  by_cases h0 : 0 ≤ v
  · rw [div_8U_of_nonneg t v h0 hmax]; omega
  · cases t with
    | int => have := div_8U_int_of_neg v (by omega) hmin; simp; omega
    | long =>
      by_cases h7 : -7 ≤ v
      · rw [(long_of_small_neg v h7 (by omega)).1]; simp; omega
      · have := div_8U_long_of_le v (by omega) hmin; simp; omega
    | size_t => simp only [CType.min] at hmin; omega

/-! ## What one write does -/

theorem getLsbD_or_one_shiftLeft (x : BitVec 64) (k b : Nat) (hk : k < 64) :
    (x ||| 1#64 <<< k).getLsbD b = (x.getLsbD b || decide (b = k)) := by
  rw [BitVec.getLsbD_or, BitVec.getLsbD_shiftLeft, BitVec.getLsbD_one]
  by_cases h : b = k
  · simp [h, hk]
  · simp only [h, decide_False, Bool.or_false]
    simp; omega

section Write

variable (i : CpuIndex) (size : Nat) (set : Nat → BitVec 64)

/-- A rejected index leaves the set alone. -/
theorem CPU_SET_S_of_ge (h : size ≤ div_8U i.ty i.val) : CPU_SET_S i size set = set := by
  rw [CPU_SET_S, __CPU_op_S, if_pos h]

/-- An accepted index sets one bit, `bit_index` of word `word_index`, and nothing else. -/
theorem CPU_SET_S_of_lt (h : div_8U i.ty i.val < size) (w b : Nat) :
    (CPU_SET_S i size set w).getLsbD b =
      ((set w).getLsbD b || decide (w = word_index i.ty i.val ∧ b = bit_index i.ty i.val)) := by
  rw [CPU_SET_S, __CPU_op_S, if_neg (by omega)]
  by_cases hw : w = word_index i.ty i.val
  · subst hw
    rw [Function.update_same, getLsbD_or_one_shiftLeft _ _ _ (bit_index_lt _ _)]
    simp
  · simp [Function.update_noteq hw, hw]

end Write

/-! ## `CPU_ZERO_S` -/

section Zero

variable (size : Nat) (set : Nat → BitVec 64) (w : Nat)

/-- `memset` leaves the words past `size` alone. -/
theorem CPU_ZERO_S_of_le (h : size ≤ 8 * w) : CPU_ZERO_S size set w = set w := by
  rw [CPU_ZERO_S, if_pos h]

/-- `memset` clears every word wholly inside `[0, size)`. -/
theorem CPU_ZERO_S_of_lt (h : 8 * w + 8 ≤ size) : CPU_ZERO_S size set w = 0#64 := by
  rw [CPU_ZERO_S, if_neg (by omega)]
  apply BitVec.eq_of_getLsbD_eq
  intro b
  have := b.isLt
  simp only [BitVec.getLsbD_and, BitVec.getLsbD_shiftLeft, BitVec.getLsbD_zero]
  simp; omega

end Zero

/-! ## `CPU_SET` on a `cpu_set_t` -/

/-- **`CPU_SET` in range.** For an index in `[0, 1024)` of any of the three types,
`CPU_SET` sets bit `i % 64` of word `i / 64` and changes no other bit of memory. -/
theorem CPU_SET_of_lt (i : CpuIndex) (h0 : 0 ≤ i.val) (h1 : i.val < 1024)
    (set : Nat → BitVec 64) (w b : Nat) :
    (CPU_SET i set w).getLsbD b =
      ((set w).getLsbD b || decide (w = i.val.toNat / 64 ∧ b = i.val.toNat % 64)) := by
  rw [CPU_SET, CPU_SET_S_of_lt i _ set ((div_8U_lt_cpu_set_iff i).2 (.inl ⟨h0, h1⟩)),
    word_index_of_nonneg _ _ h0 i.le_max, bit_index_of_nonneg _ _ h0 i.le_max]

/-- Out of range, the guard rejects every index but the `long` ones in `[-7, -1]`. -/
theorem CPU_SET_of_out (i : CpuIndex) (h : i.val < 0 ∨ 1024 ≤ i.val)
    (hl : ¬ (i.ty = .long ∧ -7 ≤ i.val ∧ i.val < 0)) (set : Nat → BitVec 64) :
    CPU_SET i set = set :=
  CPU_SET_S_of_ge _ _ _ (Nat.le_of_not_lt fun hlt => by
    rcases (div_8U_lt_cpu_set_iff i).1 hlt with hin | hlong
    · omega
    · exact hl hlong)

/-- **The `long` slip.** A `long` index in `[-7, -1]` passes the guard and sets bit
`64 + i` of word `0`. -/
theorem CPU_SET_long_of_neg (i : CpuIndex) (hl : i.ty = .long) (h1 : -7 ≤ i.val)
    (h2 : i.val < 0) (set : Nat → BitVec 64) (w b : Nat) :
    (CPU_SET i set w).getLsbD b =
      ((set w).getLsbD b || decide (w = 0 ∧ b = (64 + i.val).toNat)) := by
  have hi := long_of_small_neg i.val h1 (by omega)
  rw [← hl] at hi
  rw [CPU_SET, CPU_SET_S_of_lt i _ set ((div_8U_lt_cpu_set_iff i).2 (.inr ⟨hl, h1, h2⟩)),
    hi.2.1, hi.2.2]

/-- `CPU_SET(-1L, &s)` on an empty set: the top bit of word `0` comes on. -/
theorem CPU_SET_long_neg_one :
    CPU_SET ⟨.long, -1, by decide, by decide⟩ (fun _ => 0#64) 0 = 0x8000000000000000#64 := by
  decide

/-! ## The sized macro -/

/-- **`CPU_SET_S` stays inside the set.** For an `int` index and a size that is a whole
number of words and at most `2^28` bytes (`2^31` CPUs, as many as an `int` numbers), a write
the guard lets through lands in a word inside `[0, size)`, so no word outside the set
changes. -/
theorem CPU_SET_S_int_frame (i : CpuIndex) (hi : i.ty = .int) (size : Nat)
    (h8 : size % 8 = 0) (hsize : size ≤ 2 ^ 28) (set : Nat → BitVec 64) :
    (div_8U i.ty i.val < size → 8 * word_index i.ty i.val + 8 ≤ size) ∧
      ∀ w, size < 8 * w + 8 → CPU_SET_S i size set w = set w := by
  obtain ⟨t, v, hmin, hmax⟩ := i
  subst hi
  have hin : div_8U .int v < size → 8 * word_index .int v + 8 ≤ size := fun h => by
    have h0 : 0 ≤ v := Int.not_lt.1 fun hv => by have := div_8U_int_of_neg v hv hmin; omega
    rw [div_8U_of_nonneg _ _ h0 hmax] at h
    rw [word_index_of_nonneg _ _ h0 hmax]
    omega
  refine ⟨hin, fun w hw => ?_⟩
  by_cases h : div_8U .int v < size
  · have := hin h
    simp only [CPU_SET_S, __CPU_op_S, if_neg (Nat.not_le.2 h)]
    exact Function.update_noteq (by omega) _ _
  · exact congrFun (CPU_SET_S_of_ge _ _ _ (Nat.le_of_not_lt h)) w

theorem CPU_SET_S_int_frame_cpu_set : 8 * word_index .int 1023 + 8 ≤ 128 :=
  (CPU_SET_S_int_frame ⟨.int, 1023, by decide, by decide⟩ rfl 128 (by decide) (by decide)
    (fun _ => 0)).1 (by decide)

/-- The sized macro's write can leave the set: with a one-byte set the guard passes index `0`
and the write takes a whole word, and with a set of `2^28 + 8` bytes the guard passes
`INT_MIN`, whose word is `2^61 - 2^25`. -/
theorem CPU_SET_S_int_escapes :
    (div_8U .int 0 < 1 ∧ ¬ 8 * word_index .int 0 + 8 ≤ 1) ∧
      (div_8U .int (-2 ^ 31) < 2 ^ 28 + 8 ∧ ¬ 8 * word_index .int (-2 ^ 31) + 8 ≤ 2 ^ 28 + 8) := by
  decide

end Axlibc.Sched
