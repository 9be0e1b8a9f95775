/-
`include/sched.h` at the level a caller thinks at: a `cpu_set_t` of `size` bytes is the set
of CPUs whose bits are on, and building one with `CPU_ZERO_S` and then `CPU_SET_S` for each of
a list of indices gives the set of the CPUs those indices name.

The abstraction is `cpus_in`: CPU `c < 8 * size` is in the set when bit `c % 64` of word
`c / 64` is on. Which CPU an index names is `cpu_of`, read off the macro's guard and its
index arithmetic in `Axlibc.Sched`: a nonnegative index below `8 * size` names itself, and a
`long` index in `[-7, -1]`, which slips past the guard by the truncating division, names CPU
`64 + i`. Every other index names none, and `CPU_SET_S` leaves the set alone for it.

`CPU_SET_S` of `Axlibc.Sched` reads `size` as a `size_t`, as `CPU_SET` passes it. The macro
takes a `size` of any integer type, and the type decides how its guard compares:
`CPU_SET_S_typed` models the guard for an `int`, `unsigned int`, `long` or `size_t` size and
is `CPU_SET_S` for a `size_t` one (`CPU_SET_S_typed_size_t`). Against a signed size, a `long`
index at or below `-8` passes the guard and writes a word near `2^61` (`escapes`).

The statement holds for every `size` that is a whole number of words and at most `2^28`
bytes, of any of the four types; those are the sizes for which `CPU_SET_S_int_frame` keeps
every write of a `size_t` size inside the set. Past the set a run turns on the bits its
escaping indices write and nothing else, so with a `size_t` size it changes no word there
(`cpus_in_CPU_SET_S_run`). With no assumption on the size, a run is the same memory whatever
the order of its indices and however often each comes (`foldl_CPU_SET_S_congr`): every write
only turns one bit on.
-/
import Axlibc.Sched

set_option autoImplicit false

namespace Axlibc.CpuSet

open Axlibc.Sched

/-! ## The set of CPUs a `cpu_set_t` holds -/

/-- The CPUs whose bits are on in the `size` bytes of a set. -/
def cpus_in (size : Nat) (set : Nat → BitVec 64) : Finset Nat :=
  (Finset.range (8 * size)).filter fun c => (set (c / 64)).getLsbD (c % 64)

/-- The CPU an index names to `CPU_SET_S` on a set of `size` bytes, if any. -/
def cpu_of (size : Nat) (i : CpuIndex) : Option Nat :=
  if 0 ≤ i.val ∧ i.val < 8 * size then some i.val.toNat
  else if i.ty = .long ∧ -7 ≤ i.val ∧ i.val < 0 ∧ 0 < size then some (64 + i.val).toNat
  else none

example : [(⟨.int, 3, by decide, by decide⟩ : CpuIndex), ⟨.long, -1, by decide, by decide⟩,
    ⟨.size_t, 2000, by decide, by decide⟩].filterMap (cpu_of 128) = [3, 63] := by decide

theorem mem_cpus_in {size : Nat} {set : Nat → BitVec 64} {c : Nat} :
    c ∈ cpus_in size set ↔ c < 8 * size ∧ (set (c / 64)).getLsbD (c % 64) = true := by
  rw [cpus_in, Finset.mem_filter, Finset.mem_range]

/-! ## Any run, any size -/

/-- After a run of `CPU_SET_S`, for every size and every memory, a bit is on when it was on
before or an index of the run that the guard lets through writes it. -/
theorem getLsbD_foldl_CPU_SET_S (size : Nat) (is : List CpuIndex) (set : Nat → BitVec 64)
    (w b : Nat) :
    (is.foldl (fun s i => CPU_SET_S i size s) set w).getLsbD b = true ↔
      (set w).getLsbD b = true ∨ ∃ i ∈ is, div_8U i.ty i.val < size ∧
        w = word_index i.ty i.val ∧ b = bit_index i.ty i.val := by
  induction is generalizing set with
  | nil => simp
  | cons i is ih =>
    rw [List.foldl_cons, ih]
    simp only [List.mem_cons, exists_eq_or_imp]
    by_cases h : div_8U i.ty i.val < size
    · rw [CPU_SET_S_of_lt i size set h, Bool.or_eq_true, decide_eq_true_iff]
      simp only [h, true_and, or_assoc]
    · rw [CPU_SET_S_of_ge i size set (Nat.le_of_not_lt h)]
      simp only [h, false_and, false_or]

section Step

variable {size : Nat} (h8 : size % 8 = 0) (hsize : size ≤ 2 ^ 28)
include h8 hsize

/-- What the guard and the index arithmetic of `CPU_SET_S` come to on a set of whole words,
at most `2^28` bytes: an index the guard rejects names no CPU, and one it lets through names
a CPU `c` of the set, whose word and bit are the ones the macro writes. -/
theorem CPU_SET_S_cases (i : CpuIndex) :
    (size ≤ div_8U i.ty i.val ∧ cpu_of size i = none) ∨
      ∃ c, div_8U i.ty i.val < size ∧ cpu_of size i = some c ∧ c < 8 * size ∧
        word_index i.ty i.val = c / 64 ∧ bit_index i.ty i.val = c % 64 := by
  obtain ⟨t, v, hmin, hmax⟩ := i
  simp only [cpu_of]
  by_cases h0 : 0 ≤ v
  · rw [div_8U_of_nonneg t v h0 hmax, word_index_of_nonneg t v h0 hmax,
      bit_index_of_nonneg t v h0 hmax]
    by_cases hv : v < 8 * size
    · exact .inr ⟨v.toNat, by omega, by rw [if_pos ⟨h0, hv⟩], by omega, rfl, rfl⟩
    · exact .inl ⟨by omega, by rw [if_neg (by omega), if_neg (by omega)]⟩
  · have hfirst : ¬ (0 ≤ v ∧ v < 8 * size) := fun h => h0 h.1
    cases t with
    | int =>
      have := div_8U_int_of_neg v (by omega) hmin
      exact .inl ⟨by omega, by rw [if_neg hfirst, if_neg (by simp)]⟩
    | long =>
      by_cases h7 : -7 ≤ v
      · obtain ⟨hd, hw, hb⟩ := long_of_small_neg v h7 (by omega)
        rw [hd, hw, hb]
        by_cases hs : 0 < size
        · exact .inr ⟨(64 + v).toNat, hs, by rw [if_neg hfirst, if_pos ⟨rfl, h7, by omega, hs⟩],
            by omega, by omega, by omega⟩
        · exact .inl ⟨by omega, by rw [if_neg hfirst, if_neg (by omega)]⟩
      · have := div_8U_long_of_le v (by omega) hmin
        exact .inl ⟨by omega, by rw [if_neg hfirst, if_neg (by omega)]⟩
    | size_t => simp only [CType.min] at hmin; omega

/-- One `CPU_SET_S` adds the CPU its index names, if any, and nothing else. -/
theorem mem_cpus_in_CPU_SET_S (i : CpuIndex) (set : Nat → BitVec 64) (c : Nat) :
    c ∈ cpus_in size (CPU_SET_S i size set) ↔ c ∈ cpus_in size set ∨ cpu_of size i = some c := by
  rcases CPU_SET_S_cases h8 hsize i with ⟨hge, hnone⟩ | ⟨c', hlt, hsome, hc', hw, hb⟩
  · rw [CPU_SET_S_of_ge i size set hge, hnone]; simp
  · simp only [mem_cpus_in, CPU_SET_S_of_lt i size set hlt, hw, hb, hsome, Option.some.injEq,
      Bool.or_eq_true, decide_eq_true_eq]
    constructor
    · rintro ⟨hc, hbit | ⟨hq, hr⟩⟩
      · exact .inl ⟨hc, hbit⟩
      · exact .inr (by omega)
    · rintro (⟨hc, hbit⟩ | rfl)
      · exact ⟨hc, .inl hbit⟩
      · exact ⟨hc', .inr ⟨rfl, rfl⟩⟩

/-- One `CPU_SET_S` writes no word past the set. -/
theorem CPU_SET_S_of_le_word (i : CpuIndex) (set : Nat → BitVec 64) (w : Nat)
    (hw : size ≤ 8 * w) : CPU_SET_S i size set w = set w := by
  rcases CPU_SET_S_cases h8 hsize i with ⟨hge, -⟩ | ⟨c, hlt, -, hc, hwi, hbi⟩
  · rw [CPU_SET_S_of_ge i size set hge]
  · apply BitVec.eq_of_getLsbD_eq
    intro b
    rw [CPU_SET_S_of_lt i size set hlt, hwi, hbi, decide_eq_false (by omega), Bool.or_false]

end Step

/-! ## The type of `size` -/

/-- The C type of the `size` argument of `CPU_SET_S`: a `sizeof`, as `CPU_SET` passes, is a
`size_t`, and an integer constant such as `128` is an `int`. -/
inductive SizeType
  | int
  | unsigned_int
  | long
  | size_t
  deriving DecidableEq, Repr

/-- `(i) / 8U >= (size)` for a `size` of type `st` whose value that type holds. The quotient
is an `unsigned int` for an `int` index, a `long` for a `long` index (`8U` converts to
`long`) and a `size_t` for a `size_t` one, and the comparison converts both sides to their
common type. That type is signed exactly when the quotient is a `long` and `size` is not a
`size_t`, and the comparison then sees the truncated quotient itself; in every other pairing
it sees the quotient as `div_8U` gives it. -/
def guard_rejects (i : CpuIndex) (st : SizeType) (size : Nat) : Bool :=
  if i.ty = .long ∧ st ≠ .size_t then decide ((size : Int) ≤ i.val.tdiv 8)
  else decide (size ≤ div_8U i.ty i.val)

/-- `__CPU_op_S(i, size, set, op)` with `size` of type `st`. The word and the bit it writes,
`(i) / 8 / sizeof(long)` and `(i) % (8 * sizeof(long))`, do not involve `size`. -/
def __CPU_op_S_typed (i : CpuIndex) (st : SizeType) (size : Nat) (set : Nat → BitVec 64)
    (op : BitVec 64 → BitVec 64 → BitVec 64) : Nat → BitVec 64 :=
  if guard_rejects i st size then set
  else
    Function.update set (word_index i.ty i.val)
      (op (set (word_index i.ty i.val)) (1#64 <<< bit_index i.ty i.val))

/-- `CPU_SET_S(i, size, set)` with `size` of type `st`. -/
def CPU_SET_S_typed (i : CpuIndex) (st : SizeType) (size : Nat) (set : Nat → BitVec 64) :
    Nat → BitVec 64 :=
  __CPU_op_S_typed i st size set (· ||| ·)

/-- The writes the signed comparison lets escape: a `long` index at or below `-8` against a
`size` that is not a `size_t`. Its quotient is negative, below every size, and converted to
`size_t` it names a word near `2^61`. -/
def escapes (st : SizeType) (i : CpuIndex) : Prop :=
  i.ty = .long ∧ st ≠ .size_t ∧ i.val ≤ -8

instance (st : SizeType) (i : CpuIndex) : Decidable (escapes st i) :=
  inferInstanceAs (Decidable (_ ∧ _ ∧ _))

/-- With a `size_t` size the macro is `CPU_SET_S` of `Axlibc.Sched`. -/
theorem CPU_SET_S_typed_size_t (i : CpuIndex) (size : Nat) (set : Nat → BitVec 64) :
    CPU_SET_S_typed i .size_t size set = CPU_SET_S i size set := by
  simp [CPU_SET_S_typed, __CPU_op_S_typed, CPU_SET_S, __CPU_op_S, guard_rejects]

section Typed

variable {i : CpuIndex} {st : SizeType} {size : Nat}

/-- Below `2^63` bytes, a comparison that lets no write escape decides as the `size_t` one:
a `long` index in `[-7, -1]` has the quotient `0` either way. -/
theorem guard_rejects_of_not_escapes (h : ¬ escapes st i) (hs : size < 2 ^ 63) :
    guard_rejects i st size = decide (size ≤ div_8U i.ty i.val) := by
  obtain ⟨t, v, hmin, hmax⟩ := i
  unfold guard_rejects
  split_ifs with hsig
  · obtain ⟨ht, hst⟩ := hsig
    simp only at ht ⊢
    subst ht
    have hv : -8 < v := Int.not_le.1 fun hv => h ⟨rfl, hst, hv⟩
    rw [tdiv_eight, decide_eq_decide]
    by_cases h0 : 0 ≤ v
    · rw [if_pos h0, div_8U_of_nonneg _ _ h0 hmax]; omega
    · rw [if_neg h0, (long_of_small_neg v (by omega) (by omega)).1]; omega
  · rfl

/-- An escaping index passes the guard whatever the size. -/
theorem guard_rejects_of_escapes (h : escapes st i) : guard_rejects i st size = false := by
  obtain ⟨ht, hst, hv⟩ := h
  rw [guard_rejects, if_pos ⟨ht, hst⟩, tdiv_eight, if_neg (by omega), decide_eq_false_iff_not]
  omega

/-- An escaping index names no CPU. -/
theorem cpu_of_of_escapes (h : escapes st i) : cpu_of size i = none := by
  obtain ⟨-, -, hv⟩ := h
  rw [cpu_of, if_neg (by omega), if_neg (by omega)]

/-- An escaping index's word is at least `2^61 - 2^57`: its quotient, at least `-2^60`, is
converted to `size_t`. -/
theorem word_index_of_escapes (h : escapes st i) : 2 ^ 61 - 2 ^ 57 ≤ word_index i.ty i.val := by
  obtain ⟨t, v, hmin, hmax⟩ := i
  obtain ⟨ht, -, hv⟩ := h
  simp only at ht hv
  subst ht
  simp only [CType.min, word_index, toUnsigned, tdiv_eight, if_neg (show ¬ 0 ≤ v by omega)]
    at hmin ⊢
  omega

/-- A write that does not escape is `CPU_SET_S`'s. -/
theorem CPU_SET_S_typed_of_not_escapes (h : ¬ escapes st i) (hs : size < 2 ^ 63)
    (set : Nat → BitVec 64) : CPU_SET_S_typed i st size set = CPU_SET_S i size set := by
  simp only [CPU_SET_S_typed, __CPU_op_S_typed, CPU_SET_S, __CPU_op_S,
    guard_rejects_of_not_escapes h hs, decide_eq_true_eq, ge_iff_le]

/-- An escaping write goes through: it is the write `CPU_SET_S` makes past its guard, and
turns on one bit, `bit_index` of word `word_index`. -/
theorem CPU_SET_S_typed_of_escapes (h : escapes st i) (set : Nat → BitVec 64) (w b : Nat) :
    (CPU_SET_S_typed i st size set w).getLsbD b =
      ((set w).getLsbD b || decide (w = word_index i.ty i.val ∧ b = bit_index i.ty i.val)) := by
  have hpass : CPU_SET_S_typed i st size set = CPU_SET_S i (div_8U i.ty i.val + 1) set := by
    simp [CPU_SET_S_typed, __CPU_op_S_typed, CPU_SET_S, __CPU_op_S, guard_rejects_of_escapes h]
  rw [hpass, CPU_SET_S_of_lt _ _ _ (Nat.lt_succ_self _)]

end Typed

/-! ## A run of `CPU_SET_S`, with a `size` of any type -/

section Run

variable {size : Nat} (h8 : size % 8 = 0) (hsize : size ≤ 2 ^ 28)
include h8 hsize

/-- One `CPU_SET_S` adds the CPU its index names, if any, whatever the type of `size`: an
escaping write lands past the set. -/
theorem mem_cpus_in_CPU_SET_S_typed (i : CpuIndex) (st : SizeType) (set : Nat → BitVec 64)
    (c : Nat) :
    c ∈ cpus_in size (CPU_SET_S_typed i st size set) ↔
      c ∈ cpus_in size set ∨ cpu_of size i = some c := by
  by_cases he : escapes st i
  · have hw := word_index_of_escapes he
    simp only [cpu_of_of_escapes he, mem_cpus_in, CPU_SET_S_typed_of_escapes he, Bool.or_eq_true,
      decide_eq_true_eq, reduceCtorEq, or_false]
    exact and_congr_right fun hc => or_iff_left fun hq => by omega
  · rw [CPU_SET_S_typed_of_not_escapes he (by omega), mem_cpus_in_CPU_SET_S h8 hsize]

/-- Past the set, one `CPU_SET_S` turns on the bit of an escaping index, and nothing else. -/
theorem getLsbD_CPU_SET_S_typed_of_le_word (i : CpuIndex) (st : SizeType)
    (set : Nat → BitVec 64) (w b : Nat) (hw : size ≤ 8 * w) :
    (CPU_SET_S_typed i st size set w).getLsbD b = true ↔
      (set w).getLsbD b = true ∨
        (escapes st i ∧ w = word_index i.ty i.val ∧ b = bit_index i.ty i.val) := by
  by_cases he : escapes st i
  · rw [CPU_SET_S_typed_of_escapes he, Bool.or_eq_true, decide_eq_true_iff]
    simp only [he, true_and]
  · rw [CPU_SET_S_typed_of_not_escapes he (by omega), CPU_SET_S_of_le_word h8 hsize i set w hw]
    simp only [he, false_and, or_false]

/-- A run of `CPU_SET_S` adds exactly the CPUs its indices name. -/
theorem mem_cpus_in_foldl_typed (st : SizeType) (is : List CpuIndex) (set : Nat → BitVec 64)
    (c : Nat) :
    c ∈ cpus_in size (is.foldl (fun s i => CPU_SET_S_typed i st size s) set) ↔
      c ∈ cpus_in size set ∨ ∃ i ∈ is, cpu_of size i = some c := by
  induction is generalizing set with
  | nil => simp
  | cons i is ih =>
    rw [List.foldl_cons, ih, mem_cpus_in_CPU_SET_S_typed h8 hsize]
    simp only [List.mem_cons, exists_eq_or_imp, or_assoc]

/-- Past the set, a run of `CPU_SET_S` turns on the bits of its escaping indices, and
nothing else. -/
theorem getLsbD_foldl_typed_of_le_word (st : SizeType) (is : List CpuIndex)
    (set : Nat → BitVec 64) (w b : Nat) (hw : size ≤ 8 * w) :
    (is.foldl (fun s i => CPU_SET_S_typed i st size s) set w).getLsbD b = true ↔
      (set w).getLsbD b = true ∨
        ∃ i ∈ is, escapes st i ∧ w = word_index i.ty i.val ∧ b = bit_index i.ty i.val := by
  induction is generalizing set with
  | nil => simp
  | cons i is ih =>
    rw [List.foldl_cons, ih, getLsbD_CPU_SET_S_typed_of_le_word h8 hsize i st set w b hw]
    simp only [List.mem_cons, exists_eq_or_imp, or_assoc]

end Run

/-- `CPU_ZERO_S` on a whole number of words empties the set. -/
theorem cpus_in_CPU_ZERO_S {size : Nat} (h8 : size % 8 = 0) (set : Nat → BitVec 64) :
    cpus_in size (CPU_ZERO_S size set) = ∅ := by
  refine Finset.eq_empty_of_forall_not_mem fun c hc => ?_
  rw [mem_cpus_in, CPU_ZERO_S_of_lt size set (c / 64) (by omega)] at hc
  simp at hc

/-- **Building a CPU set.** On a set of `size` bytes, a whole number of words and at most
`2^28` bytes, passed as any of `int`, `unsigned int`, `long` or `size_t`, `CPU_ZERO_S`
followed by `CPU_SET_S` for each index of a list leaves exactly the CPUs the indices name
(`cpu_of`) in the set, whatever the memory held before. Past the set, the run turns on the
bits the escaping indices write and changes nothing else: with a `size_t` size, which is what
`CPU_SET` passes, no index escapes and no word past the set changes; with a signed
comparison, a `long` index at or below `-8` writes a word near `2^61`. -/
theorem cpus_in_CPU_SET_S_run (st : SizeType) (size : Nat) (h8 : size % 8 = 0)
    (hsize : size ≤ 2 ^ 28) (set : Nat → BitVec 64) (is : List CpuIndex) :
    cpus_in size (is.foldl (fun s i => CPU_SET_S_typed i st size s) (CPU_ZERO_S size set)) =
        (is.filterMap (cpu_of size)).toFinset ∧
      ∀ w b, size ≤ 8 * w →
        ((is.foldl (fun s i => CPU_SET_S_typed i st size s) (CPU_ZERO_S size set) w).getLsbD b =
            true ↔
          (set w).getLsbD b = true ∨
            ∃ i ∈ is, escapes st i ∧ w = word_index i.ty i.val ∧ b = bit_index i.ty i.val) := by
  refine ⟨Finset.ext fun c => ?_, fun w b hw => ?_⟩
  · rw [mem_cpus_in_foldl_typed h8 hsize, cpus_in_CPU_ZERO_S h8, List.mem_toFinset,
      List.mem_filterMap]
    simp
  · rw [getLsbD_foldl_typed_of_le_word h8 hsize _ _ _ w b hw, CPU_ZERO_S_of_le size set w hw]

/-- `CPU_SET_S` on a 128-byte set whose size is the `int` constant `128`, for CPU `3`, the
`long` index `-1` and the `long` index `-16`: the set holds CPUs `3` and `63`, and the write
of `-16` has set bit `48` of word `2^61 - 1`, far past the set. -/
theorem cpus_in_CPU_SET_S_run_int_size :
    cpus_in 128 ([(⟨.int, 3, by decide, by decide⟩ : CpuIndex), ⟨.long, -1, by decide, by decide⟩,
        ⟨.long, -16, by decide, by decide⟩].foldl (fun s i => CPU_SET_S_typed i .int 128 s)
          (CPU_ZERO_S 128 fun _ => 0)) = {3, 63} ∧
      (([(⟨.int, 3, by decide, by decide⟩ : CpuIndex), ⟨.long, -1, by decide, by decide⟩,
        ⟨.long, -16, by decide, by decide⟩].foldl (fun s i => CPU_SET_S_typed i .int 128 s)
          (CPU_ZERO_S 128 fun _ => 0)) (2 ^ 61 - 1)).getLsbD 48 = true := by
  have h := cpus_in_CPU_SET_S_run .int 128 (by decide) (by decide) (fun _ => 0)
    [⟨.int, 3, by decide, by decide⟩, ⟨.long, -1, by decide, by decide⟩,
      ⟨.long, -16, by decide, by decide⟩]
  refine ⟨h.1.trans (by decide), (h.2 _ _ (by decide)).2 (.inr ⟨_,
    List.mem_cons_of_mem _ (List.mem_cons_of_mem _ (List.mem_singleton_self _)),
    by decide, by decide, by decide⟩)⟩

end Axlibc.CpuSet
