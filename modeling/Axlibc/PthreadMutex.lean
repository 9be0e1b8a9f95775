/-
`test_mutex` of `apps/c/pthread/basic/main.c`, as a system of threads under every
interleaving.

    static pthread_mutex_t lock = PTHREAD_MUTEX_INITIALIZER;

    void *ThreadFunc3(void *arg)
    {
        pthread_mutex_lock(&lock);
        int value = *(int *)arg;
        // long operation
        for (int i = 0; i < 100000; i++) getpid();
        *(int *)arg = value + 1;
        pthread_mutex_unlock(&lock);
        return 0;
    }

    void test_mutex()
    {
        const int NUM_THREADS = 100;
        int data = 0;
        pthread_t t[NUM_THREADS];
        for (int i = 0; i < NUM_THREADS; i++) {
            int res = pthread_create(&t[i], NULL, ThreadFunc3, &data);
            ...
        }
        for (int i = 0; i < NUM_THREADS; i++) {
            int res = pthread_join(t[i], NULL);
            ...
        }
        printf("test_mutex: data = %d\n", data);
        assert(data == NUM_THREADS);
    }

The state is `data`, the owner of `lock`, where each worker stands, and where `test_mutex`
stands. A step is one statement of one thread, the scheduler's choice (`Actor`); a thread
with nothing it can do (waiting for the lock, for a join, or finished) has no step, and a
schedule that picks it is not a run. The `getpid` loop touches nothing shared: it is the
room other threads have between the read and the write. The thread primitives are POSIX's:
a mutex has one owner at a time, `pthread_join` returns once the thread has returned, and
`pthread_create` and `pthread_join` on the threads the test made succeed, so their failure
branches are not taken.

Every state the test can reach has one thread at most between `pthread_mutex_lock` and
`pthread_mutex_unlock` (`test_mutex_mutual_exclusion`), the assertion holds whenever it is
reached (`test_mutex_assert_holds`), and the test never gets stuck before it
(`test_mutex_reaches_assert`). All three come from one invariant (`Inv`), shown to hold
initially and to be kept by every step.
-/
import Axlibc.Interleaving

set_option autoImplicit false

namespace Axlibc.PthreadMutex

/-! ## The model -/

/-- The next statement of a thread running `ThreadFunc3(&data)`. -/
inductive Pc
  /-- Not yet created by `pthread_create`. -/
  | unborn
  /-- `pthread_mutex_lock(&lock)`. -/
  | lock
  /-- `int value = *(int *)arg`. -/
  | read
  /-- `*(int *)arg = value + 1`, with `value` read. -/
  | write (value : Int)
  /-- `pthread_mutex_unlock(&lock)`. -/
  | unlock
  /-- Returned: `pthread_join` on it returns. -/
  | exited
  deriving DecidableEq, Repr

/-- The next statement of `test_mutex` itself. -/
inductive MainPc
  /-- `pthread_create(&t[i], NULL, ThreadFunc3, &data)`, the first loop at `i`. -/
  | create (i : Nat)
  /-- `pthread_join(t[i], NULL)`, the second loop at `i`. -/
  | join (i : Nat)
  /-- `assert(data == NUM_THREADS)`. -/
  | check
  deriving DecidableEq, Repr

/-- The shared state of `test_mutex` with `n` workers (`NUM_THREADS`, `100` in the test). -/
structure World (n : Nat) where
  /-- `data`, which every worker's `arg` points to. -/
  data : Int
  /-- The thread holding `lock`, if any. -/
  owner : Option (Fin n)
  pc : Fin n → Pc
  main : MainPc

/-- Who the scheduler runs next: `test_mutex` or worker `t`. -/
inductive Actor (n : Nat)
  | main
  | thread (t : Fin n)
  deriving DecidableEq, Repr

variable {n : Nat}

/-- Entry to `test_mutex`: `data = 0`, `lock` free, no worker created. -/
def start (n : Nat) : World n := ⟨0, none, fun _ => .unborn, .create 0⟩

/-- One statement of `test_mutex`. -/
def step_main (w : World n) : Option (World n) :=
  match w.main with
  | .create i =>
    if h : i < n then some { w with pc := Function.update w.pc ⟨i, h⟩ .lock, main := .create (i + 1) }
    else some { w with main := .join 0 }
  | .join i =>
    if h : i < n then
      if w.pc ⟨i, h⟩ = .exited then some { w with main := .join (i + 1) } else none
    else some { w with main := .check }
  | .check => none

/-- One statement of worker `t`. -/
def step_thread (w : World n) (t : Fin n) : Option (World n) :=
  match w.pc t with
  | .unborn => none
  | .lock =>
    if w.owner = none then some { w with owner := some t, pc := Function.update w.pc t .read }
    else none
  | .read => some { w with pc := Function.update w.pc t (.write w.data) }
  | .write value => some { w with data := value + 1, pc := Function.update w.pc t .unlock }
  | .unlock => some { w with owner := none, pc := Function.update w.pc t .exited }
  | .exited => none

/-- One step of the actor the scheduler picks. -/
def step (w : World n) : Actor n → Option (World n)
  | .main => step_main w
  | .thread t => step_thread w t

/-- A schedule run from `w`: `none` if it picks an actor that cannot move. -/
def run (w : World n) (sched : List (Actor n)) : Option (World n) :=
  Interleaving.run step w sched

/-! ## What a step can do -/

/-- Between `pthread_mutex_lock` and `pthread_mutex_unlock`. -/
def Pc.holds : Pc → Bool
  | .read | .write _ | .unlock => true
  | _ => false

/-- Past the write to `data`. -/
def Pc.written : Pc → Nat
  | .unlock | .exited => 1
  | _ => 0

/-- How far through `ThreadFunc3` a worker is. -/
def Pc.rank : Pc → Nat
  | .unborn => 0
  | .lock => 1
  | .read => 2
  | .write _ => 3
  | .unlock => 4
  | .exited => 5

/-- How far through `test_mutex` the main thread is. -/
def MainPc.rank (n : Nat) : MainPc → Nat
  | .create i => i
  | .join i => n + 1 + i
  | .check => 2 * n + 2

theorem step_main_cases {w w' : World n} (h : step_main w = some w') :
    (∃ i, ∃ hi : i < n, w.main = .create i ∧
      w' = { w with pc := Function.update w.pc ⟨i, hi⟩ .lock, main := .create (i + 1) }) ∨
    (∃ i, n ≤ i ∧ w.main = .create i ∧ w' = { w with main := .join 0 }) ∨
    (∃ i, ∃ hi : i < n, w.main = .join i ∧ w.pc ⟨i, hi⟩ = .exited ∧
      w' = { w with main := .join (i + 1) }) ∨
    (∃ i, n ≤ i ∧ w.main = .join i ∧ w' = { w with main := .check }) := by
  unfold step_main at h
  split at h <;> rename_i i hm
  · split at h
    · exact .inl ⟨i, ‹_›, hm, (Option.some.inj h).symm⟩
    · exact .inr (.inl ⟨i, by omega, hm, (Option.some.inj h).symm⟩)
  · split at h
    · split at h
      · exact .inr (.inr (.inl ⟨i, ‹_›, hm, ‹_›, (Option.some.inj h).symm⟩))
      · cases h
    · exact .inr (.inr (.inr ⟨i, by omega, hm, (Option.some.inj h).symm⟩))
  · cases h

theorem step_thread_cases {w w' : World n} {t : Fin n} (h : step_thread w t = some w') :
    (w.pc t = .lock ∧ w.owner = none ∧
      w' = { w with owner := some t, pc := Function.update w.pc t .read }) ∨
    (w.pc t = .read ∧ w' = { w with pc := Function.update w.pc t (.write w.data) }) ∨
    (∃ v, w.pc t = .write v ∧
      w' = { w with data := v + 1, pc := Function.update w.pc t .unlock }) ∨
    (w.pc t = .unlock ∧ w' = { w with owner := none, pc := Function.update w.pc t .exited }) := by
  unfold step_thread at h
  split at h <;> rename_i hp
  · cases h
  · split at h
    · exact .inl ⟨hp, ‹_›, (Option.some.inj h).symm⟩
    · cases h
  · exact .inr (.inl ⟨hp, (Option.some.inj h).symm⟩)
  · exact .inr (.inr (.inl ⟨_, hp, (Option.some.inj h).symm⟩))
  · exact .inr (.inr (.inr ⟨hp, (Option.some.inj h).symm⟩))
  · cases h

/-! ## The invariant -/

/-- Where the workers stand, given where `test_mutex` stands: created are exactly the first
`i` while it creates `t[i]`, all of them once it joins, and those it has joined have
returned. -/
def MainOk (m : MainPc) (pc : Fin n → Pc) : Prop :=
  match m with
  | .create i => i ≤ n ∧ ∀ t : Fin n, pc t = .unborn ↔ i ≤ t.val
  | .join i => i ≤ n ∧ ∀ t : Fin n, pc t ≠ .unborn ∧ (t.val < i → pc t = .exited)
  | .check => ∀ t : Fin n, pc t = .exited

/-- **The invariant of `test_mutex`.** The owner of `lock` is the one worker between lock
and unlock; a worker about to write read the current `data`; `data` counts the workers past
their write; and `MainOk`. -/
structure Inv (w : World n) : Prop where
  owner_iff : ∀ t, (w.pc t).holds = true ↔ w.owner = some t
  fresh : ∀ t v, w.pc t = .write v → v = w.data
  count : w.data = ∑ t, (w.pc t).written
  main_ok : MainOk w.main w.pc

/-- A sum over the workers after one of them moves from `f t` to `a`. -/
theorem sum_update (g : Pc → Nat) (f : Fin n → Pc) (t : Fin n) (a : Pc) :
    ∑ u, g (Function.update f t a u) + g (f t) = ∑ u, g (f u) + g a := by
  rw [← Finset.add_sum_erase _ _ (Finset.mem_univ t), ← Finset.add_sum_erase _ _ (Finset.mem_univ t),
    Function.update_same, Finset.sum_congr rfl fun u hu => by
      rw [Function.update_noteq (Finset.ne_of_mem_erase hu)]]
  omega

/-- The lock's owner after worker `t` moves to `a`, when the owner changes only for `t`. -/
theorem owner_iff_update {pc : Fin n → Pc} {o o' : Option (Fin n)} {t : Fin n} {a : Pc}
    (hi : ∀ u, (pc u).holds = true ↔ o = some u) (ha : a.holds = true ↔ o' = some t)
    (hne : ∀ u, u ≠ t → (o = some u ↔ o' = some u)) :
    ∀ u, (Function.update pc t a u).holds = true ↔ o' = some u := by
  intro u
  by_cases hu : u = t
  · subst hu; rwa [Function.update_same]
  · rw [Function.update_noteq hu, hi, hne u hu]

theorem start_inv : Inv (start n) where
  owner_iff _ := by simp [start, Pc.holds]
  fresh _ _ h := by cases h
  count := by simp only [start, Pc.written, Finset.sum_const_zero, Nat.cast_zero]
  main_ok := ⟨Nat.zero_le _, fun _ => by simp [start]⟩

/-- A created worker that has not returned moves on: `MainOk` still holds. -/
theorem MainOk_update {m : MainPc} {pc : Fin n → Pc} {t : Fin n} {a : Pc} (hok : MainOk m pc)
    (ht : pc t ≠ .unborn ∧ pc t ≠ .exited) (ha : a ≠ .unborn) :
    MainOk m (Function.update pc t a) := by
  cases m with
  | create i =>
    refine ⟨hok.1, fun u => ?_⟩
    by_cases hu : u = t
    · subst hu; rw [Function.update_same, ← hok.2 u]; exact ⟨fun h => absurd h ha, fun h => absurd h ht.1⟩
    · rw [Function.update_noteq hu, hok.2 u]
  | join i =>
    refine ⟨hok.1, fun u => ?_⟩
    by_cases hu : u = t
    · subst hu; rw [Function.update_same]; exact ⟨ha, fun hlt => absurd ((hok.2 u).2 hlt) ht.2⟩
    · rw [Function.update_noteq hu]; exact hok.2 u
  | check => exact absurd (hok t) ht.2

theorem step_thread_main_ok {w w' : World n} {t : Fin n} (hi : Inv w)
    (h : step_thread w t = some w') : MainOk w'.main w'.pc := by
  obtain ⟨hp, -, rfl⟩ | ⟨hp, rfl⟩ | ⟨v, hp, rfl⟩ | ⟨hp, rfl⟩ := step_thread_cases h <;>
    exact MainOk_update hi.main_ok (by simp [hp]) (by simp)

/-- A worker's move to `a` keeps every pending write's `value` current, if `a` is not a
pending write of another value. -/
theorem fresh_update {w : World n} (hi : Inv w) {t : Fin n} {a : Pc}
    (ha : ∀ v, a = .write v → v = w.data) :
    ∀ u v, Function.update w.pc t a u = .write v → v = w.data := by
  intro u v hv
  by_cases hu : u = t
  · subst hu; rw [Function.update_same] at hv; exact ha v hv
  · rw [Function.update_noteq hu] at hv; exact hi.fresh u v hv

theorem step_thread_inv {w w' : World n} {t : Fin n} (hi : Inv w)
    (h : step_thread w t = some w') : Inv w' := by
  have hmain := step_thread_main_ok hi h
  have hcount := hi.count
  have hown : (w.pc t).holds = true → w.owner = some t := (hi.owner_iff t).1
  obtain ⟨hp, ho, rfl⟩ | ⟨hp, rfl⟩ | ⟨v, hp, rfl⟩ | ⟨hp, rfl⟩ := step_thread_cases h
  · -- `pthread_mutex_lock` takes the free lock
    have := sum_update Pc.written w.pc t .read
    rw [hp] at this; change _ + 0 = _ + 0 at this
    exact ⟨owner_iff_update hi.owner_iff (by simp [Pc.holds]) (fun u hu => by simp [ho, hu.symm]),
      fresh_update hi (fun _ h => by cases h), by dsimp only; omega, hmain⟩
  · -- the read of `*arg`
    have := sum_update Pc.written w.pc t (.write w.data)
    rw [hp] at this; change _ + 0 = _ + 0 at this
    exact ⟨owner_iff_update hi.owner_iff (by simp [hown (by rw [hp]; rfl), Pc.holds])
      (fun _ _ => .rfl), fresh_update hi (fun _ h => by cases h; rfl), by dsimp only; omega, hmain⟩
  · -- the write `*arg = value + 1`: no other worker is about to write
    have ho := hown (by rw [hp]; rfl)
    have := sum_update Pc.written w.pc t .unlock
    rw [hp] at this; change _ + 0 = _ + 1 at this
    refine ⟨owner_iff_update hi.owner_iff (by simp [ho, Pc.holds]) (fun _ _ => .rfl),
      fun u v' hv => ?_, by dsimp only; rw [hi.fresh t v hp]; omega, hmain⟩
    have hu : u ≠ t := by rintro rfl; simp at hv
    dsimp only at hv
    rw [Function.update_noteq hu] at hv
    have := (hi.owner_iff u).1 (by rw [hv]; rfl)
    exact absurd (Option.some.inj (ho.symm.trans this)) (Ne.symm hu)
  · -- `pthread_mutex_unlock`
    have ho := hown (by rw [hp]; rfl)
    have := sum_update Pc.written w.pc t .exited
    rw [hp] at this; change _ + 1 = _ + 1 at this
    exact ⟨owner_iff_update hi.owner_iff (by simp [Pc.holds]) (fun u hu => by simp [ho, Ne.symm hu]),
      fresh_update hi (fun _ h => by cases h), by dsimp only; omega, hmain⟩

theorem step_main_inv {w w' : World n} (hi : Inv w) (h : step_main w = some w') : Inv w' := by
  have hok := hi.main_ok
  obtain ⟨i, hin, hm, rfl⟩ | ⟨i, hin, hm, rfl⟩ | ⟨i, hin, hm, hx, rfl⟩ | ⟨i, hin, hm, rfl⟩ :=
    step_main_cases h <;> rw [hm] at hok
  · -- `pthread_create(&t[i], ...)`: worker `i` starts at `pthread_mutex_lock`
    have hp : w.pc ⟨i, hin⟩ = .unborn := (hok.2 _).2 le_rfl
    have := sum_update Pc.written w.pc ⟨i, hin⟩ .lock
    rw [hp] at this; change _ + 0 = _ + 0 at this
    refine ⟨owner_iff_update hi.owner_iff (by rw [← hi.owner_iff, hp]; exact .rfl) (fun _ _ => .rfl),
      fresh_update hi (fun _ h => by cases h), by dsimp only; rw [hi.count]; omega, hin, fun u => ?_⟩
    dsimp only
    by_cases hu : u = ⟨i, hin⟩
    · subst hu; simp
    · have : u.val ≠ i := fun h => hu (Fin.ext h)
      rw [Function.update_noteq hu, hok.2 u]; omega
  · -- the first loop ends
    exact ⟨hi.owner_iff, hi.fresh, hi.count, Nat.zero_le _,
      fun u => ⟨fun h => absurd ((hok.2 u).1 h) (by omega), fun h => absurd h (Nat.not_lt_zero _)⟩⟩
  · -- `pthread_join(t[i], NULL)` returns
    refine ⟨hi.owner_iff, hi.fresh, hi.count, hin, fun u => ⟨(hok.2 u).1, fun hu => ?_⟩⟩
    by_cases hui : u.val = i
    · rwa [show u = ⟨i, hin⟩ from Fin.ext hui]
    · exact (hok.2 u).2 (by omega)
  · -- the second loop ends at the assertion
    exact ⟨hi.owner_iff, hi.fresh, hi.count, fun u => (hok.2 u).2 (by omega)⟩

theorem step_inv {w w' : World n} {a : Actor n} (hi : Inv w) (h : step w a = some w') : Inv w' := by
  cases a with
  | main => exact step_main_inv hi h
  | thread t => exact step_thread_inv hi h

/-- **Run lemma.** Every schedule keeps the invariant. -/
theorem run_inv {w w' : World n} {as : List (Actor n)} (hi : Inv w) (h : run w as = some w') :
    Inv w' :=
  Interleaving.run_preserves Inv step_inv hi h

/-! ## Safety -/

/-- **Mutual exclusion.** In every state `test_mutex` can reach, at most one worker is
between `pthread_mutex_lock` and `pthread_mutex_unlock`. -/
theorem test_mutex_mutual_exclusion (sched : List (Actor n)) (w : World n)
    (h : run (start n) sched = some w) (t u : Fin n) (ht : (w.pc t).holds = true)
    (hu : (w.pc u).holds = true) : t = u := by
  have hi := run_inv start_inv h
  exact Option.some.inj (((hi.owner_iff t).1 ht).symm.trans ((hi.owner_iff u).1 hu))

/-- Two workers created, the first holding `lock` and past its read, the second waiting at
`pthread_mutex_lock`. -/
theorem test_mutex_mutual_exclusion_two :
    (0 : Fin 2) = 0 :=
  test_mutex_mutual_exclusion [.main, .main, .thread 0, .thread 0]
    ((run (start 2) [.main, .main, .thread 0, .thread 0]).get (by decide))
    (Option.some_get _).symm 0 0 (by decide) (by decide)

/-- **No update is lost.** Under every interleaving, when `test_mutex` reaches
`assert(data == NUM_THREADS)`, `data` is the number of workers. -/
theorem test_mutex_assert_holds (sched : List (Actor n)) (w : World n)
    (h : run (start n) sched = some w) (hc : w.main = .check) : w.data = n := by
  have hi := run_inv start_inv h
  have hall : ∀ t, w.pc t = .exited := by have := hi.main_ok; rwa [hc] at this
  rw [hi.count]
  simp only [hall, Pc.written, Finset.sum_const, Finset.card_univ, Fintype.card_fin, smul_eq_mul,
    mul_one]

theorem test_mutex_assert_holds_two :
    ((run (start 2) [.main, .main, .main, .thread 0, .thread 0, .thread 0, .thread 0,
      .thread 1, .thread 1, .thread 1, .thread 1, .main, .main, .main]).get (by decide)).data = 2 :=
  test_mutex_assert_holds _ _ (Option.some_get _).symm (by decide)

/-! ## Progress -/

/-- How far the whole test has got: every worker's `Pc.rank` and the main thread's. -/
def progress (w : World n) : Nat := ∑ t, (w.pc t).rank + w.main.rank n

theorem Pc.rank_le (p : Pc) : p.rank ≤ 5 := by cases p <;> simp [Pc.rank]

theorem progress_le {w : World n} (hi : Inv w) : progress w ≤ 7 * n + 2 := by
  have hsum : ∑ t, (w.pc t).rank ≤ 5 * n := by
    calc ∑ t, (w.pc t).rank ≤ ∑ _t : Fin n, 5 := Finset.sum_le_sum fun t _ => (w.pc t).rank_le
      _ = 5 * n := by rw [Finset.sum_const, Finset.card_univ, Fintype.card_fin, smul_eq_mul, mul_comm]
  have hmain : w.main.rank n ≤ 2 * n + 2 := by
    have hok := hi.main_ok
    cases hm : w.main <;> rw [hm] at hok <;> simp only [MainPc.rank]
    · exact hok.1.trans (by omega)
    · have := hok.1; omega
    · exact le_rfl
  unfold progress; omega

/-- Every step moves the test on. -/
theorem progress_step {w w' : World n} {a : Actor n} (hi : Inv w) (h : step w a = some w') :
    progress w < progress w' := by
  cases a with
  | main =>
    have hok := hi.main_ok
    obtain ⟨i, hin, hm, rfl⟩ | ⟨i, hin, hm, rfl⟩ | ⟨i, hin, hm, -, rfl⟩ | ⟨i, hin, hm, rfl⟩ :=
      step_main_cases h <;> rw [hm] at hok <;> simp only [progress, hm, MainPc.rank]
    · have := sum_update Pc.rank w.pc ⟨i, hin⟩ .lock
      rw [(hok.2 _).2 le_rfl] at this; change _ + 0 = _ + 1 at this; omega
    · have := hok.1; omega
    · omega
    · have := hok.1; omega
  | thread t =>
    obtain ⟨hp, -, rfl⟩ | ⟨hp, rfl⟩ | ⟨v, hp, rfl⟩ | ⟨hp, rfl⟩ := step_thread_cases h <;>
      simp only [progress]
    · have := sum_update Pc.rank w.pc t .read
      rw [hp] at this; change _ + 1 = _ + 2 at this; omega
    · have := sum_update Pc.rank w.pc t (.write w.data)
      rw [hp] at this; change _ + 2 = _ + 3 at this; omega
    · have := sum_update Pc.rank w.pc t .unlock
      rw [hp] at this; change _ + 3 = _ + 4 at this; omega
    · have := sum_update Pc.rank w.pc t .exited
      rw [hp] at this; change _ + 4 = _ + 5 at this; omega

/-- A worker holding the lock, or waiting for a free one, can move. -/
theorem step_thread_isSome {w : World n} {t : Fin n}
    (h : (w.pc t).holds = true ∨ (w.pc t = .lock ∧ w.owner = none)) :
    (step_thread w t).isSome := by
  rcases h with h | ⟨hp, ho⟩
  · unfold step_thread; split <;> simp_all [Pc.holds]
  · simp [step_thread, hp, ho]

/-- **No deadlock.** Before the assertion someone can always move: the main thread, unless it
waits to join a worker `i` that has not returned; then the owner of the lock, or, with the
lock free, worker `i` itself, which is then at `pthread_mutex_lock`. -/
theorem exists_step {w : World n} (hi : Inv w) (hm : w.main ≠ .check) :
    ∃ a, (step w a).isSome := by
  have hok := hi.main_ok
  cases hmain : w.main with
  | check => exact absurd hmain hm
  | create i => exact ⟨.main, by simp only [step, step_main, hmain]; split <;> rfl⟩
  | join i =>
    rw [hmain] at hok
    by_cases hin : i < n
    · by_cases hx : w.pc ⟨i, hin⟩ = .exited
      · exact ⟨.main, by simp [step, step_main, hmain, hin, hx]⟩
      cases ho : w.owner with
      | some u => exact ⟨.thread u, step_thread_isSome (.inl ((hi.owner_iff u).2 ho))⟩
      | none =>
        have hfree : (w.pc ⟨i, hin⟩).holds = false := by
          by_contra hh; simpa [ho] using (hi.owner_iff _).1 (by simpa using hh)
        refine ⟨.thread ⟨i, hin⟩, step_thread_isSome (.inr ⟨?_, ho⟩)⟩
        have hnb := (hok.2 ⟨i, hin⟩).1
        cases hp : w.pc ⟨i, hin⟩ <;> simp_all [Pc.holds]
    · exact ⟨.main, by simp [step, step_main, hmain, hin]⟩

/-- From any state that keeps the invariant some schedule reaches the assertion: each step
raises `progress`, which the invariant bounds. -/
theorem reaches_check (w : World n) (hi : Inv w) :
    ∃ sched w', run w sched = some w' ∧ w'.main = .check :=
  Interleaving.exists_run_of_progress Inv (fun w => w.main = .check) progress (7 * n + 2)
    step_inv progress_step progress_le exists_step w hi

/-- **`test_mutex` never gets stuck.** From every state it can reach, some schedule brings it
to its assertion: the joins all return. -/
theorem test_mutex_reaches_assert (sched : List (Actor n)) (w : World n)
    (h : run (start n) sched = some w) :
    ∃ sched' w', run w sched' = some w' ∧ w'.main = .check :=
  reaches_check w (run_inv start_inv h)

theorem test_mutex_reaches_assert_start :
    ∃ sched' w', run (start 2) sched' = some w' ∧ w'.main = .check :=
  test_mutex_reaches_assert [] (start 2) rfl

end Axlibc.PthreadMutex