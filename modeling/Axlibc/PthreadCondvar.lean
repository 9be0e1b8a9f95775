/-
`test_condvar` of `apps/c/pthread/basic/main.c`: a wakeup handed from one thread to another
through a condition variable, under every interleaving.

    pthread_cond_t condvar;
    int A = 0;

    void *first(void *arg)
    {
        sleep(5);
        puts("First work, Change A --> 1 and wakeup Second");
        pthread_mutex_lock(&lock);
        A = 1;
        pthread_cond_signal(&condvar);
        pthread_mutex_unlock(&lock);
        return NULL;
    }

    void *second(void *arg)
    {
        puts("Second want to continue,but need to wait A=1");
        pthread_mutex_lock(&lock);
        while (A == 0) {
            printf("Second: A is {}", A);
            pthread_cond_wait(&condvar, &lock);
        }
        printf("A is {}, Second can work now", A);
        pthread_mutex_unlock(&lock);
        return NULL;
    }

    void test_condvar()
    {
        pthread_t t1, t2;
        pthread_cond_init(&condvar, NULL);
        pthread_create(&t1, NULL, first, NULL);
        pthread_create(&t2, NULL, second, NULL);
        pthread_join(t1, NULL);
        pthread_join(t2, NULL);
    }

The state is `A`, the owner of `lock` (the mutex of `test_mutex`, free when this test
starts), and where each of the three threads stands; `condvar`'s one possible waiter is
`second`, so the condition variable's state is whether `second` sleeps on it. `sleep`,
`puts` and `printf` touch nothing shared. `pthread_cond_wait` releases `lock` and starts to
sleep in one atomic move, and returns after a `pthread_cond_signal` has woken it and it has
taken `lock` back; a signal with no waiter does nothing. The condition variable here wakes
its waiter on a signal only.

`second` gets past its loop only once `A = 1` (`test_condvar_second_sees_A`), and the signal
is never lost: from every reachable state some schedule brings the test to its end, both
joins returned (`test_condvar_reaches_end`). The key fact is `Inv.second_ok`: `second`
sleeps only while `first` has still to signal, because `second` tests `A` and starts to
sleep while holding the lock `first` needs to set `A`.
-/
import Axlibc.Interleaving

set_option autoImplicit false

namespace Axlibc.PthreadCondvar

/-! ## The model -/

/-- The next statement of the thread running `first`. -/
inductive FirstPc
  /-- Not yet created. -/
  | unborn
  /-- `pthread_mutex_lock(&lock)`, after `sleep(5)` and `puts`. -/
  | lock
  /-- `A = 1`. -/
  | set
  /-- `pthread_cond_signal(&condvar)`. -/
  | signal
  /-- `pthread_mutex_unlock(&lock)`. -/
  | unlock
  /-- Returned. -/
  | exited
  deriving DecidableEq, Repr

/-- The next statement of the thread running `second`. -/
inductive SecondPc
  /-- Not yet created. -/
  | unborn
  /-- `pthread_mutex_lock(&lock)`, after `puts`. -/
  | lock
  /-- The loop test `A == 0`. -/
  | test
  /-- `pthread_cond_wait(&condvar, &lock)`, after `printf`. -/
  | wait
  /-- Asleep on `condvar`. -/
  | waiting
  /-- Woken: `pthread_cond_wait` takes `lock` back before it returns. -/
  | relock
  /-- `pthread_mutex_unlock(&lock)`, after `printf`. -/
  | unlock
  /-- Returned. -/
  | exited
  deriving DecidableEq, Repr

/-- The next statement of `test_condvar`. -/
inductive MainPc
  /-- `pthread_create(&t1, NULL, first, NULL)`. -/
  | create_first
  /-- `pthread_create(&t2, NULL, second, NULL)`. -/
  | create_second
  /-- `pthread_join(t1, NULL)`. -/
  | join_first
  /-- `pthread_join(t2, NULL)`. -/
  | join_second
  /-- Returned. -/
  | done
  deriving DecidableEq, Repr

/-- The three threads. -/
inductive Actor
  | main
  | first
  | second
  deriving DecidableEq, Repr

/-- The shared state of `test_condvar`. -/
structure World where
  A : Int
  /-- The thread holding `lock`, if any. -/
  owner : Option Actor
  first : FirstPc
  second : SecondPc
  main : MainPc

/-- Entry to `test_condvar`: `A = 0`, `lock` free, no thread created. -/
def start : World := ⟨0, none, .unborn, .unborn, .create_first⟩

/-- One statement of `first`. -/
def step_first (w : World) : Option World :=
  match w.first with
  | .unborn => none
  | .lock => if w.owner = none then some { w with owner := some .first, first := .set } else none
  | .set => some { w with A := 1, first := .signal }
  | .signal =>
    some { w with first := .unlock, second := if w.second = .waiting then .relock else w.second }
  | .unlock => some { w with owner := none, first := .exited }
  | .exited => none

/-- One statement of `second`. -/
def step_second (w : World) : Option World :=
  match w.second with
  | .unborn => none
  | .lock | .relock =>
    if w.owner = none then some { w with owner := some .second, second := .test } else none
  | .test => some { w with second := if w.A = 0 then .wait else .unlock }
  | .wait => some { w with owner := none, second := .waiting }
  | .waiting => none
  | .unlock => some { w with owner := none, second := .exited }
  | .exited => none

/-- One statement of `test_condvar`. -/
def step_main (w : World) : Option World :=
  match w.main with
  | .create_first => some { w with first := .lock, main := .create_second }
  | .create_second => some { w with second := .lock, main := .join_first }
  | .join_first => if w.first = .exited then some { w with main := .join_second } else none
  | .join_second => if w.second = .exited then some { w with main := .done } else none
  | .done => none

/-- One step of the thread the scheduler picks. -/
def step (w : World) : Actor → Option World
  | .main => step_main w
  | .first => step_first w
  | .second => step_second w

/-- A schedule run from `w`: `none` if it picks a thread that cannot move. -/
def run (w : World) (sched : List Actor) : Option World :=
  Interleaving.run step w sched

/-! ## What a step can do -/

theorem step_first_cases {w w' : World} (h : step_first w = some w') :
    (w.first = .lock ∧ w.owner = none ∧ w' = { w with owner := some .first, first := .set }) ∨
    (w.first = .set ∧ w' = { w with A := 1, first := .signal }) ∨
    (w.first = .signal ∧
      w' = { w with first := .unlock, second := if w.second = .waiting then .relock else w.second }) ∨
    (w.first = .unlock ∧ w' = { w with owner := none, first := .exited }) := by
  unfold step_first at h
  split at h <;> rename_i hp
  · cases h
  · split at h
    · exact .inl ⟨hp, ‹_›, (Option.some.inj h).symm⟩
    · cases h
  · exact .inr (.inl ⟨hp, (Option.some.inj h).symm⟩)
  · exact .inr (.inr (.inl ⟨hp, (Option.some.inj h).symm⟩))
  · exact .inr (.inr (.inr ⟨hp, (Option.some.inj h).symm⟩))
  · cases h

theorem step_second_cases {w w' : World} (h : step_second w = some w') :
    ((w.second = .lock ∨ w.second = .relock) ∧ w.owner = none ∧
      w' = { w with owner := some .second, second := .test }) ∨
    (w.second = .test ∧ w' = { w with second := if w.A = 0 then .wait else .unlock }) ∨
    (w.second = .wait ∧ w' = { w with owner := none, second := .waiting }) ∨
    (w.second = .unlock ∧ w' = { w with owner := none, second := .exited }) := by
  unfold step_second at h
  split at h <;> rename_i hp
  · cases h
  · split at h
    · exact .inl ⟨.inl hp, ‹_›, (Option.some.inj h).symm⟩
    · cases h
  · split at h
    · exact .inl ⟨.inr hp, ‹_›, (Option.some.inj h).symm⟩
    · cases h
  · exact .inr (.inl ⟨hp, (Option.some.inj h).symm⟩)
  · exact .inr (.inr (.inl ⟨hp, (Option.some.inj h).symm⟩))
  · cases h
  · exact .inr (.inr (.inr ⟨hp, (Option.some.inj h).symm⟩))
  · cases h

theorem step_main_cases {w w' : World} (h : step_main w = some w') :
    (w.main = .create_first ∧ w' = { w with first := .lock, main := .create_second }) ∨
    (w.main = .create_second ∧ w' = { w with second := .lock, main := .join_first }) ∨
    (w.main = .join_first ∧ w.first = .exited ∧ w' = { w with main := .join_second }) ∨
    (w.main = .join_second ∧ w.second = .exited ∧ w' = { w with main := .done }) := by
  unfold step_main at h
  split at h <;> rename_i hm
  · exact .inl ⟨hm, (Option.some.inj h).symm⟩
  · exact .inr (.inl ⟨hm, (Option.some.inj h).symm⟩)
  · split at h
    · exact .inr (.inr (.inl ⟨hm, ‹_›, (Option.some.inj h).symm⟩))
    · cases h
  · split at h
    · exact .inr (.inr (.inr ⟨hm, ‹_›, (Option.some.inj h).symm⟩))
    · cases h
  · cases h

/-! ## The invariant -/

/-- `first` holds `lock`. -/
def FirstPc.holds : FirstPc → Bool
  | .set | .signal | .unlock => true
  | _ => false

/-- `first` has run `A = 1`. -/
def FirstPc.has_set : FirstPc → Bool
  | .signal | .unlock | .exited => true
  | _ => false

/-- `first` has run `pthread_cond_signal`. -/
def FirstPc.has_signaled : FirstPc → Bool
  | .unlock | .exited => true
  | _ => false

/-- `second` holds `lock`. -/
def SecondPc.holds : SecondPc → Bool
  | .test | .wait | .unlock => true
  | _ => false

/-- What `second`'s position says of `first`'s: it calls `pthread_cond_wait` only before
`A = 1`, sleeps only before the signal, wakes only after it, and leaves its loop only after
`A = 1`. -/
def SecondOk : SecondPc → FirstPc → Prop
  | .wait, f => f.has_set = false
  | .waiting, f => f.has_signaled = false
  | .relock, f => f.has_signaled = true
  | .unlock, f | .exited, f => f.has_set = true
  | _, _ => True

/-- Where the threads stand, given where `test_condvar` stands: created once it has created
them, and returned once it has joined them. -/
def MainOk : MainPc → FirstPc → SecondPc → Prop
  | .create_first, f, s => f = .unborn ∧ s = .unborn
  | .create_second, f, s => f ≠ .unborn ∧ s = .unborn
  | .join_first, f, s => f ≠ .unborn ∧ s ≠ .unborn
  | .join_second, f, s => f = .exited ∧ s ≠ .unborn
  | .done, f, s => f = .exited ∧ s = .exited

/-- **The invariant of `test_condvar`.** The owner of `lock` is the thread between its lock
and unlock, `A` is `1` exactly once `first` has set it, `SecondOk`, and `MainOk`. -/
structure Inv (w : World) : Prop where
  lock_first : w.first.holds = true ↔ w.owner = some .first
  lock_second : w.second.holds = true ↔ w.owner = some .second
  lock_main : w.owner ≠ some .main
  A_eq : w.A = if w.first.has_set then 1 else 0
  second_ok : SecondOk w.second w.first
  main_ok : MainOk w.main w.first w.second

theorem FirstPc.has_set_of_has_signaled (f : FirstPc) : f.has_signaled = true → f.has_set = true := by
  cases f <;> decide

/-- `SecondOk` looks at `first` only through `has_set` and `has_signaled`. -/
theorem SecondOk.of_first {s : SecondPc} {f f' : FirstPc} (h : SecondOk s f)
    (hs : f'.has_set = f.has_set) (hg : f'.has_signaled = f.has_signaled) : SecondOk s f' := by
  cases s <;> simp only [SecondOk, hs, hg] at h ⊢ <;> exact h

/-- `A = 1` while `second`, not holding `lock`, is not at `pthread_cond_wait`. -/
theorem SecondOk.set_signal {s : SecondPc} (h : SecondOk s .set) (hs : s.holds = false) :
    SecondOk s .signal := by
  cases s <;> simp_all [SecondOk, SecondPc.holds, FirstPc.has_set, FirstPc.has_signaled]

/-- The signal wakes `second` if it sleeps. -/
theorem SecondOk.signal_unlock {s : SecondPc} (h : SecondOk s .signal) (hs : s.holds = false) :
    SecondOk (if s = .waiting then .relock else s) .unlock := by
  cases s <;> simp_all [SecondOk, SecondPc.holds, FirstPc.has_set, FirstPc.has_signaled]

/-- `first`, created and not returned, moves on: `MainOk` still holds. -/
theorem MainOk.first {m : MainPc} {f f' : FirstPc} {s : SecondPc} (h : MainOk m f s)
    (hf : f ≠ .unborn ∧ f ≠ .exited) (hf' : f' ≠ .unborn) : MainOk m f' s := by
  cases m <;> simp_all [MainOk]

/-- `second`, created and not returned, moves on: `MainOk` still holds. -/
theorem MainOk.second {m : MainPc} {f : FirstPc} {s s' : SecondPc} (h : MainOk m f s)
    (hs : s ≠ .unborn ∧ s ≠ .exited) (hs' : s' ≠ .unborn) : MainOk m f s' := by
  cases m <;> simp_all [MainOk]

theorem start_inv : Inv start :=
  ⟨by decide, by decide, by decide, rfl, trivial, ⟨rfl, rfl⟩⟩

section Steps

variable {w w' : World} (hi : Inv w)
include hi

theorem step_first_inv (h : step_first w = some w') : Inv w' := by
  obtain ⟨hp, ho, rfl⟩ | ⟨hp, rfl⟩ | ⟨hp, rfl⟩ | ⟨hp, rfl⟩ := step_first_cases h
  · -- `pthread_mutex_lock(&lock)` takes the free lock
    have hs : w.second.holds = false := by simpa [ho] using hi.lock_second
    exact ⟨by simp [FirstPc.holds], by simp [hs], by simp, by rw [hi.A_eq, hp]; rfl,
      hi.second_ok.of_first (by rw [hp]; rfl) (by rw [hp]; rfl),
      hi.main_ok.first (by simp [hp]) (by simp)⟩
  all_goals
    have ho : w.owner = some .first := hi.lock_first.1 (by rw [hp]; rfl)
    have hs : w.second.holds = false := by simpa [ho] using hi.lock_second
  · -- `A = 1`
    exact ⟨by simp [ho, FirstPc.holds], by simp [ho, hs], by simp [ho],
      by simp [FirstPc.has_set], hp ▸ hi.second_ok |>.set_signal hs,
      hi.main_ok.first (by simp [hp]) (by simp)⟩
  · -- `pthread_cond_signal(&condvar)` wakes `second` if it sleeps
    have hs' : (if w.second = .waiting then SecondPc.relock else w.second).holds = false := by
      split
      · rfl
      · exact hs
    refine ⟨by simp [ho, FirstPc.holds], by simp [ho, hs'], by simp [ho],
      by simp [hi.A_eq, hp, FirstPc.has_set], hp ▸ hi.second_ok |>.signal_unlock hs, ?_⟩
    have hm : MainOk w.main .unlock w.second := hi.main_ok.first (by simp [hp]) (by simp)
    split
    · exact hm.second (by simp [*]) (by simp)
    · exact hm
  · -- `pthread_mutex_unlock(&lock)`
    exact ⟨by simp [FirstPc.holds], by simp [hs], by simp, by simp [hi.A_eq, hp, FirstPc.has_set],
      hi.second_ok.of_first (by rw [hp]; rfl) (by rw [hp]; rfl),
      hi.main_ok.first (by simp [hp]) (by simp)⟩

theorem step_second_inv (h : step_second w = some w') : Inv w' := by
  obtain ⟨hp, ho, rfl⟩ | ⟨hp, rfl⟩ | ⟨hp, rfl⟩ | ⟨hp, rfl⟩ := step_second_cases h
  · -- `pthread_mutex_lock(&lock)`, first or on waking, takes the free lock
    have hf : w.first.holds = false := by simpa [ho] using hi.lock_first
    exact ⟨by simp [hf], by simp [SecondPc.holds], by simp, hi.A_eq, trivial,
      hi.main_ok.second (by rcases hp with hp | hp <;> simp [hp]) (by simp)⟩
  all_goals
    have ho : w.owner = some .second := hi.lock_second.1 (by rw [hp]; rfl)
    have hf : w.first.holds = false := by simpa [ho] using hi.lock_first
  · -- the loop test `A == 0`
    have hset : w.first.has_set = true ↔ w.A ≠ 0 := by
      rw [hi.A_eq]; cases w.first.has_set <;> simp
    refine ⟨hi.lock_first, by split <;> simp [ho, SecondPc.holds], hi.lock_main, hi.A_eq, ?_,
      hi.main_ok.second (by simp [hp]) (by split <;> simp)⟩
    split
    · exact Bool.eq_false_iff.2 fun h => hset.1 h ‹_›
    · exact hset.2 ‹_›
  · -- `pthread_cond_wait(&condvar, &lock)` releases `lock` and sleeps
    have hw : w.first.has_set = false := by have := hi.second_ok; rwa [hp] at this
    exact ⟨by simp [hf], by simp [SecondPc.holds], by simp, hi.A_eq,
      Bool.eq_false_iff.2 fun h => by simp [w.first.has_set_of_has_signaled h] at hw,
      hi.main_ok.second (by simp [hp]) (by simp)⟩
  · -- `pthread_mutex_unlock(&lock)`
    exact ⟨by simp [hf], by simp [SecondPc.holds], by simp, hi.A_eq,
      by have := hi.second_ok; rwa [hp] at this, hi.main_ok.second (by simp [hp]) (by simp)⟩

theorem step_main_inv (h : step_main w = some w') : Inv w' := by
  have hm := hi.main_ok
  obtain ⟨hp, rfl⟩ | ⟨hp, rfl⟩ | ⟨hp, hx, rfl⟩ | ⟨hp, hx, rfl⟩ := step_main_cases h <;>
    rw [hp] at hm
  · -- `pthread_create(&t1, NULL, first, NULL)`
    have ho : w.owner ≠ some .first := fun h => by simpa [hm.1, FirstPc.holds] using hi.lock_first.2 h
    exact ⟨by simp [ho, FirstPc.holds], hi.lock_second, hi.lock_main, by rw [hi.A_eq, hm.1]; rfl,
      hi.second_ok.of_first (by rw [hm.1]; rfl) (by rw [hm.1]; rfl), by simp [MainOk, hm.2]⟩
  · -- `pthread_create(&t2, NULL, second, NULL)`
    have ho : w.owner ≠ some .second := fun h => by simpa [hm.2, SecondPc.holds] using hi.lock_second.2 h
    exact ⟨hi.lock_first, by simp [ho, SecondPc.holds], hi.lock_main, hi.A_eq, trivial,
      ⟨hm.1, by simp⟩⟩
  · -- `pthread_join(t1, NULL)` returns
    exact ⟨hi.lock_first, hi.lock_second, hi.lock_main, hi.A_eq, hi.second_ok, ⟨hx, hm.2⟩⟩
  · -- `pthread_join(t2, NULL)` returns
    exact ⟨hi.lock_first, hi.lock_second, hi.lock_main, hi.A_eq, hi.second_ok, ⟨hm.1, hx⟩⟩

omit hi in
theorem step_inv {w w' : World} {a : Actor} (hi : Inv w) (h : step w a = some w') : Inv w' := by
  cases a with
  | main => exact step_main_inv hi h
  | first => exact step_first_inv hi h
  | second => exact step_second_inv hi h

end Steps

/-- **Run lemma.** Every schedule keeps the invariant. -/
theorem run_inv {w w' : World} {as : List Actor} (hi : Inv w) (h : run w as = some w') : Inv w' :=
  Interleaving.run_preserves Inv step_inv hi h

/-! ## Safety -/

/-- **`second` waits for `A = 1`.** Under every interleaving, once `second` has left its
loop (at the `printf` and `pthread_mutex_unlock` after it, or returned), `A = 1`. -/
theorem test_condvar_second_sees_A (sched : List Actor) (w : World)
    (h : run start sched = some w) (hs : w.second = .unlock ∨ w.second = .exited) : w.A = 1 := by
  have hi := run_inv start_inv h
  have hset : w.first.has_set = true := by
    have := hi.second_ok; rcases hs with hs | hs <;> rw [hs] at this <;> exact this
  rw [hi.A_eq, hset]; rfl

theorem test_condvar_second_sees_A_after_wait :
    ((run start [.main, .main, .second, .second, .second, .first, .first, .first, .first,
      .second, .second]).get (by decide)).A = 1 :=
  test_condvar_second_sees_A _ _ (Option.some_get _).symm (by decide)

/-! ## Progress -/

/-- How far through `first` its thread is. -/
def FirstPc.rank : FirstPc → Nat
  | .unborn => 0
  | .lock => 1
  | .set => 2
  | .signal => 3
  | .unlock => 4
  | .exited => 5

/-- How far through `second` its thread is: the loop test counts as before the wait while
`A = 0`, and as after the wake once `A` is set. -/
def SecondPc.rank (A : Int) : SecondPc → Nat
  | .unborn => 0
  | .lock => 1
  | .test => if A = 0 then 2 else 6
  | .wait => 3
  | .waiting => 4
  | .relock => 5
  | .unlock => 7
  | .exited => 8

/-- How far through `test_condvar` the main thread is. -/
def MainPc.rank : MainPc → Nat
  | .create_first => 0
  | .create_second => 1
  | .join_first => 2
  | .join_second => 3
  | .done => 4

/-- How far the whole test has got. -/
def progress (w : World) : Nat := w.first.rank + w.second.rank w.A + w.main.rank

theorem progress_le (w : World) : progress w ≤ 17 := by
  have h1 : w.first.rank ≤ 5 := by cases w.first <;> decide
  have h2 : w.second.rank w.A ≤ 8 := by
    cases w.second <;> simp only [SecondPc.rank] <;> (try split) <;> omega
  have h3 : w.main.rank ≤ 4 := by cases w.main <;> decide
  unfold progress; omega

theorem SecondPc.rank_zero_le (s : SecondPc) : s.rank 0 ≤ s.rank 1 := by cases s <;> decide

theorem SecondPc.rank_wake (s : SecondPc) (A : Int) :
    s.rank A ≤ (if s = .waiting then SecondPc.relock else s).rank A := by
  split
  · subst s; simp [SecondPc.rank]
  · exact le_rfl

/-- Every step moves the test on. -/
theorem progress_step {w w' : World} {a : Actor} (hi : Inv w) (h : step w a = some w') :
    progress w < progress w' := by
  cases a with
  | main =>
    have hm := hi.main_ok
    obtain ⟨hp, rfl⟩ | ⟨hp, rfl⟩ | ⟨hp, -, rfl⟩ | ⟨hp, -, rfl⟩ := step_main_cases h <;>
      rw [hp] at hm <;> simp only [progress, hp, MainPc.rank]
    · rw [hm.1]; simp only [FirstPc.rank]; omega
    · rw [hm.2]; simp only [SecondPc.rank]; omega
    · omega
    · omega
  | first =>
    obtain ⟨hp, -, rfl⟩ | ⟨hp, rfl⟩ | ⟨hp, rfl⟩ | ⟨hp, rfl⟩ := step_first_cases h <;>
      simp only [progress, hp, FirstPc.rank]
    · omega
    · -- `A = 1` can only move `second` on
      have hA : w.A = 0 := by rw [hi.A_eq, hp]; rfl
      have := w.second.rank_zero_le
      rw [hA]; omega
    · have := w.second.rank_wake w.A; omega
    · omega
  | second =>
    obtain ⟨hp, -, rfl⟩ | ⟨hp, rfl⟩ | ⟨hp, rfl⟩ | ⟨hp, rfl⟩ := step_second_cases h <;>
      simp only [progress]
    · rcases hp with hp | hp <;> rw [hp]
      · simp only [SecondPc.rank]; split <;> omega
      · -- woken only after the signal, so the loop test finds `A = 1`
        have hsig : w.first.has_signaled = true := by have := hi.second_ok; rwa [hp] at this
        have hA : w.A ≠ 0 := by rw [hi.A_eq, w.first.has_set_of_has_signaled hsig]; decide
        simp only [SecondPc.rank, if_neg hA]; omega
    · rw [hp]; by_cases hA : w.A = 0 <;> simp only [SecondPc.rank, hA, if_true, if_false] <;> omega
    · rw [hp]; simp only [SecondPc.rank]; omega
    · rw [hp]; simp only [SecondPc.rank]; omega

/-- `first` holding the lock, or at `pthread_mutex_lock` with the lock free, can move. -/
theorem step_first_isSome {w : World}
    (h : w.first.holds = true ∨ (w.first = .lock ∧ w.owner = none)) : (step_first w).isSome := by
  rcases h with h | ⟨hp, ho⟩
  · unfold step_first; split <;> simp_all [FirstPc.holds]
  · simp [step_first, hp, ho]

/-- `second` holding the lock, or taking a free one, can move. -/
theorem step_second_isSome {w : World}
    (h : w.second.holds = true ∨ ((w.second = .lock ∨ w.second = .relock) ∧ w.owner = none)) :
    (step_second w).isSome := by
  rcases h with h | ⟨hp | hp, ho⟩
  · unfold step_second; split <;> simp_all [SecondPc.holds]
  all_goals simp [step_second, hp, ho]

/-- **No deadlock.** Before the end someone can always move. While `test_condvar` waits for
`first`, the lock is free or held by a thread that can move on. While it waits for `second`,
`first` has signalled, so `second` is not asleep, and the lock is free or held by `second`. -/
theorem exists_step {w : World} (hi : Inv w) (hm : w.main ≠ .done) : ∃ a, (step w a).isSome := by
  have hok := hi.main_ok
  have hown : w.owner = none ∨ w.first.holds = true ∨ w.second.holds = true := by
    rcases ho : w.owner with _ | _ | _ | _
    · exact .inl rfl
    · exact absurd ho hi.lock_main
    · exact .inr (.inl (hi.lock_first.2 ho))
    · exact .inr (.inr (hi.lock_second.2 ho))
  cases hmain : w.main with
  | done => exact absurd hmain hm
  | create_first => exact ⟨.main, by simp [step, step_main, hmain]⟩
  | create_second => exact ⟨.main, by simp [step, step_main, hmain]⟩
  | join_first =>
    simp only [hmain, MainOk] at hok
    by_cases hx : w.first = .exited
    · exact ⟨.main, by simp [step, step_main, hmain, hx]⟩
    rcases hown with ho | hf | hs
    · refine ⟨.first, step_first_isSome ?_⟩
      cases hp : w.first <;> simp_all [FirstPc.holds]
    · exact ⟨.first, step_first_isSome (.inl hf)⟩
    · exact ⟨.second, step_second_isSome (.inl hs)⟩
  | join_second =>
    simp only [hmain, MainOk] at hok
    by_cases hx : w.second = .exited
    · exact ⟨.main, by simp [step, step_main, hmain, hx]⟩
    refine ⟨.second, step_second_isSome ?_⟩
    have hsok := hi.second_ok
    rcases hown with ho | hf | hs
    · cases hp : w.second <;> simp_all [SecondPc.holds, SecondOk, FirstPc.has_signaled]
    · simp [hok.1, FirstPc.holds] at hf
    · exact .inl hs

/-- From any state that keeps the invariant some schedule reaches the end. -/
theorem reaches_done (w : World) (hi : Inv w) :
    ∃ sched w', run w sched = some w' ∧ w'.main = .done :=
  Interleaving.exists_run_of_progress Inv (fun w => w.main = .done) progress 17 step_inv
    progress_step (fun _ => progress_le _) exists_step w hi

/-- **The wakeup is never lost.** From every state `test_condvar` can reach, some schedule
brings it to its end with both joins returned: `second` never sleeps through the one
signal. -/
theorem test_condvar_reaches_end (sched : List Actor) (w : World)
    (h : run start sched = some w) : ∃ sched' w', run w sched' = some w' ∧ w'.main = .done :=
  reaches_done w (run_inv start_inv h)

theorem test_condvar_reaches_end_start :
    ∃ sched' w', run start sched' = some w' ∧ w'.main = .done :=
  test_condvar_reaches_end [] start rfl

end Axlibc.PthreadCondvar
