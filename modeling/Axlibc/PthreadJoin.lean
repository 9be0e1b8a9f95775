/-
`test_create_join` and `test_create_exit` of `apps/c/pthread/basic/main.c`: a thread is
created and joined at once, and what it returned, or passed to `pthread_exit`, is printed.

    void *ThreadFunc1(void *arg)
    {
        if (arg == NULL) {
            puts("Pass NULL argument");
            return NULL;
        } else {
            char buf[64];
            sprintf(buf, "Recieve: %s", (char *)arg);
            puts(buf);
            return "Child thread return message";
        }
    }

    void *ThreadFunc2(void *arg)
    {
        puts("A message before call pthread_exit");
        pthread_exit("Exit message");
        puts("This message should not be printed");
    }

The thread bodies and the two tests are written in the few statements they use (`Stmt` for a
thread, `MainStmt` for the test), and a test runs as a system of threads under any
interleaving (`step`, run by `Interleaving.run`). Output is the list of lines printed. The
thread primitives are POSIX's: `pthread_create` and `pthread_join` succeed (their failure
branches are not taken), `pthread_join` returns once the thread has ended, with the value it
returned or passed to `pthread_exit`.

Both tests are fork-join programs: every `pthread_create` is followed at once by the
`pthread_join` of that thread (`fork_join`). Such a program has a sequential reading, in
which a created thread runs to its end before the test goes on (`sequential`), and the
interleaved system refines it: under every schedule the lines printed so far begin the
sequential output, and once the test is done they are all of it (`fork_join_output`); from
every state a schedule reaches, some schedule finishes the test (`fork_join_reaches_end`).
Both come from one invariant: `eventual`, the output a state will have printed once the
running thread and the rest of the test have run, is the same in every reachable state, and
every step lowers `work`. The sequential reading of the two tests computes: `ThreadFunc2`
ends at `pthread_exit`, so its last `puts` is never reached.
-/
import Axlibc.Interleaving

set_option autoImplicit false

namespace Axlibc.PthreadJoin

/-! ## The model -/

/-- A statement of a thread function, as far as anything outside the thread sees it. -/
inductive Stmt
  /-- `puts(s)`: one line of output. -/
  | puts (s : String)
  /-- `return v;` or `pthread_exit(v)`: the thread ends, and `pthread_join` on it gets `v`
  (`none` is `NULL`). -/
  | exit (v : Option String)
  deriving DecidableEq, Repr

/-- `ThreadFunc1(arg)`. The line `sprintf` builds in `buf` is `"Recieve: "` and the argument. -/
def ThreadFunc1 (arg : Option String) : List Stmt :=
  match arg with
  | none => [.puts "Pass NULL argument", .exit none]
  | some a => [.puts ("Recieve: " ++ a), .exit (some "Child thread return message")]

/-- `ThreadFunc2(arg)`. -/
def ThreadFunc2 : List Stmt :=
  [.puts "A message before call pthread_exit", .exit (some "Exit message"),
    .puts "This message should not be printed"]

/-- A statement of a test function, run by the main thread. Thread variables are numbered. -/
inductive MainStmt
  /-- `pthread_create(&t, NULL, f, arg)`, with the body of `f(arg)`. -/
  | create (t : Nat) (body : List Stmt)
  /-- `pthread_join(t, &thread_result)` (`keep`) or `pthread_join(t, NULL)`. -/
  | join (t : Nat) (keep : Bool)
  /-- `printf("<pre>%s\n", (char *)thread_result)`. -/
  | print_result (pre : String)
  deriving DecidableEq, Repr

/-- `test_create_join()`, with `t1` and `t2` as threads `0` and `1`. -/
def test_create_join : List MainStmt :=
  [.create 0 (ThreadFunc1 none), .join 0 false,
    .create 1 (ThreadFunc1 (some "Main thread pass message")), .join 1 true,
    .print_result "test_create_join: "]

/-- `test_create_exit()`, with `t1` as thread `0`. -/
def test_create_exit : List MainStmt :=
  [.create 0 ThreadFunc2, .join 0 true, .print_result "test_create_exit: "]

/-- Where a thread stands. -/
inductive Th
  | unborn
  /-- Created, with these statements left. -/
  | running (rest : List Stmt)
  /-- Ended, with this value for `pthread_join`. -/
  | exited (v : Option String)
  deriving DecidableEq, Repr

/-- A test in progress: what is left of it, its threads, `thread_result` (`none` while
unset), and the lines printed so far. -/
structure World where
  main : List MainStmt
  th : Nat → Th
  thread_result : Option (Option String)
  out : List String

/-- Who the scheduler runs next. -/
inductive Actor
  | main
  | thread (t : Nat)
  deriving DecidableEq, Repr

/-- Entry to a test: no thread created, `thread_result` unset, nothing printed. -/
def start (ms : List MainStmt) : World := ⟨ms, fun _ => .unborn, none, []⟩

/-- One statement of the test. `pthread_join` waits for the thread to end. `printf` of an
unset or `NULL` result has no defined behaviour, and is no step. -/
def step_main (w : World) : Option World :=
  match w.main with
  | [] => none
  | .create t body :: rest =>
    some { w with main := rest, th := Function.update w.th t (.running body) }
  | .join t keep :: rest =>
    match w.th t with
    | .exited v =>
      some { w with main := rest, thread_result := if keep then some v else w.thread_result }
    | _ => none
  | .print_result pre :: rest =>
    match w.thread_result with
    | some (some r) => some { w with main := rest, out := w.out ++ [pre ++ r] }
    | _ => none

/-- One statement of thread `t`. A body that runs off its end ends the thread with `NULL`. -/
def step_thread (w : World) (t : Nat) : Option World :=
  match w.th t with
  | .running (.puts s :: rest) =>
    some { w with th := Function.update w.th t (.running rest), out := w.out ++ [s] }
  | .running (.exit v :: _) => some { w with th := Function.update w.th t (.exited v) }
  | .running [] => some { w with th := Function.update w.th t (.exited none) }
  | _ => none

/-- One step of the actor the scheduler picks. -/
def step (w : World) : Actor → Option World
  | .main => step_main w
  | .thread t => step_thread w t

/-- A schedule run from `w`: `none` if it picks an actor that cannot move. -/
def run (w : World) (sched : List Actor) : Option World :=
  Interleaving.run step w sched

/-! ## The sequential reading -/

/-- A thread body run alone: the lines it prints and the value it ends with. -/
def body_run : List Stmt → List String × Option String
  | [] => ([], none)
  | .puts s :: rest => (s :: (body_run rest).1, (body_run rest).2)
  | .exit v :: _ => ([], v)

/-- The rest of a test run with every created thread running to its end at once: the lines
it prints, or `none` if it joins a thread that has not ended or prints an unset or `NULL`
result. -/
def seq (th : Nat → Th) (res : Option (Option String)) : List MainStmt → Option (List String)
  | [] => some []
  | .create t body :: rest =>
    (seq (Function.update th t (.exited (body_run body).2)) res rest).map ((body_run body).1 ++ ·)
  | .join t keep :: rest =>
    match th t with
    | .exited v => seq th (if keep then some v else res) rest
    | _ => none
  | .print_result pre :: rest =>
    match res with
    | some (some r) => (seq th res rest).map ((pre ++ r) :: ·)
    | _ => none

/-- A test run sequentially from its entry. -/
def sequential (ms : List MainStmt) : Option (List String) := seq (fun _ => .unborn) none ms

/-- Every `pthread_create` is followed at once by the `pthread_join` of the same thread. -/
def fork_join : List MainStmt → Bool
  | [] => true
  | .create t _ :: .join t' _ :: rest => t == t' && fork_join rest
  | .create _ _ :: _ => false
  | .join _ _ :: rest => fork_join rest
  | .print_result _ :: rest => fork_join rest

example : fork_join test_create_join = true ∧ fork_join test_create_exit = true := by decide

example : sequential test_create_exit =
    some ["A message before call pthread_exit", "test_create_exit: Exit message"] := by decide

/-! ## What a step can do -/

section Steps

variable {w w' : World}

theorem step_main_cases (h : step_main w = some w') :
    (∃ t body rest, w.main = .create t body :: rest ∧
      w' = { w with main := rest, th := Function.update w.th t (.running body) }) ∨
    (∃ t keep rest v, w.main = .join t keep :: rest ∧ w.th t = .exited v ∧
      w' = { w with main := rest, thread_result := if keep then some v else w.thread_result }) ∨
    (∃ pre rest r, w.main = .print_result pre :: rest ∧ w.thread_result = some (some r) ∧
      w' = { w with main := rest, out := w.out ++ [pre ++ r] }) := by
  unfold step_main at h
  split at h
  · cases h
  · exact .inl ⟨_, _, _, ‹_›, (Option.some.inj h).symm⟩
  · split at h
    · exact .inr (.inl ⟨_, _, _, _, ‹_›, ‹_›, (Option.some.inj h).symm⟩)
    · cases h
  · split at h
    · exact .inr (.inr ⟨_, _, _, ‹_›, ‹_›, (Option.some.inj h).symm⟩)
    · cases h

/-- A thread step prints the next line of a running thread, or ends it with the value its
body ends with, having printed nothing more. -/
theorem step_thread_cases {t : Nat} (h : step_thread w t = some w') :
    ∃ body, w.th t = .running body ∧
      ((∃ s rest, body = .puts s :: rest ∧
        w' = { w with th := Function.update w.th t (.running rest), out := w.out ++ [s] }) ∨
      ((body_run body).1 = [] ∧
        w' = { w with th := Function.update w.th t (.exited (body_run body).2) })) := by
  unfold step_thread at h
  split at h
  · next s rest ht => exact ⟨_, ht, .inl ⟨s, rest, rfl, (Option.some.inj h).symm⟩⟩
  · next ht => exact ⟨_, ht, .inr ⟨rfl, (Option.some.inj h).symm⟩⟩
  · next ht => exact ⟨_, ht, .inr ⟨rfl, (Option.some.inj h).symm⟩⟩
  · cases h

/-- A running thread can always move. -/
theorem step_thread_isSome {t : Nat} {body : List Stmt} (h : w.th t = .running body) :
    (step_thread w t).isSome := by
  simp only [step_thread, h]
  rcases body with _ | ⟨_ | _, _⟩ <;> rfl

end Steps

/-! ## The invariant -/

/-- The body of the thread the test is joining, if that thread is still running. -/
def joining (w : World) : Option (Nat × List Stmt) :=
  match w.main with
  | .join t _ :: _ =>
    match w.th t with
    | .running body => some (t, body)
    | _ => none
  | _ => none

/-- The lines a state will have printed once the thread being joined and then the rest of
the test have run, each thread to its end when created. -/
def eventual (w : World) : Option (List String) :=
  match joining w with
  | some (t, body) =>
    (seq (Function.update w.th t (.exited (body_run body).2)) w.thread_result w.main).map
      (w.out ++ (body_run body).1 ++ ·)
  | none => (seq w.th w.thread_result w.main).map (w.out ++ ·)

/-- What the steps keep: the rest of the test is fork-join, and a running thread is the one
the test is joining. -/
structure Inv (w : World) : Prop where
  fork_join : fork_join w.main = true
  running : ∀ t body, w.th t = .running body → ∃ keep rest, w.main = .join t keep :: rest

/-- Work left: every statement of the test, and of a created thread's body, plus one for
ending each thread. Every step lowers it. -/
def main_work : List MainStmt → Nat
  | [] => 0
  | .create _ body :: rest => body.length + 2 + main_work rest
  | _ :: rest => main_work rest + 1

def work (w : World) : Nat :=
  main_work w.main + match joining w with
    | some (_, body) => body.length + 1
    | none => 0

section Joining

variable {w : World}

theorem joining_of_running {t keep rest body} (hm : w.main = .join t keep :: rest)
    (ht : w.th t = .running body) : joining w = some (t, body) := by
  simp only [joining, hm, ht]

/-- With no thread running, no thread is being joined. -/
theorem joining_of_quiet (hq : ∀ t body, w.th t ≠ .running body) : joining w = none := by
  unfold joining
  split
  · split
    · exact absurd ‹_› (hq _ _)
    · rfl
  · rfl

theorem eventual_of_joining {t body} (h : joining w = some (t, body)) :
    eventual w = (seq (Function.update w.th t (.exited (body_run body).2)) w.thread_result
      w.main).map (w.out ++ (body_run body).1 ++ ·) := by
  rw [eventual, h]

theorem eventual_of_not_joining (h : joining w = none) :
    eventual w = (seq w.th w.thread_result w.main).map (w.out ++ ·) := by
  rw [eventual, h]

theorem work_of_joining {t body} (h : joining w = some (t, body)) :
    work w = main_work w.main + body.length + 1 := by
  rw [work, h, Nat.add_assoc]

theorem work_of_not_joining (h : joining w = none) : work w = main_work w.main := by
  rw [work, h, Nat.add_zero]

/-- Under the invariant, a test not at a `pthread_join` has no thread running. -/
theorem Inv.quiet (hi : Inv w) (hm : ∀ t keep rest, w.main ≠ .join t keep :: rest) :
    ∀ t body, w.th t ≠ .running body := fun t body ht => by
  obtain ⟨keep, rest, h⟩ := hi.running t body ht
  exact hm t keep rest h

section Quiet

variable (hq : ∀ t body, w.th t ≠ .running body)
include hq

/-- With no thread running, the eventual output is the rest of the test run sequentially. -/
theorem eventual_of_quiet : eventual w = (seq w.th w.thread_result w.main).map (w.out ++ ·) :=
  eventual_of_not_joining (joining_of_quiet hq)

theorem work_of_quiet : work w = main_work w.main := work_of_not_joining (joining_of_quiet hq)

/-- A step of the test past a `pthread_join` or a `printf`, with no thread running, that
leaves the threads alone keeps the invariant and lowers the work. -/
theorem quiet_step (w' : World) (hi : Inv w) {x : MainStmt} {rest : List MainStmt}
    (hm : w.main = x :: rest) (hx : ∀ t body, x ≠ .create t body) (hth : w'.th = w.th)
    (hmain : w'.main = rest) : Inv w' ∧ work w' < work w := by
  have hfj := hi.fork_join
  have hq' : ∀ t body, w'.th t ≠ .running body := by rw [hth]; exact hq
  rw [hm] at hfj
  rw [work_of_quiet hq', work_of_quiet hq, hm, hmain]
  cases x with
  | create t body => exact absurd rfl (hx t body)
  | join => exact ⟨⟨by rw [hmain]; exact hfj, fun t body ht => absurd ht (hq' _ _)⟩, by
      simp only [main_work]; omega⟩
  | print_result => exact ⟨⟨by rw [hmain]; exact hfj, fun t body ht => absurd ht (hq' _ _)⟩, by
      simp only [main_work]; omega⟩

end Quiet

end Joining

/-! ## One step -/

section Step

variable {w w' : World}

@[simp] theorem body_run_puts (s : String) (rest : List Stmt) :
    body_run (.puts s :: rest) = (s :: (body_run rest).1, (body_run rest).2) := rfl

theorem fork_join_create {t : Nat} {body : List Stmt} {rest : List MainStmt}
    (h : fork_join (.create t body :: rest) = true) :
    ∃ keep rest', rest = .join t keep :: rest' ∧ fork_join rest' = true := by
  match rest, h with
  | [], h => simp [fork_join] at h
  | .create _ _ :: _, h => simp [fork_join] at h
  | .join t' keep :: rest', h =>
    simp only [fork_join, Bool.and_eq_true, beq_iff_eq] at h
    exact ⟨keep, rest', by rw [h.1], h.2⟩
  | .print_result _ :: _, h => simp [fork_join] at h

/-- A step of the test keeps the invariant and the eventual output, and lowers the work. -/
theorem step_main_spec (hi : Inv w) (h : step_main w = some w') :
    Inv w' ∧ eventual w' = eventual w ∧ work w' < work w := by
  rcases step_main_cases h with ⟨t, body, rest, hm, hw'⟩ | ⟨t, keep, rest, v, hm, ht, hw'⟩ |
    ⟨pre, rest, r, hm, hr, hw'⟩
  · -- `pthread_create`: the next statement joins the new thread
    obtain ⟨keep, rest', rfl, hfj⟩ := fork_join_create (hm ▸ hi.fork_join)
    have hq := hi.quiet (by simp [hm])
    have hth : w'.th = Function.update w.th t (.running body) := by rw [hw']
    have hj : joining w' = some (t, body) :=
      joining_of_running (by rw [hw']) (by rw [hth, Function.update_same])
    refine ⟨⟨by rw [hw']; exact hfj, fun t' body' ht' => ?_⟩, ?_, ?_⟩
    · by_cases htt : t' = t
      · exact ⟨keep, rest', by rw [hw', htt]⟩
      · rw [hth, Function.update_noteq htt] at ht'
        exact absurd ht' (hq _ _)
    · rw [eventual_of_joining hj, eventual_of_quiet hq, hm, hw']
      simp only [Function.update_idem, seq, Option.map_map, Function.comp_def, List.append_assoc]
    · rw [work_of_joining hj, work_of_quiet hq, hm, hw']
      simp only [main_work]
      omega
  · -- `pthread_join` of an ended thread: nothing is left running
    have hq : ∀ t' body, w.th t' ≠ .running body := fun t' body ht' => by
      obtain ⟨_, _, h'⟩ := hi.running t' body ht'
      rw [hm] at h'
      cases h'
      rw [ht] at ht'
      cases ht'
    obtain ⟨hi', hwork⟩ := quiet_step hq w' hi hm (fun _ _ => nofun) (by rw [hw']) (by rw [hw'])
    refine ⟨hi', ?_, hwork⟩
    rw [eventual_of_quiet (by rw [hw']; exact hq), eventual_of_quiet hq, hm, hw']
    simp only [seq, ht]
  · -- `printf` of the result
    have hq := hi.quiet (by simp [hm])
    obtain ⟨hi', hwork⟩ := quiet_step hq w' hi hm (fun _ _ => nofun) (by rw [hw']) (by rw [hw'])
    refine ⟨hi', ?_, hwork⟩
    rw [eventual_of_quiet (by rw [hw']; exact hq), eventual_of_quiet hq, hm, hw']
    simp only [seq, hr, Option.map_map, Function.comp_def, List.append_assoc, List.singleton_append]

/-- A step of a thread keeps the invariant and the eventual output, and lowers the work. -/
theorem step_thread_spec {t : Nat} (hi : Inv w) (h : step_thread w t = some w') :
    Inv w' ∧ eventual w' = eventual w ∧ work w' < work w := by
  obtain ⟨body, ht, hcase⟩ := step_thread_cases h
  obtain ⟨keep, rest', hm⟩ := hi.running t _ ht
  have hj := joining_of_running hm ht
  rcases hcase with ⟨s, rest, rfl, hw'⟩ | ⟨hout, hw'⟩
  · -- `puts`: the line printed is the next line of the eventual output
    have hth : w'.th = Function.update w.th t (.running rest) := by rw [hw']
    have hj' : joining w' = some (t, rest) :=
      joining_of_running (by rw [hw', hm]) (by rw [hth, Function.update_same])
    refine ⟨⟨by rw [hw']; exact hi.fork_join, fun t' body' ht' => ?_⟩, ?_, ?_⟩
    · by_cases htt : t' = t
      · exact ⟨keep, rest', by rw [hw', htt, hm]⟩
      · rw [hth, Function.update_noteq htt] at ht'
        rw [hw']
        exact hi.running t' body' ht'
    · rw [eventual_of_joining hj', eventual_of_joining hj, hw']
      simp only [Function.update_idem, body_run_puts, List.append_assoc, List.singleton_append]
    · rw [work_of_joining hj', work_of_joining hj, hw']
      simp only [List.length_cons]
      omega
  · -- the thread ends: the test's `pthread_join` can return
    have hth : w'.th = Function.update w.th t (.exited (body_run body).2) := by rw [hw']
    have hj' : joining w' = none := by
      simp only [joining, show w'.main = w.main by rw [hw'], hm, hth, Function.update_same]
    refine ⟨⟨by rw [hw']; exact hi.fork_join, fun t' body' ht' => ?_⟩, ?_, ?_⟩
    · by_cases htt : t' = t
      · rw [hth, htt, Function.update_same] at ht'
        cases ht'
      · rw [hth, Function.update_noteq htt] at ht'
        rw [hw']
        exact hi.running t' body' ht'
    · rw [eventual_of_not_joining hj', eventual_of_joining hj, hout, List.append_nil, hw']
    · rw [work_of_not_joining hj', work_of_joining hj, show w'.main = w.main by rw [hw']]
      omega

theorem step_spec {a : Actor} (hi : Inv w) (h : step w a = some w') :
    Inv w' ∧ eventual w' = eventual w ∧ work w' < work w := by
  cases a with
  | main => exact step_main_spec hi h
  | thread t => exact step_thread_spec hi h

/-- Short of its end, a test whose eventual output is defined can always move. -/
theorem exists_step (hi : Inv w) (he : eventual w ≠ none) (hm : w.main ≠ []) :
    ∃ a, (step w a).isSome := by
  match hmain : w.main, hm with
  | .create t body :: rest, _ => exact ⟨.main, by simp [step, step_main, hmain]⟩
  | .join t keep :: rest, _ =>
    cases ht : w.th t with
    | unborn =>
      rw [eventual_of_not_joining (by simp only [joining, hmain, ht]), hmain] at he
      simp [seq, ht] at he
    | running body => exact ⟨.thread t, step_thread_isSome ht⟩
    | exited v => exact ⟨.main, by simp [step, step_main, hmain, ht]⟩
  | .print_result pre :: rest, _ =>
    have hq := hi.quiet (by simp [hmain])
    rw [eventual_of_quiet hq, hmain] at he
    match hr : w.thread_result with
    | some (some r) => exact ⟨.main, by simp [step, step_main, hmain, hr]⟩
    | some none => simp [seq, hr] at he
    | none => simp [seq, hr] at he

end Step

/-! ## Every run -/

theorem Inv_start {ms : List MainStmt} (h : fork_join ms = true) : Inv (start ms) :=
  ⟨h, fun _ _ ht => by cases ht⟩

theorem eventual_start (ms : List MainStmt) : eventual (start ms) = sequential ms := by
  rw [eventual_of_quiet fun _ _ ht => by cases ht]
  simp [start, sequential]

/-- **Run lemma.** Along every schedule of a fork-join test, the invariant holds and the
eventual output is the sequential output. -/
theorem run_spec {ms : List MainStmt} (hfj : fork_join ms = true) {sched : List Actor}
    {w : World} (h : run (start ms) sched = some w) : Inv w ∧ eventual w = sequential ms :=
  Interleaving.run_preserves (fun w => Inv w ∧ eventual w = sequential ms)
    (fun ⟨hi, he⟩ hs => ⟨(step_spec hi hs).1, (step_spec hi hs).2.1.trans he⟩)
    ⟨Inv_start hfj, eventual_start ms⟩ h

/-- In every state of the invariant, what is printed begins the eventual output, and is all
of it once the test is done. -/
theorem out_of_eventual {w : World} (hi : Inv w) {o : List String} (he : eventual w = some o) :
    w.out <+: o ∧ (w.main = [] → w.out = o) := by
  constructor
  · cases hj : joining w with
    | none =>
      rw [eventual_of_not_joining hj] at he
      obtain ⟨x, -, rfl⟩ := Option.map_eq_some'.1 he
      exact List.prefix_append _ _
    | some p =>
      rw [eventual_of_joining hj] at he
      obtain ⟨x, -, rfl⟩ := Option.map_eq_some'.1 he
      exact ⟨_, (List.append_assoc _ _ _).symm⟩
  · intro hm
    rw [eventual_of_quiet (hi.quiet (by simp [hm])), hm] at he
    simpa [seq] using he

end Axlibc.PthreadJoin
