/-
Runs of a system of threads under an arbitrary scheduler, shared by the models of the
pthread tests in `apps/c/pthread/basic/main.c`.

A system is a step function `step : W → A → Option W`: from state `w` the actor `a` the
scheduler picks either makes one atomic move or, blocked or finished, cannot move (`none`).
A schedule is any list of actors; `run step w as` is the state it leads to, or `none` if it
picks an actor that cannot move. Two facts are proved once here for every such system:
an inductive invariant holds after every run (`run_preserves`), and a progress measure that
every move raises and the invariant bounds, together with "someone can always move" before
the goal, gives a schedule that reaches the goal (`exists_run_of_progress`).
-/
import Mathlib

set_option autoImplicit false

namespace Axlibc.Interleaving

section Run

variable {W A : Type} (step : W → A → Option W)

/-- The state a schedule leads to from `w`. -/
def run (w : W) : List A → Option W
  | [] => some w
  | a :: as => (step w a).bind fun w' => run w' as

@[simp] theorem run_nil (w : W) : run step w [] = some w := rfl

@[simp] theorem run_cons (w : W) (a : A) (as : List A) :
    run step w (a :: as) = (step w a).bind fun w' => run step w' as := rfl

variable {step} (P : W → Prop)

/-- **Run lemma.** A property every move keeps holds after every schedule. -/
theorem run_preserves (hstep : ∀ {w w' a}, P w → step w a = some w' → P w')
    {w w' : W} {as : List A} (hw : P w) (h : run step w as = some w') : P w' := by
  induction as generalizing w with
  | nil => cases h; exact hw
  | cons a as ih =>
    obtain ⟨w₁, h₁, h₂⟩ := Option.bind_eq_some.1 h
    exact ih (hstep hw h₁) h₂

/-- **Reaching a goal.** If every move keeps `P` and raises `μ`, `P` bounds `μ` by `B`, and
in every state of `P` short of the goal some actor can move, then from every state of `P`
some schedule reaches the goal. -/
theorem exists_run_of_progress (goal : W → Prop) (μ : W → Nat) (B : Nat)
    (hstep : ∀ {w w' a}, P w → step w a = some w' → P w')
    (hμ : ∀ {w w' a}, P w → step w a = some w' → μ w < μ w')
    (hB : ∀ {w}, P w → μ w ≤ B)
    (hlive : ∀ {w}, P w → ¬ goal w → ∃ a, (step w a).isSome)
    (w : W) (hw : P w) : ∃ as w', run step w as = some w' ∧ goal w' := by
  by_cases hg : goal w
  · exact ⟨[], w, rfl, hg⟩
  obtain ⟨a, ha⟩ := hlive hw hg
  obtain ⟨w', h⟩ := Option.isSome_iff_exists.1 ha
  have := hμ hw h
  have := hB (hstep hw h)
  obtain ⟨as, w'', hr, hgoal⟩ := exists_run_of_progress goal μ B hstep hμ hB hlive w' (hstep hw h)
  exact ⟨a :: as, w'', by simp [h, hr], hgoal⟩
termination_by B - μ w

end Run

end Axlibc.Interleaving
