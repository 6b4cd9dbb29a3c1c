import Mathlib.Data.Option.Basic
import Mathlib.Order.Basic
import Mathlib.Data.Nat.Basic

/-!
# A deadline as a countdown

A job is due at the step that brings the clock to its deadline. Told without a clock,
it has a number of steps left, which every step takes down by one, and the step that
finds one left ends it. A deadline that is no longer ahead is due at the next step.
-/

namespace SocValidation.Countdown

variable {now deadline n k : ℕ} {running : Bool} {job : Option ℕ} {jobs : List (Option ℕ)}

/- The steps that a job has left, the one that ends it included. -/
def left (now deadline : ℕ) (running : Bool) : Option ℕ :=
  if running then some (max (deadline - now) 1) else none

def tick : Option ℕ → Option ℕ
  | some (n + 2) => some (n + 1)
  | _ => none

/- A step ends what has one step left, and starts what it asks for if nothing runs. -/
def step (job request : Option ℕ) : Option ℕ := (tick job).or (request.map fun n => max n 1)

theorem left_isSome : (left now deadline running).isSome = running := by
  cases running <;> rfl

theorem left_eq_one_iff :
    left now deadline running = some 1 ↔ running = true ∧ deadline ≤ now + 1 := by
  cases running with
  | false => simp [left]
  | true =>
    simp only [left, if_true, Option.some.injEq, true_and]
    omega

theorem left_start : left now (now + n) true = some (max n 1) := by
  rw [left, if_pos rfl, Nat.add_sub_cancel_left]

/- The clock moves on, and the job ends when it was due. -/
theorem tick_left :
    tick (left now deadline running) =
      left (now + 1) deadline (running && !decide (deadline ≤ now + 1)) := by
  cases running with
  | false => rfl
  | true =>
    by_cases hdue : deadline ≤ now + 1
    · have hone : max (deadline - now) 1 = 1 := by omega
      simp [left, tick, hdue, hone]
    · obtain ⟨m, hm⟩ : ∃ m, max (deadline - now) 1 = m + 2 := ⟨deadline - now - 2, by omega⟩
      have hnext : max (deadline - (now + 1)) 1 = m + 1 := by omega
      simp [left, tick, hdue, hm, hnext]

/-! ### How long a job runs -/

theorem step_running (h : tick job = some n) (request : Option ℕ) : step job request = some n := by
  rw [step, h]
  rfl

theorem tick_of_lt (h : 1 < n) : tick (some n) = some (n - 1) := by
  obtain ⟨m, rfl⟩ : ∃ m, n = m + 2 := ⟨n - 2, by omega⟩
  rfl

/-- Whatever the steps ask for, a job of `n` steps has `n - k` left after `k` of them,
and so is ended by the `n`-th and by none before. -/
theorem left_after (h : jobs.length < n) : jobs.foldl step (some n) = some (n - jobs.length) := by
  induction jobs generalizing n with
  | nil => rfl
  | cons request jobs ih =>
    rw [List.length_cons] at h
    have hlt : 1 < n := by omega
    rw [List.foldl_cons, step_running (tick_of_lt hlt), ih (by omega), List.length_cons]
    congr 1
    omega

end SocValidation.Countdown
