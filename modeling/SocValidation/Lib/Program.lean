import Mathlib.Data.Set.Basic
import Mathlib.Logic.Function.Basic

/-!
# Programs that call a machine

A program makes a call, looks at the reply and decides what to do next, or it has come
to its outcome. A machine says for each call what it replies and what becomes of its
state. Where the machine is a family of objects, a program sees and changes only the
objects that it may call.
-/

namespace SocValidation

inductive Program (κ ρ ε : Type*) where
  | ret (out : ε)
  | call (k : κ) (next : ρ → Program κ ρ ε)

namespace Program

variable {κ ρ ε δ σ τ ι : Type*}

def bind : Program κ ρ ε → (ε → Program κ ρ δ) → Program κ ρ δ
  | .ret out, f => f out
  | .call k next, f => .call k fun r => (next r).bind f

def run (m : κ → σ → ρ × σ) : Program κ ρ ε → σ → ε × σ
  | .ret out, s => (out, s)
  | .call k next, s => (next (m k s).1).run m (m k s).2

/- The calls that a run makes. -/
def calls (m : κ → σ → ρ × σ) : Program κ ρ ε → σ → List κ
  | .ret _, _ => []
  | .call k next, s => k :: (next (m k s).1).calls m (m k s).2

variable {m : κ → σ → ρ × σ} {m' : κ → τ → ρ × τ} {p : Program κ ρ ε} {s : σ}

theorem bind_ret (p : Program κ ρ ε) : p.bind .ret = p := by
  induction p with
  | ret out => rfl
  | call k next ih => exact congrArg _ (funext ih)

theorem run_calls : (p.run m s).2 = (p.calls m s).foldl (fun s k => (m k s).2) s := by
  induction p generalizing s with
  | ret out => rfl
  | call k next ih => exact ih _

/-- Simulation rule: where a view of one machine makes it the other, call by call, no
program tells them apart. -/
theorem run_simulate (view : σ → τ)
    (hm : ∀ k s, (m k s).1 = (m' k (view s)).1 ∧ view (m k s).2 = (m' k (view s)).2) :
    (p.run m s).1 = (p.run m' (view s)).1 ∧ view (p.run m s).2 = (p.run m' (view s)).2 ∧
      p.calls m s = p.calls m' (view s) := by
  induction p generalizing s with
  | ret out => exact ⟨rfl, rfl, rfl⟩
  | call k next ih =>
    obtain ⟨hreply, hview⟩ := hm k s
    obtain ⟨hout, hstate, hcalls⟩ := ih (m k s).1 (s := (m k s).2)
    rw [hreply, hview] at hout hstate hcalls
    simp only [run, calls, hreply]
    exact ⟨hout, hstate, congrArg _ hcalls⟩

/-! ### Polling -/

/- The same call up to `n` times, until a reply decides. -/
def poll (k : κ) (decides : ρ → Option ε) (late : ε) : ℕ → Program κ ρ ε
  | 0 => .ret late
  | n + 1 => .call k fun r =>
    match decides r with
    | some out => .ret out
    | none => poll k decides late n

section Poll
variable {k : κ} {decides : ρ → Option ε} {out : ε} {x : ℕ → σ} {i n : ℕ}

/- `x` are the states that the calls lead through. -/
theorem poll_decided (late : ε) (hx : ∀ j, (m k (x j)).2 = x (j + 1)) (hi : i < n)
    (hbefore : ∀ j < i, decides (m k (x j)).1 = none) (hnow : decides (m k (x i)).1 = some out) :
    (poll k decides late n).run m (x 0) = (out, x (i + 1)) ∧
      (poll k decides late n).calls m (x 0) = List.replicate (i + 1) k := by
  induction n generalizing x i with
  | zero => cases hi
  | succ n ih =>
    cases i with
    | zero => simp [poll, run, calls, hnow, hx]
    | succ i =>
      obtain ⟨hrun, hcalls⟩ := ih (x := fun j => x (j + 1)) (fun j => hx (j + 1))
        (Nat.lt_of_succ_lt_succ hi) (fun j hj => hbefore (j + 1) (Nat.succ_lt_succ hj)) hnow
      simp only [poll, run, calls, hbefore 0 (Nat.succ_pos i), hx]
      exact ⟨hrun, by rw [hcalls, ← List.replicate_succ]⟩

theorem poll_late (late : ε) (hx : ∀ j, (m k (x j)).2 = x (j + 1))
    (h : ∀ j < n, decides (m k (x j)).1 = none) :
    (poll k decides late n).run m (x 0) = (late, x n) ∧
      (poll k decides late n).calls m (x 0) = List.replicate n k := by
  induction n generalizing x with
  | zero => exact ⟨rfl, rfl⟩
  | succ n ih =>
    obtain ⟨hrun, hcalls⟩ := ih (x := fun j => x (j + 1)) (fun j => hx (j + 1))
      fun j hj => h (j + 1) (Nat.succ_lt_succ hj)
    simp only [poll, run, calls, h 0 (Nat.succ_pos n), hx]
    exact ⟨hrun, by rw [hcalls, ← List.replicate_succ]⟩

end Poll

/-! ### Objects -/

variable {q : Program (ι × κ) ρ ε} {O : Set ι}

/- The program calls none but these objects. -/
def Within (O : Set ι) : Program (ι × κ) ρ ε → Prop
  | .ret _ => True
  | .call k next => k.1 ∈ O ∧ ∀ r, (next r).Within O

theorem Within.bind {f : ε → Program (ι × κ) ρ δ} (h : q.Within O) (hf : ∀ out, (f out).Within O) :
    (q.bind f).Within O := by
  induction q with
  | ret out => exact hf out
  | call k next ih => exact ⟨h.1, fun r => ih r (h.2 r)⟩

/- The program, run on one of the objects. -/
def onObject (i : ι) : Program κ ρ ε → Program (ι × κ) ρ ε
  | .ret out => .ret out
  | .call k next => .call (i, k) fun r => (next r).onObject i

theorem within_onObject (i : ι) (p : Program κ ρ ε) : (p.onObject i).Within {i} := by
  induction p with
  | ret out => trivial
  | call k next ih => exact ⟨rfl, ih⟩

section Objects
variable [DecidableEq ι] {obj : ι → κ → τ → ρ × τ} {x y : ι → τ} {i : ι}

/- A call goes to one object and leaves the others alone. -/
def serve (obj : ι → κ → τ → ρ × τ) (k : ι × κ) (x : ι → τ) : ρ × (ι → τ) :=
  ((obj k.1 k.2 (x k.1)).1, Function.update x k.1 (obj k.1 k.2 (x k.1)).2)

/- Frame rule. -/
theorem Within.run_frame (h : q.Within O) (hi : i ∉ O) : (q.run (serve obj) x).2 i = x i := by
  induction q generalizing x with
  | ret out => rfl
  | call k next ih =>
    have hne : i ≠ k.1 := fun he => hi (he ▸ h.1)
    rw [run, ih _ (h.2 _)]
    exact Function.update_of_ne hne _ _

theorem serve_local (obj : ι → κ → τ → ρ × τ) {k : ι × κ} (hk : k.1 ∈ O) (hxy : Set.EqOn x y O) :
    (serve obj k x).1 = (serve obj k y).1 ∧ Set.EqOn (serve obj k x).2 (serve obj k y).2 O := by
  have hsame : x k.1 = y k.1 := hxy hk
  refine ⟨by rw [serve, serve, hsame], fun i hi => ?_⟩
  by_cases he : i = k.1
  · subst he
    simp only [serve, Function.update_self, hsame]
  · simp only [serve, Function.update_of_ne he]
    exact hxy hi

/-- Locality rule: what a program comes to, and what it makes of its objects, is decided
by these objects alone. -/
theorem Within.run_local (obj : ι → κ → τ → ρ × τ) (h : q.Within O) (hxy : Set.EqOn x y O) :
    (q.run (serve obj) x).1 = (q.run (serve obj) y).1 ∧
      Set.EqOn (q.run (serve obj) x).2 (q.run (serve obj) y).2 O := by
  induction q generalizing x y with
  | ret out => exact ⟨rfl, hxy⟩
  | call k next ih =>
    obtain ⟨hreply, hnext⟩ := serve_local obj h.1 hxy
    simp only [run, hreply]
    exact ih _ (h.2 _) hnext

/- So are its calls. -/
theorem Within.calls_local (obj : ι → κ → τ → ρ × τ) (h : q.Within O) (hxy : Set.EqOn x y O) :
    q.calls (serve obj) x = q.calls (serve obj) y := by
  induction q generalizing x y with
  | ret out => rfl
  | call k next ih =>
    obtain ⟨hreply, hnext⟩ := serve_local obj h.1 hxy
    simp only [calls, hreply]
    exact congrArg _ (ih _ (h.2 _) hnext)

theorem run_onObject (p : Program κ ρ ε) (i : ι) (x : ι → τ) :
    (p.onObject i).run (serve obj) x =
      ((p.run (obj i) (x i)).1, Function.update x i (p.run (obj i) (x i)).2) := by
  induction p generalizing x with
  | ret out => simp [onObject, run]
  | call k next ih => simp [onObject, run, serve, ih]

theorem calls_onObject (p : Program κ ρ ε) (i : ι) (x : ι → τ) :
    (p.onObject i).calls (serve obj) x = (p.calls (obj i) (x i)).map fun k => (i, k) := by
  induction p generalizing x with
  | ret out => rfl
  | call k next ih => simp [onObject, calls, serve, ih]

end Objects

end Program
end SocValidation
