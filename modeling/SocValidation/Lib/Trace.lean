import Mathlib.Data.Option.Basic
import Mathlib.Data.List.Induction
import Mathlib.Data.List.DropRight

/-!
# Labelled runs of a partial step function

A step function `σ → ι → Option σ` says, for a state and a label, what the next
state is, or that the label cannot occur there. A trace is a list of labels.
The rules below carry an invariant, an invariant that may mention the trace so
far, and a simulation from one step to a whole run.
-/

namespace SocValidation.Trace

variable {σ ι τ κ : Type*} {step : σ → ι → Option σ} {s t u : σ} {tr : List ι}

def run (step : σ → ι → Option σ) (s : σ) : List ι → Option σ
  | [] => some s
  | a :: tr => (step s a).bind fun t => run step t tr

theorem run_append (xs ys : List ι) :
    run step s (xs ++ ys) = (run step s xs).bind fun t => run step t ys := by
  induction xs generalizing s with
  | nil => rfl
  | cons a xs ih =>
    simp only [List.cons_append, run, Option.bind_assoc]
    exact congrArg _ (funext fun t => ih)

theorem run_concat_iff {a : ι} :
    run step s (tr ++ [a]) = some u ↔ ∃ t, run step s tr = some t ∧ step t a = some u := by
  simp [run_append, run, Option.bind_eq_some_iff]

/-- Invariant rule, with the trace so far in view of the invariant. -/
theorem run_invariant (P : List ι → σ → Prop) (h0 : P [] s)
    (hstep : ∀ tr t a u, run step s tr = some t → P tr t → step t a = some u → P (tr ++ [a]) u)
    (h : run step s tr = some t) : P tr t := by
  induction tr using List.reverseRecOn generalizing t with
  | nil =>
    cases h
    exact h0
  | append_singleton tr a ih =>
    obtain ⟨m, hm, ha⟩ := run_concat_iff.mp h
    exact hstep tr m a t hm (ih hm) ha

/-- Simulation rule: a concrete step is one abstract step with the label `g`
gives it, or, where `g` gives none, leaves the abstract state alone. -/
theorem run_simulate {step' : τ → κ → Option τ} (f : σ → τ) (g : ι → Option κ)
    (hlabel : ∀ t a u b, step t a = some u → g a = some b → step' (f t) b = some (f u))
    (hsilent : ∀ t a u, step t a = some u → g a = none → f u = f t)
    (h : run step s tr = some t) : run step' (f s) (tr.filterMap g) = some (f t) := by
  induction tr generalizing s with
  | nil =>
    cases h
    rfl
  | cons a tr ih =>
    obtain ⟨m, hm, hr⟩ := Option.bind_eq_some_iff.mp h
    cases hg : g a with
    | some b =>
      simp only [List.filterMap_cons, hg, run, hlabel s a m b hm hg]
      exact ih hr
    | none =>
      simp only [List.filterMap_cons, hg]
      rw [← hsilent s a m hm hg]
      exact ih hr

/- What of a history comes after the last label that resets. -/
def since (reset : ι → Bool) (tr : List ι) : List ι := tr.rtakeWhile fun a => !reset a

theorem since_concat {reset : ι → Bool} {a : ι} :
    since reset (tr ++ [a]) = if reset a then [] else since reset tr ++ [a] := by
  unfold since
  rw [List.rtakeWhile_concat]
  cases reset a <;> rfl

theorem since_never : since (fun _ => false) tr = tr := List.rtakeWhile_eq_self_iff.mpr fun _ _ => rfl

/-- Last-write rule for a total step function: what is observed is the last value
stored since the last reset, or else what a reset leaves there. -/
theorem foldl_observe_since {β : Type*} (step : σ → ι → σ) (obs : σ → β) (writes : ι → Option β)
    (reset : ι → Bool) (init : β) (hs : obs s = init)
    (hreset : ∀ a ∈ tr, reset a = true → ∀ t, obs (step t a) = init)
    (hwrite : ∀ a ∈ tr, reset a = false → ∀ t, obs (step t a) = (writes a).getD (obs t)) :
    obs (tr.foldl step s) = ((since reset tr).filterMap writes).getLast?.getD init := by
  induction tr using List.reverseRecOn with
  | nil => exact hs
  | append_singleton tr a ih =>
    have hprev := ih (fun b hb => hreset b (List.mem_append_left _ hb))
      (fun b hb => hwrite b (List.mem_append_left _ hb))
    rw [List.foldl_append, List.foldl_cons, List.foldl_nil, since_concat]
    cases hr : reset a with
    | true => exact hreset a (by simp) hr _
    | false =>
      rw [hwrite a (by simp) hr, hprev, if_neg (by decide), List.filterMap_append]
      cases hw : writes a with
      | none => simp [hw]
      | some v => simp [hw]

/-- The last-write rule without resets: where each operation either stores a value in
the observed place or leaves it alone, a run leaves the last value stored there. -/
theorem foldl_observe {β : Type*} (step : σ → ι → σ) (obs : σ → β) (writes : ι → Option β)
    (s : σ) (tr : List ι) (h : ∀ a ∈ tr, ∀ s, obs (step s a) = (writes a).getD (obs s)) :
    obs (tr.foldl step s) = (tr.filterMap writes).getLast?.getD (obs s) := by
  have hsince : obs (tr.foldl step s) =
      ((since (fun _ => false) tr).filterMap writes).getLast?.getD (obs s) :=
    foldl_observe_since step obs writes (fun _ => false) (obs s) rfl
      (fun _ _ hreset => by cases hreset) fun a ha _ => h a ha
  rwa [since_never] at hsince

/-- Change rule: what holds before a run of a total step function and fails after it
was ended by one of the steps. -/
theorem foldl_change (step : σ → ι → σ) (P : σ → Prop) (h0 : P s) (h : ¬P (tr.foldl step s)) :
    ∃ pre a post, tr = pre ++ a :: post ∧ P (pre.foldl step s) ∧ ¬P (step (pre.foldl step s) a) := by
  induction tr generalizing s with
  | nil => exact absurd h0 h
  | cons a tr ih =>
    by_cases ha : P (step s a)
    · obtain ⟨pre, b, post, hsplit, hpre, hb⟩ := ih ha h
      exact ⟨a :: pre, b, post, by rw [hsplit, List.cons_append], hpre, hb⟩
    · exact ⟨[], a, tr, rfl, h0, ha⟩

/-- Latch rule: a bit that steps raise and labels take down, a raise of their own step
included, is up just when no label since its last raise has taken it down. -/
theorem foldl_latch (tr : List ι) (s : σ) (step : σ → ι → σ) (bit : σ → Bool) (raises : σ → ι → Bool) (clears : ι → Bool)
    (hs : bit s = false)
    (hstep : ∀ a ∈ tr, ∀ t, bit (step t a) = ((bit t || raises t a) && !clears a)) :
    bit (tr.foldl step s) = true ↔
      ∃ pre a post, tr = pre ++ a :: post ∧ raises (pre.foldl step s) a = true ∧
        ∀ b ∈ a :: post, clears b = false := by
  induction tr using List.reverseRecOn with
  | nil =>
    rw [List.foldl_nil, hs]
    exact iff_of_false (by decide) fun ⟨pre, a, post, h, _⟩ => by simp at h
  | append_singleton tr a ih =>
    have hprev := ih fun b hb => hstep b (List.mem_append_left _ hb)
    rw [List.foldl_append, List.foldl_cons, List.foldl_nil, hstep a (by simp)]
    simp only [Bool.and_eq_true, Bool.or_eq_true, Bool.not_eq_true', hprev]
    constructor
    · rintro ⟨⟨pre, b, post, rfl, hraise, hkept⟩ | hraise, ha⟩
      · refine ⟨pre, b, post ++ [a], by simp, hraise, fun c hc => ?_⟩
        rcases List.mem_append.mp (List.cons_append ▸ hc) with hc | hc
        · exact hkept c hc
        · rwa [List.mem_singleton.mp hc]
      · exact ⟨tr, a, [], rfl, hraise, fun c hc => by rwa [List.mem_singleton.mp hc]⟩
    · rintro ⟨pre, b, post, hsplit, hraise, hkept⟩
      rcases List.eq_nil_or_concat' post with rfl | ⟨post, c, rfl⟩
      · obtain ⟨rfl, heq⟩ := List.append_inj' hsplit rfl
        cases heq
        exact ⟨Or.inr hraise, hkept a (by simp)⟩
      · have hcut : tr ++ [a] = (pre ++ b :: post) ++ [c] := by simpa using hsplit
        obtain ⟨rfl, heq⟩ := List.append_inj' hcut rfl
        cases heq
        refine ⟨Or.inl ⟨pre, b, post, rfl, hraise, fun d hd => hkept d ?_⟩, hkept a (by simp)⟩
        rw [← List.cons_append]
        exact List.mem_append_left _ hd

end SocValidation.Trace
