import Mathlib.Logic.Function.Basic
import SocValidation.Lib.Trace

/-!
# Updates of a cell that take two turns

A client takes a copy of the cell and later stores what it makes of the copy. What
others have stored in between is lost. Run on lists of clients in place of values, the
cell says itself which updates it has kept.
-/

namespace SocValidation.LostUpdate

inductive Turn (γ : Type*) where
  | load (c : γ)
  | store (c : γ)

structure Cell (γ α : Type*) where
  value : α
  copies : γ → Option α

variable {γ α : Type*} {f : γ → α → α} {tr xs ys : List (Turn γ)} {c : γ}

/-! ### What is stored -/

def stored (tr : List (Turn γ)) : List γ :=
  tr.filterMap fun
    | .load _ => none
    | .store c => some c

/- No store falls between a client's load and its store. -/
def Undisturbed (tr : List (Turn γ)) : Prop :=
  ∀ pre c post, tr = pre ++ .store c :: post →
    ∃ xs ys, pre = xs ++ .load c :: ys ∧ ∀ b, Turn.store b ∉ ys

theorem stored_append : stored (xs ++ ys) = stored xs ++ stored ys := List.filterMap_append

theorem stored_eq_nil_iff : stored ys = [] ↔ ∀ b, Turn.store b ∉ ys := by
  rw [stored, List.filterMap_eq_nil_iff]
  constructor
  · intro h b hb
    cases h _ hb
  · intro h a ha
    cases a with
    | load c => rfl
    | store c => exact absurd ha (h c)

theorem undisturbed_load : Undisturbed (tr ++ [.load c]) ↔ Undisturbed tr := by
  constructor
  · intro h pre b post hsplit
    exact h pre b (post ++ [.load c]) (by rw [hsplit]; simp)
  · intro h pre b post hsplit
    rcases List.eq_nil_or_concat' post with rfl | ⟨post, a, rfl⟩
    · have hlast := List.append_inj_right' hsplit rfl
      simp at hlast
    · have hcut : tr ++ [.load c] = (pre ++ .store b :: post) ++ [a] := by simpa using hsplit
      exact h pre b post (List.append_inj_left' hcut rfl)

theorem undisturbed_store : Undisturbed (tr ++ [.store c]) ↔ Undisturbed tr ∧
    ∃ xs ys, tr = xs ++ .load c :: ys ∧ ∀ b, Turn.store b ∉ ys := by
  constructor
  · intro h
    refine ⟨fun pre b post hsplit => ?_, h tr c [] rfl⟩
    exact h pre b (post ++ [.store c]) (by rw [hsplit]; simp)
  · rintro ⟨h, hlast⟩ pre b post hsplit
    rcases List.eq_nil_or_concat' post with rfl | ⟨post, a, rfl⟩
    · obtain ⟨rfl, heq⟩ := List.append_inj' hsplit rfl
      cases heq
      exact hlast
    · have hcut : tr ++ [.store c] = (pre ++ .store b :: post) ++ [a] := by simpa using hsplit
      exact h pre b post (List.append_inj_left' hcut rfl)

/- The last load is the one that decides. -/
theorem quiet_since {xs' ys' : List (Turn γ)} (hlast : Turn.load c ∉ ys)
    (hsplit : xs ++ .load c :: ys = xs' ++ .load c :: ys') (hquiet : ∀ b, Turn.store b ∉ ys') :
    ∀ b, Turn.store b ∉ ys := by
  intro b hb
  rcases List.append_eq_append_iff.mp hsplit with ⟨zs, rfl, hzs⟩ | ⟨zs, rfl, hzs⟩
  · cases zs with
    | nil =>
      cases hzs
      exact hquiet b hb
    | cons z zs =>
      rw [List.cons_append, List.cons.injEq] at hzs
      exact hlast (hzs.2 ▸ List.mem_append_right _ List.mem_cons_self)
  · cases zs with
    | nil =>
      cases hzs
      exact hquiet b hb
    | cons z zs =>
      rw [List.cons_append, List.cons.injEq] at hzs
      exact hquiet b (hzs.2 ▸ List.mem_append_right _ (List.mem_cons_of_mem _ hb))

/-! ### The cell -/

variable [DecidableEq γ]

/- `f c` is what the client makes of its copy. -/
def turn (f : γ → α → α) (s : Cell γ α) : Turn γ → Option (Cell γ α)
  | .load c =>
    if (s.copies c).isSome then none
    else some { s with copies := Function.update s.copies c (some s.value) }
  | .store c => (s.copies c).map fun x => ⟨f c x, Function.update s.copies c none⟩

def start (x : α) : Cell γ α := ⟨x, fun _ => none⟩

/- The run of the updates themselves. -/
def updates (tr : List (Turn γ)) : Option (Cell γ (List γ)) :=
  Trace.run (turn fun c l => l ++ [c]) (start []) tr

/- The updates that the cell has kept. -/
def kept (tr : List (Turn γ)) : List γ := ((updates tr).map Cell.value).getD []

/-! ### The value as the result of the updates kept -/

def eval (f : γ → α → α) (x : α) (l : List γ) : α := l.foldl (fun y c => f c y) x

def Cell.eval (f : γ → α → α) (x : α) (s : Cell γ (List γ)) : Cell γ α :=
  ⟨LostUpdate.eval f x s.value, fun c => (s.copies c).map (LostUpdate.eval f x)⟩

theorem turn_eval (x : α) (s : Cell γ (List γ)) (a : Turn γ) :
    turn f (s.eval f x) a = (turn (fun c l => l ++ [c]) s a).map (Cell.eval f x) := by
  cases a with
  | load c =>
    by_cases hc : (s.copies c).isSome
    · simp [turn, Cell.eval, hc]
    · simp only [turn, Cell.eval, Option.isSome_map, hc, Bool.false_eq_true, if_false,
        Option.map_some, Option.some.injEq, Cell.mk.injEq, true_and]
      funext b
      by_cases hb : b = c
      · subst hb
        simp
      · simp [hb]
  | store c =>
    cases hc : s.copies c with
    | none => simp [turn, Cell.eval, hc]
    | some l =>
      simp only [turn, Cell.eval, hc, Option.map_some, Option.some.injEq, Cell.mk.injEq]
      refine ⟨by simp [LostUpdate.eval], ?_⟩
      funext b
      by_cases hb : b = c
      · subst hb
        simp
      · simp [hb]

theorem run_eval (x : α) (s : Cell γ (List γ)) :
    Trace.run (turn f) (s.eval f x) tr =
      (Trace.run (turn fun c l => l ++ [c]) s tr).map (Cell.eval f x) := by
  induction tr generalizing s with
  | nil => rfl
  | cons a tr ih =>
    rw [Trace.run, Trace.run, turn_eval]
    cases turn (fun c l => l ++ [c]) s a with
    | none => rfl
    | some t => exact ih t

/-- The cell holds what the updates that it has kept make of its first value, one after
another. -/
theorem run_value {x : α} {s : Cell γ α} (h : Trace.run (turn f) (start x) tr = some s) :
    (updates tr).isSome ∧ s.value = (kept tr).foldl (fun y c => f c y) x := by
  have hstart : (start x : Cell γ α) = (start []).eval f x := rfl
  rw [hstart, run_eval] at h
  obtain ⟨t, ht, rfl⟩ := Option.map_eq_some_iff.mp h
  have hupdates : updates tr = some t := ht
  refine ⟨by rw [hupdates]; rfl, ?_⟩
  rw [kept, hupdates]
  rfl

/-! ### Which updates are kept -/

/- A copy is the value of the cell at the load that has taken it. -/
structure Copies (tr : List (Turn γ)) (t : Cell γ (List γ)) : Prop where
  value : t.value = kept tr
  taken : ∀ c l, t.copies c = some l → ∃ xs ys, tr = xs ++ .load c :: ys ∧
    Turn.load c ∉ ys ∧ l = kept xs

theorem updates_concat {a : Turn γ} {u : Cell γ (List γ)} : updates (tr ++ [a]) = some u ↔
    ∃ t, updates tr = some t ∧ turn (fun c l => l ++ [c]) t a = some u := Trace.run_concat_iff

theorem copies_run {t : Cell γ (List γ)} (h : updates tr = some t) : Copies tr t := by
  refine Trace.run_invariant Copies ⟨rfl, fun c l hl => by cases hl⟩ ?_ h
  intro tr t a u hrun ht ha
  have hupdates : updates (tr ++ [a]) = some u := updates_concat.mpr ⟨t, hrun, ha⟩
  refine ⟨by rw [kept, hupdates]; rfl, fun b l hl => ?_⟩
  have hgrow : b ∉ (match a with | .load c => [c] | .store _ => []) → t.copies b = some l →
      ∃ xs ys, tr ++ [a] = xs ++ .load b :: ys ∧ Turn.load b ∉ ys ∧ l = kept xs := by
    intro hne hb
    obtain ⟨xs, ys, rfl, hys, rfl⟩ := ht.taken b l hb
    refine ⟨xs, ys ++ [a], by simp, ?_, rfl⟩
    rw [List.mem_append, List.mem_singleton]
    rintro (hmem | rfl)
    · exact hys hmem
    · simp at hne
  cases a with
  | load c =>
    simp only [turn] at ha
    split at ha
    · cases ha
    · cases ha
      by_cases hb : b = c
      · subst hb
        simp only [Function.update_self, Option.some.injEq] at hl
        exact ⟨tr, [], rfl, by simp, hl ▸ ht.value⟩
      · simp only [Function.update_of_ne hb] at hl
        exact hgrow (by simpa using hb) hl
  | store c =>
    obtain ⟨x, hx, rfl⟩ := Option.map_eq_some_iff.mp ha
    by_cases hb : b = c
    · subst hb
      simp at hl
    · simp only [Function.update_of_ne hb] at hl
      exact hgrow (by simp) hl

theorem updates_init (h : (updates (xs ++ ys)).isSome) : (updates xs).isSome := by
  obtain ⟨t, ht⟩ := Option.isSome_iff_exists.mp h
  rw [updates, Trace.run_append] at ht
  obtain ⟨m, hm, -⟩ := Option.bind_eq_some_iff.mp ht
  exact Option.isSome_iff_exists.mpr ⟨m, hm⟩

theorem kept_load (h : (updates (tr ++ [.load c])).isSome) : kept (tr ++ [.load c]) = kept tr := by
  obtain ⟨u, hu⟩ := Option.isSome_iff_exists.mp h
  obtain ⟨t, ht, hc⟩ := updates_concat.mp hu
  simp only [turn] at hc
  split at hc
  · cases hc
  · cases hc
    rw [kept, kept, hu, ht]
    rfl

/-- A store keeps what its client has loaded, and itself: all that was stored since the
load is lost. -/
theorem kept_store (h : (updates (tr ++ [.store c])).isSome) :
    ∃ xs ys, tr = xs ++ .load c :: ys ∧ Turn.load c ∉ ys ∧
      kept (tr ++ [.store c]) = kept xs ++ [c] := by
  obtain ⟨u, hu⟩ := Option.isSome_iff_exists.mp h
  obtain ⟨t, ht, hc⟩ := updates_concat.mp hu
  obtain ⟨l, hl, rfl⟩ := Option.map_eq_some_iff.mp hc
  obtain ⟨xs, ys, hsplit, hys, rfl⟩ := (copies_run ht).taken c l hl
  exact ⟨xs, ys, hsplit, hys, by rw [kept, hu]; rfl⟩

/- No update is kept twice, or out of the order of the stores. -/
theorem kept_sublist (h : (updates tr).isSome) : (kept tr).Sublist (stored tr) := by
  induction hn : tr.length using Nat.strong_induction_on generalizing tr with
  | _ n ih =>
    rcases List.eq_nil_or_concat' tr with rfl | ⟨tr, a, rfl⟩
    · exact List.Sublist.refl []
    · cases a with
      | load c =>
        have htr := ih _ (by simp [← hn]) (updates_init h) rfl
        rw [kept_load h, stored_append]
        exact htr.trans (List.sublist_append_left _ _)
      | store c =>
        obtain ⟨xs, ys, rfl, -, hkept⟩ := kept_store h
        have hxs := ih xs.length (by simp only [← hn, List.length_append, List.length_cons]; omega)
          (updates_init (updates_init h)) rfl
        rw [hkept, stored_append, stored_append]
        exact (hxs.trans (List.sublist_append_left _ _)).append (List.Sublist.refl [c])

theorem kept_quiet (h : (updates (xs ++ ys)).isSome) (hys : ∀ b, Turn.store b ∉ ys) :
    kept (xs ++ ys) = kept xs := by
  induction ys using List.reverseRecOn with
  | nil => rw [List.append_nil]
  | append_singleton ys a ih =>
    rw [← List.append_assoc] at h ⊢
    have hrest := ih (updates_init h) fun b hb => hys b (List.mem_append_left _ hb)
    cases a with
    | load c => rw [kept_load h, hrest]
    | store c => exact absurd (List.mem_append_right _ (List.mem_singleton_self _)) (hys c)

/-- Every update is kept just when no store falls between a load and its store. -/
theorem kept_eq_stored_iff (h : (updates tr).isSome) : kept tr = stored tr ↔ Undisturbed tr := by
  induction tr using List.reverseRecOn with
  | nil => exact ⟨fun _ pre b post hsplit => by simp at hsplit, fun _ => rfl⟩
  | append_singleton tr a ih =>
    have htr := ih (updates_init h)
    cases a with
    | load c =>
      have hstored : stored [Turn.load c] = [] := rfl
      rw [kept_load h, stored_append, hstored, List.append_nil, undisturbed_load, htr]
    | store c =>
      obtain ⟨xs, ys, rfl, hlast, hkept⟩ := kept_store h
      have hstored : stored [Turn.store c] = [c] := rfl
      rw [hkept, stored_append, hstored, List.append_left_inj, undisturbed_store, ← htr]
      constructor
      · intro heq
        -- nothing is stored between the load and the store: it would make the list longer
        have hle := (kept_sublist (updates_init (updates_init h))).length_le
        rw [heq, stored_append] at hle
        have hnil : stored (.load c :: ys) = [] := by
          rw [← List.length_eq_zero_iff]
          rw [List.length_append] at hle
          omega
        have hquiet := stored_eq_nil_iff.mp hnil
        exact ⟨by rw [kept_quiet (updates_init h) hquiet, heq],
          xs, ys, rfl, fun b hb => hquiet b (List.mem_cons_of_mem _ hb)⟩
      · rintro ⟨hall, xs', ys', hsplit, hquiet⟩
        have hys := quiet_since hlast hsplit hquiet
        rw [← hall, kept_quiet (updates_init h) fun b hb => ?_]
        rcases List.mem_cons.mp hb with hb | hb
        · cases hb
        · exact hys b hb

end SocValidation.LostUpdate
