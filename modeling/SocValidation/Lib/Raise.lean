import Mathlib.Data.List.Forall2

/-!
# Calls that may raise, one after another

What a chain of calls gives back, and which call has raised where one did: the first of
them, with all before it returned.
-/

namespace SocValidation.Raise

variable {α β ε : Type} {f : α → Except ε β} {xs : List α} {ys : List β} {e : ε}

theorem bind_ok {x : Except ε α} {y : β} : x >>= f = .ok y ↔ ∃ a, x = .ok a ∧ f a = .ok y := by
  cases x with
  | error e => exact iff_of_false nofun fun ⟨_, h, _⟩ => nomatch h
  | ok a => exact ⟨fun h => ⟨a, rfl, h⟩, fun ⟨b, hb, h⟩ => Except.ok.inj hb ▸ h⟩

theorem bind_error {x : Except ε α} :
    x >>= f = .error e ↔ x = .error e ∨ ∃ a, x = .ok a ∧ f a = .error e := by
  cases x with
  | error e' =>
    constructor
    · intro h
      cases h
      exact Or.inl rfl
    · rintro (h | ⟨a, ha, -⟩)
      · cases h
        rfl
      · cases ha
  | ok a =>
    exact ⟨fun h => Or.inr ⟨a, rfl, h⟩,
      fun h => h.elim (fun h => nomatch h) fun ⟨b, hb, h⟩ => Except.ok.inj hb ▸ h⟩

theorem mapM_ok : xs.mapM f = .ok ys ↔ List.Forall₂ (fun x y => f x = .ok y) xs ys := by
  induction xs generalizing ys with
  | nil =>
    rw [List.mapM_nil, List.forall₂_nil_left_iff]
    exact ⟨fun h => (Except.ok.inj h).symm, fun h => h ▸ rfl⟩
  | cons x xs ih =>
    rw [List.mapM_cons, bind_ok, List.forall₂_cons_left_iff]
    constructor
    · rintro ⟨y, hy, hrest⟩
      obtain ⟨zs, hzs, hys⟩ := bind_ok.mp hrest
      cases hys
      exact ⟨y, zs, hy, ih.mp hzs, rfl⟩
    · rintro ⟨y, zs, hy, hzs, rfl⟩
      exact ⟨y, hy, bind_ok.mpr ⟨zs, ih.mpr hzs, rfl⟩⟩

theorem exists_ok (h : List.Forall₂ (fun x y => f x = .ok y) xs ys) : ∀ x ∈ xs, ∃ y, f x = .ok y := by
  induction h with
  | nil => nofun
  | cons hy _ ih => exact List.forall_mem_cons.mpr ⟨⟨_, hy⟩, ih⟩

theorem mapM_error : xs.mapM f = .error e ↔
    ∃ pre x post, xs = pre ++ x :: post ∧ (∀ y ∈ pre, ∃ z, f y = .ok z) ∧ f x = .error e := by
  induction xs with
  | nil =>
    rw [List.mapM_nil]
    exact iff_of_false nofun fun ⟨pre, x, post, h, _⟩ => by simp at h
  | cons x xs ih =>
    rw [List.mapM_cons, bind_error]
    constructor
    · rintro (hx | ⟨y, hy, hrest⟩)
      · exact ⟨[], x, xs, rfl, by simp, hx⟩
      · rcases bind_error.mp hrest with hxs | ⟨zs, -, hzs⟩
        · obtain ⟨pre, z, post, rfl, hpre, hz⟩ := ih.mp hxs
          exact ⟨x :: pre, z, post, rfl, List.forall_mem_cons.mpr ⟨⟨y, hy⟩, hpre⟩, hz⟩
        · cases hzs
    · rintro ⟨pre, z, post, hsplit, hpre, hz⟩
      cases pre with
      | nil =>
        cases hsplit
        exact Or.inl hz
      | cons w pre =>
        cases hsplit
        obtain ⟨⟨y, hy⟩, hpre⟩ := List.forall_mem_cons.mp hpre
        exact Or.inr ⟨y, hy, bind_error.mpr (Or.inl (ih.mpr ⟨pre, z, post, rfl, hpre, hz⟩))⟩

end SocValidation.Raise
