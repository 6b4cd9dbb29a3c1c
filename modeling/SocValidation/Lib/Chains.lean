import Mathlib.Logic.Relation
import Mathlib.Data.Fintype.Card
import Mathlib.Data.Set.Finite.Basic
import Mathlib.Order.WellFounded

/-!
# Dependency chains of a relation

`dep a b` reads "a depends on b". Peeling a finite relation level by level
removes, in round `k`, exactly the elements whose longest chain has `k` edges;
what can never be removed is what reaches a cycle. Both facts are stated here
for an arbitrary relation.
-/

namespace SocValidation.Chains
open Relation

variable {α : Type*} {dep : α → α → Prop} {a b : α} {m n k : ℕ}

inductive HasChain (dep : α → α → Prop) : ℕ → α → Prop
  | zero (a : α) : HasChain dep 0 a
  | succ {n : ℕ} {a b : α} : dep a b → HasChain dep n b → HasChain dep (n + 1) a

theorem hasChain_succ_iff : HasChain dep (n + 1) a ↔ ∃ b, dep a b ∧ HasChain dep n b := by
  constructor
  · intro h
    cases h with
    | succ hd hc => exact ⟨_, hd, hc⟩
  · rintro ⟨b, hd, hc⟩
    exact .succ hd hc

theorem HasChain.pred (h : HasChain dep (n + 1) a) : HasChain dep n a := by
  induction n generalizing a with
  | zero => exact .zero a
  | succ n ih =>
    obtain ⟨b, hd, hc⟩ := hasChain_succ_iff.mp h
    exact .succ hd (ih hc)

theorem HasChain.mono (hmn : m ≤ n) (h : HasChain dep n a) : HasChain dep m a := by
  induction n, hmn using Nat.le_induction with
  | base => exact h
  | succ n _ ih => exact ih h.pred

/- The longest chain from the element has exactly `k` edges. -/
def Depth (dep : α → α → Prop) (a : α) (k : ℕ) : Prop :=
  HasChain dep k a ∧ ∀ n, HasChain dep n a → n ≤ k

theorem depth_iff : Depth dep a k ↔ HasChain dep k a ∧ ¬HasChain dep (k + 1) a := by
  constructor
  · rintro ⟨hk, hmax⟩
    refine ⟨hk, fun h => ?_⟩
    have := hmax _ h
    omega
  · rintro ⟨hk, hn⟩
    refine ⟨hk, fun n h => ?_⟩
    by_contra hlt
    exact hn (h.mono (by omega))

theorem Depth.unique (hm : Depth dep a m) (hn : Depth dep a n) : m = n :=
  Nat.le_antisymm (hn.2 m hm.1) (hm.2 n hn.1)

theorem Depth.lt (hd : dep a b) (ha : Depth dep a m) (hb : Depth dep b n) : n < m :=
  ha.2 (n + 1) (.succ hd hb.1)

theorem HasChain.of_transGen (hd : TransGen dep a b) (h : HasChain dep n b) :
    HasChain dep (n + 1) a := by
  induction hd using TransGen.head_induction_on with
  | single hd => exact .succ hd h
  | head hd _ ih => exact .succ hd ih.pred

theorem Depth.lt_of_transGen (hd : TransGen dep a b) (ha : Depth dep a m) (hb : Depth dep b n) :
    n < m :=
  ha.2 (n + 1) (.of_transGen hd hb.1)

/-- A ranking by which everything ranks above what it depends on bounds the chains. -/
theorem HasChain.le_rank {rank : α → ℕ} (hrank : ∀ a b, dep a b → rank b < rank a)
    (h : HasChain dep n a) : n ≤ rank a := by
  induction h with
  | zero a => exact Nat.zero_le _
  | succ hd _ ih => exact Nat.lt_of_le_of_lt ih (hrank _ _ hd)

/- Following dependencies from the element one can get onto a cycle. -/
def ReachesCycle (dep : α → α → Prop) (a : α) : Prop :=
  ∃ c, ReflTransGen dep a c ∧ TransGen dep c c

theorem ReachesCycle.exists_dep (h : ReachesCycle dep a) : ∃ b, dep a b ∧ ReachesCycle dep b := by
  obtain ⟨c, hr, hc⟩ := h
  rcases hr.cases_head with rfl | ⟨b, hd, hb⟩
  · obtain ⟨b, hd, hb⟩ := TransGen.head'_iff.mp hc
    exact ⟨b, hd, _, hb, hc⟩
  · exact ⟨b, hd, c, hb, hc⟩

theorem ReachesCycle.hasChain (h : ReachesCycle dep a) (n : ℕ) : HasChain dep n a := by
  induction n generalizing a with
  | zero => exact .zero a
  | succ n ih =>
    obtain ⟨b, hd, hb⟩ := h.exists_dep
    exact .succ hd (ih hb)

/-- A finite set in which every element still has a dependency inside the set:
each of its elements reaches a cycle. -/
theorem stuck_reachesCycle (P : Set α) (hP : P.Finite) (hs : ∀ x ∈ P, ∃ y ∈ P, dep x y)
    (ha : a ∈ P) : ReachesCycle dep a := by
  by_contra hn
  -- the part of P that a reaches is finite and, without cycles, well founded
  let Q : Set α := {x | x ∈ P ∧ ReflTransGen dep a x}
  have hfin : Finite Q := (hP.subset fun x hx => hx.1).to_subtype
  let r : Q → Q → Prop := fun x y => TransGen dep y.val x.val
  have htrans : IsTrans Q r := ⟨fun x y z hxy hyz => TransGen.trans hyz hxy⟩
  have hirrefl : Std.Irrefl r := ⟨fun x hx => hn ⟨x.val, x.property.2, hx⟩⟩
  have hwf : WellFounded r := Finite.wellFounded_of_trans_of_irrefl r
  obtain ⟨x, -, hmin⟩ := hwf.has_min Set.univ ⟨⟨a, ha, .refl⟩, Set.mem_univ _⟩
  obtain ⟨y, hy, hd⟩ := hs x.val x.property.1
  exact hmin ⟨y, hy, x.property.2.tail hd⟩ (Set.mem_univ _) (.single hd)

end SocValidation.Chains
