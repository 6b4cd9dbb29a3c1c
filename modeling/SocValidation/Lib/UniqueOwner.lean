import Mathlib.Data.List.Nodup
import Mathlib.Logic.Equiv.Basic

/-!
# Blocks with one owner

A heap gives out blocks under ids that it never gives out again, and keeps the log of
what it was asked to free, twice or not. A holder refers to at most one block. The
rules say which changes of heap and holders keep each live block in the hands of
exactly one holder, and freed once when nobody holds it any more.
-/

namespace SocValidation.UniqueOwner

structure Heap (α : Type*) where
  next : ℕ := 0
  block : ℕ → Option α := fun _ => none
  freed : List ℕ := []

namespace Heap
variable {α : Type*}

def alloc (h : Heap α) (a : α) : ℕ × Heap α :=
  (h.next, { h with next := h.next + 1, block := Function.update h.block h.next (some a) })

def modify (h : Heap α) (b : ℕ) (f : α → α) : Heap α :=
  { h with block := Function.update h.block b ((h.block b).map f) }

/- A null pointer is freed without effect. -/
def free (h : Heap α) : Option ℕ → Heap α
  | none => h
  | some b => { h with block := Function.update h.block b none, freed := h.freed ++ [b] }

/- Allocated and not yet freed. -/
def Live (h : Heap α) (b : ℕ) : Prop := b < h.next ∧ b ∉ h.freed

variable {h : Heap α} {b c : ℕ} {a : α} {f : α → α}

theorem alloc_block : (h.alloc a).2.block (h.alloc a).1 = some a := Function.update_self _ _ _

theorem alloc_block_of_ne (hb : b ≠ h.next) : (h.alloc a).2.block b = h.block b :=
  Function.update_of_ne hb _ _

theorem modify_block : (h.modify b f).block b = (h.block b).map f := Function.update_self _ _ _

theorem modify_block_of_ne (hc : c ≠ b) : (h.modify b f).block c = h.block c :=
  Function.update_of_ne hc _ _

theorem alloc_modify_block :
    ((h.alloc a).2.modify (h.alloc a).1 f).block (h.alloc a).1 = some (f a) := by
  rw [modify_block, alloc_block]
  rfl

theorem alloc_modify_block_of_ne (hb : b ≠ h.next) :
    ((h.alloc a).2.modify (h.alloc a).1 f).block b = h.block b :=
  (modify_block_of_ne hb).trans (alloc_block_of_ne hb)

theorem free_block_of_ne {p : Option ℕ} (hb : p ≠ some b) : (h.free p).block b = h.block b := by
  cases p with
  | none => rfl
  | some c => exact Function.update_of_ne (fun hbc => hb (congrArg some hbc.symm)) _ _

end Heap

variable {α ι : Type*} {h : Heap α} {holds : ι → Option ℕ}

structure Owned (h : Heap α) (holds : ι → Option ℕ) : Prop where
  unique : ∀ i j b, holds i = some b → holds j = some b → i = j
  live_iff : ∀ b, h.Live b ↔ ∃ i, holds i = some b
  freed_lt : ∀ b ∈ h.freed, b < h.next
  nodup : h.freed.Nodup

namespace Owned

theorem held_live (ho : Owned h holds) {i : ι} {b : ℕ} (hi : holds i = some b) : h.Live b :=
  (ho.live_iff b).mpr ⟨i, hi⟩

theorem held_lt (ho : Owned h holds) {i : ι} {b : ℕ} (hi : holds i = some b) : b < h.next :=
  (ho.held_live hi).1

theorem live_unique (ho : Owned h holds) {b : ℕ} (hb : h.Live b) : ∃! i, holds i = some b := by
  obtain ⟨i, hi⟩ := (ho.live_iff b).mp hb
  exact ⟨i, hi, fun j hj => ho.unique j i b hj hi⟩

theorem empty : Owned ({} : Heap α) (fun _ : ι => none) where
  unique i j b hi hj := by cases hi
  live_iff b := by simp [Heap.Live]
  freed_lt b hb := by cases hb
  nodup := List.nodup_nil

theorem modify (ho : Owned h holds) (b : ℕ) (f : α → α) : Owned (h.modify b f) holds :=
  ⟨ho.unique, ho.live_iff, ho.freed_lt, ho.nodup⟩

/-- Holders may exchange what they hold. -/
theorem permute (ho : Owned h holds) (e : Equiv.Perm ι) : Owned h (holds ∘ e) where
  unique _ _ b hi hj := e.injective (ho.unique _ _ b hi hj)
  live_iff b := (ho.live_iff b).trans e.surjective.exists
  freed_lt := ho.freed_lt
  nodup := ho.nodup

variable [DecidableEq ι] {i j : ι}

/-- A holder hands its block to one that has none. -/
theorem transfer (ho : Owned h holds) (hi : holds i = none) :
    Owned h (Function.update (Function.update holds i (holds j)) j none) := by
  have hswap : Function.update (Function.update holds i (holds j)) j none = holds ∘ Equiv.swap i j := by
    funext k
    by_cases hj : k = j
    · rw [hj, Function.update_self, Function.comp_apply, Equiv.swap_apply_right, hi]
    rw [Function.update_of_ne hj]
    by_cases hk : k = i
    · rw [hk, Function.update_self, Function.comp_apply, Equiv.swap_apply_left]
    · rw [Function.update_of_ne hk, Function.comp_apply, Equiv.swap_apply_of_ne_of_ne hk hj]
  rw [hswap]
  exact ho.permute (Equiv.swap i j)

/-- A holder that has none takes a new block. -/
theorem alloc (ho : Owned h holds) (hi : holds i = none) (a : α) :
    Owned (h.alloc a).2 (Function.update holds i (some (h.alloc a).1)) := by
  have hother : ∀ j b, Function.update holds i (some h.next) j = some b →
      j = i ∧ b = h.next ∨ j ≠ i ∧ holds j = some b := by
    intro j b hj
    by_cases hji : j = i
    · rw [hji, Function.update_self] at hj
      exact .inl ⟨hji, (Option.some_inj.mp hj).symm⟩
    · rw [Function.update_of_ne hji] at hj
      exact .inr ⟨hji, hj⟩
  have hfresh : h.next ∉ h.freed := fun hmem => absurd (ho.freed_lt _ hmem) (Nat.lt_irrefl _)
  refine ⟨fun j k b hj hk => ?_, fun b => ⟨fun hb => ?_, fun ⟨j, hj⟩ => ?_⟩, fun b hb => ?_, ho.nodup⟩
  · rcases hother j b hj with ⟨hji, hbn⟩ | ⟨-, hjb⟩
    · rcases hother k b hk with ⟨hki, -⟩ | ⟨-, hkb⟩
      · rw [hji, hki]
      · exact absurd (ho.held_lt hkb) (by omega)
    · rcases hother k b hk with ⟨-, hbn⟩ | ⟨-, hkb⟩
      · exact absurd (ho.held_lt hjb) (by omega)
      · exact ho.unique j k b hjb hkb
  · rcases Nat.lt_succ_iff_lt_or_eq.mp hb.1 with hlt | heq
    · obtain ⟨j, hj⟩ := (ho.live_iff b).mp ⟨hlt, hb.2⟩
      have hji : j ≠ i := fun hji => by rw [hji, hi] at hj; cases hj
      exact ⟨j, by rw [Function.update_of_ne hji, hj]⟩
    · exact ⟨i, by rw [Function.update_self, heq]; rfl⟩
  · rcases hother j b hj with ⟨-, hbn⟩ | ⟨-, hjb⟩
    · exact ⟨by rw [hbn]; exact Nat.lt_succ_self _, by rw [hbn]; exact hfresh⟩
    · exact ⟨Nat.lt_succ_of_lt (ho.held_lt hjb), (ho.held_live hjb).2⟩
  · exact Nat.lt_succ_of_lt (ho.freed_lt b hb)

/-- A holder frees what it holds. -/
theorem free (ho : Owned h holds) (i : ι) :
    Owned (h.free (holds i)) (Function.update holds i none) := by
  have hother : ∀ j b, Function.update holds i none j = some b ↔ j ≠ i ∧ holds j = some b := by
    intro j b
    by_cases hji : j = i
    · rw [hji, Function.update_self]
      simp
    · rw [Function.update_of_ne hji]
      simp [hji]
  cases hi : holds i with
  | none => rwa [Heap.free, ← hi, Function.update_eq_self]
  | some c =>
    have hc := ho.held_live hi
    refine ⟨fun j k b hj hk => ?_, fun b => ?_, fun b hb => ?_, ?_⟩
    · exact ho.unique j k b ((hother j b).mp hj).2 ((hother k b).mp hk).2
    · have hlive : (h.free (some c)).Live b ↔ h.Live b ∧ b ≠ c := by
        simp [Heap.Live, Heap.free, and_assoc]
      rw [hlive, ho.live_iff]
      refine ⟨fun ⟨⟨j, hj⟩, hbc⟩ => ⟨j, (hother j b).mpr ⟨fun hji => hbc ?_, hj⟩⟩, fun ⟨j, hj⟩ => ?_⟩
      · rw [hji, hi] at hj
        exact (Option.some_inj.mp hj).symm
      · obtain ⟨hji, hjb⟩ := (hother j b).mp hj
        exact ⟨⟨j, hjb⟩, fun hbc => hji (ho.unique j i c (hbc ▸ hjb) hi)⟩
    · rcases List.mem_append.mp hb with hb | hb
      · exact ho.freed_lt b hb
      · rw [List.mem_singleton.mp hb]
        exact hc.1
    · rw [Heap.free, List.nodup_append_comm]
      exact List.nodup_cons.mpr ⟨hc.2, ho.nodup⟩

end Owned
end SocValidation.UniqueOwner
