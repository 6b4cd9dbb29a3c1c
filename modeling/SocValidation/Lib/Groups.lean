import Mathlib

/-!
# Groups of rows

A table with a row for each key that rows are grouped by, and the size of the group. A row
without a key is in no group. What is shown of a table may be only its first rows.
-/

namespace SocValidation.Groups

variable {β : Type} [DecidableEq β] {keys : List (Option β)} {table : List (β × ℕ)} {k : β} {n : ℕ}

/- In whatever order, each key once, with the number of its rows. -/
structure Sizes (keys : List (Option β)) (table : List (β × ℕ)) : Prop where
  mem : ∀ k n, (k, n) ∈ table ↔ 0 < n ∧ n = keys.count (some k)
  nodup : (table.map Prod.fst).Nodup

def sizes (keys : List (Option β)) : List (β × ℕ) :=
  keys.reduceOption.dedup.map fun k => (k, keys.count (some k))

theorem count_reduceOption (keys : List (Option β)) (k : β) : keys.reduceOption.count k = keys.count (some k) := by
  rw [List.reduceOption, List.count_filterMap, List.count]
  exact List.countP_congr fun key _ => by simp

theorem sizes_spec (keys : List (Option β)) : Sizes keys (sizes keys) where
  mem k n := by
    rw [sizes, List.mem_map, ← count_reduceOption]
    constructor
    · rintro ⟨k', hk, heq⟩
      obtain ⟨rfl, rfl⟩ := Prod.mk.inj heq
      rw [← count_reduceOption]
      exact ⟨List.count_pos_iff.mpr (List.mem_dedup.mp hk), rfl⟩
    · rintro ⟨hpos, rfl⟩
      exact ⟨k, List.mem_dedup.mpr (List.count_pos_iff.mp hpos), by rw [count_reduceOption]⟩
  nodup := by
    have hkeys : (sizes keys).map Prod.fst = keys.reduceOption.dedup := by
      rw [sizes, List.map_map]
      exact List.map_id _
    rw [hkeys]
    exact List.nodup_dedup _

theorem Sizes.perm {table' : List (β × ℕ)} (h : Sizes keys table) (hperm : table'.Perm table) :
    Sizes keys table' where
  mem k n := hperm.mem_iff.trans (h.mem k n)
  nodup := (hperm.map Prod.fst).nodup_iff.mpr h.nodup

/- The groups share out the rows that have a key. -/
theorem Sizes.sum (h : Sizes keys table) : (table.map Prod.snd).sum = keys.countP Option.isSome := by
  have hperm : table.Perm (sizes keys) :=
    (List.perm_ext_iff_of_nodup h.nodup.of_map (sizes_spec keys).nodup.of_map).mpr fun ⟨k, n⟩ =>
      (h.mem k n).trans ((sizes_spec keys).mem k n).symm
  have hsizes : (sizes keys).map Prod.snd = keys.reduceOption.dedup.map keys.reduceOption.count := by
    rw [sizes, List.map_map]
    exact List.map_congr_left fun k _ => (count_reduceOption keys k).symm
  rw [(hperm.map Prod.snd).sum_eq, hsizes, List.sum_map_count_dedup_eq_length, List.reduceOption,
    List.length_filterMap_eq_countP]
  rfl

/- Keys that name something: no two things have one name. -/
theorem Sizes.mem_named {α γ : Type} [DecidableEq γ] {of : α → Option γ} {name : γ → β} {xs : List α}
    (hname : Function.Injective name) (h : Sizes keys table)
    (hkeys : keys = xs.map fun x => (of x).map name) :
    (k, n) ∈ table ↔ 0 < n ∧ ∃ v, k = name v ∧ n = xs.countP fun x => of x = some v := by
  have hcount : ∀ v, (xs.map fun x => (of x).map name).count (some (name v)) =
      xs.countP fun x => of x = some v := by
    intro v
    rw [List.count, List.countP_map]
    refine List.countP_congr fun x _ => ?_
    simp only [Function.comp_apply, beq_iff_eq, decide_eq_true_eq, Option.map_eq_some_iff]
    constructor
    · rintro ⟨w, hw, heq⟩
      exact hname heq ▸ hw
    · intro hv
      exact ⟨v, hv, rfl⟩
  rw [h.mem, hkeys]
  constructor
  · rintro ⟨hpos, rfl⟩
    obtain ⟨x, -, hx⟩ := List.mem_map.mp (List.count_pos_iff.mp hpos)
    obtain ⟨v, -, rfl⟩ := Option.map_eq_some_iff.mp hx
    exact ⟨hpos, v, rfl, hcount v⟩
  · rintro ⟨hpos, v, rfl, rfl⟩
    exact ⟨hpos, (hcount v).symm⟩

/-! ### The first rows -/

/- All but the last ones where the number is negative. -/
def headLength (top : ℤ) (n : ℕ) : ℕ := if 0 ≤ top then min top.toNat n else n - top.natAbs

/- The first rows of the table, which has its keys in falling order. -/
structure Cut {ρ κ : Type} [LinearOrder κ] (top : ℤ) (key : ρ → κ) (table shown : List ρ) : Prop where
  falling : table.Pairwise fun p q => key q ≤ key p
  shown_eq : shown = table.take (headLength top table.length)

end SocValidation.Groups
