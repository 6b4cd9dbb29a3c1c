import Mathlib.Data.Nat.Bitwise
import Mathlib.Data.BitVec

/-!
# Bit ranges of a machine word

A range `hi:lo` of a word of `w` bits is read with a mask and a shift, stored
into with the same mask, and filled with ones. Each operation is described bit
by bit; all laws follow from these descriptions.
-/

namespace SocValidation.BitRange

variable {w : ℕ}

structure Range (w : ℕ) where
  hi : ℕ
  lo : ℕ
  lo_le : lo ≤ hi
  hi_lt : hi < w
  deriving DecidableEq

namespace Range
variable (r s : Range w) (x u v : BitVec w) {i : ℕ}

def width : ℕ := r.hi - r.lo + 1

def Has (i : ℕ) : Prop := r.lo ≤ i ∧ i ≤ r.hi

instance (i : ℕ) : Decidable (r.Has i) := inferInstanceAs (Decidable (_ ∧ _))

def mask : BitVec w := BitVec.ofNat w ((2 ^ (r.hi - r.lo + 1) - 1) * 2 ^ r.lo)

def get : BitVec w := (x &&& r.mask) >>> r.lo

def put : BitVec w := (x &&& ~~~r.mask) ||| ((v <<< r.lo) &&& r.mask)

def fill : BitVec w := x ||| r.mask

/-! ### Bit by bit -/

@[simp] theorem getLsbD_mask (i : ℕ) : r.mask.getLsbD i = decide (r.Has i) := by
  have hlo := r.lo_le
  have hhi := r.hi_lt
  rw [mask, BitVec.getLsbD_ofNat, Nat.testBit_mul_two_pow, Nat.testBit_two_pow_sub_one]
  simp only [Has, ← Bool.decide_and]
  exact decide_eq_decide.mpr ⟨fun h => by omega, fun h => by omega⟩

theorem getLsbD_get (i : ℕ) :
    (r.get x).getLsbD i = (decide (i < r.width) && x.getLsbD (r.lo + i)) := by
  have hlo := r.lo_le
  rw [get, BitVec.getLsbD_ushiftRight, BitVec.getLsbD_and, getLsbD_mask, Bool.and_comm]
  congr 1
  exact decide_eq_decide.mpr ⟨fun h => by unfold Has at h; unfold width; omega,
    fun h => by unfold width at h; unfold Has; omega⟩

theorem getLsbD_put (hi : i < w) :
    (r.put x v).getLsbD i = if r.Has i then v.getLsbD (i - r.lo) else x.getLsbD i := by
  rw [put, BitVec.getLsbD_or, BitVec.getLsbD_and, BitVec.getLsbD_and, BitVec.getLsbD_not,
    BitVec.getLsbD_shiftLeft, getLsbD_mask]
  by_cases h : r.Has i
  · have hlt : ¬i < r.lo := Nat.not_lt.mpr h.1
    simp [h, hi, hlt]
  · simp [h, hi]

theorem getLsbD_fill (i : ℕ) : (r.fill x).getLsbD i = (x.getLsbD i || decide (r.Has i)) := by
  rw [fill, BitVec.getLsbD_or, getLsbD_mask]

theorem lt_of_has (h : r.Has i) : i < w := Nat.lt_of_le_of_lt h.2 r.hi_lt

/-! ### One range -/

theorem toNat_get_put : (r.get (r.put x v)).toNat = v.toNat % 2 ^ r.width := by
  apply Nat.eq_of_testBit_eq
  intro i
  rw [Nat.testBit_mod_two_pow, BitVec.testBit_toNat, BitVec.testBit_toNat, getLsbD_get]
  by_cases h : i < r.width
  · have hlo := r.lo_le
    have hhi := r.hi_lt
    have hw : r.width = r.hi - r.lo + 1 := rfl
    have hhas : r.Has (r.lo + i) := ⟨by omega, by omega⟩
    rw [getLsbD_put r x v (by omega), if_pos hhas, Nat.add_sub_cancel_left]
  · simp [h]

theorem toNat_get_fill : (r.get (r.fill x)).toNat = 2 ^ r.width - 1 := by
  apply Nat.eq_of_testBit_eq
  intro i
  rw [Nat.testBit_two_pow_sub_one, BitVec.testBit_toNat, getLsbD_get, getLsbD_fill]
  by_cases h : i < r.width
  · have hlo := r.lo_le
    have hw : r.width = r.hi - r.lo + 1 := rfl
    have hhas : r.Has (r.lo + i) := ⟨by omega, by omega⟩
    simp [h, hhas]
  · simp [h]

theorem put_get : r.put x (r.get x) = x := by
  apply BitVec.eq_of_getLsbD_eq
  intro i hi
  rw [getLsbD_put r x _ hi]
  split
  next h =>
    have hlo := r.lo_le
    have hw : r.width = r.hi - r.lo + 1 := rfl
    have hlt : i - r.lo < r.width := by
      unfold Has at h
      omega
    rw [getLsbD_get, decide_eq_true hlt, Bool.true_and, Nat.add_sub_cancel' h.1]
  · rfl

theorem put_frame (h : ¬r.Has i) : (r.put x v).getLsbD i = x.getLsbD i := by
  by_cases hi : i < w
  · rw [getLsbD_put r x v hi, if_neg h]
  · rw [BitVec.getLsbD_of_ge _ _ (by omega), BitVec.getLsbD_of_ge _ _ (by omega)]

theorem fill_frame (h : ¬r.Has i) : (r.fill x).getLsbD i = x.getLsbD i := by
  simp [getLsbD_fill, h]

/-- A read sees the bits of its range and no others. -/
theorem get_eq_iff : r.get u = r.get x ↔ ∀ i, r.Has i → u.getLsbD i = x.getLsbD i := by
  have hlo := r.lo_le
  have hw : r.width = r.hi - r.lo + 1 := rfl
  constructor
  · intro h i hr
    have hbit := congrArg (fun y => y.getLsbD (i - r.lo)) h
    have hlt : i - r.lo < r.width := by
      unfold Has at hr
      omega
    simpa [getLsbD_get, hlt, Nat.add_sub_cancel' hr.1] using hbit
  · intro h
    apply BitVec.eq_of_getLsbD_eq
    intro i hi
    rw [getLsbD_get, getLsbD_get]
    by_cases hlt : i < r.width
    · rw [h (r.lo + i) ⟨by omega, by omega⟩]
    · simp [hlt]

theorem get_eq_zero_iff : r.get x = 0 ↔ ∀ i, r.Has i → x.getLsbD i = false := by
  have hzero : r.get 0 = 0 := by simp [get]
  rw [← hzero, get_eq_iff]
  simp

/-- Two words share no set bit of the range. -/
theorem and_mask_and_eq_zero_iff :
    x &&& r.mask &&& u = 0 ↔ ∀ i, r.Has i → (x.getLsbD i && u.getLsbD i) = false := by
  have hbit : ∀ i, (x &&& r.mask &&& u).getLsbD i =
      (x.getLsbD i && decide (r.Has i) && u.getLsbD i) := by
    intro i
    rw [BitVec.getLsbD_and, BitVec.getLsbD_and, getLsbD_mask]
  constructor
  · intro h i hr
    have hzero := hbit i
    rw [h, decide_eq_true hr, Bool.and_true] at hzero
    exact hzero.symm.trans BitVec.getLsbD_zero
  · intro h
    apply BitVec.eq_of_getLsbD_eq
    intro i _
    refine (hbit i).trans (Eq.trans ?_ BitVec.getLsbD_zero.symm)
    by_cases hr : r.Has i
    · rw [decide_eq_true hr, Bool.and_true, h i hr]
    · rw [decide_eq_false hr, Bool.and_false, Bool.false_and]

theorem get_eq_one_iff (h : r.hi = r.lo) : r.get x = 1 ↔ x.getLsbD r.lo = true := by
  have hwidth : r.width = 1 := by
    unfold width
    omega
  have hw : 0 < w := Nat.lt_of_le_of_lt (Nat.zero_le _) r.hi_lt
  constructor
  · intro hg
    have hbit := congrArg (fun y => y.getLsbD 0) hg
    rw [getLsbD_get, hwidth, show (1 : BitVec w) = 1#w from rfl, BitVec.getLsbD_one] at hbit
    simpa [hw] using hbit
  · intro hx
    apply BitVec.eq_of_getLsbD_eq
    intro i hi
    rw [getLsbD_get, hwidth, show (1 : BitVec w) = 1#w from rfl, BitVec.getLsbD_one]
    rcases Nat.eq_zero_or_pos i with rfl | hpos
    · simp [hx, hw]
    · simp [show ¬i < 1 by omega, show i ≠ 0 by omega]

/-! ### Two ranges -/

def Disjoint : Prop := r.hi < s.lo ∨ s.hi < r.lo

instance : Decidable (r.Disjoint s) := inferInstanceAs (Decidable (_ ∨ _))

variable {r s}

theorem Disjoint.symm (h : r.Disjoint s) : s.Disjoint r := Or.symm h

theorem Disjoint.not_has (h : r.Disjoint s) (hs : s.Has i) : ¬r.Has i := by
  unfold Disjoint at h
  unfold Has at hs ⊢
  omega

theorem exists_has_of_not_disjoint (h : ¬r.Disjoint s) : ∃ i, r.Has i ∧ s.Has i := by
  have hr := r.lo_le
  have hs := s.lo_le
  unfold Disjoint at h
  unfold Has
  rcases Nat.le_total r.lo s.lo with hle | hle
  · exact ⟨s.lo, by omega, by omega⟩
  · exact ⟨r.lo, by omega, by omega⟩

theorem get_put_of_disjoint (h : r.Disjoint s) : s.get (r.put x v) = s.get x :=
  (get_eq_iff s x (r.put x v)).mpr fun _ hs => put_frame r x v (h.not_has hs)

theorem get_fill_of_disjoint (h : r.Disjoint s) : s.get (r.fill x) = s.get x :=
  (get_eq_iff s x (r.fill x)).mpr fun _ hs => fill_frame r x (h.not_has hs)

theorem put_comm (h : r.Disjoint s) : r.put (s.put x v) u = s.put (r.put x u) v := by
  apply BitVec.eq_of_getLsbD_eq
  intro i hi
  simp only [getLsbD_put _ _ _ hi]
  by_cases hr : r.Has i
  · rw [if_pos hr, if_neg (h.symm.not_has hr), if_pos hr]
  · rw [if_neg hr, if_neg hr]

theorem get_put_ne (h : ¬r.Disjoint s) : s.get (r.put 0 (BitVec.allOnes w)) ≠ s.get 0 := by
  obtain ⟨i, hr, hs⟩ := exists_has_of_not_disjoint h
  intro heq
  have hiw := r.lt_of_has hr
  have hbit := (get_eq_iff _ _ _).mp heq i hs
  rw [getLsbD_put r _ _ hiw, if_pos hr, BitVec.getLsbD_allOnes] at hbit
  simp [show i - r.lo < w by omega] at hbit

theorem get_fill_ne (h : ¬r.Disjoint s) : s.get (r.fill 0) ≠ s.get 0 := by
  obtain ⟨i, hr, hs⟩ := exists_has_of_not_disjoint h
  intro heq
  have hbit := (get_eq_iff _ _ _).mp heq i hs
  rw [getLsbD_fill, decide_eq_true hr] at hbit
  simp at hbit

end Range
end SocValidation.BitRange
