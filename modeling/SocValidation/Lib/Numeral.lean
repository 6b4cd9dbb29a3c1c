import Mathlib.Data.Nat.Digits.Defs

/-!
# Numerals as text

`Nat.toDigits` writes a number in a base of at most 16 with lower-case digits. The
reader takes digits of either case; what is written is read back.
-/

namespace SocValidation.Numeral

variable {b n : ℕ} {c : Char}

def digitValue (c : Char) : Option ℕ :=
  let code := c.toNat
  if 0x30 ≤ code ∧ code ≤ 0x39 then some (code - 0x30)
  else if 0x61 ≤ code ∧ code ≤ 0x66 then some (code - 0x61 + 10)
  else if 0x41 ≤ code ∧ code ≤ 0x46 then some (code - 0x41 + 10)
  else none

def readFrom (b : ℕ) (value : ℕ) (text : List Char) : Option ℕ :=
  text.foldlM (fun value c => ((digitValue c).filter fun d => d < b).map fun d => value * b + d) value

/- At least one digit. -/
def read (b : ℕ) (text : List Char) : Option ℕ := if text = [] then none else readFrom b 0 text

theorem digitValue_digitChar (h : n < 16) : digitValue (Nat.digitChar n) = some n := by
  have hall : ∀ d : Fin 16, digitValue (Nat.digitChar d) = some d.val := by decide
  exact hall ⟨n, h⟩

theorem readFrom_toDigits (hb : 1 < b) (hb' : b ≤ 16) (n : ℕ) :
    readFrom b 0 (Nat.toDigits b n) = some n := by
  induction n using Nat.strong_induction_on with
  | _ n ih =>
    by_cases hn : n < b
    · have hdigit := digitValue_digitChar (show n < 16 by omega)
      rw [Nat.toDigits_of_lt_base hn]
      simp [readFrom, hdigit, hn]
    · have hle : b ≤ n := Nat.le_of_not_lt hn
      have hlast : n % b < b := Nat.mod_lt n (by omega)
      have hdigit := digitValue_digitChar (show n % b < 16 by omega)
      have hrest := ih (n / b) (Nat.div_lt_self (by omega) hb)
      have hvalue : n / b * b + n % b = n := Nat.div_add_mod' n b
      rw [readFrom] at hrest
      rw [Nat.toDigits_of_base_le hb hle, readFrom, List.foldlM_append, hrest]
      simp [hdigit, hlast, hvalue]

theorem read_toDigits (hb : 1 < b) (hb' : b ≤ 16) (n : ℕ) : read b (Nat.toDigits b n) = some n := by
  rw [read, if_neg Nat.toDigits_ne_nil, readFrom_toDigits hb hb']

theorem mem_toDigits (hb : 1 < b) (h : c ∈ Nat.toDigits b n) : ∃ d < b, c = Nat.digitChar d := by
  induction n using Nat.strong_induction_on with
  | _ n ih =>
    by_cases hn : n < b
    · rw [Nat.toDigits_of_lt_base hn, List.mem_singleton] at h
      exact ⟨n, hn, h⟩
    · rw [Nat.toDigits_of_base_le hb (Nat.le_of_not_lt hn), List.mem_append, List.mem_singleton] at h
      rcases h with h | h
      · exact ih (n / b) (Nat.div_lt_self (by omega) hb) h
      · exact ⟨n % b, Nat.mod_lt n (by omega), h⟩

/- Capitals and zeros in front do not change the number. -/
theorem readFrom_capitals {text : List Char} (h : ∀ c ∈ text, digitValue c.toUpper = digitValue c)
    (value : ℕ) : readFrom b value (text.map Char.toUpper) = readFrom b value text := by
  induction text generalizing value with
  | nil => rfl
  | cons c text ih =>
    obtain ⟨hc, htext⟩ := List.forall_mem_cons.mp h
    simp only [readFrom] at ih
    simp only [readFrom, List.map_cons, List.foldlM_cons, hc]
    exact congrArg _ (funext fun value => ih htext value)

theorem readFrom_zeros (hb : 1 < b) (k : ℕ) (text : List Char) :
    readFrom b 0 (List.replicate k '0' ++ text) = readFrom b 0 text := by
  have hzero : ((digitValue '0').filter fun d => decide (d < b)) = some 0 := by
    have hdigit : digitValue '0' = some 0 := by decide
    rw [hdigit]
    exact Option.filter_some_pos (decide_eq_true (by omega))
  induction k with
  | zero => rfl
  | succ k ih =>
    rw [← ih, List.replicate_succ, List.cons_append, readFrom, List.foldlM_cons, hzero]
    simp [readFrom]

/- At least eight hexadecimal digits, with capitals. -/
def hex8 (n : ℕ) : List Char := ((Nat.toDigits 16 n).map Char.toUpper).leftpad 8 '0'

theorem mem_hex8 (h : c ∈ hex8 n) : ∃ d : Fin 16, c = (Nat.digitChar d).toUpper := by
  rw [hex8, List.leftpad, List.mem_append, List.mem_map] at h
  rcases h with h | ⟨z, hz, rfl⟩
  · exact ⟨0, List.eq_of_mem_replicate h⟩
  · obtain ⟨d, hd, rfl⟩ := mem_toDigits (by decide) hz
    exact ⟨⟨d, hd⟩, rfl⟩

theorem read_hex8 (n : ℕ) : read 16 (hex8 n) = some n := by
  have hall : ∀ d : Fin 16, digitValue (Nat.digitChar d).toUpper = digitValue (Nat.digitChar d) := by decide
  have hdigits : ∀ c ∈ Nat.toDigits 16 n, digitValue c.toUpper = digitValue c := by
    intro c hc
    obtain ⟨d, hd, rfl⟩ := mem_toDigits (by decide) hc
    exact hall ⟨d, hd⟩
  have hne : hex8 n ≠ [] := by simp [hex8, List.leftpad, Nat.toDigits_ne_nil]
  rw [read, if_neg hne, hex8, List.leftpad, readFrom_zeros (by decide), readFrom_capitals hdigits,
    readFrom_toDigits (by decide) (by decide)]

end SocValidation.Numeral
