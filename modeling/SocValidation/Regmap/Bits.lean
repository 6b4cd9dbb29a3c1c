import SocValidation.Lib.Numeral
import SocValidation.Lib.Raise
import SocValidation.Regmap.Generator

/-!
# Bit ranges as text (generate_registers.py:42-51)

Which texts `int()` takes for which number, and which specifications `parse_bits` takes
for which range. A range that is written out with a colon is read back.
-/

namespace SocValidation.Regmap

/-! ### Texts of numbers -/

/- Digits, with single underscores between them. -/
inductive DigitText : List Char → ℕ → Prop where
  | digit {c : Char} {d : ℕ} (h : digitOf c = some d) : DigitText [c] d
  | more {text : List Char} {m : ℕ} {c : Char} {d : ℕ} (ht : DigitText text m)
    (h : digitOf c = some d) : DigitText (text ++ [c]) (m * 10 + d)
  | spaced {text : List Char} {m : ℕ} {c : Char} {d : ℕ} (ht : DigitText text m)
    (h : digitOf c = some d) : DigitText (text ++ ['_', c]) (m * 10 + d)

inductive SignedText : List Char → ℤ → Prop where
  | bare {text : List Char} {m : ℕ} (h : DigitText text m) : SignedText text m
  | plus {text : List Char} {m : ℕ} (h : DigitText text m) : SignedText ('+' :: text) m
  | minus {text : List Char} {m : ℕ} (h : DigitText text m) : SignedText ('-' :: text) (-m)

def IntText (text : List Char) (n : ℤ) : Prop :=
  ∃ before body after, text = before ++ body ++ after ∧ (∀ c ∈ before, isIntSpace c) ∧
    (∀ c ∈ after, isIntSpace c) ∧ SignedText body n

variable {text pre : List Char} {c : Char} {d m : ℕ} {n hi lo : ℤ} {spec : Yaml}

theorem digitOf_plain (h : digitOf c = some d) :
    isIntSpace c = false ∧ c ≠ '_' ∧ c ≠ '+' ∧ c ≠ '-' ∧ c ≠ ':' := by
  have hall : ∀ z ∈ decimalZeros, ∀ k < 10, isIntSpace (Char.ofNat (z + k)) = false ∧
      Char.ofNat (z + k) ≠ '_' ∧ Char.ofNat (z + k) ≠ '+' ∧ Char.ofNat (z + k) ≠ '-' ∧
      Char.ofNat (z + k) ≠ ':' := by decide +kernel
  obtain ⟨z, hz, -⟩ := Option.map_eq_some_iff.mp h
  have hrange := List.find?_some hz
  simp only [Bool.and_eq_true, decide_eq_true_eq] at hrange
  have hplain := hall z (List.mem_of_find?_eq_some hz) (c.toNat - z) (by omega)
  rwa [Nat.add_sub_cancel' hrange.1, Char.ofNat_toNat] at hplain

/- With digits behind it the reader goes on; with a number and an underscore behind it, it
wants a digit. -/
theorem readDigits_sound (cs : List Char) : DigitText pre m →
    (∀ k, readDigits false m cs = some k → DigitText (pre ++ cs) k) ∧
      ∀ k, readDigits true m cs = some k → DigitText (pre ++ '_' :: cs) k := by
  induction cs generalizing pre m with
  | nil =>
    intro hpre
    refine ⟨fun k hk => ?_, fun k hk => by cases hk⟩
    cases hk
    rwa [List.append_nil]
  | cons c cs ih =>
    intro hpre
    have hdigit : ∀ due k, c ≠ '_' → readDigits due m (c :: cs) = some k →
        ∃ d, digitOf c = some d ∧ readDigits false (m * 10 + d) cs = some k := by
      intro due k hc hk
      rw [readDigits, if_neg hc] at hk
      exact Option.bind_eq_some_iff.mp hk
    constructor
    · intro k hk
      by_cases hc : c = '_'
      · subst hc
        exact (ih hpre).2 k hk
      · obtain ⟨d, hd, hrest⟩ := hdigit false k hc hk
        have htext := (ih (hpre.more hd)).1 k hrest
        rwa [List.append_assoc] at htext
    · intro k hk
      by_cases hc : c = '_'
      · subst hc
        cases hk
      · obtain ⟨d, hd, hrest⟩ := hdigit true k hc hk
        have htext := (ih (hpre.spaced hd)).1 k hrest
        rwa [List.append_assoc] at htext

theorem readDigits_complete (h : DigitText text m) (rest : List Char) :
    readDigits true 0 (text ++ rest) = readDigits false m rest := by
  induction h generalizing rest with
  | digit h => simp [readDigits, (digitOf_plain h).2.1, h]
  | more ht h ih =>
    rw [List.append_assoc, ih]
    simp [readDigits, (digitOf_plain h).2.1, h]
  | spaced ht h ih =>
    rw [List.append_assoc, ih]
    simp [readDigits, (digitOf_plain h).2.1, h]

theorem readDigits_iff : readDigits true 0 text = some m ↔ DigitText text m := by
  constructor
  · intro h
    cases text with
    | nil => cases h
    | cons c cs =>
      by_cases hc : c = '_'
      · subst hc
        cases h
      · rw [readDigits, if_neg hc] at h
        obtain ⟨d, hd, hrest⟩ := Option.bind_eq_some_iff.mp h
        rw [Nat.zero_mul, Nat.zero_add] at hrest
        exact (readDigits_sound cs (.digit hd)).1 m hrest
  · intro h
    have hread := readDigits_complete h []
    rwa [List.append_nil] at hread

theorem DigitText.plain (h : DigitText text m) :
    text ≠ [] ∧ ∀ c ∈ text, isIntSpace c = false ∧ c ≠ '+' ∧ c ≠ '-' ∧ c ≠ ':' := by
  have hdigit : ∀ {c : Char} {d : ℕ}, digitOf c = some d →
      isIntSpace c = false ∧ c ≠ '+' ∧ c ≠ '-' ∧ c ≠ ':' := fun h =>
    ⟨(digitOf_plain h).1, (digitOf_plain h).2.2⟩
  have hunderscore : isIntSpace '_' = false ∧ '_' ≠ '+' ∧ '_' ≠ '-' ∧ '_' ≠ ':' := by decide
  induction h with
  | digit h => exact ⟨by simp, fun c hc => List.mem_singleton.mp hc ▸ hdigit h⟩
  | more ht h ih =>
    refine ⟨by simp, fun c hc => ?_⟩
    rcases List.mem_append.mp hc with hc | hc
    · exact ih.2 c hc
    · exact List.mem_singleton.mp hc ▸ hdigit h
  | spaced ht h ih =>
    refine ⟨by simp, fun c hc => ?_⟩
    rcases List.mem_append.mp hc with hc | hc
    · exact ih.2 c hc
    · rcases List.mem_cons.mp hc with rfl | hc
      · exact hunderscore
      · exact List.mem_singleton.mp hc ▸ hdigit h

theorem SignedText.plain (h : SignedText text n) :
    text ≠ [] ∧ ∀ c ∈ text, isIntSpace c = false ∧ c ≠ ':' := by
  have hsigned : ∀ {sign : Char} {digits : List Char} {m : ℕ}, DigitText digits m →
      isIntSpace sign = false ∧ sign ≠ ':' →
      sign :: digits ≠ [] ∧ ∀ c ∈ sign :: digits, isIntSpace c = false ∧ c ≠ ':' := by
    intro sign digits m hd hsign
    refine ⟨by simp, fun c hc => ?_⟩
    rcases List.mem_cons.mp hc with rfl | hc
    · exact hsign
    · exact ⟨(hd.plain.2 c hc).1, (hd.plain.2 c hc).2.2.2⟩
  cases h with
  | bare h => exact ⟨h.plain.1, fun c hc => ⟨(h.plain.2 c hc).1, (h.plain.2 c hc).2.2.2⟩⟩
  | plus h => exact hsigned h (by decide)
  | minus h => exact hsigned h (by decide)

theorem IntText.colon (h : IntText text n) : ':' ∉ text := by
  obtain ⟨before, body, after, rfl, hbefore, hafter, hbody⟩ := h
  have hspace : isIntSpace ':' = false := by decide
  intro hmem
  rcases List.mem_append.mp hmem with hmem | hmem
  · rcases List.mem_append.mp hmem with hmem | hmem
    · rw [hbefore _ hmem] at hspace
      cases hspace
    · exact (hbody.plain.2 _ hmem).2 rfl
  · rw [hafter _ hmem] at hspace
    cases hspace

/- What is between the spaces is cut out. -/
theorem trim_eq {before body after : List Char} (hbefore : ∀ c ∈ before, isIntSpace c)
    (hafter : ∀ c ∈ after, isIntSpace c) (hne : body ≠ []) (hbody : ∀ c ∈ body, isIntSpace c = false) :
    (((before ++ body ++ after).dropWhile isIntSpace).rdropWhile isIntSpace) = body := by
  have hfront : (before ++ body ++ after).dropWhile isIntSpace = body ++ after := by
    obtain ⟨c, body, rfl⟩ := List.exists_cons_of_ne_nil hne
    rw [List.append_assoc, List.dropWhile_append_of_pos hbefore, List.cons_append,
      List.dropWhile_cons_of_neg (by rw [hbody c List.mem_cons_self]; decide)]
  have hback : ∀ c ∈ after.reverse, isIntSpace c := fun c hc => hafter c (List.mem_reverse.mp hc)
  rw [hfront, List.rdropWhile, List.reverse_append, List.dropWhile_append_of_pos hback]
  have hlast : body.reverse.dropWhile isIntSpace = body.reverse := by
    obtain ⟨c, rest, hrest⟩ := List.exists_cons_of_ne_nil (List.reverse_ne_nil_iff.mpr hne)
    have hc : c ∈ body := List.mem_reverse.mp (hrest ▸ List.mem_cons_self)
    rw [hrest, List.dropWhile_cons_of_neg (by rw [hbody c hc]; decide)]
  rw [hlast, List.reverse_reverse]

theorem lifted_iff {x : Option ℕ} {g : ℤ → ℤ} :
    Option.map g (x >>= fun m => pure (m : ℤ)) = some n ↔ ∃ m : ℕ, x = some m ∧ g m = n := by
  cases x <;> simp

theorem signed_iff (body : List Char) : (match body with
      | '-' :: cs => (readDigits true 0 cs).map fun m => -(m : ℤ)
      | '+' :: cs => (readDigits true 0 cs).map fun m => (m : ℤ)
      | cs => (readDigits true 0 cs).map fun m => (m : ℤ) : Option ℤ) = some n ↔ SignedText body n := by
  constructor
  · intro h
    split at h
    · obtain ⟨m, hm, rfl⟩ := lifted_iff.mp h
      exact .minus (readDigits_iff.mp hm)
    · obtain ⟨m, hm, rfl⟩ := lifted_iff.mp h
      exact .plus (readDigits_iff.mp hm)
    · obtain ⟨m, hm, rfl⟩ := lifted_iff.mp h
      exact .bare (readDigits_iff.mp hm)
  · intro h
    cases h with
    | bare h =>
      split
      · exact absurd rfl (h.plain.2 _ List.mem_cons_self).2.2.1
      · exact absurd rfl (h.plain.2 _ List.mem_cons_self).2.1
      · exact lifted_iff.mpr ⟨_, readDigits_iff.mpr h, rfl⟩
    | plus h => exact lifted_iff.mpr ⟨_, readDigits_iff.mpr h, rfl⟩
    | minus h => exact lifted_iff.mpr ⟨_, readDigits_iff.mpr h, rfl⟩

theorem readInt_iff : readInt text = some n ↔ IntText text n := by
  constructor
  · intro h
    have hfront := List.takeWhile_append_dropWhile (p := isIntSpace) (l := text)
    have hback := List.rdropWhile_append_rtakeWhile (p := isIntSpace) (l := text.dropWhile isIntSpace)
    refine ⟨text.takeWhile isIntSpace, _, (text.dropWhile isIntSpace).rtakeWhile isIntSpace, ?_,
      fun c hc => List.mem_takeWhile_imp hc, fun c hc => List.mem_rtakeWhile_imp hc, (signed_iff _).mp h⟩
    rw [List.append_assoc, hback, hfront]
  · rintro ⟨before, body, after, rfl, hbefore, hafter, hbody⟩
    rw [readInt, trim_eq hbefore hafter hbody.plain.1 fun c hc => (hbody.plain.2 c hc).1]
    exact (signed_iff body).mpr hbody

theorem intOfText_ok : intOfText text = .ok n ↔ IntText text n := by
  rw [← readInt_iff, intOfText]
  cases readInt text <;> simp

theorem intOfText_error {e : PyError} : intOfText text = .error e ↔
    (∀ n, ¬IntText text n) ∧ e = .invalidLiteral (String.ofList text) := by
  simp only [← readInt_iff, intOfText]
  cases readInt text with
  | none => simp [eq_comm]
  | some m => simp

/-! ### Texts of ranges -/

/- What `parse_bits` is written for: a number, or two with a colon between them. -/
inductive BitsText (text : List Char) (hi lo : ℤ) : Prop where
  | bit (h : IntText text hi) (heq : lo = hi)
  | range (l r : List Char) (htext : text = l ++ ':' :: r) (hl : IntText l hi) (hr : IntText r lo)

/- The texts that `parse_bits` converts. -/
def pieces (text : List Char) : List (List Char) := (text.splitOn ':').take 3

def orderedBits (hi lo : ℤ) : Except PyError Bits :=
  if h : hi < lo then .error .badRange else .ok ⟨hi, lo, Int.not_lt.mp h⟩

theorem orderedBits_ok {bits : Bits} : orderedBits hi lo = .ok bits ↔ bits.hi = hi ∧ bits.lo = lo := by
  unfold orderedBits
  split
  next h =>
    have hordered := bits.ordered
    constructor
    · intro hc
      cases hc
    · rintro ⟨rfl, rfl⟩
      omega
  next h =>
    constructor
    · intro hc
      cases hc
      exact ⟨rfl, rfl⟩
    · rintro ⟨rfl, rfl⟩
      rfl

theorem orderedBits_error {e : PyError} : orderedBits hi lo = .error e ↔ hi < lo ∧ e = .badRange := by
  unfold orderedBits
  split
  next h => simp [h, eq_comm]
  next h => simp [h]

/- The two ways of `parse_bits` as one: without a colon there is one piece. -/
theorem parseBits_eq : parseBits spec = (pieces spec.text).mapM intOfText >>= fun parts =>
    match parts with
    | [n] => orderedBits n n
    | [hi, lo] => orderedBits hi lo
    | _ => .error .unpack := by
  unfold parseBits pieces
  by_cases hcolon : ':' ∈ spec.text
  · obtain ⟨p, q, rest, hpieces⟩ : ∃ p q rest, spec.text.splitOn ':' = p :: q :: rest := by
      obtain ⟨l, r, hsplit⟩ := List.append_of_mem hcolon
      obtain ⟨p, ps, hp⟩ := List.exists_cons_of_ne_nil (List.splitOn_ne_nil ':' l)
      obtain ⟨q, qs, hq⟩ := List.exists_cons_of_ne_nil (List.splitOn_ne_nil ':' r)
      rw [hsplit, List.splitOn_append_cons_self, hp, hq, List.cons_append]
      cases ps with
      | nil => exact ⟨p, q, qs, rfl⟩
      | cons p' ps => exact ⟨p, p', _, rfl⟩
    rw [if_pos hcolon, hpieces]
    simp only [List.take_succ_cons, List.mapM_cons, bind_assoc, pure_bind]
    refine bind_congr fun a => bind_congr fun b => bind_congr fun cs => ?_
    cases cs <;> rfl
  · rw [if_neg hcolon, List.splitOn_eq_singleton hcolon]
    simp only [List.take_succ_cons, List.take_nil, List.mapM_cons, List.mapM_nil]
    cases intOfText spec.text <;> rfl

/-! ### Ranges that are written out -/

theorem digitText_toDigits (m : ℕ) : DigitText (Nat.toDigits 10 m) m := by
  have hdigit : ∀ d < 10, digitOf (Nat.digitChar d) = some d := by decide
  induction m using Nat.strong_induction_on with
  | _ m ih =>
    by_cases hm : m < 10
    · rw [Nat.toDigits_of_lt_base hm]
      exact .digit (hdigit m hm)
    · have hle : 10 ≤ m := Nat.le_of_not_lt hm
      have hvalue : m / 10 * 10 + m % 10 = m := Nat.div_add_mod' m 10
      have htext := (ih (m / 10) (Nat.div_lt_self (by omega) (by decide))).more
        (hdigit (m % 10) (Nat.mod_lt m (by decide)))
      rw [hvalue] at htext
      rwa [Nat.toDigits_of_base_le (by decide) hle]

theorem intText_toString (n : ℤ) : IntText (toString n).toList n := by
  refine ⟨[], (toString n).toList, [], by simp, by simp, by simp, ?_⟩
  cases n with
  | ofNat m =>
    have htext : (toString (Int.ofNat m)).toList = Nat.toDigits 10 m := by
      simp [toString, Int.repr, Nat.repr]
    rw [htext]
    exact .bare (digitText_toDigits m)
  | negSucc m =>
    have htext : (toString (Int.negSucc m)).toList = '-' :: Nat.toDigits 10 (m + 1) := by
      simp [toString, Int.repr, Nat.repr]
    rw [htext]
    exact .minus (digitText_toDigits (m + 1))

theorem pieces_short (text : List Char) (h : (pieces text).length < 3) : [':'].intercalate (pieces text) = text := by
  have hall : pieces text = text.splitOn ':' := by
    rw [pieces, List.length_take] at h
    exact List.take_of_length_le (by omega)
  rw [hall, List.intercalate_splitOn]

theorem numbers_one : (pieces text).mapM intOfText = .ok [n] ↔ ∃ p, pieces text = [p] ∧ IntText p n := by
  rw [Raise.mapM_ok, List.forall₂_cons_right_iff]
  simp only [List.forall₂_nil_right_iff, intOfText_ok]
  constructor
  · rintro ⟨p, rest, hp, rfl, hpieces⟩
    exact ⟨p, hpieces, hp⟩
  · rintro ⟨p, hpieces, hp⟩
    exact ⟨p, [], hp, rfl, hpieces⟩

theorem numbers_two : (pieces text).mapM intOfText = .ok [hi, lo] ↔
    ∃ l r, pieces text = [l, r] ∧ IntText l hi ∧ IntText r lo := by
  rw [Raise.mapM_ok, List.forall₂_cons_right_iff]
  simp only [List.forall₂_cons_right_iff, List.forall₂_nil_right_iff, intOfText_ok]
  constructor
  · rintro ⟨l, _, hl, ⟨r, _, hr, rfl, rfl⟩, hpieces⟩
    exact ⟨l, r, hpieces, hl, hr⟩
  · rintro ⟨l, r, hpieces, hl, hr⟩
    exact ⟨l, [r], hl, ⟨r, [], hr, rfl, rfl⟩, hpieces⟩

/- A text is a range just when its pieces are one number or two. -/
theorem bitsText_iff : BitsText text hi lo ↔
    ((pieces text).mapM intOfText = .ok [hi] ∧ lo = hi) ∨
      (pieces text).mapM intOfText = .ok [hi, lo] := by
  rw [numbers_one, numbers_two]
  constructor
  · rintro (⟨h, rfl⟩ | ⟨l, r, rfl, hl, hr⟩)
    · exact Or.inl ⟨⟨text, by rw [pieces, List.splitOn_eq_singleton h.colon]; rfl, h⟩, rfl⟩
    · refine Or.inr ⟨l, r, ?_, hl, hr⟩
      rw [pieces, List.splitOn_append_cons_self_of_not_mem hl.colon, List.splitOn_eq_singleton hr.colon]
      rfl
  · rintro (⟨⟨p, hp, h⟩, rfl⟩ | ⟨l, r, hlr, hl, hr⟩)
    · have htext := pieces_short text (by simp [hp])
      rw [hp] at htext
      simp only [List.intercalate_singleton] at htext
      exact .bit (htext ▸ h) rfl
    · have htext := pieces_short text (by simp [hlr])
      rw [hlr] at htext
      exact .range l r (by rw [← htext]; simp) hl hr

/- There is at least one piece, and there are at most three. -/
theorem pieces_three {parts : List ℤ}
    (h : List.Forall₂ (fun p n => intOfText p = .ok n) (pieces text) parts)
    (hone : ∀ n, parts ≠ [n]) (htwo : ∀ m n, parts ≠ [m, n]) : (pieces text).length = 3 := by
  have hle : (pieces text).length ≤ 3 := by
    rw [pieces, List.length_take]
    omega
  have hpos : 0 < (pieces text).length := by
    rw [pieces, List.length_take]
    have hsplit := List.length_pos_iff.mpr (List.splitOn_ne_nil ':' text)
    omega
  have hlength := h.length_eq
  rcases parts with _ | ⟨a, _ | ⟨b, _ | ⟨c, parts⟩⟩⟩
  · rw [hlength] at hpos
    exact absurd hpos (Nat.lt_irrefl 0)
  · exact absurd rfl (hone a)
  · exact absurd rfl (htwo a b)
  · simp only [List.length_cons] at hlength
    omega

theorem parseBits_ok (spec : Yaml) (bits : Bits) :
    parseBits spec = .ok bits ↔ BitsText spec.text bits.hi bits.lo := by
  rw [parseBits_eq, Raise.bind_ok, bitsText_iff]
  constructor
  · rintro ⟨parts, hparts, hbits⟩
    split at hbits
    next n =>
      obtain ⟨rfl, hlo⟩ := orderedBits_ok.mp hbits
      exact Or.inl ⟨hparts, hlo⟩
    next hi lo =>
      obtain ⟨rfl, rfl⟩ := orderedBits_ok.mp hbits
      exact Or.inr hparts
    next => cases hbits
  · rintro (⟨hparts, hlo⟩ | hparts)
    · exact ⟨_, hparts, orderedBits_ok.mpr ⟨rfl, hlo⟩⟩
    · exact ⟨_, hparts, orderedBits_ok.mpr ⟨rfl, rfl⟩⟩

theorem parseBits_error (spec : Yaml) (e : PyError) : parseBits spec = .error e ↔
    (pieces spec.text).mapM intOfText = .error e ∨
      (e = .unpack ∧ (pieces spec.text).length = 3 ∧ ∀ p ∈ pieces spec.text, ∃ n, IntText p n) ∨
      e = .badRange ∧ ∃ hi lo, BitsText spec.text hi lo ∧ hi < lo := by
  rw [parseBits_eq, Raise.bind_error]
  refine or_congr_right ?_
  constructor
  · rintro ⟨parts, hparts, he⟩
    split at he
    next n => exact absurd (orderedBits_error.mp he).1 (lt_irrefl n)
    next hi lo =>
      obtain ⟨hlt, rfl⟩ := orderedBits_error.mp he
      exact Or.inr ⟨rfl, hi, lo, bitsText_iff.mpr (Or.inr hparts), hlt⟩
    next hone htwo =>
      cases he
      have hall := Raise.mapM_ok.mp hparts
      refine Or.inl ⟨rfl, pieces_three hall hone htwo, fun p hp => ?_⟩
      obtain ⟨n, hn⟩ := Raise.exists_ok hall p hp
      exact ⟨n, intOfText_ok.mp hn⟩
  · rintro (⟨rfl, hlength, hall⟩ | ⟨rfl, hi, lo, hbits, hlt⟩)
    · obtain ⟨a, b, c, habc⟩ := List.length_eq_three.mp hlength
      rw [habc] at hall ⊢
      obtain ⟨k, hk⟩ := hall a (by simp)
      obtain ⟨m, hm⟩ := hall b (by simp)
      obtain ⟨n, hn⟩ := hall c (by simp)
      exact ⟨[k, m, n], Raise.mapM_ok.mpr (.cons (intOfText_ok.mpr hk)
        (.cons (intOfText_ok.mpr hm) (.cons (intOfText_ok.mpr hn) .nil))), rfl⟩
    · rcases bitsText_iff.mp hbits with ⟨-, rfl⟩ | hparts
      · exact absurd hlt (lt_irrefl _)
      · exact ⟨_, hparts, orderedBits_error.mpr ⟨hlt, rfl⟩⟩

/-- `parse_bits` takes a number for the bit, or two numbers with a colon between them for
the range, if the first is not below the second; it reads back every range that is written
so. Otherwise it says what is wrong: the first of the first three pieces that is no number,
else that there are too many pieces, else that the range is the wrong way round. -/
theorem parse_bits_iff :
    (∀ (spec : Yaml) (bits : Bits), parseBits spec = .ok bits ↔ BitsText spec.text bits.hi bits.lo) ∧
    (∀ bits : Bits, parseBits (.str (toString bits.hi ++ ":" ++ toString bits.lo)) = .ok bits) ∧
    ∀ (s : String) (e : PyError), parseBits (.str s) = .error e ↔
      (∃ pre piece post, pieces s.toList = pre ++ piece :: post ∧ (∀ p ∈ pre, ∃ n, IntText p n) ∧
        (∀ n, ¬IntText piece n) ∧ e = .invalidLiteral (String.ofList piece)) ∨
      (e = .unpack ∧ (pieces s.toList).length = 3 ∧ ∀ p ∈ pieces s.toList, ∃ n, IntText p n) ∨
      e = .badRange ∧ ∃ hi lo, BitsText s.toList hi lo ∧ hi < lo := by
  refine ⟨parseBits_ok, fun bits => ?_, fun s e => ?_⟩
  · rw [parseBits_ok]
    refine .range _ _ ?_ (intText_toString bits.hi) (intText_toString bits.lo)
    simp [Yaml.text]
  · have htext : Yaml.text (.str s) = s.toList := rfl
    rw [parseBits_error, htext, Raise.mapM_error]
    simp only [intOfText_ok, intOfText_error]

end SocValidation.Regmap
