import SocValidation.Lib.Numeral
import Mathlib.Data.BitVec

/-!
# Function bodies of C as text

Words of 32 bits with the operators of C that work on their bits: the text is cut into
tokens, the tokens are read with C's precedence, and what is read is executed. A text
with anything else in it, a literal that does not fit the word and a shift by more than
the word is wide have no meaning here. Lines are cut into tokens one by one.
-/

namespace SocValidation.CText

/-! ### Tokens -/

inductive Token where
  | ident (name : String)
  | num (n : ℕ)
  | str (text : String)
  | sym (text : String)
  | bad
  deriving DecidableEq, Repr

/- A zero in front is C's octal, which is not read. -/
def literal (digits : List Char) : Option ℕ :=
  match digits with
  | '0' :: 'x' :: hex => Numeral.read 16 hex
  | ['0'] => some 0
  | '0' :: _ => none
  | dec => Numeral.read 10 dec

/- Without the suffix of an unsigned literal. -/
def unsuffixed (word : List Char) : List Char :=
  match word.reverse with
  | 'l' :: 'l' :: 'u' :: digits => digits.reverse
  | 'u' :: digits => digits.reverse
  | _ => word

def wordToken (word : List Char) : Token :=
  if word.head?.any Char.isDigit then (literal (unsuffixed word)).elim .bad .num
  else .ident (String.ofList word)

def isWordChar (c : Char) : Bool := c.isAlphanum || c = '_'

/- `acc` has the characters of a word that is not at its end, the last one first. -/
def flush (acc : List Char) (ts : List Token) : List Token :=
  if acc = [] then ts else wordToken acc.reverse :: ts

mutual

def lex : List Char → List Char → List Token
  | acc, [] => flush acc []
  | acc, c :: cs =>
    if isWordChar c then lex (c :: acc) cs
    else if c = ' ' then flush acc (lex [] cs)
    else if c = '\x22' then flush acc (lexText [] cs)
    else
      match c, cs with
      -- a comment goes on to the end of the line
      | '/', '/' :: _ => flush acc []
      | '<', '<' :: cs => flush acc (.sym "<<" :: lex [] cs)
      | '>', '>' :: cs => flush acc (.sym ">>" :: lex [] cs)
      | '|', '=' :: cs => flush acc (.sym "|=" :: lex [] cs)
      | c, cs => flush acc (.sym (String.singleton c) :: lex [] cs)

/- Inside of quotes; escapes are not read. -/
def lexText : List Char → List Char → List Token
  | _, [] => [.bad]
  | acc, c :: cs =>
    if c = '\x22' then .str (String.ofList acc.reverse) :: lex [] cs
    else if c = '\\' then [.bad]
    else lexText (c :: acc) cs

end

theorem lex_word (word acc rest : List Char) (h : ∀ c ∈ word, isWordChar c) :
    lex acc (word ++ rest) = lex (word.reverse ++ acc) rest := by
  induction word generalizing acc with
  | nil => rfl
  | cons c word ih =>
    obtain ⟨hc, hword⟩ := List.forall_mem_cons.mp h
    rw [List.cons_append, lex]
    · rw [if_pos hc, ih (c :: acc) hword, List.reverse_cons, List.append_assoc]
      rfl
    -- no operator begins with a character of a word
    all_goals
      rintro cs rfl -
      exact absurd hc (by decide)

theorem lex_flush {c : Char} (hc : isWordChar c = false) (acc rest : List Char) :
    lex acc (c :: rest) = flush acc (lex [] (c :: rest)) := by
  have hnil : ∀ ts, flush [] ts = ts := fun _ => rfl
  unfold lex
  simp only [hc, hnil]
  split
  · contradiction
  · split
    · rfl
    · split
      · rfl
      · split <;> rfl

/- A word with something else behind it. -/
theorem lex_token {word : List Char} (hword : ∀ c ∈ word, isWordChar c) (hne : word ≠ []) {c : Char}
    (hc : isWordChar c = false) (rest : List Char) :
    lex [] (word ++ c :: rest) = wordToken word :: lex [] (c :: rest) := by
  have hreverse : word.reverse ++ [] ≠ [] := by simpa using hne
  rw [lex_word word [] _ hword, lex_flush hc, flush, if_neg hreverse, List.append_nil,
    List.reverse_reverse]

def IsName (text : List Char) : Prop :=
  (∀ c ∈ text, isWordChar c) ∧ text.head?.any fun c => !c.isDigit

instance (text : List Char) : Decidable (IsName text) :=
  decidable_of_iff (text.all isWordChar ∧ text.head?.any fun c => !c.isDigit)
    (by rw [IsName, List.all_eq_true])

theorem lex_name {name : List Char} (h : IsName name) {c : Char} (hc : isWordChar c = false)
    (rest : List Char) :
    lex [] (name ++ c :: rest) = .ident (String.ofList name) :: lex [] (c :: rest) := by
  obtain ⟨hword, hfirst⟩ := h
  have hne : name ≠ [] := by
    rintro rfl
    simp at hfirst
  obtain ⟨d, ds, rfl⟩ := List.exists_cons_of_ne_nil hne
  have hdigit : d.isDigit = false := by simpa using hfirst
  rw [lex_token hword hne hc, wordToken, if_neg (by simp [hdigit])]

theorem lexText_plain (word acc rest : List Char) (h : ∀ c ∈ word, c ≠ '\x22' ∧ c ≠ '\\') :
    lexText acc (word ++ rest) = lexText (word.reverse ++ acc) rest := by
  induction word generalizing acc with
  | nil => rfl
  | cons c word ih =>
    obtain ⟨⟨hquote, hescape⟩, hword⟩ := List.forall_mem_cons.mp h
    rw [List.cons_append, lexText, if_neg hquote, if_neg hescape, ih (c :: acc) hword,
      List.reverse_cons, List.append_assoc]
    rfl

/-! ### Numbers as they are written -/

def suffixes : List (List Char) := [[], ['u'], ['u', 'l', 'l']]

/- `0x` and eight digits, unsigned. -/
def unsignedHex (n : ℕ) : List Char := '0' :: 'x' :: Numeral.hex8 n ++ ['u']

theorem unsuffixed_append {digits suffix : List Char} (hdigits : ∀ c ∈ digits, c ≠ 'u' ∧ c ≠ 'l')
    (hsuffix : suffix ∈ suffixes) : unsuffixed (digits ++ suffix) = digits := by
  simp only [suffixes, List.mem_cons, List.not_mem_nil, or_false] at hsuffix
  rcases hsuffix with rfl | rfl | rfl
  · unfold unsuffixed
    rw [List.append_nil]
    split
    next rest h =>
      have hmem : 'l' ∈ digits := List.mem_reverse.mp (h ▸ List.mem_cons_self)
      exact absurd rfl (hdigits 'l' hmem).2
    next rest h =>
      have hmem : 'u' ∈ digits := List.mem_reverse.mp (h ▸ List.mem_cons_self)
      exact absurd rfl (hdigits 'u' hmem).1
    · rfl
  · simp [unsuffixed]
  · simp [unsuffixed]

/- A number with its suffix and something else behind it. -/
theorem lex_number {digits suffix : List Char} {n : ℕ} {c : Char}
    (hdigits : ∀ c ∈ digits, isWordChar c ∧ c ≠ 'u' ∧ c ≠ 'l') (hfirst : digits.head?.any Char.isDigit)
    (hliteral : literal digits = some n) (hsuffix : suffix ∈ suffixes) (hc : isWordChar c = false)
    (rest : List Char) : lex [] (digits ++ suffix ++ c :: rest) = .num n :: lex [] (c :: rest) := by
  have hne : digits ≠ [] := by
    rintro rfl
    simp at hfirst
  have hsuffixes : ∀ s ∈ suffixes, ∀ c ∈ s, isWordChar c := by simp [suffixes, isWordChar]
  have hword : ∀ c ∈ digits ++ suffix, isWordChar c := fun c hmem =>
    (List.mem_append.mp hmem).elim (fun h => (hdigits c h).1) (hsuffixes suffix hsuffix c)
  have hhead : (digits ++ suffix).head? = digits.head? := by
    rw [List.head?_append_of_ne_nil _ hne]
  have htoken : wordToken (digits ++ suffix) = .num n := by
    rw [wordToken, hhead, if_pos hfirst, unsuffixed_append (fun c h => (hdigits c h).2) hsuffix, hliteral]
    rfl
  rw [lex_token hword (by simp [hne]) hc, htoken]

theorem lex_hex (n : ℕ) {suffix : List Char} (hsuffix : suffix ∈ suffixes) {c : Char}
    (hc : isWordChar c = false) (rest : List Char) :
    lex [] ('0' :: 'x' :: Numeral.hex8 n ++ suffix ++ c :: rest) = .num n :: lex [] (c :: rest) := by
  have hall : ∀ d : Fin 16, isWordChar (Nat.digitChar d).toUpper ∧ (Nat.digitChar d).toUpper ≠ 'u' ∧
      (Nat.digitChar d).toUpper ≠ 'l' := by decide
  refine @lex_number ('0' :: 'x' :: Numeral.hex8 n) suffix n c ?_ rfl ?_ hsuffix hc rest
  · intro c hmem
    simp only [List.mem_cons] at hmem
    rcases hmem with rfl | rfl | hmem
    · decide
    · decide
    · obtain ⟨d, rfl⟩ := Numeral.mem_hex8 hmem
      exact hall d
  · rw [literal, Numeral.read_hex8]

theorem lex_unsignedHex (n : ℕ) {c : Char} (hc : isWordChar c = false) (rest : List Char) :
    lex [] (unsignedHex n ++ c :: rest) = .num n :: lex [] (c :: rest) :=
  lex_hex n (by decide) hc rest

theorem toDigits_head {n : ℕ} (hn : n ≠ 0) : ∃ c cs, Nat.toDigits 10 n = c :: cs ∧ c ≠ '0' := by
  induction n using Nat.strong_induction_on with
  | _ n ih =>
    by_cases hlt : n < 10
    · have hall : ∀ d : Fin 10, d ≠ 0 → Nat.digitChar d ≠ '0' := by decide
      rw [Nat.toDigits_of_lt_base hlt]
      exact ⟨_, [], rfl, hall ⟨n, hlt⟩ fun h => hn (congrArg Fin.val h)⟩
    · obtain ⟨c, cs, hdigits, hc⟩ := ih (n / 10) (by omega) (by omega)
      rw [Nat.toDigits_of_base_le (by decide) (by omega), hdigits]
      exact ⟨c, _, rfl, hc⟩

theorem lex_decimal (n : ℕ) {suffix : List Char} (hsuffix : suffix ∈ suffixes) {c : Char}
    (hc : isWordChar c = false) (rest : List Char) :
    lex [] (Nat.toDigits 10 n ++ suffix ++ c :: rest) = .num n :: lex [] (c :: rest) := by
  have hall : ∀ d : Fin 10, isWordChar (Nat.digitChar d) ∧ (Nat.digitChar d).isDigit ∧
      Nat.digitChar d ≠ 'u' ∧ Nat.digitChar d ≠ 'l' := by decide
  have hdigit : ∀ c ∈ Nat.toDigits 10 n, isWordChar c ∧ c.isDigit ∧ c ≠ 'u' ∧ c ≠ 'l' := by
    intro c hmem
    obtain ⟨d, hd, rfl⟩ := Numeral.mem_toDigits (by decide) hmem
    exact hall ⟨d, hd⟩
  have hliteral : literal (Nat.toDigits 10 n) = some n := by
    by_cases hn : n = 0
    · subst hn
      rfl
    · have hread := Numeral.read_toDigits (b := 10) (by decide) (by decide) n
      obtain ⟨c, cs, hdigits, hc⟩ := toDigits_head hn
      rw [hdigits] at hread ⊢
      rw [← hread, literal]
      all_goals simp [hc]
  refine lex_number (fun c h => ⟨(hdigit c h).1, (hdigit c h).2.2⟩) ?_ hliteral hsuffix hc rest
  obtain ⟨c, cs, hdigits⟩ := List.exists_cons_of_ne_nil (Nat.toDigits_ne_nil (n := n) (b := 10))
  have hfirst := (hdigit c (hdigits ▸ List.mem_cons_self)).2.1
  simp [hdigits, hfirst]

theorem lex_digits (n : ℕ) {c : Char} (hc : isWordChar c = false) (rest : List Char) :
    lex [] (Nat.toDigits 10 n ++ c :: rest) = .num n :: lex [] (c :: rest) := by
  rw [← lex_decimal n (List.mem_cons_self : [] ∈ suffixes) hc rest, List.append_nil]

/-! ### Expressions -/

inductive Expr where
  | var (name : String)
  | lit (n : ℕ)
  | compl (e : Expr)
  | shl (e amount : Expr)
  | shr (e amount : Expr)
  | and (a b : Expr)
  | or (a b : Expr)
  deriving DecidableEq, Repr

/- The operators, the loosest on level 0. -/
def binary : ℕ → Token → Option (Expr → Expr → Expr)
  | 0, .sym "|" => some .or
  | 1, .sym "&" => some .and
  | 2, .sym "<<" => some .shl
  | 2, .sym ">>" => some .shr
  | _, _ => none

mutual

def parse : ℕ → ℕ → List Token → Option (Expr × List Token)
  | 0, _, _ => none
  | fuel + 1, level, ts =>
    if level < 3 then (parse fuel (level + 1) ts).bind fun r => chain fuel level r.1 r.2
    else
      match ts with
      | .sym "~" :: ts => (parse fuel 3 ts).map fun r => (.compl r.1, r.2)
      | .sym "(" :: ts => (parse fuel 0 ts).bind fun r =>
        match r.2 with
        | .sym ")" :: ts => some (r.1, ts)
        | _ => none
      | .ident name :: ts => some (.var name, ts)
      | .num n :: ts => some (.lit n, ts)
      | _ => none

/- What follows an operand on its level. -/
def chain : ℕ → ℕ → Expr → List Token → Option (Expr × List Token)
  | 0, _, _, _ => none
  | _ + 1, _, e, [] => some (e, [])
  | fuel + 1, level, e, t :: ts =>
    match binary level t with
    | some op => (parse fuel (level + 1) ts).bind fun r => chain fuel level (op e r.1) r.2
    | none => some (e, t :: ts)

end

abbrev Env := String → Option (BitVec 32)

def amount (e : Option (BitVec 32)) : Option ℕ := (e.map BitVec.toNat).filter fun n => n < 32

def eval (env : Env) : Expr → Option (BitVec 32)
  | .var name => env name
  | .lit n => if n < 2 ^ 32 then some (BitVec.ofNat 32 n) else none
  | .compl e => (eval env e).map fun x => ~~~x
  | .shl e n => (eval env e).bind fun x => (amount (eval env n)).map fun n => x <<< n
  | .shr e n => (eval env e).bind fun x => (amount (eval env n)).map fun n => x >>> n
  | .and a b => (eval env a).bind fun x => (eval env b).map fun y => x &&& y
  | .or a b => (eval env a).bind fun x => (eval env b).map fun y => x ||| y

section Rules
variable {env : Env} {a b e count : Expr} {x y : BitVec 32} {n : ℕ}

theorem eval_compl (h : eval env e = some x) : eval env (.compl e) = some (~~~x) := by rw [eval, h]; rfl

theorem eval_shl (h : eval env e = some x) (hn : amount (eval env count) = some n) :
    eval env (.shl e count) = some (x <<< n) := by rw [eval, h, hn]; rfl

theorem eval_shr (h : eval env e = some x) (hn : amount (eval env count) = some n) :
    eval env (.shr e count) = some (x >>> n) := by rw [eval, h, hn]; rfl

theorem eval_and (ha : eval env a = some x) (hb : eval env b = some y) :
    eval env (.and a b) = some (x &&& y) := by rw [eval, ha, hb]; rfl

theorem eval_or (ha : eval env a = some x) (hb : eval env b = some y) :
    eval env (.or a b) = some (x ||| y) := by rw [eval, ha, hb]; rfl

end Rules

/-! ### Statements -/

inductive Stmt where
  | ret (e : Expr)
  | retThis
  | assign (name : String) (e : Expr)
  | orAssign (name : String) (e : Expr)
  deriving DecidableEq, Repr

/- An expression up to its semicolon. -/
def upToSemicolon (ts : List Token) : Option (Expr × List Token) :=
  (parse (8 * ts.length) 0 ts).bind fun r =>
    match r.2 with
    | .sym ";" :: ts => some (r.1, ts)
    | _ => none

def stmts : ℕ → List Token → Option (List Stmt)
  | _, [] => some []
  | 0, _ => none
  | fuel + 1, .ident "return" :: .sym "*" :: .ident "this" :: .sym ";" :: ts =>
    (stmts fuel ts).map (.retThis :: ·)
  | fuel + 1, .ident "return" :: ts =>
    (upToSemicolon ts).bind fun r => (stmts fuel r.2).map (.ret r.1 :: ·)
  | fuel + 1, .ident name :: .sym "=" :: ts =>
    (upToSemicolon ts).bind fun r => (stmts fuel r.2).map (.assign name r.1 :: ·)
  | fuel + 1, .ident name :: .sym "|=" :: ts =>
    (upToSemicolon ts).bind fun r => (stmts fuel r.2).map (.orAssign name r.1 :: ·)
  | _ + 1, _ => none

def readTokens (ts : List Token) : Option (List Stmt) := stmts ts.length ts

def readBody (text : List Char) : Option (List Stmt) := readTokens (lex [] text)

/- The variables after the body and the value that it returns; `*this` is no value. -/
def exec : List Stmt → Env → Option (Env × Option (BitVec 32))
  | [], _ => none
  | .ret e :: _, env => (eval env e).map fun x => (env, some x)
  | .retThis :: _, env => some (env, none)
  | .assign name e :: rest, env =>
    (env name).bind fun _ => (eval env e).bind fun x => exec rest (Function.update env name (some x))
  | .orAssign name e :: rest, env =>
    (env name).bind fun old => (eval env e).bind fun x =>
      exec rest (Function.update env name (some (old ||| x)))

end SocValidation.CText
