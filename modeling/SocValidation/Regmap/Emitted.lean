import SocValidation.Lib.CText
import SocValidation.Regmap.Fields

/-!
# The text of the accessors (generate_registers.py:75-97)

`emit_field` writes C++. Its lines are read here as C and executed: they do to the word
what the accessors of the register layer are said to do.
-/

namespace SocValidation.Regmap
open CText (Env Stmt readBody exec unsignedHex)

variable {L : Layout} {f : Field} {raw v : BitVec 32}

/-! ### What is written -/

inductive Member where
  | getter
  | setter
  | clearer
  deriving DecidableEq, Repr

/- `f"0x{m:08X}u"`; a mask is not negative. -/
def maskText (f : FieldCode) : List Char := unsignedHex f.m.toNat

/- `f"{lo}"` -/
def shiftText (f : FieldCode) : List Char := (toString f.bits.lo).toList

def getterBody (f : FieldCode) : List Char :=
  "return (raw & ".toList ++ maskText f ++ ") >> ".toList ++ shiftText f ++ ";".toList

def setterBody (f : FieldCode) : List Char :=
  "raw = (raw & ~".toList ++ maskText f ++ ") | ((v << ".toList ++ shiftText f ++ ") & ".toList ++
    maskText f ++ "); return *this;".toList

def clearerBody (f : FieldCode) : List Char :=
  "raw |= ".toList ++ maskText f ++ "; return *this;".toList

/- The member functions of a field, each with what stands between its braces. -/
def emitted (f : FieldCode) : List (Member × List Char) :=
  (.getter, getterBody f) ::
    (if f.access = "RW" then [(.setter, setterBody f)]
    else if f.access = "W1C" then [(.clearer, clearerBody f)]
    else [])

/-! ### What it means -/

def rawEnv (raw : BitVec 32) : Env := fun name => if name = "raw" then some raw else none

def argEnv (raw v : BitVec 32) : Env := Function.update (rawEnv raw) "v" (some v)

/- A call of a member function, if the field has it. -/
def callMember (f : FieldCode) (member : Member) (env : Env) : Option (Env × Option (BitVec 32)) :=
  ((emitted f).lookup member).bind fun body => (readBody body).bind fun stmts => exec stmts env

/- The word after one call of a chain. -/
def execCall (raw : BitVec 32) (c : Call L) : Option (BitVec 32) :=
  let f := (L.fields.get c.parts.1).toFieldCode
  let called := match c.parts.2 with
    | some v => callMember f .setter (argEnv raw v)
    | none => callMember f .clearer (rawEnv raw)
  called.bind fun r => r.1 "raw"

/-! ### Reading it -/

section Reading
variable (f : FieldCode)
open CText (Token Expr lex isWordChar flush wordToken lex_unsignedHex lex_digits)

def getterTokens : List Token :=
  [.ident "return", .sym "(", .ident "raw", .sym "&", .num f.m.toNat, .sym ")", .sym ">>",
    .num f.bits.lo.toNat, .sym ";"]

def setterTokens : List Token :=
  [.ident "raw", .sym "=", .sym "(", .ident "raw", .sym "&", .sym "~", .num f.m.toNat, .sym ")",
    .sym "|", .sym "(", .sym "(", .ident "v", .sym "<<", .num f.bits.lo.toNat, .sym ")", .sym "&",
    .num f.m.toNat, .sym ")", .sym ";", .ident "return", .sym "*", .ident "this", .sym ";"]

def clearerTokens : List Token :=
  [.ident "raw", .sym "|=", .num f.m.toNat, .sym ";", .ident "return", .sym "*", .ident "this", .sym ";"]

def getterExpr : Expr := .shr (.and (.var "raw") (.lit f.m.toNat)) (.lit f.bits.lo.toNat)

def setterStmts : List Stmt :=
  [.assign "raw" (.or (.and (.var "raw") (.compl (.lit f.m.toNat)))
    (.and (.shl (.var "v") (.lit f.bits.lo.toNat)) (.lit f.m.toNat))), .retThis]

def clearerStmts : List Stmt := [.orAssign "raw" (.lit f.m.toNat), .retThis]

theorem shiftText_eq : shiftText f = Nat.toDigits 10 f.bits.lo.toNat := by
  obtain ⟨m, hm⟩ := Int.eq_ofNat_of_zero_le (mask_eq_ok f.mask_eq).1
  rw [shiftText, hm]
  simp [toString, Int.repr, Nat.repr]

theorem close_not_word : isWordChar ')' = false := by decide

theorem semicolon_not_word : isWordChar ';' = false := by decide

theorem lex_return (rest : List Char) : lex [] ("return (raw & ".toList ++ rest) =
    .ident "return" :: .sym "(" :: .ident "raw" :: .sym "&" :: lex [] rest := by
  simp [lex, isWordChar, flush, wordToken]

theorem lex_shifted (rest : List Char) : lex [] (')' :: (" >> ".toList ++ rest)) =
    .sym ")" :: .sym ">>" :: lex [] rest := by
  simp [lex, isWordChar, flush]

theorem lex_semicolon (rest : List Char) : lex [] (';' :: rest) = .sym ";" :: lex [] rest := by
  simp [lex, isWordChar, flush]

theorem lex_getter (rest : List Char) :
    lex [] (getterBody f ++ rest) = getterTokens f ++ lex [] rest := by
  have hclose : ") >> ".toList = ')' :: " >> ".toList := by decide
  have hend : ";".toList = [';'] := by decide
  unfold getterBody maskText
  rw [shiftText_eq, hclose, hend]
  simp only [List.append_assoc, List.cons_append, List.nil_append]
  rw [lex_return, lex_unsignedHex _ close_not_word, lex_shifted, lex_digits _ semicolon_not_word,
    lex_semicolon]
  rfl

theorem lex_assign (rest : List Char) : lex [] ("raw = (raw & ~".toList ++ rest) =
    .ident "raw" :: .sym "=" :: .sym "(" :: .ident "raw" :: .sym "&" :: .sym "~" :: lex [] rest := by
  simp [lex, isWordChar, flush, wordToken]

theorem lex_argument (rest : List Char) : lex [] (')' :: (" | ((v << ".toList ++ rest)) =
    .sym ")" :: .sym "|" :: .sym "(" :: .sym "(" :: .ident "v" :: .sym "<<" :: lex [] rest := by
  simp [lex, isWordChar, flush, wordToken]

theorem lex_masked (rest : List Char) : lex [] (')' :: (" & ".toList ++ rest)) =
    .sym ")" :: .sym "&" :: lex [] rest := by
  simp [lex, isWordChar, flush]

theorem lex_orAssign (rest : List Char) : lex [] ("raw |= ".toList ++ rest) =
    .ident "raw" :: .sym "|=" :: lex [] rest := by
  simp [lex, isWordChar, flush, wordToken]

theorem lex_returnThis (rest : List Char) : lex [] (';' :: (" return *this;".toList ++ rest)) =
    .sym ";" :: .ident "return" :: .sym "*" :: .ident "this" :: .sym ";" :: lex [] rest := by
  simp [lex, isWordChar, flush, wordToken]

theorem lex_close (rest : List Char) : lex [] (')' :: ';' :: (" return *this;".toList ++ rest)) =
    .sym ")" :: lex [] (';' :: (" return *this;".toList ++ rest)) := by
  simp [lex, isWordChar, flush, wordToken]

theorem lex_setter (rest : List Char) :
    lex [] (setterBody f ++ rest) = setterTokens f ++ lex [] rest := by
  have hargument : ") | ((v << ".toList = ')' :: " | ((v << ".toList := by decide
  have hmasked : ") & ".toList = ')' :: " & ".toList := by decide
  have hend : "); return *this;".toList = ')' :: ';' :: " return *this;".toList := by decide
  unfold setterBody maskText
  rw [shiftText_eq, hargument, hmasked, hend]
  simp only [List.append_assoc, List.cons_append]
  rw [lex_assign, lex_unsignedHex _ close_not_word, lex_argument, lex_digits _ close_not_word,
    lex_masked, lex_unsignedHex _ close_not_word, lex_close, lex_returnThis]
  rfl

theorem lex_clearer (rest : List Char) :
    lex [] (clearerBody f ++ rest) = clearerTokens f ++ lex [] rest := by
  have hend : "; return *this;".toList = ';' :: " return *this;".toList := by decide
  unfold clearerBody maskText
  rw [hend]
  simp only [List.append_assoc, List.cons_append]
  rw [lex_orAssign, lex_unsignedHex _ semicolon_not_word, lex_returnThis]
  rfl

theorem readTokens_getter : CText.readTokens (getterTokens f) = some [.ret (getterExpr f)] := by
  simp [getterTokens, getterExpr, CText.readTokens, CText.stmts, CText.upToSemicolon, CText.parse,
    CText.chain, CText.binary]

theorem readTokens_setter : CText.readTokens (setterTokens f) = some (setterStmts f) := by
  simp [setterTokens, setterStmts, CText.readTokens, CText.stmts, CText.upToSemicolon, CText.parse,
    CText.chain, CText.binary]

theorem readTokens_clearer : CText.readTokens (clearerTokens f) = some (clearerStmts f) := by
  simp [clearerTokens, clearerStmts, CText.readTokens, CText.stmts, CText.upToSemicolon, CText.parse,
    CText.chain, CText.binary]

theorem readBody_of_lex {text : List Char} {ts : List Token}
    (h : ∀ rest, lex [] (text ++ rest) = ts ++ lex [] rest) : readBody text = CText.readTokens ts := by
  have hend := h []
  rw [List.append_nil] at hend
  rw [readBody, hend]
  exact congrArg CText.readTokens (List.append_nil ts)

end Reading

/-! ### Executing it -/

theorem mask_natCast (f : Field) : (f.m.toNat : ℤ) = f.m := by
  have hm := (mask_eq_ok f.mask_eq).2
  have hpow : (1 : ℤ) ≤ 2 ^ (f.bits.hi - f.bits.lo + 1).toNat := one_le_pow₀ (by decide)
  refine Int.toNat_of_nonneg ?_
  rw [hm]
  exact mul_nonneg (by omega) (by positivity)

theorem mask_lt (f : Field) : f.m.toNat < 2 ^ 32 := by
  have hm := (mask_eq_ok f.mask_eq).2
  have hlo := f.lo_nonneg
  have hord := f.bits.ordered
  have hin := f.inWord
  have hfits : (f.bits.hi - f.bits.lo + 1).toNat + f.bits.lo.toNat ≤ 32 := by omega
  have hlt : f.m < 2 ^ 32 := calc
    f.m = (2 ^ (f.bits.hi - f.bits.lo + 1).toNat - 1) * 2 ^ f.bits.lo.toNat := hm
    _ < 2 ^ (f.bits.hi - f.bits.lo + 1).toNat * 2 ^ f.bits.lo.toNat :=
      mul_lt_mul_of_pos_right (by omega) (by positivity)
    _ = 2 ^ ((f.bits.hi - f.bits.lo + 1).toNat + f.bits.lo.toNat) := (pow_add _ _ _).symm
    _ ≤ 2 ^ 32 := pow_le_pow_right₀ (by decide) hfits
  have hcast := mask_natCast f
  omega

theorem eval_mask (f : Field) (env : Env) : CText.eval env (.lit f.m.toNat) = some f.literal := by
  have hliteral : f.literal = BitVec.ofNat 32 f.m.toNat := by
    rw [Field.literal, ← BitVec.ofInt_natCast, mask_natCast]
  rw [CText.eval, if_pos (mask_lt f), hliteral]

theorem eval_shift (f : Field) (env : Env) :
    CText.amount (CText.eval env (.lit f.bits.lo.toNat)) = some f.bits.lo.toNat := by
  have hlt : f.bits.lo.toNat < 32 := by
    have hord := f.bits.ordered
    have hin := f.inWord
    omega
  have hmod : f.bits.lo.toNat % 2 ^ 32 = f.bits.lo.toNat := Nat.mod_eq_of_lt (by omega)
  rw [CText.eval, if_pos (by omega), CText.amount, Option.map_some, BitVec.toNat_ofNat, hmod]
  exact Option.filter_some_pos (decide_eq_true hlt)

theorem eval_getterExpr (f : Field) {env : Env} (hraw : env "raw" = some raw) :
    CText.eval env (getterExpr f.toFieldCode) = some (f.getter raw) :=
  CText.eval_shr (CText.eval_and hraw (eval_mask f _)) (eval_shift f _)

theorem exec_setterStmts (f : Field) {env : Env} (hraw : env "raw" = some raw) (hv : env "v" = some v) :
    exec (setterStmts f.toFieldCode) env =
      some (Function.update env "raw" (some (f.setter raw v)), none) := by
  have hword : CText.eval env (.var "raw") = some raw := hraw
  have hvalue : CText.eval env (.var "v") = some v := hv
  have hkept := CText.eval_and hword (CText.eval_compl (eval_mask f env))
  have hput := CText.eval_and (CText.eval_shl hvalue (eval_shift f env)) (eval_mask f env)
  rw [setterStmts, exec, hraw, CText.eval_or hkept hput]
  rfl

theorem exec_clearerStmts (f : Field) {env : Env} (hraw : env "raw" = some raw) :
    exec (clearerStmts f.toFieldCode) env =
      some (Function.update env "raw" (some (f.clearer raw)), none) := by
  rw [clearerStmts, exec, hraw, eval_mask]
  rfl

theorem getter_called (f : Field) (raw : BitVec 32) :
    callMember f.toFieldCode .getter (rawEnv raw) = some (rawEnv raw, some (f.getter raw)) := by
  have hlookup : (emitted f.toFieldCode).lookup .getter = some (getterBody f.toFieldCode) := rfl
  rw [callMember, hlookup, Option.bind_some, readBody_of_lex (lex_getter _), readTokens_getter,
    Option.bind_some, exec, eval_getterExpr f (rfl : rawEnv raw "raw" = some raw)]
  rfl

theorem setter_called (h : f.access = "RW") (raw v : BitVec 32) :
    (callMember f.toFieldCode .setter (argEnv raw v)).bind (fun r => r.1 "raw") =
      some (f.setter raw v) := by
  have hlookup : (emitted f.toFieldCode).lookup .setter = some (setterBody f.toFieldCode) := by
    rw [emitted, if_pos h]
    rfl
  have hexec := exec_setterStmts f (rfl : argEnv raw v "raw" = some raw) (rfl : argEnv raw v "v" = some v)
  rw [callMember, hlookup, Option.bind_some, readBody_of_lex (lex_setter _), readTokens_setter,
    Option.bind_some, hexec]
  rfl

theorem clearer_called (h : f.access = "W1C") (raw : BitVec 32) :
    (callMember f.toFieldCode .clearer (rawEnv raw)).bind (fun r => r.1 "raw") =
      some (f.clearer raw) := by
  have hlookup : (emitted f.toFieldCode).lookup .clearer = some (clearerBody f.toFieldCode) := by
    rw [emitted, if_neg (by rw [h]; decide), if_pos h]
    rfl
  rw [callMember, hlookup, Option.bind_some, readBody_of_lex (lex_clearer _), readTokens_clearer,
    Option.bind_some, exec_clearerStmts f (rfl : rawEnv raw "raw" = some raw)]
  rfl

/- Only the mutator that the access allows is there to be called. -/
theorem emitted_iff (f : FieldCode) (member : Member) : (∃ body, (member, body) ∈ emitted f) ↔
    member = .getter ∨ (member = .setter ∧ f.access = "RW") ∨ (member = .clearer ∧ f.access = "W1C") := by
  unfold emitted
  split
  next h => cases member <;> simp [h]
  next h =>
    split
    next h' => cases member <;> simp [h']
    next h' => cases member <;> simp [h, h']

/-- The text that the generator writes for the fields of a register means what the register
layer says: a chain of calls of the mutators, each body read as C and executed, makes of
the word what `runCalls` makes of it; the body of a getter returns the field and leaves the
word alone; and a field has a setter or a clearer just if its access is RW or W1C. -/
theorem emitted_text (L : Layout) (raw : BitVec 32) (chain : List (Call L)) :
    chain.foldlM execCall raw = some (runCalls raw chain) ∧
      (∀ f ∈ L.fields, callMember f.toFieldCode .getter (rawEnv raw) =
        some (rawEnv raw, some (f.getter raw))) ∧
      ∀ f ∈ L.fields, ∀ member, (∃ body, (member, body) ∈ emitted f.toFieldCode) ↔
        member = .getter ∨ (member = .setter ∧ f.access = "RW") ∨
          (member = .clearer ∧ f.access = "W1C") := by
  refine ⟨?_, fun f _ => getter_called f raw, fun f _ => emitted_iff f.toFieldCode⟩
  induction chain generalizing raw with
  | nil => rfl
  | cons c chain ih =>
    have hcall : execCall raw c = some (Call.apply raw c) := by
      cases c with
      | set i h v => exact setter_called h raw v
      | clear i h => exact clearer_called h raw
    rw [List.foldlM_cons, hcall]
    exact ih (Call.apply raw c)

end SocValidation.Regmap
