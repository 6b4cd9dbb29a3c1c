import Mathlib.Data.List.Pairwise
import SocValidation.Lib.CHeader
import SocValidation.Regmap.Databook
import SocValidation.Regmap.Emitted

/-!
# The header file (generate_registers.py:28-39, 58-134)

The whole text that `generate` returns, line by line. Read as C++ it has a struct for
each register, and an object of it does what the register layer says.
-/

namespace SocValidation.Regmap
open CHeader (Declaration Struct Header OneLine Spelled Declares oneLine_of_word spelled_line spelled_blank)
open CText (IsName isWordChar)

/-! ### What is written -/

/- `{n:08X}`, where the sign is one of the eight characters. -/
def format08X (n : ℤ) : List Char :=
  if n < 0 then '-' :: ((Nat.toDigits 16 n.natAbs).map Char.toUpper).leftpad 7 '0'
  else Numeral.hex8 n.toNat

def intText (n : ℤ) : List Char := (toString n).toList

def enumLines (name : List Char) (entries : List (Yaml × Yaml)) : List (List Char) :=
  ["    enum class ".toList ++ name ++ "_e : uint32_t \x7b".toList] ++
    entries.map (fun e => "      k".toList ++ e.1.text ++ " = ".toList ++ e.2.text ++ ",".toList) ++
    ["    \x7d;".toList]

def getterLine (f : FieldCode) : List Char :=
  "    [[nodiscard]] constexpr uint32_t ".toList ++ f.name.text ++ "() const noexcept \x7b ".toList ++
    getterBody f ++ " \x7d".toList

def setterLine (f : FieldCode) : List Char :=
  "    constexpr auto& set_".toList ++ f.name.text ++ "(uint32_t v) noexcept \x7b ".toList ++
    setterBody f ++ " \x7d".toList

def clearerLine (f : FieldCode) : List Char :=
  "    constexpr auto& clear_".toList ++ f.name.text ++ "() noexcept \x7b ".toList ++ clearerBody f ++
    " \x7d  // W1C: write 1 to clear".toList

def mutatorLines (f : FieldCode) : List (List Char) :=
  if f.access = "RW" then [setterLine f] else if f.access = "W1C" then [clearerLine f] else []

/- `emit_field`, with the empty line that `emit_register` puts in front. -/
def fieldLines (f : FieldCode) : List (List Char) :=
  [[]] ++
    (match f.description with
      | some desc => ["    // ".toList ++ desc.text]
      | none => []) ++
    ["    // bits [".toList ++ intText f.bits.hi ++ ":".toList ++ intText f.bits.lo ++ "] ".toList ++
      f.access.toList] ++
    (if f.enum = [] then [] else enumLines f.name.text f.enum) ++ [getterLine f] ++ mutatorLines f ++
    ["    static constexpr uint32_t k".toList ++ f.name.text ++ "Mask  = ".toList ++ maskText f ++
        ";".toList,
      "    static constexpr uint32_t k".toList ++ f.name.text ++ "Shift = ".toList ++ shiftText f ++
        "u;".toList,
      "    static constexpr uint32_t k".toList ++ f.name.text ++ "Width = ".toList ++
        intText (f.bits.hi - f.bits.lo + 1) ++ "u;".toList]

def openLines (reg : RegisterCode) : List (List Char) :=
  [[],
    "  // ".toList ++ reg.block.text ++ ".".toList ++ reg.name.text ++ " @ 0x".toList ++
      format08X reg.address ++
      (match reg.description with
        | some desc => " - ".toList ++ desc.text
        | none => []),
    "  struct ".toList ++ reg.block.text ++ "_".toList ++ reg.name.text ++ " \x7b".toList]

def constantLines (reg : RegisterCode) : List (List Char) :=
  ["    static constexpr uint64_t kAddress = 0x".toList ++ format08X reg.address ++ "ull;".toList,
    "    static constexpr uint32_t kReset   = 0x".toList ++ format08X reg.reset ++ "u;".toList,
    "    static constexpr Access   kAccess  = Access::".toList ++ reg.access.toList ++ ";".toList,
    "    static constexpr const char* kName = \"".toList ++ reg.block.text ++ ".".toList ++
      reg.name.text ++ "\";".toList,
    [],
    "    uint32_t raw\x7bkReset\x7d;".toList,
    [],
    "    constexpr explicit operator uint32_t() const noexcept \x7b return raw; \x7d".toList]

/- `emit_register`. -/
def registerLines (reg : RegisterCode) : List (List Char) :=
  openLines reg ++ (constantLines reg ++ reg.fields.flatMap fieldLines ++ ["  \x7d;".toList])

/- The line of a block begins with a line feed. -/
def blockLines (b : BlockCode) : List (List Char) :=
  [[], "  // ===== block ".toList ++ b.name.text ++ " @ 0x".toList ++ format08X b.base ++
    " =====".toList] ++ b.registers.flatMap registerLines

/- `HEADER` and `FOOTER`, which end with a line feed. -/
def headLines (src out : List Char) : List (List Char) :=
  ["// GENERATED FILE - DO NOT EDIT.".toList,
    "// Produced by tools/generate_registers.py from ".toList ++ src,
    "// Regenerate with: python3 tools/generate_registers.py ".toList ++ src ++ " -o ".toList ++ out,
    "#pragma once".toList,
    [],
    "#include <cstdint>".toList,
    "#include \"soc/register.hpp\"".toList,
    [],
    "namespace soc::regs \x7b".toList,
    []]

def footLines : List (List Char) := [[], "\x7d  // namespace soc::regs".toList, []]

def headerText (src out : List Char) (code : List BlockCode) : List Char :=
  ['\n'].intercalate (headLines src out ++ (code.flatMap blockLines ++ footLines))

/-- `generate`, with the text that it returns. -/
def generateText (src out : List Char) (spec : Yaml) : Except PyError (List Char) :=
  (generate spec).map (headerText src out)

/-! ### What is declared -/

def enumValue : Yaml → ℕ
  | .int n => n.toNat
  | _ => 0

def enumEntries (entries : List (Yaml × Yaml)) : List (String × ℕ) :=
  entries.map fun e => (String.ofList ('k' :: e.1.text), enumValue e.2)

def fieldName (f : FieldCode) : String := String.ofList f.name.text

def setterName (f : FieldCode) : String := String.ofList ("set_".toList ++ f.name.text)

def clearerName (f : FieldCode) : String := String.ofList ("clear_".toList ++ f.name.text)

def constantName (f : FieldCode) (what : String) : String :=
  String.ofList ('k' :: f.name.text ++ what.toList)

def mutatorMembers (f : FieldCode) : List Declaration :=
  if f.access = "RW" then [.mutator (setterName f) (some "v") (setterStmts f)]
  else if f.access = "W1C" then [.mutator (clearerName f) none (clearerStmts f)]
  else []

def fieldMembers (f : FieldCode) : List Declaration :=
  (if f.enum = [] then []
    else [.enumeration (String.ofList (f.name.text ++ "_e".toList)) (enumEntries f.enum)]) ++
    [.getter (fieldName f) (getterExpr f)] ++ mutatorMembers f ++
    [.number 32 (constantName f "Mask") f.m.toNat,
      .number 32 (constantName f "Shift") f.bits.lo.toNat,
      .number 32 (constantName f "Width") (f.bits.hi - f.bits.lo + 1).toNat]

/- The struct of a register. -/
def declared (reg : RegisterCode) : Struct where
  name := String.ofList (reg.block.text ++ '_' :: reg.name.text)
  members :=
    [.number 64 "kAddress" reg.address.toNat,
      .number 32 "kReset" reg.reset.toNat,
      .enumerator "Access" "kAccess" reg.access,
      .text "kName" (String.ofList (reg.block.text ++ '.' :: reg.name.text)),
      .word "raw" "kReset",
      .conversion (.var "raw")] ++ reg.fields.flatMap fieldMembers

def declaredHeader (code : List BlockCode) : Header :=
  ⟨["soc", "regs"], (code.flatMap BlockCode.registers).map declared⟩

/-! ### What the map has to keep to -/

/- Its text is the one that `Yaml.text` says. -/
def isPlain : Yaml → Bool
  | .int _ | .str _ | .null | .bool _ => true
  | _ => false

def isWord32 : Yaml → Bool
  | .int n => 0 ≤ n && n < 2 ^ 32
  | _ => false

structure FieldCode.Writable (f : FieldCode) : Prop where
  name : IsName f.name.text
  inWord : f.bits.hi ≤ 31
  access : OneLine f.access.toList
  description : ∀ desc ∈ f.description, isPlain desc ∧ OneLine desc.text
  enum : ∀ e ∈ f.enum, (∀ c ∈ e.1.text, isWordChar c) ∧ isWord32 e.2

structure RegisterCode.Writable (reg : RegisterCode) : Prop where
  block : IsName reg.block.text
  name : ∀ c ∈ reg.name.text, isWordChar c
  address : 0 ≤ reg.address ∧ reg.address < 2 ^ 64
  reset : 0 ≤ reg.reset ∧ reg.reset < 2 ^ 32
  access : reg.access ∈ ["RW", "RO", "W1C"]
  description : ∀ desc ∈ reg.description, isPlain desc ∧ OneLine desc.text
  fields : ∀ f ∈ reg.fields, f.Writable

/-- Names that are names in C++ and do not clash, kinds of access that `Access` has, fields
inside the word, numbers that fit their types, and plain texts that do not leave the line of
their comment. The generator checks none of it. -/
structure Writable (src out : List Char) (code : List BlockCode) : Prop where
  src : OneLine src
  out : OneLine out
  blocks : ∀ b ∈ code, isPlain b.name ∧ OneLine b.name.text
  registers : ∀ b ∈ code, ∀ reg ∈ b.registers, reg.Writable
  names : (declaredHeader code).Scoped

/-! ### Pieces of lines -/

section Pieces

theorem hex8_word (n : ℕ) : ∀ c ∈ Numeral.hex8 n, isWordChar c := by
  have hall : ∀ d : Fin 16, isWordChar (Nat.digitChar d).toUpper := by decide
  intro c hc
  obtain ⟨d, rfl⟩ := Numeral.mem_hex8 hc
  exact hall d

theorem digits_word (n : ℕ) : ∀ c ∈ Nat.toDigits 10 n, isWordChar c := by
  have hall : ∀ d : Fin 10, isWordChar (Nat.digitChar d) := by decide
  intro c hc
  obtain ⟨d, hd, rfl⟩ := Numeral.mem_toDigits (by decide) hc
  exact hall ⟨d, hd⟩

theorem format08X_nonneg {n : ℤ} (h : 0 ≤ n) : format08X n = Numeral.hex8 n.toNat :=
  if_neg (Int.not_lt.mpr h)

theorem oneLine_format08X (n : ℤ) : OneLine (format08X n) := by
  unfold format08X
  split
  · have hall : ∀ d : Fin 16, isWordChar (Nat.digitChar d).toUpper := by decide
    have hword : ∀ c ∈ ((Nat.toDigits 16 n.natAbs).map Char.toUpper).leftpad 7 '0', isWordChar c := by
      intro c hc
      rw [List.leftpad, List.mem_append, List.mem_map] at hc
      rcases hc with hc | ⟨d, hd, rfl⟩
      · rw [List.eq_of_mem_replicate hc]
        decide
      · obtain ⟨k, hk, rfl⟩ := Numeral.mem_toDigits (by decide) hd
        exact hall ⟨k, hk⟩
    exact OneLine.append (by decide : OneLine ['-']) (oneLine_of_word hword)
  · exact oneLine_of_word (hex8_word _)

theorem intText_nonneg {n : ℤ} (h : 0 ≤ n) : intText n = Nat.toDigits 10 n.toNat := by
  obtain ⟨m, rfl⟩ := Int.eq_ofNat_of_zero_le h
  rw [intText]
  simp [toString, Int.repr, Nat.repr]

theorem oneLine_intText {n : ℤ} (h : 0 ≤ n) : OneLine (intText n) := by
  rw [intText_nonneg h]
  exact oneLine_of_word (digits_word _)

variable (f : FieldCode)

theorem oneLine_maskText : OneLine (maskText f) :=
  (((by decide : OneLine ['0', 'x'])).append (oneLine_of_word (hex8_word _))).append (by decide)

theorem oneLine_shiftText : OneLine (shiftText f) := by
  rw [shiftText_eq]
  exact oneLine_of_word (digits_word _)

theorem oneLine_getterBody : OneLine (getterBody f) :=
  ((((by decide : OneLine "return (raw & ".toList).append (oneLine_maskText f)).append
    (by decide)).append (oneLine_shiftText f)).append (by decide)

theorem oneLine_setterBody : OneLine (setterBody f) :=
  ((((((by decide : OneLine "raw = (raw & ~".toList).append (oneLine_maskText f)).append
    (by decide)).append (oneLine_shiftText f)).append (by decide)).append (oneLine_maskText f)).append
    (by decide)

theorem oneLine_clearerBody : OneLine (clearerBody f) :=
  ((by decide : OneLine "raw |= ".toList).append (oneLine_maskText f)).append (by decide)

end Pieces

/-! ### The lines of a field -/

section FieldLines
open CText (lex flush wordToken lex_word lex_name lex_unsignedHex lex_decimal lex_digits suffixes)
open CHeader (member)
variable {f : FieldCode}

theorem declares_comment {text : List Char} (h : OneLine text) :
    Spelled ["    // ".toList ++ text] [] := by
  refine spelled_line ((by decide : OneLine "    // ".toList).append h) (by simp) ?_
  simp [lex, isWordChar, flush]

theorem declares_bits (hf : f.Writable) :
    Spelled ["    // bits [".toList ++ intText f.bits.hi ++ ":".toList ++ intText f.bits.lo ++
      "] ".toList ++ f.access.toList] [] := by
  have hlo := (mask_eq_ok f.mask_eq).1
  have hhi := oneLine_intText (hlo.trans f.bits.ordered)
  refine spelled_line ?_ (by simp) (by simp [lex, isWordChar, flush])
  exact (((((by decide : OneLine "    // bits [".toList).append hhi).append (by decide)).append
    (oneLine_intText hlo)).append (by decide)).append hf.access

theorem declares_number {line : List Char} {name : String} {n : ℕ} (hline : OneLine line)
    (hfirst : line.head? ≠ some '#') (hn : n < 2 ^ 32)
    (hlex : lex [] line = [.ident "static", .ident "constexpr", .ident "uint32_t", .ident name,
      .sym "=", .num n, .sym ";"]) : Declares member [line] [.number 32 name n] :=
  Declares.single (spelled_line hline hfirst hlex) (CHeader.reads_number32 name hn)

theorem declares_mask (hf : f.Writable) :
    Declares member ["    static constexpr uint32_t k".toList ++ f.name.text ++ "Mask  = ".toList ++
      maskText f ++ ";".toList] [.number 32 (constantName f "Mask") f.m.toNat] := by
  have hword := hf.name.1
  refine declares_number ?_ (by simp) (mask_lt ⟨f, hf.inWord⟩) ?_
  · exact ((((by decide : OneLine "    static constexpr uint32_t k".toList).append
      (oneLine_of_word hword)).append (by decide)).append (oneLine_maskText f)).append (by decide)
  · simp [lex, isWordChar, flush, wordToken, lex_word _ _ _ hword, maskText,
      lex_unsignedHex _ semicolon_not_word, constantName]

theorem declares_shift (hf : f.Writable) :
    Declares member ["    static constexpr uint32_t k".toList ++ f.name.text ++ "Shift = ".toList ++
      shiftText f ++ "u;".toList] [.number 32 (constantName f "Shift") f.bits.lo.toNat] := by
  have hword := hf.name.1
  have hin := hf.inWord
  have hord := f.bits.ordered
  have hnumber := lex_decimal f.bits.lo.toNat (by decide : ['u'] ∈ suffixes) semicolon_not_word []
  simp only [List.append_assoc, List.cons_append, List.nil_append] at hnumber
  refine declares_number ?_ (by simp) (by omega) ?_
  · exact ((((by decide : OneLine "    static constexpr uint32_t k".toList).append
      (oneLine_of_word hword)).append (by decide)).append (oneLine_shiftText f)).append (by decide)
  · simp [lex, isWordChar, flush, wordToken, lex_word _ _ _ hword, shiftText_eq, hnumber, constantName]

theorem declares_width (hf : f.Writable) :
    Declares member ["    static constexpr uint32_t k".toList ++ f.name.text ++ "Width = ".toList ++
      intText (f.bits.hi - f.bits.lo + 1) ++ "u;".toList]
      [.number 32 (constantName f "Width") (f.bits.hi - f.bits.lo + 1).toNat] := by
  have hword := hf.name.1
  have hin := hf.inWord
  have hlo := (mask_eq_ok f.mask_eq).1
  have hord := f.bits.ordered
  have hwidth : 0 ≤ f.bits.hi - f.bits.lo + 1 := by omega
  have hnumber := lex_decimal (f.bits.hi - f.bits.lo + 1).toNat (by decide : ['u'] ∈ suffixes)
    semicolon_not_word []
  simp only [List.append_assoc, List.cons_append, List.nil_append] at hnumber
  refine declares_number ?_ (by simp) (by omega) ?_
  · exact ((((by decide : OneLine "    static constexpr uint32_t k".toList).append
      (oneLine_of_word hword)).append (by decide)).append (oneLine_intText hwidth)).append (by decide)
  · simp [lex, isWordChar, flush, wordToken, lex_word _ _ _ hword, intText_nonneg hwidth, hnumber,
      constantName]

theorem declares_getter (hf : f.Writable) :
    Declares member [getterLine f] [.getter (fieldName f) (getterExpr f)] := by
  have hname := fun rest => lex_name hf.name (by decide : isWordChar '(' = false) rest
  have hclose : CText.Token.sym "\x7d" ∉ getterTokens f := by simp [getterTokens]
  refine Declares.single (spelled_line ?_ (by unfold getterLine; simp) ?_)
    (CHeader.reads_getter (fieldName f) hclose (readTokens_getter f))
  · unfold getterLine
    exact ((((by decide : OneLine "    [[nodiscard]] constexpr uint32_t ".toList).append
      (oneLine_of_word hf.name.1)).append (by decide)).append (oneLine_getterBody f)).append (by decide)
  · unfold getterLine
    simp [fieldName, lex, isWordChar, flush, wordToken, hname, lex_getter]

theorem declares_setter (hf : f.Writable) :
    Declares member [setterLine f] [.mutator (setterName f) (some "v") (setterStmts f)] := by
  have hword := hf.name.1
  have hclose : CText.Token.sym "\x7d" ∉ setterTokens f := by simp [setterTokens]
  refine Declares.single (spelled_line ?_ (by unfold setterLine; simp) ?_)
    (CHeader.reads_setter (setterName f) "v" hclose (readTokens_setter f))
  · unfold setterLine
    exact ((((by decide : OneLine "    constexpr auto& set_".toList).append
      (oneLine_of_word hword)).append (by decide)).append (oneLine_setterBody f)).append (by decide)
  · unfold setterLine setterName
    simp [lex, isWordChar, flush, wordToken, lex_word _ _ _ hword, lex_setter]

theorem declares_clearer (hf : f.Writable) :
    Declares member [clearerLine f] [.mutator (clearerName f) none (clearerStmts f)] := by
  have hword := hf.name.1
  have hclose : CText.Token.sym "\x7d" ∉ clearerTokens f := by simp [clearerTokens]
  refine Declares.single (spelled_line ?_ (by unfold clearerLine; simp) ?_)
    (CHeader.reads_mutator (clearerName f) hclose (readTokens_clearer f))
  · unfold clearerLine
    exact ((((by decide : OneLine "    constexpr auto& clear_".toList).append
      (oneLine_of_word hword)).append (by decide)).append (oneLine_clearerBody f)).append (by decide)
  · unfold clearerLine clearerName
    simp [lex, isWordChar, flush, wordToken, lex_word _ _ _ hword, lex_clearer]

end FieldLines

section Enumerations
open CText (lex flush wordToken lex_word lex_digits)
open CHeader (member)

theorem spelled_entry {e : Yaml × Yaml} (hkey : ∀ c ∈ e.1.text, isWordChar c) (hvalue : isWord32 e.2) :
    Spelled ["      k".toList ++ e.1.text ++ " = ".toList ++ e.2.text ++ ",".toList]
      (CHeader.entryTokens (String.ofList ('k' :: e.1.text), enumValue e.2)) := by
  obtain ⟨key, value⟩ := e
  cases value with
  | int n =>
    have hn : 0 ≤ n := by
      have hbounds : 0 ≤ n ∧ n < 2 ^ 32 := by simpa [isWord32] using hvalue
      exact hbounds.1
    have htext : (Yaml.int n).text = Nat.toDigits 10 n.toNat := intText_nonneg hn
    have hnumber := lex_digits n.toNat (by decide : isWordChar ',' = false) []
    rw [htext]
    refine spelled_line ?_ (by simp) ?_
    · exact ((((by decide : OneLine "      k".toList).append (oneLine_of_word hkey)).append
        (by decide)).append (oneLine_of_word (digits_word _))).append (by decide)
    · simp [lex, isWordChar, flush, wordToken, lex_word _ _ _ hkey, hnumber, CHeader.entryTokens,
        enumValue]
  | _ => cases hvalue

theorem spelled_entries {entries : List (Yaml × Yaml)}
    (h : ∀ e ∈ entries, (∀ c ∈ e.1.text, isWordChar c) ∧ isWord32 e.2) :
    Spelled (entries.map fun e =>
        "      k".toList ++ e.1.text ++ " = ".toList ++ e.2.text ++ ",".toList)
      ((enumEntries entries).flatMap CHeader.entryTokens) := by
  induction entries with
  | nil => exact CHeader.spelled_nil
  | cons e entries ih =>
    obtain ⟨⟨hkey, hvalue⟩, hentries⟩ := List.forall_mem_cons.mp h
    exact (spelled_entry hkey hvalue).cons (ih hentries)

theorem enumEntries_fit {entries : List (Yaml × Yaml)} (h : ∀ e ∈ entries, isWord32 e.2) :
    ∀ e ∈ enumEntries entries, e.2 < 2 ^ 32 := by
  intro e he
  obtain ⟨⟨key, value⟩, hmem, rfl⟩ := List.mem_map.mp he
  have hvalue := h _ hmem
  cases value with
  | int n =>
    have hbounds : 0 ≤ n ∧ n < 2 ^ 32 := by simpa [isWord32] using hvalue
    change n.toNat < 2 ^ 32
    omega
  | _ => cases hvalue

theorem declares_enum {f : FieldCode} (hf : f.Writable) :
    Declares member (enumLines f.name.text f.enum)
      [.enumeration (String.ofList (f.name.text ++ "_e".toList)) (enumEntries f.enum)] := by
  have hword := hf.name.1
  have hname : IsName (f.name.text ++ "_e".toList) := by
    obtain ⟨-, hfirst⟩ := hf.name
    refine ⟨fun c hc => ?_, ?_⟩
    · rcases List.mem_append.mp hc with hc | hc
      · exact hword c hc
      · have hall : ∀ c ∈ "_e".toList, isWordChar c := by simp [isWordChar]
        exact hall c hc
    · cases htext : f.name.text with
      | nil => simp [htext] at hfirst
      | cons c cs => simpa [htext] using hfirst
  have hopen : Spelled ["    enum class ".toList ++ f.name.text ++ "_e : uint32_t \x7b".toList]
      [.ident "enum", .ident "class", .ident (String.ofList (f.name.text ++ "_e".toList)), .sym ":",
        .ident "uint32_t", .sym "\x7b"] := by
    refine spelled_line ?_ (by simp) ?_
    · exact ((by decide : OneLine "    enum class ".toList).append (oneLine_of_word hword)).append
        (by decide)
    · have hlex := fun rest => CText.lex_name hname (by decide : isWordChar ' ' = false) rest
      simp only [List.append_assoc, String.reduceToList, List.cons_append, List.nil_append] at hlex
      simp [lex, isWordChar, flush, wordToken, hlex]
  have hclose : Spelled ["    \x7d;".toList] [.sym "\x7d", .sym ";"] := by
    refine spelled_line (by decide) (by simp) ?_
    simp [lex, isWordChar, flush]
  have hentries := spelled_entries hf.enum
  refine Declares.single ?_ (CHeader.reads_enumeration _ (enumEntries_fit fun e he => (hf.enum e he).2))
  unfold enumLines
  rw [List.append_assoc]
  exact hopen.append (hentries.append hclose)

theorem declares_field {f : FieldCode} (hf : f.Writable) :
    Declares member (fieldLines f) (fieldMembers f) := by
  have hdescription : Spelled (match f.description with
      | some desc => ["    // ".toList ++ desc.text]
      | none => []) [] := by
    cases hdesc : f.description with
    | none => exact CHeader.spelled_nil
    | some desc => exact declares_comment (hf.description desc (by rw [hdesc]; rfl)).2
  have hcomments := Declares.silent (p := member)
    ((spelled_blank.append hdescription).append (declares_bits hf))
  have henum : Declares member (if f.enum = [] then [] else enumLines f.name.text f.enum)
      (if f.enum = [] then []
        else [.enumeration (String.ofList (f.name.text ++ "_e".toList)) (enumEntries f.enum)]) := by
    split
    · exact Declares.silent CHeader.spelled_nil
    · exact declares_enum hf
  have hmutator : Declares member (mutatorLines f) (mutatorMembers f) := by
    unfold mutatorLines mutatorMembers
    split
    · exact declares_setter hf
    · split
      · exact declares_clearer hf
      · exact Declares.silent CHeader.spelled_nil
  have hconstants := (declares_mask hf).append ((declares_shift hf).append (declares_width hf))
  have hall := (((hcomments.append henum).append (declares_getter hf)).append hmutator).append hconstants
  unfold fieldLines fieldMembers
  exact hall

end Enumerations

/-! ### The lines of a register -/

section RegisterLines
open CText (lex lexText flush wordToken lex_word lex_name lexText_plain lex_hex suffixes)
open CHeader (member struct)
variable {reg : RegisterCode}

theorem structName_isName (hreg : reg.Writable) : IsName (reg.block.text ++ '_' :: reg.name.text) := by
  obtain ⟨hword, hfirst⟩ := hreg.block
  refine ⟨fun c hc => ?_, ?_⟩
  · rcases List.mem_append.mp hc with hc | hc
    · exact hword c hc
    · rcases List.mem_cons.mp hc with rfl | hc
      · decide
      · exact hreg.name c hc
  · cases htext : reg.block.text with
    | nil => simp [htext] at hfirst
    | cons c cs => simpa [htext] using hfirst

theorem spelled_open (hreg : reg.Writable) : Spelled (openLines reg)
    [.ident "struct", .ident (declared reg).name, .sym "\x7b"] := by
  have hblock := oneLine_of_word hreg.block.1
  have hname := oneLine_of_word hreg.name
  have hdescription : OneLine (match reg.description with
      | some desc => " - ".toList ++ desc.text
      | none => []) := by
    cases hdesc : reg.description with
    | none => decide
    | some desc =>
      have hplain := hreg.description desc (by rw [hdesc]; rfl)
      exact (by decide : OneLine " - ".toList).append hplain.2
  have hcomment : Spelled ["  // ".toList ++ reg.block.text ++ ".".toList ++ reg.name.text ++
      " @ 0x".toList ++ format08X reg.address ++
      (match reg.description with
        | some desc => " - ".toList ++ desc.text
        | none => [])] [] := by
    refine spelled_line ?_ (by simp) (by simp [lex, isWordChar, flush])
    exact ((((((by decide : OneLine "  // ".toList).append hblock).append (by decide)).append hname).append
      (by decide)).append (oneLine_format08X _)).append hdescription
  have hstruct : Spelled ["  struct ".toList ++ reg.block.text ++ "_".toList ++ reg.name.text ++
      " \x7b".toList] [.ident "struct", .ident (declared reg).name, .sym "\x7b"] := by
    refine spelled_line ?_ (by simp) ?_
    · exact ((((by decide : OneLine "  struct ".toList).append hblock).append (by decide)).append
        hname).append (by decide)
    · have hlex := fun rest => lex_name (structName_isName hreg) (by decide : isWordChar ' ' = false) rest
      simp only [List.append_assoc, List.cons_append] at hlex
      simp [lex, isWordChar, flush, wordToken, hlex, declared]
  exact spelled_blank.cons (hcomment.cons hstruct)

theorem declares_address (hreg : reg.Writable) :
    Declares member ["    static constexpr uint64_t kAddress = 0x".toList ++ format08X reg.address ++
      "ull;".toList] [.number 64 "kAddress" reg.address.toNat] := by
  obtain ⟨hpos, hlt⟩ := hreg.address
  have hnumber := lex_hex reg.address.toNat (by decide : ['u', 'l', 'l'] ∈ suffixes) semicolon_not_word []
  simp only [List.append_assoc, List.cons_append, List.nil_append] at hnumber
  refine Declares.single (spelled_line ?_ (by simp) ?_) (CHeader.reads_number64 "kAddress" (by omega))
  · exact ((by decide : OneLine "    static constexpr uint64_t kAddress = 0x".toList).append
      (oneLine_format08X _)).append (by decide)
  · have hstart : ∀ rest, lex [] ("    static constexpr uint64_t kAddress = 0x".toList ++ rest) =
        .ident "static" :: .ident "constexpr" :: .ident "uint64_t" :: .ident "kAddress" :: .sym "=" ::
          lex [] ('0' :: 'x' :: rest) := by
      intro rest
      simp [lex, isWordChar, flush, wordToken]
    have hend : "ull;".toList = ['u', 'l', 'l', ';'] := by decide
    rw [List.append_assoc, hstart, format08X_nonneg hpos, hend, hnumber]
    simp [lex, isWordChar, flush]

theorem declares_reset (hreg : reg.Writable) :
    Declares member ["    static constexpr uint32_t kReset   = 0x".toList ++ format08X reg.reset ++
      "u;".toList] [.number 32 "kReset" reg.reset.toNat] := by
  obtain ⟨hpos, hlt⟩ := hreg.reset
  have hnumber := lex_hex reg.reset.toNat (by decide : ['u'] ∈ suffixes) semicolon_not_word []
  simp only [List.append_assoc, List.cons_append, List.nil_append] at hnumber
  refine declares_number ?_ (by simp) (by omega) ?_
  · exact ((by decide : OneLine "    static constexpr uint32_t kReset   = 0x".toList).append
      (oneLine_format08X _)).append (by decide)
  · have hstart : ∀ rest, lex [] ("    static constexpr uint32_t kReset   = 0x".toList ++ rest) =
        .ident "static" :: .ident "constexpr" :: .ident "uint32_t" :: .ident "kReset" :: .sym "=" ::
          lex [] ('0' :: 'x' :: rest) := by
      intro rest
      simp [lex, isWordChar, flush, wordToken]
    have hend : "u;".toList = ['u', ';'] := by decide
    rw [List.append_assoc, hstart, format08X_nonneg hpos, hend, hnumber]
    simp [lex, isWordChar, flush]

theorem declares_access (hreg : reg.Writable) :
    Declares member ["    static constexpr Access   kAccess  = Access::".toList ++ reg.access.toList ++
      ";".toList] [.enumerator "Access" "kAccess" reg.access] := by
  have hkinds : ∀ kind ∈ ["RW", "RO", "W1C"], IsName kind.toList := by decide
  have hname := hkinds _ hreg.access
  have hlex := fun rest => lex_name hname semicolon_not_word rest
  refine Declares.single (spelled_line ?_ (by simp) ?_)
    (CHeader.reads_enumerator "Access" "kAccess" reg.access)
  · exact ((by decide : OneLine "    static constexpr Access   kAccess  = Access::".toList).append
      (oneLine_of_word hname.1)).append (by decide)
  · simp [lex, isWordChar, flush, wordToken, hlex]

theorem word_plain {text : List Char} (h : ∀ c ∈ text, isWordChar c) : ∀ c ∈ text, c ≠ '\x22' ∧ c ≠ '\\' := by
  intro c hc
  refine ⟨?_, ?_⟩
  · rintro rfl
    exact absurd (h _ hc) (by decide)
  · rintro rfl
    exact absurd (h _ hc) (by decide)

theorem declares_name (hreg : reg.Writable) :
    Declares member ["    static constexpr const char* kName = \"".toList ++ reg.block.text ++
      ".".toList ++ reg.name.text ++ "\";".toList]
      [.text "kName" (String.ofList (reg.block.text ++ '.' :: reg.name.text))] := by
  refine Declares.single (spelled_line ?_ (by simp) ?_) (CHeader.reads_text "kName" _)
  · exact ((((by decide : OneLine "    static constexpr const char* kName = \"".toList).append
      (oneLine_of_word hreg.block.1)).append (by decide)).append (oneLine_of_word hreg.name)).append
        (by decide)
  · simp [lex, lexText, isWordChar, flush, wordToken, lexText_plain _ _ _ (word_plain hreg.block.1),
      lexText_plain _ _ _ (word_plain hreg.name)]

theorem declares_raw : Declares member ["    uint32_t raw\x7bkReset\x7d;".toList] [.word "raw" "kReset"] := by
  refine Declares.single (spelled_line (by decide) (by simp) ?_) (CHeader.reads_word "raw" "kReset")
  simp [lex, isWordChar, flush, wordToken]

theorem declares_conversion : Declares member
    ["    constexpr explicit operator uint32_t() const noexcept \x7b return raw; \x7d".toList]
    [.conversion (.var "raw")] := by
  have hread : CText.readTokens [.ident "return", .ident "raw", .sym ";"] = some [.ret (.var "raw")] := by
    simp [CText.readTokens, CText.stmts, CText.upToSemicolon, CText.parse, CText.chain, CText.binary]
  refine Declares.single (spelled_line (by decide) (by simp) ?_)
    (CHeader.reads_conversion (by simp) hread)
  simp [lex, isWordChar, flush, wordToken]

theorem declares_register (hreg : reg.Writable) : Declares struct (registerLines reg) [declared reg] := by
  have hblank := Declares.silent (p := member) spelled_blank
  have hconstants : Declares member (constantLines reg)
      [.number 64 "kAddress" reg.address.toNat, .number 32 "kReset" reg.reset.toNat,
        .enumerator "Access" "kAccess" reg.access,
        .text "kName" (String.ofList (reg.block.text ++ '.' :: reg.name.text)),
        .word "raw" "kReset", .conversion (.var "raw")] := by
    have hall := (declares_address hreg).append ((declares_reset hreg).append ((declares_access hreg).append
      ((declares_name hreg).append (hblank.append (declares_raw.append (hblank.append
        declares_conversion))))))
    unfold constantLines
    exact hall
  have hfields := Declares.flatMap fun f hf => declares_field (hreg.fields f hf)
  have hclose : Spelled ["  \x7d;".toList] [.sym "\x7d", .sym ";"] := by
    refine spelled_line (by decide) (by simp) ?_
    simp [lex, isWordChar, flush]
  have hall := CHeader.declares_struct (spelled_open hreg) (hconstants.append hfields) hclose
  unfold registerLines
  exact hall

end RegisterLines

/-! ### The header -/

section HeaderLines
open CText (lex flush wordToken)
open CHeader (struct readHeader)
variable {src out : List Char} {code : List BlockCode}

theorem declares_block {b : BlockCode} (hname : OneLine b.name.text)
    (hregisters : ∀ reg ∈ b.registers, reg.Writable) :
    Declares struct (blockLines b) (b.registers.map declared) := by
  have hcomment : Spelled ["  // ===== block ".toList ++ b.name.text ++ " @ 0x".toList ++
      format08X b.base ++ " =====".toList] [] := by
    refine spelled_line ?_ (by simp) (by simp [lex, isWordChar, flush])
    exact ((((by decide : OneLine "  // ===== block ".toList).append hname).append (by decide)).append
      (oneLine_format08X _)).append (by decide)
  have hall := (Declares.silent (p := struct) (spelled_blank.cons hcomment)).append
    (Declares.flatMap fun reg hreg => declares_register (hregisters reg hreg))
  rw [List.map_eq_flatMap]
  unfold blockLines
  exact hall

theorem spelled_head (hsrc : OneLine src) (hout : OneLine out) : Spelled (headLines src out)
    [.ident "namespace", .ident "soc", .sym ":", .sym ":", .ident "regs", .sym "\x7b"] := by
  have hgenerated : Spelled ["// GENERATED FILE - DO NOT EDIT.".toList] [] :=
    spelled_line (by decide) (by simp) (by simp [lex, isWordChar, flush])
  have hproduced : Spelled ["// Produced by tools/generate_registers.py from ".toList ++ src] [] :=
    spelled_line ((by decide : OneLine "// Produced by tools/generate_registers.py from ".toList).append hsrc)
      (by simp) (by simp [lex, isWordChar, flush])
  have hregenerate : Spelled ["// Regenerate with: python3 tools/generate_registers.py ".toList ++ src ++
      " -o ".toList ++ out] [] := by
    refine spelled_line ?_ (by simp) (by simp [lex, isWordChar, flush])
    exact (((by decide : OneLine "// Regenerate with: python3 tools/generate_registers.py ".toList).append
      hsrc).append (by decide)).append hout
  have hpragma : Spelled ["#pragma once".toList] [] :=
    CHeader.spelled_directive (by decide) (by simp [CHeader.directives])
  have hcstdint : Spelled ["#include <cstdint>".toList] [] :=
    CHeader.spelled_directive (by decide) (by simp [CHeader.directives])
  have hregister : Spelled ["#include \"soc/register.hpp\"".toList] [] :=
    CHeader.spelled_directive (by decide) (by simp [CHeader.directives])
  have hspace : Spelled ["namespace soc::regs \x7b".toList]
      [.ident "namespace", .ident "soc", .sym ":", .sym ":", .ident "regs", .sym "\x7b"] :=
    spelled_line (by decide) (by simp) (by simp [lex, isWordChar, flush, wordToken])
  exact hgenerated.cons (hproduced.cons (hregenerate.cons (hpragma.cons (spelled_blank.cons
    (hcstdint.cons (hregister.cons (spelled_blank.cons (hspace.cons spelled_blank))))))))

theorem spelled_foot : Spelled footLines [.sym "\x7d"] := by
  have hclose : Spelled ["\x7d  // namespace soc::regs".toList] [.sym "\x7d"] :=
    spelled_line (by decide) (by simp) (by simp [lex, isWordChar, flush])
  exact spelled_blank.cons (hclose.cons spelled_blank)

theorem readHeader_text (h : Writable src out code) :
    readHeader (headerText src out code) = some (declaredHeader code) := by
  have hblocks := Declares.flatMap fun b hb => declares_block (h.blocks b hb).2 (h.registers b hb)
  have hread := CHeader.header_of_lines (spelled_head h.src h.out) hblocks spelled_foot
    (by simp [headLines])
  have hdeclared : (⟨["soc", "regs"], code.flatMap fun b => b.registers.map declared⟩ : Header) =
      declaredHeader code := by
    rw [declaredHeader, List.map_flatMap]
  rw [readHeader, headerText, hread, hdeclared]
  exact Option.filter_some_pos (decide_eq_true h.names)

end HeaderLines

/-! ### Objects of the structs -/

section Objects
open CHeader (readHeader)
variable {reg : RegisterCode} {L : Layout}

def Mutation.name : Mutation reg → String
  | .set f _ _ _ => setterName f.toFieldCode
  | .clear f _ _ => clearerName f.toFieldCode

theorem member_declared {f : FieldCode} {m : Declaration} (hf : f ∈ reg.fields)
    (hm : m ∈ fieldMembers f) : m ∈ (declared reg).members :=
  List.mem_append_right _ (List.mem_flatMap.mpr ⟨f, hf, hm⟩)

theorem getter_mem (f : FieldCode) : .getter (fieldName f) (getterExpr f) ∈ fieldMembers f := by
  simp [fieldMembers]

theorem mutator_mem {f : FieldCode} {m : Declaration} (h : m ∈ mutatorMembers f) : m ∈ fieldMembers f := by
  simp only [fieldMembers, List.mem_append]
  exact Or.inl (Or.inr h)

theorem number_address (h : (declared reg).Scoped) :
    (declared reg).number "kAddress" = some reg.address.toNat := by
  rw [Struct.number, Struct.find_of_mem h (List.mem_append_left _ List.mem_cons_self)
    (List.mem_singleton_self _)]

/- The members of a field have no word of their own. -/
theorem word_declared {word initial : String}
    (h : .word word initial ∈ (declared reg).members) : word = "raw" := by
  rcases List.mem_append.mp h with h | h
  · simp at h
    exact h.1
  · obtain ⟨f, -, hm⟩ := List.mem_flatMap.mp h
    simp only [fieldMembers, mutatorMembers, List.mem_append] at hm
    rcases hm with ((hm | hm) | hm) | hm
    · split at hm <;> simp at hm
    · simp at hm
    · split at hm
      · simp at hm
      · split at hm <;> simp at hm
    · simp at hm

theorem fresh_word (h : (declared reg).Scoped) (hreset : 0 ≤ reg.reset) :
    (declared reg).fresh = rawEnv (BitVec.ofInt 32 reg.reset) := by
  have hraw : (declared reg).find "raw" = some (.word "raw" "kReset") :=
    Struct.find_of_mem h (by simp [declared]) (List.mem_singleton_self _)
  have hnumber : (declared reg).number "kReset" = some reg.reset.toNat := by
    rw [Struct.number, Struct.find_of_mem h (m := .number 32 "kReset" reg.reset.toNat)
      (by simp [declared]) (List.mem_singleton_self _)]
  have hvalue : BitVec.ofNat 32 reg.reset.toNat = BitVec.ofInt 32 reg.reset := by
    rw [← BitVec.ofInt_natCast, Int.toNat_of_nonneg hreset]
  funext name
  by_cases hname : name = "raw"
  · subst hname
    rw [Struct.fresh, hraw]
    simp only [hnumber, Option.map_some, hvalue]
    rfl
  · have hnone : rawEnv (BitVec.ofInt 32 reg.reset) name = none := if_neg hname
    rw [hnone, Struct.fresh]
    split
    next word initial hfind =>
      obtain ⟨hmem, hnames⟩ := Struct.mem_of_find hfind
      exact absurd ((List.mem_singleton.mp hnames).trans (word_declared hmem)) hname
    · rfl

theorem get_declared (h : (declared reg).Scoped) {f : Field} (hf : f.toFieldCode ∈ reg.fields)
    (raw : BitVec 32) : (declared reg).get (fieldName f.toFieldCode) (rawEnv raw) = some (f.getter raw) := by
  rw [Struct.get, Struct.find_of_mem h (member_declared hf (getter_mem _))
    (List.mem_singleton_self _)]
  exact eval_getterExpr f rfl

theorem setter_declared {f : Field} (hf : f.toFieldCode ∈ reg.fields) (hrw : f.access = "RW") :
    .mutator (setterName f.toFieldCode) (some "v") (setterStmts f.toFieldCode) ∈
      (declared reg).members := by
  refine member_declared hf (mutator_mem ?_)
  rw [mutatorMembers, if_pos hrw]
  exact List.mem_singleton_self _

theorem clearer_declared {f : Field} (hf : f.toFieldCode ∈ reg.fields) (hw1c : f.access = "W1C") :
    .mutator (clearerName f.toFieldCode) none (clearerStmts f.toFieldCode) ∈
      (declared reg).members := by
  refine member_declared hf (mutator_mem ?_)
  rw [mutatorMembers, if_neg (by rw [hw1c]; decide), if_pos hw1c]
  exact List.mem_singleton_self _

/- The word after a call, and the parameter is gone. -/
theorem update_word (raw x : BitVec 32) : Function.update (rawEnv raw) "raw" (some x) = rawEnv x := by
  funext name
  by_cases hname : name = "raw"
  · subst hname
    simp [rawEnv]
  · rw [Function.update_of_ne hname, rawEnv, rawEnv, if_neg hname, if_neg hname]

theorem call_setter (h : (declared reg).Scoped) {f : Field} (hf : f.toFieldCode ∈ reg.fields)
    (hrw : f.access = "RW") (raw v : BitVec 32) : (declared reg).call (setterName f.toFieldCode) (some v) (rawEnv raw) =
      some (rawEnv (f.setter raw v)) := by
  have hfind := Struct.find_of_mem h (setter_declared hf hrw) (List.mem_singleton_self _)
  have hexec := exec_setterStmts f (rfl : argEnv raw v "raw" = some raw) (rfl : argEnv raw v "v" = some v)
  have hv : Function.update (rawEnv raw) "v" none = rawEnv raw :=
    Function.update_eq_self (f := rawEnv raw) "v"
  have hword : Function.update (Function.update (argEnv raw v) "raw" (some (f.setter raw v))) "v" none =
      rawEnv (f.setter raw v) := by
    rw [Function.update_comm (by decide), argEnv, Function.update_idem, hv, update_word]
  rw [Struct.call_parameter hfind (rfl : rawEnv raw "v" = none), ← argEnv, hexec, Option.map_some, hword]

theorem call_clearer (h : (declared reg).Scoped) {f : Field} (hf : f.toFieldCode ∈ reg.fields)
    (hw1c : f.access = "W1C") (raw : BitVec 32) :
    (declared reg).call (clearerName f.toFieldCode) none (rawEnv raw) = some (rawEnv (f.clearer raw)) := by
  have hfind := Struct.find_of_mem h (clearer_declared hf hw1c) (List.mem_singleton_self _)
  have hexec := exec_clearerStmts f (rfl : rawEnv raw "raw" = some raw)
  rw [Struct.call_plain hfind, hexec, Option.map_some, update_word]

theorem call_declared (h : (declared reg).Scoped) (raw : BitVec 32) (c : Mutation reg) :
    (declared reg).call c.name c.argument (rawEnv raw) = some (rawEnv (c.apply raw)) := by
  cases c with
  | set f hf hrw v => exact call_setter h hf hrw raw v
  | clear f hf hw1c => exact call_clearer h hf hw1c raw

theorem calls_declared (h : (declared reg).Scoped) (raw : BitVec 32) (chain : List (Mutation reg)) :
    chain.foldlM (fun words c => (declared reg).call c.name c.argument words) (rawEnv raw) =
      some (rawEnv (chain.foldl Mutation.apply raw)) := by
  induction chain generalizing raw with
  | nil => rfl
  | cons c chain ih =>
    rw [List.foldlM_cons, call_declared h]
    exact ih (c.apply raw)

/- Two fields of one struct do not share a name. -/
theorem fieldName_unique (h : (declared reg).Scoped) {f g : FieldCode}
    (hf : f ∈ reg.fields) (hg : g ∈ reg.fields) (hname : f.name.text = g.name.text) : f = g := by
  by_contra hne
  have hnodup : (reg.fields.flatMap fun f => (fieldMembers f).flatMap Declaration.names).Nodup := by
    have hall := (List.nodup_cons.mp h.1).2
    rw [Struct.names, declared, List.flatMap_append, List.flatMap_assoc, List.nodup_append] at hall
    exact hall.2.1
  have hpairs := (List.nodup_flatMap.mp hnodup).2
  have hsymm : Std.Symm (Function.onFun List.Disjoint fun f : FieldCode =>
      (fieldMembers f).flatMap Declaration.names) := ⟨fun _ _ hab => hab.symm⟩
  have hapart := hpairs.forall hf hg hne
  have hshown : ∀ f : FieldCode, fieldName f ∈ (fieldMembers f).flatMap Declaration.names := fun f =>
    List.mem_flatMap.mpr ⟨_, getter_mem f, List.mem_singleton_self _⟩
  have hsame : fieldName f = fieldName g := by rw [fieldName, fieldName, hname]
  exact hapart (hshown f) (hsame ▸ hshown g)

theorem mutator_declared {name : String} {parameter : Option String}
    {body : List CText.Stmt} (h : .mutator name parameter body ∈ (declared reg).members) :
    ∃ f ∈ reg.fields, (f.access = "RW" ∧ name = setterName f ∧ parameter = some "v") ∨
      (f.access = "W1C" ∧ name = clearerName f ∧ parameter = none) := by
  rcases List.mem_append.mp h with h | h
  · simp at h
  · obtain ⟨f, hf, hm⟩ := List.mem_flatMap.mp h
    refine ⟨f, hf, ?_⟩
    simp only [fieldMembers, mutatorMembers, List.mem_append] at hm
    rcases hm with ((hm | hm) | hm) | hm
    · split at hm <;> simp at hm
    · simp at hm
    · split at hm
      next hrw =>
        obtain ⟨hname, hparameter, -⟩ := by simpa using hm
        exact Or.inl ⟨hrw, hname, hparameter⟩
      · split at hm
        next hw1c =>
          obtain ⟨hname, hparameter, -⟩ := by simpa using hm
          exact Or.inr ⟨hw1c, hname, hparameter⟩
        · simp at hm
    · simp at hm

end Objects

/-! ### From the map to the objects -/

section Meaning
open CHeader (readHeader)

theorem setterName_text {f g : FieldCode} (h : setterName f = setterName g) : f.name.text = g.name.text := by
  unfold setterName at h
  exact List.append_cancel_left (String.ofList_injective h)

theorem clearerName_text {f g : FieldCode} (h : clearerName f = clearerName g) :
    f.name.text = g.name.text := by
  unfold clearerName at h
  exact List.append_cancel_left (String.ofList_injective h)

variable {reg : RegisterCode} {L : Layout}

theorem no_setter (h : (declared reg).Scoped) {f : Field} (hf : f.toFieldCode ∈ reg.fields)
    (hrw : f.access ≠ "RW") (v : BitVec 32) (words : CText.Env) :
    (declared reg).call (setterName f.toFieldCode) (some v) words = none := by
  unfold Struct.call
  split
  next hvalue => cases hvalue
  next declaredName parameter body value hfind hvalue =>
    exfalso
    obtain ⟨hmem, hnames⟩ := Struct.mem_of_find hfind
    have hname : setterName f.toFieldCode = declaredName := List.mem_singleton.mp hnames
    obtain ⟨g, hg, ⟨haccess, hsetter, -⟩ | ⟨-, -, hnone⟩⟩ := mutator_declared hmem
    · have hsame := fieldName_unique h hf hg (setterName_text (hname.trans hsetter))
      exact hrw ((congrArg FieldCode.access hsame).trans haccess)
    · cases hnone
  · rfl

theorem no_clearer (h : (declared reg).Scoped) {f : Field} (hf : f.toFieldCode ∈ reg.fields)
    (hw1c : f.access ≠ "W1C") (words : CText.Env) :
    (declared reg).call (clearerName f.toFieldCode) none words = none := by
  unfold Struct.call
  split
  next declaredName body hfind hvalue =>
    exfalso
    obtain ⟨hmem, hnames⟩ := Struct.mem_of_find hfind
    have hname : clearerName f.toFieldCode = declaredName := List.mem_singleton.mp hnames
    obtain ⟨g, hg, ⟨-, -, hsome⟩ | ⟨haccess, hclearer, -⟩⟩ := mutator_declared hmem
    · cases hsome
    · have hsame := fieldName_unique h hf hg (clearerName_text (hname.trans hclearer))
      exact hw1c ((congrArg FieldCode.access hsame).trans haccess)
  next hvalue => cases hvalue
  · rfl

theorem kAddress_toNat (h : 0 ≤ L.reg.address ∧ L.reg.address < 2 ^ 64) :
    L.kAddress.toNat = L.reg.address.toNat := by
  obtain ⟨m, hm⟩ := Int.eq_ofNat_of_zero_le h.1
  have hlt : m < 2 ^ 64 := by omega
  rw [Layout.kAddress, hm, BitVec.ofInt_natCast, BitVec.toNat_ofNat, Nat.mod_eq_of_lt hlt]
  rfl

instance (f : FieldCode) : Decidable f.Writable :=
  decidable_of_iff (IsName f.name.text ∧ f.bits.hi ≤ 31 ∧ OneLine f.access.toList ∧
      (∀ desc ∈ f.description, isPlain desc ∧ OneLine desc.text) ∧
      ∀ e ∈ f.enum, e.1.text.all isWordChar ∧ isWord32 e.2)
    ⟨fun ⟨name, inWord, access, description, enum⟩ => ⟨name, inWord, access, description,
        fun e he => ⟨List.all_eq_true.mp (enum e he).1, (enum e he).2⟩⟩,
      fun h => ⟨h.name, h.inWord, h.access, h.description,
        fun e he => ⟨List.all_eq_true.mpr (h.enum e he).1, (h.enum e he).2⟩⟩⟩

instance (reg : RegisterCode) : Decidable reg.Writable :=
  decidable_of_iff (IsName reg.block.text ∧ reg.name.text.all isWordChar ∧
      (0 ≤ reg.address ∧ reg.address < 2 ^ 64) ∧ (0 ≤ reg.reset ∧ reg.reset < 2 ^ 32) ∧
      reg.access ∈ ["RW", "RO", "W1C"] ∧
      (∀ desc ∈ reg.description, isPlain desc ∧ OneLine desc.text) ∧ ∀ f ∈ reg.fields, f.Writable)
    ⟨fun ⟨block, name, address, reset, access, description, fields⟩ =>
        ⟨block, List.all_eq_true.mp name, address, reset, access, description, fields⟩,
      fun h => ⟨h.block, List.all_eq_true.mpr h.name, h.address, h.reset, h.access, h.description, h.fields⟩⟩

theorem soc_writable : Writable "soc.yaml".toList "soc_registers.hpp".toList socCode where
  src := by decide
  out := by decide
  blocks := by decide
  registers := by decide +kernel
  names := by decide +kernel

end Meaning

end SocValidation.Regmap
