import SocValidation.Lib.CText

/-!
# Header files of C++

A header with one namespace of plain structs, which have words and constants, an
enumeration or two, and member functions on the words. The text is taken line by line to
tokens and these are read as declarations; a struct that C++ would not take because of
its names is not taken here.
-/

namespace SocValidation.CHeader
open CText (Token Expr Stmt Env)

/-! ### From the text to tokens -/

/- A line with a backslash at its end goes on in the next one. -/
def joined : List Char → List (List Char) → List (List Char)
  | front, [] => if front = [] then [] else [front]
  | front, l :: ls =>
    if l.getLast? = some '\\' then joined (front ++ l.dropLast) ls else (front ++ l) :: joined [] ls

/- What an included file declares is not read. -/
def directives : List (List Char) := ["#include".toList, "#pragma".toList]

def lineTokens (line : List Char) : List Token :=
  if directives.any fun d => d.isPrefixOf line then [] else CText.lex [] line

def tokens (text : List Char) : List Token := (joined [] (text.splitOn '\n')).flatMap lineTokens

/-! ### Declarations -/

/-- The members of a struct: constants, a word with the constant it starts from, the
conversion to a word, enumerations, and the member functions that leave the words alone or
change them. Words have 32 bits. -/
inductive Declaration where
  | number (width : ℕ) (name : String) (value : ℕ)
  | enumerator (type name value : String)
  | text (name text : String)
  | word (name initial : String)
  | conversion (value : Expr)
  | enumeration (name : String) (entries : List (String × ℕ))
  | getter (name : String) (value : Expr)
  | mutator (name : String) (parameter : Option String) (body : List Stmt)
  deriving DecidableEq, Repr

structure Struct where
  name : String
  members : List Declaration
  deriving DecidableEq, Repr

structure Header where
  space : List String
  structs : List Struct
  deriving DecidableEq, Repr

def widthOf (type : String) : Option ℕ :=
  if type = "uint32_t" then some 32 else if type = "uint64_t" then some 64 else none

def constant : List Token → Option (Declaration × List Token)
  | .ident "const" :: .ident "char" :: .sym "*" :: .ident name :: .sym "=" :: .str text :: .sym ";" :: ts =>
    some (.text name text, ts)
  | .ident type :: .ident name :: .sym "=" :: .num n :: .sym ";" :: ts =>
    ((widthOf type).filter fun width => n < 2 ^ width).map fun width => (.number width name n, ts)
  | .ident type :: .ident name :: .sym "=" :: .ident scope :: .sym ":" :: .sym ":" :: .ident value ::
      .sym ";" :: ts =>
    if scope = type then some (.enumerator type name value, ts) else none
  | _ => none

/- The statements up to the brace that ends them. -/
def body (ts : List Token) : Option (List Stmt × List Token) :=
  match ts.dropWhile fun t => t ≠ .sym "\x7d" with
  | _ :: rest => (CText.readTokens (ts.takeWhile fun t => t ≠ .sym "\x7d")).map fun stmts => (stmts, rest)
  | [] => none

def returned (ts : List Token) : Option (Expr × List Token) :=
  (body ts).bind fun r =>
    match r.1 with
    | [.ret value] => some (value, r.2)
    | _ => none

def conversion : List Token → Option (Declaration × List Token)
  | .ident "operator" :: .ident "uint32_t" :: .sym "(" :: .sym ")" :: .ident "const" ::
      .ident "noexcept" :: .sym "\x7b" :: ts =>
    (returned ts).map fun r => (.conversion r.1, r.2)
  | _ => none

def getter : List Token → Option (Declaration × List Token)
  | .ident "constexpr" :: .ident "uint32_t" :: .ident name :: .sym "(" :: .sym ")" :: .ident "const" ::
      .ident "noexcept" :: .sym "\x7b" :: ts =>
    (returned ts).map fun r => (.getter name r.1, r.2)
  | _ => none

def mutator : List Token → Option (Declaration × List Token)
  | .ident name :: .sym "(" :: .sym ")" :: .ident "noexcept" :: .sym "\x7b" :: ts =>
    (body ts).map fun r => (.mutator name none r.1, r.2)
  | .ident name :: .sym "(" :: .ident "uint32_t" :: .ident parameter :: .sym ")" :: .ident "noexcept" ::
      .sym "\x7b" :: ts =>
    (body ts).map fun r => (.mutator name (some parameter) r.1, r.2)
  | _ => none

def entries : List Token → Option (List (String × ℕ) × List Token)
  | .sym "\x7d" :: .sym ";" :: ts => some ([], ts)
  | .ident name :: .sym "=" :: .num n :: .sym "," :: ts =>
    if n < 2 ^ 32 then (entries ts).map fun r => ((name, n) :: r.1, r.2) else none
  | _ => none

def enumeration : List Token → Option (Declaration × List Token)
  | .ident name :: .sym ":" :: .ident "uint32_t" :: .sym "\x7b" :: ts =>
    (entries ts).map fun r => (.enumeration name r.1, r.2)
  | _ => none

def member : List Token → Option (Declaration × List Token)
  | .ident "static" :: .ident "constexpr" :: ts => constant ts
  | .ident "uint32_t" :: .ident name :: .sym "\x7b" :: .ident initial :: .sym "\x7d" :: .sym ";" :: ts =>
    some (.word name initial, ts)
  | .ident "constexpr" :: .ident "explicit" :: ts => conversion ts
  | .ident "enum" :: .ident "class" :: ts => enumeration ts
  | .sym "[" :: .sym "[" :: .ident "nodiscard" :: .sym "]" :: .sym "]" :: ts => getter ts
  | .ident "constexpr" :: .ident "auto" :: .sym "&" :: ts => mutator ts
  | _ => none

def members : ℕ → List Token → Option (List Declaration × List Token)
  | 0, _ => none
  | _ + 1, .sym "\x7d" :: .sym ";" :: ts => some ([], ts)
  | fuel + 1, ts =>
    (member ts).bind fun m => (members fuel m.2).map fun ms => (m.1 :: ms.1, ms.2)

def struct : List Token → Option (Struct × List Token)
  | .ident "struct" :: .ident name :: .sym "\x7b" :: ts =>
    (members ts.length ts).map fun ms => (⟨name, ms.1⟩, ms.2)
  | _ => none

/- Up to the brace that ends the namespace. -/
def structs : ℕ → List Token → Option (List Struct)
  | 0, _ => none
  | _ + 1, [.sym "\x7d"] => some []
  | fuel + 1, ts => (struct ts).bind fun s => (structs fuel s.2).map fun ss => s.1 :: ss

def space : List Token → Option (List String × List Token)
  | .ident name :: .sym "\x7b" :: ts => some ([name], ts)
  | .ident name :: .sym ":" :: .sym ":" :: ts => (space ts).map fun r => (name :: r.1, r.2)
  | _ => none

def header : List Token → Option Header
  | .ident "namespace" :: ts => (space ts).bind fun r => (structs r.2.length r.2).map fun ss => ⟨r.1, ss⟩
  | _ => none

/-! ### Rules of the readers -/

/- The reader takes the tokens, whatever comes behind them. -/
def Reads {α : Type} (p : List Token → Option (α × List Token)) (ts : List Token) (a : α) : Prop :=
  ∀ rest, p (ts ++ rest) = some (a, rest)

theorem reads_number32 (name : String) {n : ℕ} (hn : n < 2 ^ 32) :
    Reads member [.ident "static", .ident "constexpr", .ident "uint32_t", .ident name, .sym "=", .num n,
      .sym ";"] (.number 32 name n) := by
  intro rest
  have hwidth : ((widthOf "uint32_t").filter fun width => decide (n < 2 ^ width)) = some 32 :=
    Option.filter_some_pos (decide_eq_true hn)
  simp [member, constant, hwidth]

theorem reads_number64 (name : String) {n : ℕ} (hn : n < 2 ^ 64) :
    Reads member [.ident "static", .ident "constexpr", .ident "uint64_t", .ident name, .sym "=", .num n,
      .sym ";"] (.number 64 name n) := by
  intro rest
  have hwidth : ((widthOf "uint64_t").filter fun width => decide (n < 2 ^ width)) = some 64 :=
    Option.filter_some_pos (decide_eq_true hn)
  simp [member, constant, hwidth]

theorem reads_enumerator (type name value : String) :
    Reads member [.ident "static", .ident "constexpr", .ident type, .ident name, .sym "=", .ident type,
      .sym ":", .sym ":", .ident value, .sym ";"] (.enumerator type name value) := by
  intro rest
  simp [member, constant]

theorem reads_text (name text : String) :
    Reads member [.ident "static", .ident "constexpr", .ident "const", .ident "char", .sym "*",
      .ident name, .sym "=", .str text, .sym ";"] (.text name text) := by
  intro rest
  simp [member, constant]

theorem reads_word (name initial : String) :
    Reads member [.ident "uint32_t", .ident name, .sym "\x7b", .ident initial, .sym "\x7d", .sym ";"]
      (.word name initial) := by
  intro rest
  simp [member]

theorem body_eq {inside : List Token} {stmts : List Stmt} (hclose : Token.sym "\x7d" ∉ inside)
    (hread : CText.readTokens inside = some stmts) : Reads body (inside ++ [.sym "\x7d"]) stmts := by
  intro rest
  have hinside : ∀ t ∈ inside, decide (t ≠ Token.sym "\x7d") = true := fun t ht =>
    decide_eq_true fun h => hclose (h ▸ ht)
  have hdrop : (inside ++ [Token.sym "\x7d"] ++ rest).dropWhile (fun t => t ≠ Token.sym "\x7d") =
      Token.sym "\x7d" :: rest := by
    rw [List.append_assoc, List.dropWhile_append_of_pos hinside]
    simp
  have htake : (inside ++ [Token.sym "\x7d"] ++ rest).takeWhile (fun t => t ≠ Token.sym "\x7d") = inside := by
    rw [List.append_assoc, List.takeWhile_append_of_pos hinside]
    simp
  rw [body, hdrop, htake, hread]
  rfl

theorem reads_returned {inside : List Token} {value : Expr} (hclose : Token.sym "\x7d" ∉ inside)
    (hread : CText.readTokens inside = some [.ret value]) :
    Reads returned (inside ++ [.sym "\x7d"]) value := by
  intro rest
  rw [returned, body_eq hclose hread rest]
  rfl

theorem reads_getter (name : String) {inside : List Token} {value : Expr}
    (hclose : Token.sym "\x7d" ∉ inside) (hread : CText.readTokens inside = some [.ret value]) :
    Reads member ([.sym "[", .sym "[", .ident "nodiscard", .sym "]", .sym "]", .ident "constexpr",
      .ident "uint32_t", .ident name, .sym "(", .sym ")", .ident "const", .ident "noexcept", .sym "\x7b"] ++
        (inside ++ [.sym "\x7d"])) (.getter name value) := by
  intro rest
  have hreturned := reads_returned hclose hread rest
  rw [List.append_assoc]
  simp only [List.cons_append, List.nil_append, member, getter]
  rw [hreturned]
  rfl

theorem reads_conversion {inside : List Token} {value : Expr} (hclose : Token.sym "\x7d" ∉ inside)
    (hread : CText.readTokens inside = some [.ret value]) :
    Reads member ([.ident "constexpr", .ident "explicit", .ident "operator", .ident "uint32_t", .sym "(",
      .sym ")", .ident "const", .ident "noexcept", .sym "\x7b"] ++ (inside ++ [.sym "\x7d"]))
      (.conversion value) := by
  intro rest
  have hreturned := reads_returned hclose hread rest
  rw [List.append_assoc]
  simp only [List.cons_append, List.nil_append, member, conversion]
  rw [hreturned]
  rfl

theorem reads_mutator (name : String) {inside : List Token} {stmts : List Stmt}
    (hclose : Token.sym "\x7d" ∉ inside) (hread : CText.readTokens inside = some stmts) :
    Reads member ([.ident "constexpr", .ident "auto", .sym "&", .ident name, .sym "(", .sym ")",
      .ident "noexcept", .sym "\x7b"] ++ (inside ++ [.sym "\x7d"])) (.mutator name none stmts) := by
  intro rest
  have hbody := body_eq hclose hread rest
  rw [List.append_assoc]
  simp only [List.cons_append, List.nil_append, member, mutator]
  rw [hbody]
  rfl

theorem reads_setter (name parameter : String) {inside : List Token} {stmts : List Stmt}
    (hclose : Token.sym "\x7d" ∉ inside) (hread : CText.readTokens inside = some stmts) :
    Reads member ([.ident "constexpr", .ident "auto", .sym "&", .ident name, .sym "(", .ident "uint32_t",
      .ident parameter, .sym ")", .ident "noexcept", .sym "\x7b"] ++ (inside ++ [.sym "\x7d"]))
      (.mutator name (some parameter) stmts) := by
  intro rest
  have hbody := body_eq hclose hread rest
  rw [List.append_assoc]
  simp only [List.cons_append, List.nil_append, member, mutator]
  rw [hbody]
  rfl

def entryTokens (e : String × ℕ) : List Token := [.ident e.1, .sym "=", .num e.2, .sym ","]

theorem reads_entries {es : List (String × ℕ)} (h : ∀ e ∈ es, e.2 < 2 ^ 32) :
    Reads entries (es.flatMap entryTokens ++ [.sym "\x7d", .sym ";"]) es := by
  intro rest
  induction es with
  | nil => rfl
  | cons e es ih =>
    obtain ⟨he, hes⟩ := List.forall_mem_cons.mp h
    simp only [List.flatMap_cons, entryTokens, List.cons_append, List.nil_append, entries]
    rw [if_pos he, ih hes]
    rfl

theorem reads_enumeration (name : String) {es : List (String × ℕ)} (h : ∀ e ∈ es, e.2 < 2 ^ 32) :
    Reads member ([.ident "enum", .ident "class", .ident name, .sym ":", .ident "uint32_t", .sym "\x7b"] ++
      (es.flatMap entryTokens ++ [.sym "\x7d", .sym ";"])) (.enumeration name es) := by
  intro rest
  have hentries := reads_entries h rest
  rw [List.append_assoc]
  simp only [List.cons_append, List.nil_append, member, enumeration]
  rw [hentries]
  rfl

/-! ### Sequences of declarations -/

theorem Reads.not_close {ts rest us : List Token} {m : Declaration} (h : Reads member ts m) :
    ts ++ rest ≠ .sym "\x7d" :: us := by
  intro heq
  have hmember := h rest
  rw [heq] at hmember
  simp [member] at hmember

theorem members_succ {fuel : ℕ} {ts : List Token} (h : ∀ us, ts ≠ .sym "\x7d" :: us) :
    members (fuel + 1) ts =
      (member ts).bind fun m => (members fuel m.2).map fun ms => (m.1 :: ms.1, ms.2) := by
  rw [members]
  rintro us rfl
  exact h _ rfl

theorem reads_members {ps : List (List Token × Declaration)} (h : ∀ p ∈ ps, Reads member p.1 p.2) {fuel : ℕ}
    (hfuel : ps.length < fuel) :
    Reads (members fuel) (ps.flatMap Prod.fst ++ [.sym "\x7d", .sym ";"]) (ps.map Prod.snd) := by
  intro rest
  induction ps generalizing fuel with
  | nil =>
    obtain ⟨k, rfl⟩ : ∃ k, fuel = k + 1 := ⟨fuel - 1, by simp at hfuel; omega⟩
    rfl
  | cons p ps ih =>
    obtain ⟨hp, hps⟩ := List.forall_mem_cons.mp h
    rw [List.length_cons] at hfuel
    obtain ⟨k, rfl⟩ : ∃ k, fuel = k + 1 := ⟨fuel - 1, by omega⟩
    have hrest := ih hps (show ps.length < k by omega)
    rw [List.flatMap_cons, List.append_assoc, List.append_assoc, members_succ fun _ => hp.not_close, hp,
      Option.bind_some, ← List.append_assoc, hrest]
    rfl

/- A reader that takes nothing from nothing takes a token for each of its results. -/
theorem length_le_flatMap {α : Type} {p : List Token → Option (α × List Token)} (hp : p [] = none)
    {ps : List (List Token × α)} (h : ∀ q ∈ ps, Reads p q.1 q.2) :
    ps.length ≤ (ps.flatMap Prod.fst).length := by
  induction ps with
  | nil => rfl
  | cons q ps ih =>
    obtain ⟨hq, hps⟩ := List.forall_mem_cons.mp h
    have hne : q.1 ≠ [] := by
      intro hnil
      have hread := hq []
      rw [hnil, List.nil_append, hp] at hread
      cases hread
    have hpos := List.length_pos_of_ne_nil hne
    have hrest := ih hps
    rw [List.flatMap_cons, List.length_append, List.length_cons]
    omega

theorem reads_struct (name : String) {ps : List (List Token × Declaration)}
    (h : ∀ p ∈ ps, Reads member p.1 p.2) :
    Reads struct ([.ident "struct", .ident name, .sym "\x7b"] ++
      (ps.flatMap Prod.fst ++ [.sym "\x7d", .sym ";"])) ⟨name, ps.map Prod.snd⟩ := by
  intro rest
  have hlength := length_le_flatMap (rfl : member [] = none) h
  have hmembers := fun fuel hfuel => @reads_members ps h fuel hfuel rest
  rw [List.append_assoc]
  simp only [List.cons_append, List.nil_append, struct]
  rw [hmembers]
  · rfl
  · simp only [List.length_append, List.length_cons]
    omega

theorem structs_read {ps : List (List Token × Struct)} (h : ∀ p ∈ ps, Reads struct p.1 p.2) {fuel : ℕ}
    (hfuel : ps.length < fuel) :
    structs fuel (ps.flatMap Prod.fst ++ [.sym "\x7d"]) = some (ps.map Prod.snd) := by
  induction ps generalizing fuel with
  | nil =>
    obtain ⟨k, rfl⟩ : ∃ k, fuel = k + 1 := ⟨fuel - 1, by simp at hfuel; omega⟩
    rfl
  | cons p ps ih =>
    obtain ⟨hp, hps⟩ := List.forall_mem_cons.mp h
    rw [List.length_cons] at hfuel
    obtain ⟨k, rfl⟩ : ∃ k, fuel = k + 1 := ⟨fuel - 1, by omega⟩
    have hstruct := hp (ps.flatMap Prod.fst ++ [.sym "\x7d"])
    have hopen : p.1 ++ (ps.flatMap Prod.fst ++ [.sym "\x7d"]) ≠ [Token.sym "\x7d"] := by
      intro heq
      rw [heq] at hstruct
      simp [struct] at hstruct
    rw [List.flatMap_cons, List.append_assoc, structs, hstruct, Option.bind_some,
      ih hps (show ps.length < k by omega)]
    · rfl
    · exact hopen

/-! ### Lines -/

/- The text stays on its line. -/
def OneLine (text : List Char) : Prop := '\n' ∉ text ∧ text.getLast? ≠ some '\\'

instance (text : List Char) : Decidable (OneLine text) := inferInstanceAs (Decidable (_ ∧ _))

theorem OneLine.append {a b : List Char} (ha : OneLine a) (hb : OneLine b) : OneLine (a ++ b) := by
  refine ⟨fun h => (List.mem_append.mp h).elim ha.1 hb.1, fun h => ?_⟩
  rw [List.getLast?_append, Option.or_eq_some_iff] at h
  exact h.elim hb.2 fun h => ha.2 h.2

theorem oneLine_of_word {text : List Char} (h : ∀ c ∈ text, CText.isWordChar c) : OneLine text :=
  ⟨fun hmem => absurd (h _ hmem) (by decide), fun hlast =>
    absurd (h _ (List.mem_of_getLast? hlast)) (by decide)⟩

/- The lines stand for the tokens wherever they are in the text. -/
structure Spelled (lines : List (List Char)) (ts : List Token) : Prop where
  whole : ∀ l ∈ lines, OneLine l
  cut : lines.flatMap lineTokens = ts

theorem Spelled.append {lines lines' : List (List Char)} {ts ts' : List Token} (h : Spelled lines ts)
    (h' : Spelled lines' ts') : Spelled (lines ++ lines') (ts ++ ts') where
  whole l hl := (List.mem_append.mp hl).elim (h.whole l) (h'.whole l)
  cut := by rw [List.flatMap_append, h.cut, h'.cut]

theorem spelled_nil : Spelled [] [] := ⟨fun _ hl => absurd hl List.not_mem_nil, rfl⟩

/- No directive. -/
theorem spelled_line {line : List Char} {ts : List Token} (hline : OneLine line)
    (hfirst : line.head? ≠ some '#') (hlex : CText.lex [] line = ts) : Spelled [line] ts where
  whole l hl := List.mem_singleton.mp hl ▸ hline
  cut := by
    have hdirective : directives.any (fun d => d.isPrefixOf line) = false := by
      cases line with
      | nil => rfl
      | cons c cs =>
        have hc : ('#' == c) = false := by
          rw [beq_eq_false_iff_ne]
          rintro rfl
          exact hfirst rfl
        simp [directives, List.isPrefixOf, hc]
    rw [List.flatMap_singleton, lineTokens, if_neg (by simp [hdirective]), hlex]

theorem spelled_directive {line : List Char} (hline : OneLine line)
    (h : directives.any fun d => d.isPrefixOf line) : Spelled [line] [] where
  whole l hl := List.mem_singleton.mp hl ▸ hline
  cut := by rw [List.flatMap_singleton, lineTokens, if_pos h]

theorem spelled_blank : Spelled [[]] [] := spelled_line (by decide) (by decide) rfl

theorem Spelled.cons {line : List Char} {lines : List (List Char)} {ts ts' : List Token}
    (h : Spelled [line] ts) (h' : Spelled lines ts') : Spelled (line :: lines) (ts ++ ts') :=
  h.append h'

theorem joined_whole {lines : List (List Char)} (h : ∀ l ∈ lines, l.getLast? ≠ some '\\') :
    joined [] lines = lines := by
  induction lines with
  | nil => rfl
  | cons l lines ih =>
    obtain ⟨hl, hlines⟩ := List.forall_mem_cons.mp h
    rw [joined, if_neg hl, ih hlines, List.nil_append]

theorem tokens_of_spelled {lines : List (List Char)} {ts : List Token} (h : Spelled lines ts)
    (hne : lines ≠ []) : tokens (['\n'].intercalate lines) = ts := by
  rw [tokens, List.splitOn_intercalate '\n' (fun l hl => (h.whole l hl).1) hne,
    joined_whole fun l hl => (h.whole l hl).2, h.cut]

/- The lines are read as these declarations. -/
def Declares {α : Type} (p : List Token → Option (α × List Token)) (lines : List (List Char))
    (as : List α) : Prop :=
  ∃ ps : List (List Token × α), Spelled lines (ps.flatMap Prod.fst) ∧ (∀ q ∈ ps, Reads p q.1 q.2) ∧
    ps.map Prod.snd = as

section Declares
variable {α β : Type} {p : List Token → Option (α × List Token)} {lines lines' : List (List Char)}
variable {as as' : List α} {a : α} {ts : List Token}

/- Comments and empty lines. -/
theorem Declares.silent (h : Spelled lines []) : Declares p lines [] :=
  ⟨[], h, fun _ hq => absurd hq List.not_mem_nil, rfl⟩

theorem Declares.single (h : Spelled lines ts) (hreads : Reads p ts a) : Declares p lines [a] :=
  ⟨[(ts, a)], by simpa using h, fun q hq => List.mem_singleton.mp hq ▸ hreads, rfl⟩

theorem Declares.append (h : Declares p lines as) (h' : Declares p lines' as') :
    Declares p (lines ++ lines') (as ++ as') := by
  obtain ⟨ps, hs, hr, rfl⟩ := h
  obtain ⟨ps', hs', hr', rfl⟩ := h'
  refine ⟨ps ++ ps', ?_, fun q hq => (List.mem_append.mp hq).elim (hr q) (hr' q), List.map_append⟩
  rw [List.flatMap_append]
  exact hs.append hs'

theorem Declares.flatMap {xs : List β} {f : β → List (List Char)} {g : β → List α}
    (h : ∀ x ∈ xs, Declares p (f x) (g x)) : Declares p (xs.flatMap f) (xs.flatMap g) := by
  induction xs with
  | nil => exact Declares.silent spelled_nil
  | cons x xs ih =>
    obtain ⟨hx, hxs⟩ := List.forall_mem_cons.mp h
    rw [List.flatMap_cons, List.flatMap_cons]
    exact hx.append (ih hxs)

end Declares

theorem declares_struct {head lines foot : List (List Char)} {name : String} {ms : List Declaration}
    (hhead : Spelled head [.ident "struct", .ident name, .sym "\x7b"])
    (hlines : Declares member lines ms) (hfoot : Spelled foot [.sym "\x7d", .sym ";"]) :
    Declares struct (head ++ (lines ++ foot)) [⟨name, ms⟩] := by
  obtain ⟨ps, hs, hr, rfl⟩ := hlines
  exact Declares.single (hhead.append (hs.append hfoot)) (reads_struct name hr)

theorem header_of_lines {head lines foot : List (List Char)} {outer inner : String} {ss : List Struct}
    (hhead : Spelled head [.ident "namespace", .ident outer, .sym ":", .sym ":", .ident inner,
      .sym "\x7b"])
    (hlines : Declares struct lines ss) (hfoot : Spelled foot [.sym "\x7d"]) (hne : head ≠ []) :
    header (tokens (['\n'].intercalate (head ++ (lines ++ foot)))) = some ⟨[outer, inner], ss⟩ := by
  obtain ⟨ps, hs, hr, rfl⟩ := hlines
  have hlength := length_le_flatMap (rfl : struct [] = none) hr
  rw [tokens_of_spelled (hhead.append (hs.append hfoot)) (by simp [hne])]
  simp only [List.cons_append, List.nil_append, header, space, Option.map_some, Option.bind_some]
  rw [structs_read hr (by rw [List.length_append, List.length_singleton]; omega)]
  rfl

/-! ### Names -/

/- The keywords of C++17 and the types of the members. -/
def reserved : List String :=
  ["alignas", "alignof", "and", "and_eq", "asm", "auto", "bitand", "bitor", "bool", "break", "case",
    "catch", "char", "char16_t", "char32_t", "class", "compl", "const", "const_cast", "constexpr",
    "continue", "decltype", "default", "delete", "do", "double", "dynamic_cast", "else", "enum",
    "explicit", "export", "extern", "false", "float", "for", "friend", "goto", "if", "inline", "int",
    "long", "mutable", "namespace", "new", "noexcept", "not", "not_eq", "nullptr", "operator", "or",
    "or_eq", "private", "protected", "public", "register", "reinterpret_cast", "return", "short",
    "signed", "sizeof", "static", "static_assert", "static_cast", "struct", "switch", "template",
    "this", "thread_local", "throw", "true", "try", "typedef", "typeid", "typename", "uint32_t",
    "uint64_t", "union", "unsigned", "using", "virtual", "void", "volatile", "wchar_t", "while", "xor",
    "xor_eq"]

namespace Declaration

def names : Declaration → List String
  | .number _ name _ => [name]
  | .enumerator _ name _ => [name]
  | .text name _ => [name]
  | .word name _ => [name]
  | .conversion _ => []
  | .enumeration name _ => [name]
  | .getter name _ => [name]
  | .mutator name _ _ => [name]

/- The names inside of an enumeration. -/
def inner : Declaration → List String
  | .enumeration _ entries => entries.map Prod.fst
  | _ => []

/- The types that it takes from elsewhere. -/
def types : Declaration → List String
  | .enumerator type _ _ => [type]
  | _ => []

end Declaration

namespace Struct

def names (s : Struct) : List String := s.members.flatMap Declaration.names

/- Each name is declared once, and none has another meaning already. -/
def Scoped (s : Struct) : Prop :=
  (s.name :: s.names).Nodup ∧ (∀ name ∈ s.name :: s.names, name ∉ reserved) ∧
    (∀ m ∈ s.members, m.inner.Nodup ∧ (∀ name ∈ m.inner, name ∉ reserved) ∧
      ∀ type ∈ m.types, type ∉ s.names)

instance (s : Struct) : Decidable s.Scoped := inferInstanceAs (Decidable (_ ∧ _))

end Struct

def Header.Scoped (h : Header) : Prop :=
  (h.structs.map Struct.name).Nodup ∧ ∀ s ∈ h.structs, s.Scoped

instance (h : Header) : Decidable h.Scoped := inferInstanceAs (Decidable (_ ∧ _))

def readHeader (text : List Char) : Option Header := (header (tokens text)).filter fun h => h.Scoped

/-! ### Objects -/

namespace Struct

def find (s : Struct) (name : String) : Option Declaration := s.members.find? fun m => name ∈ m.names

def number (s : Struct) (name : String) : Option ℕ :=
  match s.find name with
  | some (.number _ _ value) => some value
  | _ => none

/- The words of a new object. -/
def fresh (s : Struct) : Env := fun name =>
  match s.find name with
  | some (.word _ initial) => (s.number initial).map (BitVec.ofNat 32)
  | _ => none

def get (s : Struct) (name : String) (words : Env) : Option (BitVec 32) :=
  match s.find name with
  | some (.getter _ value) => CText.eval words value
  | _ => none

/- A call that changes the words. What the parameter holds is gone after it. -/
def call (s : Struct) (name : String) (argument : Option (BitVec 32)) (words : Env) : Option Env :=
  match s.find name, argument with
  | some (.mutator _ none body), none => (CText.exec body words).map Prod.fst
  | some (.mutator _ (some parameter) body), some value =>
    if (words parameter).isSome then none
    else (CText.exec body (Function.update words parameter (some value))).map fun r =>
      Function.update r.1 parameter none
  | _, _ => none

/- A name is found where it is declared. -/
theorem find_of_mem {s : Struct} (h : s.Scoped) {m : Declaration} (hm : m ∈ s.members) {name : String}
    (hname : name ∈ m.names) : s.find name = some m := by
  have hnodup : (s.members.flatMap Declaration.names).Nodup := (List.nodup_cons.mp h.1).2
  rw [find]
  generalize s.members = ms at hm hnodup
  induction ms with
  | nil => cases hm
  | cons m' ms ih =>
    rw [List.flatMap_cons, List.nodup_append] at hnodup
    obtain ⟨-, hrest, hdisjoint⟩ := hnodup
    rcases List.mem_cons.mp hm with rfl | hm
    · exact List.find?_cons_of_pos (decide_eq_true hname)
    · have hlater : name ∈ ms.flatMap Declaration.names := List.mem_flatMap.mpr ⟨m, hm, hname⟩
      have hother : name ∉ m'.names := fun hmem => hdisjoint name hmem name hlater rfl
      rw [List.find?_cons_of_neg (by simp [hother])]
      exact ih hm hrest

theorem mem_of_find {s : Struct} {name : String} {m : Declaration} (h : s.find name = some m) :
    m ∈ s.members ∧ name ∈ m.names := by
  rw [find] at h
  have hname := List.find?_some h
  exact ⟨List.mem_of_find?_eq_some h, of_decide_eq_true hname⟩

section Calls
variable {s : Struct} {name declaredName parameter : String} {body : List Stmt} {words : Env}

theorem call_plain (h : s.find name = some (.mutator declaredName none body)) :
    s.call name none words = (CText.exec body words).map Prod.fst := by
  unfold call
  rw [h]

theorem call_parameter (h : s.find name = some (.mutator declaredName (some parameter) body))
    (hfree : words parameter = none) (value : BitVec 32) : s.call name (some value) words =
      (CText.exec body (Function.update words parameter (some value))).map fun r =>
        Function.update r.1 parameter none := by
  unfold call
  rw [h]
  simp only [hfree]
  rfl

end Calls

end Struct

end SocValidation.CHeader
