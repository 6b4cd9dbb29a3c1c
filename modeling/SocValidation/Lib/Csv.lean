import Mathlib.Data.List.Basic

/-!
# Comma-separated rows of fields

A reader with the double-quote convention: a field that starts with a quote runs to
the next single quote, in which two quotes stand for one; a quote elsewhere is a
character like others. Line feeds and carriage returns end rows, and empty lines are
skipped. The writer never quotes, so it is read back just where no field needs it.
-/

namespace SocValidation.Csv

abbrev Field := List Char

def comma : Char := ','
def quote : Char := Char.ofNat 0x22
def lineFeed : Char := Char.ofNat 0x0A
def carriageReturn : Char := Char.ofNat 0x0D

def EndsRow (c : Char) : Prop := c = lineFeed ∨ c = carriageReturn

instance (c : Char) : Decidable (EndsRow c) := inferInstanceAs (Decidable (_ ∨ _))

/-! ### The reader -/

/- What is left of the current field, the fields after it in its row, and the rows
after that. -/
structure Cells where
  field : Field
  row : List Field
  rows : List (List Field)
  deriving DecidableEq, Repr

namespace Cells

def push (c : Char) (k : Cells) : Cells := { k with field := c :: k.field }

def nextField (k : Cells) : Cells := ⟨[], k.field :: k.row, k.rows⟩

def startRow (k : Cells) : Cells := ⟨[], [], (k.field :: k.row) :: k.rows⟩

def endRow (k : Cells) : Cells := ⟨[], [], k.rows⟩

/- The row with the current field, and the rows after it. -/
def split (k : Cells) : List Field × List (List Field) := (k.field :: k.row, k.rows)

end Cells

/- Where the reader stands: between rows, before a field, inside one, inside quotes,
or after a quote inside quotes. -/
inductive Mode where
  | record
  | field
  | plain
  | quoted
  | closing
  deriving DecidableEq, Repr

/- There is no result if the text ends inside quotes. -/
def read : Mode → List Char → Option Cells
  | .quoted, [] => none
  | _, [] => some ⟨[], [], []⟩
  | .record, c :: cs =>
    if EndsRow c then read .record cs
    else if c = quote then (read .quoted cs).map Cells.startRow
    else if c = comma then (read .field cs).map fun k => k.nextField.startRow
    else (read .plain cs).map fun k => (k.push c).startRow
  | .field, c :: cs =>
    if EndsRow c then (read .record cs).map Cells.endRow
    else if c = quote then read .quoted cs
    else if c = comma then (read .field cs).map Cells.nextField
    else (read .plain cs).map (Cells.push c)
  | .plain, c :: cs =>
    if EndsRow c then (read .record cs).map Cells.endRow
    else if c = comma then (read .field cs).map Cells.nextField
    else (read .plain cs).map (Cells.push c)
  | .quoted, c :: cs => if c = quote then read .closing cs else (read .quoted cs).map (Cells.push c)
  | .closing, c :: cs =>
    if c = quote then (read .quoted cs).map (Cells.push c)
    else if EndsRow c then (read .record cs).map Cells.endRow
    else if c = comma then (read .field cs).map Cells.nextField
    else (read .plain cs).map (Cells.push c)

theorem read_record {c : Char} {cs : List Char} : read .record (c :: cs) =
    if EndsRow c then read .record cs
    else if c = quote then (read .quoted cs).map Cells.startRow
    else if c = comma then (read .field cs).map fun k => k.nextField.startRow
    else (read .plain cs).map fun k => (k.push c).startRow := rfl

theorem read_field {c : Char} {cs : List Char} : read .field (c :: cs) =
    if EndsRow c then (read .record cs).map Cells.endRow
    else if c = quote then read .quoted cs
    else if c = comma then (read .field cs).map Cells.nextField
    else (read .plain cs).map (Cells.push c) := rfl

theorem read_plain {c : Char} {cs : List Char} : read .plain (c :: cs) =
    if EndsRow c then (read .record cs).map Cells.endRow
    else if c = comma then (read .field cs).map Cells.nextField
    else (read .plain cs).map (Cells.push c) := rfl

theorem read_quoted {c : Char} {cs : List Char} : read .quoted (c :: cs) =
    if c = quote then read .closing cs else (read .quoted cs).map (Cells.push c) := rfl

theorem read_closing {c : Char} {cs : List Char} : read .closing (c :: cs) =
    if c = quote then (read .quoted cs).map (Cells.push c)
    else if EndsRow c then (read .record cs).map Cells.endRow
    else if c = comma then (read .field cs).map Cells.nextField
    else (read .plain cs).map (Cells.push c) := rfl

def parse (text : List Char) : Option (List (List Field)) := (read .record text).map Cells.rows

/-! ### The writer -/

/- A row of the fields and a last one. -/
def rowText : List Field → Field → List Char
  | [], last => last ++ [lineFeed]
  | u :: us, last => u ++ comma :: rowText us last

def write (rows : List (List Field × Field)) : List Char := rows.flatMap fun row => rowText row.1 row.2

/- Nothing in the field has a meaning for the reader. -/
def Bare (u : Field) : Prop := (∀ c ∈ u, c ≠ comma ∧ ¬EndsRow c) ∧ u.head? ≠ some quote

instance (u : Field) : Decidable (Bare u) := inferInstanceAs (Decidable (_ ∧ _))

theorem bare_of_chars {u : Field} (h : ∀ c ∈ u, c ≠ comma ∧ ¬EndsRow c ∧ c ≠ quote) : Bare u := by
  refine ⟨fun c hc => ⟨(h c hc).1, (h c hc).2.1⟩, fun hhead => ?_⟩
  exact (h quote (List.mem_of_head? hhead)).2.2 rfl

/-! ### Bare fields are read as they are -/

variable {u v : Field} {us : List Field} {c x : Char} {cs : List Char} {k : Cells}

theorem read_plain_append (h : ∀ c ∈ u, c ≠ comma ∧ ¬EndsRow c) :
    read .plain (u ++ cs) = (read .plain cs).map fun k => { k with field := u ++ k.field } := by
  induction u with
  | nil => simp
  | cons c u ih =>
    obtain ⟨hcomma, hends⟩ := h c List.mem_cons_self
    rw [List.cons_append, read_plain, if_neg hends, if_neg hcomma, ih fun d hd => h d (List.mem_cons_of_mem _ hd),
      Option.map_map]
    rfl

theorem read_field_cons (hb : Bare (c :: u)) :
    read .field (c :: u ++ cs) = (read .plain (c :: u ++ cs)) := by
  obtain ⟨hcomma, hends⟩ := hb.1 c List.mem_cons_self
  have hquote : c ≠ quote := fun hc => hb.2 (by rw [hc]; rfl)
  rw [List.cons_append, read_field, read_plain, if_neg hends, if_neg hends, if_neg hquote]

theorem read_bare_comma (hb : Bare u) : read .field (u ++ comma :: cs) =
    (read .field cs).map fun k => ⟨u, k.field :: k.row, k.rows⟩ := by
  cases u with
  | nil => rfl
  | cons c u =>
    rw [read_field_cons hb, read_plain_append hb.1, read_plain, if_neg (by decide), if_pos rfl, Option.map_map]
    simp [Function.comp_def, Cells.nextField]

theorem read_bare_end (hb : Bare u) : read .field (u ++ lineFeed :: cs) =
    (read .record cs).map fun k => ⟨u, [], k.rows⟩ := by
  cases u with
  | nil => rfl
  | cons c u =>
    rw [read_field_cons hb, read_plain_append hb.1, read_plain, if_pos (by decide), Option.map_map]
    simp [Function.comp_def, Cells.endRow]

/- Bare fields in front of a last one, whatever the last one is. -/
theorem read_row (h : ∀ u ∈ us, Bare u) (last : Field) :
    (read .field (rowText us last ++ cs)).map Cells.split =
      (read .field (last ++ lineFeed :: cs)).map fun k => (us ++ k.split.1, k.rows) := by
  induction us with
  | nil =>
    rw [rowText, List.append_assoc]
    rfl
  | cons u us ih =>
    have hrest := ih fun w hw => h w (List.mem_cons_of_mem _ hw)
    have hfirst := congrArg (Option.map fun p : List Field × List (List Field) => (u :: p.1, p.2)) hrest
    rw [Option.map_map, Option.map_map] at hfirst
    rw [rowText, List.append_assoc, List.cons_append, read_bare_comma (h u List.mem_cons_self),
      Option.map_map]
    exact hfirst

theorem read_record_cons (hends : ¬EndsRow c) :
    read .record (c :: cs) = (read .field (c :: cs)).map Cells.startRow := by
  rw [read_record, read_field, if_neg hends, if_neg hends]
  by_cases hquote : c = quote
  · rw [if_pos hquote, if_pos hquote]
  by_cases hcomma : c = comma
  · rw [if_neg hquote, if_neg hquote, if_pos hcomma, if_pos hcomma, Option.map_map]
    rfl
  · rw [if_neg hquote, if_neg hquote, if_neg hcomma, if_neg hcomma, Option.map_map]
    rfl

/-! ### What is read as it was written is bare -/

theorem bare_of_plain (h : read .plain (u ++ lineFeed :: cs) = some k) (hu : k.field = u) :
    ∀ c ∈ u, c ≠ comma ∧ ¬EndsRow c := by
  induction u generalizing k with
  | nil => simp
  | cons d u ih =>
    rw [List.cons_append, read_plain] at h
    by_cases hends : EndsRow d
    · rw [if_pos hends] at h
      obtain ⟨k', -, rfl⟩ := Option.map_eq_some_iff.mp h
      cases hu
    rw [if_neg hends] at h
    by_cases hcomma : d = comma
    · rw [if_pos hcomma] at h
      obtain ⟨k', -, rfl⟩ := Option.map_eq_some_iff.mp h
      cases hu
    rw [if_neg hcomma] at h
    obtain ⟨k', hk', rfl⟩ := Option.map_eq_some_iff.mp h
    intro c hc
    rcases List.mem_cons.mp hc with rfl | hc
    · exact ⟨hcomma, hends⟩
    · exact ih hk' (List.cons.inj hu).2 c hc

/- Inside quotes the reader falls behind by one quote for each pair of quotes, and
so never makes up for the quote that opened the field. -/
theorem quoted_ne (n : ℕ) : ∀ (v : Field) (j : ℕ) (k : Cells), v.length ≤ n →
    read .quoted (v ++ lineFeed :: cs) = some k → k.field ≠ List.replicate (j + 1) quote ++ v := by
  induction n with
  | zero =>
    intro v j k hv h heq
    rw [List.length_eq_zero_iff.mp (Nat.le_zero.mp hv)] at h heq
    rw [List.nil_append, read_quoted, if_neg (by decide)] at h
    obtain ⟨k', -, rfl⟩ := Option.map_eq_some_iff.mp h
    have hhead : lineFeed = quote := (List.cons.inj heq).1
    exact absurd hhead (by decide)
  | succ n ih =>
    intro v j k hv h heq
    cases v with
    | nil => exact ih [] j k (Nat.zero_le n) h heq
    | cons c v =>
      rw [List.cons_append, read_quoted] at h
      by_cases hquote : c = quote
      · rw [if_pos hquote] at h
        cases v with
        | nil =>
          rw [List.nil_append, read_closing, if_neg (by decide), if_pos (by decide)] at h
          obtain ⟨k', -, rfl⟩ := Option.map_eq_some_iff.mp h
          cases heq
        | cons d v =>
          rw [List.cons_append, read_closing] at h
          by_cases hpair : d = quote
          · rw [if_pos hpair] at h
            obtain ⟨k', hk', rfl⟩ := Option.map_eq_some_iff.mp h
            have htail : k'.field = List.replicate j quote ++ c :: d :: v := (List.cons.inj heq).2
            apply ih v (j + 1) k' (by simp only [List.length_cons] at hv; omega) hk'
            rw [htail, hquote, hpair, List.replicate_succ', List.replicate_succ', List.append_assoc,
              List.append_assoc]
            rfl
          rw [if_neg hpair] at h
          by_cases hends : EndsRow d
          · rw [if_pos hends] at h
            obtain ⟨k', -, rfl⟩ := Option.map_eq_some_iff.mp h
            cases heq
          rw [if_neg hends] at h
          by_cases hcomma : d = comma
          · rw [if_pos hcomma] at h
            obtain ⟨k', -, rfl⟩ := Option.map_eq_some_iff.mp h
            cases heq
          rw [if_neg hcomma] at h
          obtain ⟨k', -, rfl⟩ := Option.map_eq_some_iff.mp h
          exact hpair (List.cons.inj heq).1
      · rw [if_neg hquote] at h
        obtain ⟨k', -, rfl⟩ := Option.map_eq_some_iff.mp h
        exact hquote (List.cons.inj heq).1

theorem bare_of_read (h : read .field (u ++ lineFeed :: cs) = some k) (hu : k.field = u) : Bare u := by
  cases u with
  | nil => exact ⟨by simp, by simp⟩
  | cons c u =>
    rw [List.cons_append, read_field] at h
    by_cases hends : EndsRow c
    · rw [if_pos hends] at h
      obtain ⟨k', -, rfl⟩ := Option.map_eq_some_iff.mp h
      cases hu
    rw [if_neg hends] at h
    by_cases hquote : c = quote
    · rw [if_pos hquote] at h
      exact absurd (hquote ▸ hu) (quoted_ne u.length u 0 k (Nat.le_refl _) h)
    rw [if_neg hquote] at h
    by_cases hcomma : c = comma
    · rw [if_pos hcomma] at h
      obtain ⟨k', -, rfl⟩ := Option.map_eq_some_iff.mp h
      cases hu
    rw [if_neg hcomma] at h
    obtain ⟨k', hk', rfl⟩ := Option.map_eq_some_iff.mp h
    have hrest := bare_of_plain hk' (List.cons.inj hu).2
    refine ⟨fun d hd => ?_, fun hhead => hquote (Option.some.inj hhead)⟩
    rcases List.mem_cons.mp hd with rfl | hd
    · exact ⟨hcomma, hends⟩
    · exact hrest d hd

/-! ### Rows with a bare front -/

/- All fields but the last are bare, and the first of them is not empty. -/
structure Front (us : List Field) : Prop where
  bare : ∀ u ∈ us, Bare u
  first : ∃ c u vs, us = (c :: u) :: vs

variable {rows : List (List Field × Field)} {rows' : List (List Field)} {row : List Field} {last : Field}

theorem read_front (h : Front us) :
    (read .record (rowText us last ++ cs)).map Cells.rows =
      (read .field (last ++ lineFeed :: cs)).map fun k => (us ++ k.split.1) :: k.rows := by
  have hsplit : (read .field (rowText us last ++ cs)).map Cells.split =
      (read .field (last ++ lineFeed :: cs)).map fun k => (us ++ k.split.1, k.rows) :=
    read_row h.bare last
  have hrow := congrArg (Option.map fun p : List Field × List (List Field) => p.1 :: p.2) hsplit
  rw [Option.map_map, Option.map_map] at hrow
  obtain ⟨c, u, vs, rfl⟩ := h.first
  have hends : ¬EndsRow c := ((h.bare _ List.mem_cons_self).1 c List.mem_cons_self).2
  have htext : ∃ text, rowText ((c :: u) :: vs) last ++ cs = c :: text := ⟨_, rfl⟩
  obtain ⟨text, htext⟩ := htext
  rw [htext] at hrow ⊢
  rw [read_record_cons hends, Option.map_map]
  exact hrow

theorem write_cons (r : List Field × Field) : write (r :: rows) = rowText r.1 r.2 ++ write rows :=
  List.flatMap_cons

/-- Bare fields are read back. -/
theorem parse_write (hfront : ∀ r ∈ rows, Front r.1) (hlast : ∀ r ∈ rows, Bare r.2) :
    parse (write rows) = some (rows.map fun r => r.1 ++ [r.2]) := by
  induction rows with
  | nil => rfl
  | cons r rows ih =>
    have hrest := ih (fun q hq => hfront q (List.mem_cons_of_mem _ hq))
      fun q hq => hlast q (List.mem_cons_of_mem _ hq)
    have hprefix := congrArg (Option.map fun rows => (r.1 ++ [r.2]) :: rows) hrest
    rw [parse, Option.map_map] at hprefix
    rw [parse, write_cons, read_front (hfront r List.mem_cons_self),
      read_bare_end (hlast r List.mem_cons_self), Option.map_map]
    exact hprefix

/-- If each row comes back with its number of fields and its last field, then all
last fields are bare. -/
theorem bare_of_parse (hfront : ∀ r ∈ rows, Front r.1) (h : parse (write rows) = some rows')
    (hrows : List.Forall₂ (fun row r => row.length = r.1.length + 1 ∧ row.getLast? = some r.2) rows' rows) :
    ∀ r ∈ rows, Bare r.2 := by
  induction rows generalizing rows' with
  | nil => simp
  | cons r rows ih =>
    cases hrows with
    | cons hrow hrest =>
      obtain ⟨hlength, hlast⟩ := hrow
      rw [parse, write_cons, read_front (hfront r List.mem_cons_self)] at h
      obtain ⟨k, hk, heq⟩ := Option.map_eq_some_iff.mp h
      obtain ⟨rfl, rfl⟩ := List.cons.inj heq
      have hnil : k.row = [] := by
        rw [List.length_append] at hlength
        simp only [Cells.split, List.length_cons] at hlength
        exact List.length_eq_zero_iff.mp (by omega)
      have hfield : k.field = r.2 := by
        simp only [Cells.split, hnil] at hlast
        rw [List.getLast?_append_cons] at hlast
        exact Option.some.inj hlast
      have hbare := bare_of_read hk hfield
      rw [read_bare_end hbare] at hk
      obtain ⟨k', hk', rfl⟩ := Option.map_eq_some_iff.mp hk
      have hparse : parse (write rows) = some k'.rows := by
        rw [parse, hk']
        rfl
      intro q hq
      rcases List.mem_cons.mp hq with rfl | hq
      · exact hbare
      · exact ih (fun q hq => hfront q (List.mem_cons_of_mem _ hq)) hparse hrest q hq

end SocValidation.Csv
