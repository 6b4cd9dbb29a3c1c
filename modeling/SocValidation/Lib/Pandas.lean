import SocValidation.Lib.Csv
import SocValidation.Lib.Groups
import SocValidation.Lib.Numeral

/-!
# Data frames

The methods of pandas are parameters, and what its documentation says of them is assumed
of the parameters. A frame is the list of its rows and a column the list of its values;
what is done to each value or row by itself (`apply`, `map`, a mask) is done to lists.
-/

namespace SocValidation
open Csv (Field Bare)

namespace Pandas

/-! ### Values -/

/- Of a value of another type, such as a float, what `str` makes of it. -/
inductive Value where
  | int (n : ℤ)
  | text (s : String)
  | other (str : String)
  deriving DecidableEq, Repr

/- `none` is a missing value. -/
abbrev Cell := Option Value

/- `str(value)`. -/
def Cell.str : Cell → String
  | none => "nan"
  | some (.int n) => toString n
  | some (.text s) => s
  | some (.other s) => s

/- The texts that `read_csv` takes for a missing value. -/
def missing : List String :=
  ["", "#N/A", "#N/A N/A", "#NA", "-1.#IND", "-1.#QNAN", "-NaN", "-nan", "1.#IND", "1.#QNAN", "<NA>",
    "N/A", "NA", "NULL", "NaN", "None", "n/a", "nan", "null"]

def present (s : String) : Option String := if s ∈ missing then none else some s

def textCell (s : String) : Cell := (present s).map .text

/- A text that `read_csv` cannot take for a number or a truth value and does not cut off: it
has no digit, sign, point or blank at its start. -/
structure IsWord (s : String) : Prop where
  start : s.toList.head?.all fun c => c ∉ "0123456789+-. \t\x0B\x0C".toList
  noNul : Char.ofNat 0 ∉ s.toList
  lower : String.ofList (s.toList.map Char.toLower) ∉ ["inf", "infinity", "nan", "true", "false"]

/- A text of a column that stays a column of texts. -/
def IsText (u : Field) : Prop :=
  String.ofList u ∈ missing ∨ IsWord (String.ofList u) ∨ ∃ n, u = '0' :: 'x' :: Nat.toDigits 16 n

/- Letters, digits and underscores. -/
def IsColumnName (name : Field) : Prop := name ≠ [] ∧ name.all fun c => c.isAlphanum || c = '_'

instance (name : Field) : Decidable (IsColumnName name) := inferInstanceAs (Decidable (_ ∧ _))

def IsNumber (u : Field) : Prop := ∃ n < 2 ^ 64, u = Nat.toDigits 10 n

/- What `read_csv` makes of the texts of a column. Nothing is assumed of the type that it
takes for a column of numbers. -/
structure Inferred (texts : List Field) (column : List Cell) : Prop where
  numbers : (∀ u ∈ texts, IsNumber u) →
    ∃ values : List Value, values.length = texts.length ∧ column = values.map some
  texts : (∀ u ∈ texts, IsText u) → column = texts.map fun u => textCell (String.ofList u)

/- A row of `agg(["min", "max", "count"])`. -/
structure Agg where
  group : Value
  min : Cell
  max : Cell
  count : ℕ
  deriving DecidableEq, Repr

def Agg.counted (row : Agg) : Value × ℕ := (row.group, row.count)

end Pandas

/-! ### The methods -/

open Pandas

/- A frame that is read has its columns by their names. `size` and `agg` are those of
`groupby`: they get the key of each row, which is missing where one of the columns of the
key is, and `agg` the value of each row beside it. -/
structure Pandas where
  readCsv : List Char → Option (String → Option (List Cell))
  concat : {ρ : Type} → List (List ρ) → List ρ
  size : {β : Type} → [DecidableEq β] → List (Option β) → List (β × ℕ)
  agg : List (Cell × Cell) → List Agg
  valueCounts : List Cell → List (Value × ℕ)
  sortValues : {ρ κ : Type} → [LinearOrder κ] → (ρ → κ) → List ρ → List ρ
  head : {ρ : Type} → ℤ → List ρ → List ρ

namespace Pandas

/- What the methods are documented to do. -/
structure Documented (p : Pandas) : Prop where
  /- A first line of names and lines of as many texts, none of which needs quotes. -/
  readCsv : ∀ (header : List Field × Field) (rows : List (List Field × Field)),
    (header.1 ++ [header.2]).Nodup → (∀ name ∈ header.1 ++ [header.2], IsColumnName name) →
    (∀ q ∈ header :: rows, Csv.Front q.1 ∧ Bare q.2 ∧ q.1.length = header.1.length) →
    ∃ frame, p.readCsv (Csv.write (header :: rows)) = some frame ∧
      ∀ j name, (header.1 ++ [header.2])[j]? = some name →
        ∃ column, frame (String.ofList name) = some column ∧
          Inferred (rows.map fun q => (q.1 ++ [q.2]).getD j []) column
  /- The rows of the frames one after the other. -/
  concat : ∀ {ρ : Type} (frames : List (List ρ)), p.concat frames = frames.flatten
  /- Rows whose key is missing are dropped. -/
  size : ∀ {β : Type} [DecidableEq β] (keys : List (Option β)), Groups.Sizes keys (p.size keys)
  /- `count` is the number of values that are not missing. -/
  agg : ∀ (rows : List (Cell × Cell)) group n, (group, n) ∈ (p.agg rows).map Agg.counted ↔
    some group ∈ rows.map Prod.fst ∧ n = rows.countP fun r => r.1 = some group ∧ r.2 ≠ none
  agg_nodup : ∀ rows : List (Cell × Cell), ((p.agg rows).map Agg.group).Nodup
  valueCounts : ∀ column, Groups.Sizes column (p.valueCounts column)
  /- With `ascending=False`. -/
  perm : ∀ {ρ κ : Type} [LinearOrder κ] (key : ρ → κ) (table : List ρ),
    (p.sortValues key table).Perm table
  falling : ∀ {ρ κ : Type} [LinearOrder κ] (key : ρ → κ) (table : List ρ),
    (p.sortValues key table).Pairwise fun r r' => key r' ≤ key r
  head : ∀ {ρ : Type} (n : ℤ) (table : List ρ),
    p.head n table = table.take (Groups.headLength n table.length)

variable {p : Pandas}

theorem Documented.cut {ρ κ : Type} [LinearOrder κ] (hp : p.Documented) (top : ℤ) (key : ρ → κ)
    (table : List ρ) :
    Groups.Cut top key (p.sortValues key table) (p.head top (p.sortValues key table)) where
  falling := hp.falling key table
  shown_eq := hp.head top _

/- Where no value is missing, the count of a group is its size. -/
theorem Documented.agg_sizes (hp : p.Documented) (rows : List (Cell × Cell))
    (hrows : ∀ r ∈ rows, r.2 ≠ none) : Groups.Sizes (rows.map Prod.fst) ((p.agg rows).map Agg.counted) where
  mem group n := by
    have hcount : (rows.countP fun r => r.1 = some group ∧ r.2 ≠ none) =
        (rows.map Prod.fst).count (some group) := by
      rw [List.count, List.countP_map]
      refine List.countP_congr fun r hr => ?_
      simp [hrows r hr]
    rw [hp.agg, hcount, ← List.count_pos_iff]
    exact and_congr_left fun hn => by rw [hn]
  nodup := by
    rw [List.map_map]
    exact hp.agg_nodup rows

/-! ### Methods that do what is documented -/

def digits : List Char := "0123456789".toList

def inferCell (u : Field) : Cell :=
  if u ≠ [] ∧ u.all (fun c => c ∈ digits) then (Numeral.read 10 u).map fun n : ℕ => .int n
  else textCell (String.ofList u)

def plainFrame (header : List Field) (rows : List (List Field)) (name : String) : Option (List Cell) :=
  if name.toList ∈ header then some (rows.map fun row => inferCell (row.getD (header.idxOf name.toList) []))
  else none

def plainAgg (rows : List (Cell × Cell)) (group : Value) : Agg :=
  ⟨group, none, none, rows.countP fun r => r.1 = some group ∧ r.2 ≠ none⟩

/- The smallest and the largest values of a group are not looked for. -/
def plain : Pandas where
  readCsv text := (Csv.parse text).bind fun rows =>
    match rows with
    | header :: rows => some (plainFrame header rows)
    | [] => none
  concat frames := frames.flatten
  size keys := Groups.sizes keys
  agg rows := (rows.map Prod.fst).reduceOption.dedup.map (plainAgg rows)
  valueCounts column := Groups.sizes column
  sortValues key table := table.mergeSort fun r r' => key r' ≤ key r
  head n table := table.take (Groups.headLength n table.length)

theorem inferCell_number {u : Field} (hu : IsNumber u) : ∃ value : Value, inferCell u = some value := by
  obtain ⟨n, -, rfl⟩ := hu
  have hall : ∀ d : Fin 10, Nat.digitChar d ∈ digits := by decide
  have hdigits : (Nat.toDigits 10 n).all fun c => c ∈ digits := by
    refine List.all_eq_true.mpr fun c hc => decide_eq_true ?_
    obtain ⟨d, hd, rfl⟩ := Numeral.mem_toDigits (by decide) hc
    exact hall ⟨d, hd⟩
  refine ⟨.int n, ?_⟩
  rw [inferCell, if_pos ⟨Nat.toDigits_ne_nil, hdigits⟩, Numeral.read_toDigits (by decide) (by decide)]
  rfl

theorem inferCell_text {u : Field} (hu : IsText u) : inferCell u = textCell (String.ofList u) := by
  refine if_neg fun ⟨hne, hall⟩ => ?_
  obtain ⟨c, cs, rfl⟩ := List.exists_cons_of_ne_nil hne
  have hdigits : ∀ x ∈ c :: cs, x ∈ digits := fun x hx => of_decide_eq_true (List.all_eq_true.mp hall x hx)
  rcases hu with hmissing | hword | ⟨n, hhex⟩
  · have hno : ∀ s ∈ missing, s.toList = [] ∨ s.toList.all (fun x => x ∈ digits) = false := by decide
    rcases hno _ hmissing with hempty | hother
    · rw [String.toList_ofList] at hempty
      cases hempty
    · rw [String.toList_ofList, hall] at hother
      cases hother
  · have hstart := hword.start
    simp only [String.toList_ofList] at hstart
    exact of_decide_eq_true hstart (List.mem_append_left _ (hdigits c List.mem_cons_self))
  · rw [hhex] at hdigits
    exact absurd (hdigits 'x' (by simp)) (by decide)

theorem inferred_map (texts : List Field) : Inferred texts (texts.map inferCell) where
  numbers hnumbers := by
    refine ⟨texts.map fun u => (inferCell u).getD (.int 0), List.length_map _, ?_⟩
    rw [List.map_map]
    refine List.map_congr_left fun u hu => ?_
    obtain ⟨value, hvalue⟩ := inferCell_number (hnumbers u hu)
    simp [hvalue]
  texts htexts := List.map_congr_left fun u hu => inferCell_text (htexts u hu)

theorem plain_documented : plain.Documented where
  readCsv header rows hnodup _ hrows := by
    have hparse : Csv.parse (Csv.write (header :: rows)) =
        some ((header :: rows).map fun q => q.1 ++ [q.2]) :=
      Csv.parse_write (fun q hq => (hrows q hq).1) fun q hq => (hrows q hq).2.1
    refine ⟨plainFrame (header.1 ++ [header.2]) (rows.map fun q => q.1 ++ [q.2]), ?_, ?_⟩
    · rw [show plain.readCsv _ = _ from congrArg (Option.bind · _) hparse]
      rfl
    · intro j name hname
      obtain ⟨hj, hname⟩ := List.getElem?_eq_some_iff.mp hname
      have hmem : name ∈ header.1 ++ [header.2] := hname ▸ List.getElem_mem hj
      have hindex : (header.1 ++ [header.2]).idxOf name = j := by
        rw [← hname]
        exact hnodup.idxOf_getElem j hj
      refine ⟨_, ?_, inferred_map _⟩
      rw [plainFrame, String.toList_ofList, if_pos hmem, hindex, List.map_map, List.map_map]
      rfl
  concat _ := rfl
  size keys := Groups.sizes_spec keys
  agg rows group n := by
    have hgroup : ∀ k, k ∈ (rows.map Prod.fst).reduceOption.dedup ↔ some k ∈ rows.map Prod.fst := by
      intro k
      rw [List.mem_dedup, List.reduceOption_mem_iff]
    rw [← hgroup, show plain.agg rows = (rows.map Prod.fst).reduceOption.dedup.map (plainAgg rows) from rfl,
      List.map_map, List.mem_map]
    constructor
    · rintro ⟨k, hk, heq⟩
      obtain ⟨rfl, rfl⟩ := Prod.mk.inj heq
      exact ⟨hk, rfl⟩
    · rintro ⟨hk, rfl⟩
      exact ⟨group, hk, rfl⟩
  agg_nodup rows := by
    have hgroups : (plain.agg rows).map Agg.group = (rows.map Prod.fst).reduceOption.dedup := by
      rw [show plain.agg rows = (rows.map Prod.fst).reduceOption.dedup.map (plainAgg rows) from rfl,
        List.map_map]
      exact List.map_id _
    rw [hgroups]
    exact List.nodup_dedup _
  valueCounts column := Groups.sizes_spec column
  perm key table := List.mergeSort_perm _ _
  falling key table := by
    have hsorted : (table.mergeSort fun r r' => key r' ≤ key r).Pairwise
        fun r r' => decide (key r' ≤ key r) = true := by
      refine List.pairwise_mergeSort (fun a b c hab hbc => ?_) (fun a b => ?_) table
      · exact decide_eq_true ((of_decide_eq_true hbc).trans (of_decide_eq_true hab))
      · simpa using le_total (key b) (key a)
    exact hsorted.imp of_decide_eq_true
  head _ _ := rfl

end Pandas

end SocValidation
