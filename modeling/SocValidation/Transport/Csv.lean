import SocValidation.Lib.Csv
import SocValidation.Lib.Numeral
import SocValidation.Transport.Model

/-!
# The log as CSV (txn_log.cpp, analyze_logs.py)

`WriteCsv` puts the texts of a record between commas as they are. The number texts
and the names of the operations need no quotes; the name of a test is whatever
`set_test` was given.
-/

namespace SocValidation.Transport
open Csv (Field Bare)

def opName : Op → String
  | .read32 => "read32"
  | .write32 => "write32"
  | .readBlock => "read_block"
  | .writeBlock => "write_block"

def csvHeader : String := "timestamp_ns,op,address,value,test\n"

/- One turn of the loop of `WriteCsv`: the stream is hexadecimal from the address to
the value. -/
def csvLine (record : Transaction) : List Char :=
  Nat.toDigits 10 record.timestampNs.toNat ++ ",".toList ++ (opName record.op).toList ++ ",0x".toList ++
    Nat.toDigits 16 record.address.toNat ++ ",0x".toList ++ Nat.toDigits 16 record.value.toNat ++
    ",".toList ++ record.test.toList ++ "\n".toList

/-- The text that `WriteCsv` puts into the file. -/
def writeCsv (records : List Transaction) : List Char := csvHeader.toList ++ records.flatMap csvLine

/- A row of the data frame. -/
structure LoadedRow where
  timestampNs : ℕ
  op : String
  address : ℕ
  value : ℕ
  test : String
  deriving DecidableEq, Repr

/- `int(text, 16)` of a text without sign, blanks and underscores. -/
def readHex : Field → Option ℕ
  | '0' :: 'x' :: digits => Numeral.read 16 digits
  | digits => Numeral.read 16 digits

def loadRow : List Field → Option LoadedRow
  | [timestamp, op, address, value, test] =>
    (Numeral.read 10 timestamp).bind fun timestamp =>
    (readHex address).bind fun address =>
    (readHex value).map fun value =>
    ⟨timestamp, String.ofList op, address, value, String.ofList test⟩
  | _ => none

def columns : List Field := ["timestamp_ns", "op", "address", "value", "test"].map String.toList

/-- `load` of one file: the names of the columns, then rows of five fields. -/
def load (text : List Char) : Option (List LoadedRow) :=
  (Csv.parse text).bind fun rows =>
    match rows with
    | header :: rows => if header = columns then rows.mapM loadRow else none
    | [] => none

/- What the row of a record says. -/
def loaded (r : Transaction) : LoadedRow :=
  ⟨r.timestampNs.toNat, opName r.op, r.address.toNat, r.value.toNat, r.test⟩

theorem opName_injective : Function.Injective opName := by
  intro op op' h
  revert h
  cases op <;> cases op' <;> decide

theorem loaded_injective : Function.Injective loaded := by
  intro r r' h
  obtain ⟨hts, hop, haddress, hvalue, htest⟩ := LoadedRow.mk.inj h
  cases r
  cases r'
  rw [Transaction.mk.injEq]
  exact ⟨BitVec.eq_of_toNat_eq hts, opName_injective hop, BitVec.eq_of_toNat_eq haddress,
    BitVec.eq_of_toNat_eq hvalue, htest⟩

/-! ### The fields of a record -/

def cells (r : Transaction) : List Field × Field :=
  ([Nat.toDigits 10 r.timestampNs.toNat, (opName r.op).toList,
    '0' :: 'x' :: Nat.toDigits 16 r.address.toNat, '0' :: 'x' :: Nat.toDigits 16 r.value.toNat],
    r.test.toList)

def headerCells : List Field × Field :=
  (["timestamp_ns", "op", "address", "value"].map String.toList, "test".toList)

theorem csvHeader_eq : csvHeader.toList = Csv.rowText headerCells.1 headerCells.2 := by
  simp [csvHeader, headerCells, Csv.rowText, Csv.comma, Csv.lineFeed]

theorem csvLine_eq (r : Transaction) : csvLine r = Csv.rowText (cells r).1 (cells r).2 := by
  simp [csvLine, cells, Csv.rowText, Csv.comma, Csv.lineFeed]

theorem writeCsv_eq (records : List Transaction) :
    writeCsv records = Csv.write (headerCells :: records.map cells) := by
  rw [writeCsv, csvHeader_eq, Csv.write_cons, Csv.write, List.flatMap_map, ← funext csvLine_eq]

theorem digits_bare {b : ℕ} (hb : 1 < b) (hb' : b ≤ 16) (n : ℕ) :
    ∀ c ∈ Nat.toDigits b n, c ≠ Csv.comma ∧ ¬Csv.EndsRow c ∧ c ≠ Csv.quote := by
  intro c hc
  obtain ⟨d, hd, rfl⟩ := Numeral.mem_toDigits hb hc
  have hall : ∀ d : Fin 16, Nat.digitChar d ≠ Csv.comma ∧ ¬Csv.EndsRow (Nat.digitChar d) ∧
      Nat.digitChar d ≠ Csv.quote := by decide
  exact hall ⟨d, by omega⟩

theorem hex_bare (n : ℕ) : Bare ('0' :: 'x' :: Nat.toDigits 16 n) := by
  apply Csv.bare_of_chars
  intro c hc
  rcases List.mem_cons.mp hc with rfl | hc
  · decide
  rcases List.mem_cons.mp hc with rfl | hc
  · decide
  · exact digits_bare (by decide) (by decide) n c hc

theorem opName_bare (op : Op) : Bare (opName op).toList := by
  apply Csv.bare_of_chars
  cases op <;> simp [opName, Csv.comma, Csv.quote, Csv.EndsRow, Csv.lineFeed, Csv.carriageReturn]

theorem cells_front (r : Transaction) : Csv.Front (cells r).1 where
  bare := by
    intro u hu
    simp only [cells, List.mem_cons, List.not_mem_nil, or_false] at hu
    rcases hu with rfl | rfl | rfl | rfl
    · exact Csv.bare_of_chars (digits_bare (by decide) (by decide) _)
    · exact opName_bare r.op
    · exact hex_bare _
    · exact hex_bare _
  first := by
    obtain ⟨c, u, hdigits⟩ := List.exists_cons_of_ne_nil
      (Nat.toDigits_ne_nil (n := r.timestampNs.toNat) (b := 10))
    exact ⟨c, u, _, by rw [cells, hdigits]⟩

theorem column_bare {u : Field} (hu : u ∈ columns) : Bare u := by
  apply Csv.bare_of_chars
  simp only [columns, List.map_cons, List.map_nil, List.mem_cons, List.not_mem_nil, or_false] at hu
  rcases hu with rfl | rfl | rfl | rfl | rfl <;>
    simp [Csv.comma, Csv.quote, Csv.EndsRow, Csv.lineFeed, Csv.carriageReturn]

theorem columns_eq : columns = headerCells.1 ++ [headerCells.2] := rfl

theorem header_front : Csv.Front headerCells.1 where
  bare := fun _ hu => column_bare (columns_eq ▸ List.mem_append_left _ hu)
  first := ⟨'t', "imestamp_ns".toList, ["op", "address", "value"].map String.toList, rfl⟩

/-! ### The rows that come back -/

theorem readHex_toDigits (n : ℕ) : readHex ('0' :: 'x' :: Nat.toDigits 16 n) = some n :=
  Numeral.read_toDigits (by decide) (by decide) n

theorem loadRow_cells (r : Transaction) : loadRow ((cells r).1 ++ [(cells r).2]) = some (loaded r) := by
  simp [cells, loadRow, readHex_toDigits, Numeral.read_toDigits, loaded]

theorem loadRow_shape {row : List Field} {l : LoadedRow} (h : loadRow row = some l) :
    row.length = 5 ∧ row.getLast? = some l.test.toList := by
  unfold loadRow at h
  split at h
  next timestamp op address value test =>
    simp only [Option.bind_eq_some_iff, Option.map_eq_some_iff] at h
    obtain ⟨_, -, _, -, _, -, rfl⟩ := h
    exact ⟨rfl, by simp⟩
  · cases h

theorem mapM_eq_some {α β : Type} {f : α → Option β} {xs : List α} {ys : List β} :
    xs.mapM f = some ys ↔ List.Forall₂ (fun x y => f x = some y) xs ys := by
  induction xs generalizing ys with
  | nil => simp [eq_comm]
  | cons x xs ih =>
    rw [List.mapM_cons]
    simp only [Option.bind_eq_bind, Option.bind_eq_some_iff, Option.pure_def, Option.some.injEq, ih]
    constructor
    · rintro ⟨y, hy, ys', hys, rfl⟩
      exact .cons hy hys
    · intro h
      cases h with
      | cons hy hys => exact ⟨_, hy, _, hys, rfl⟩

/-- A row says all of its record, and the rows of the log come back just when the name
of each test is a bare field: no comma, no line end, and no quote at its start. -/
theorem csv_round_trip_iff (records : List Transaction) : Function.Injective loaded ∧
    (load (writeCsv records) = some (records.map loaded) ↔ ∀ r ∈ records, Bare r.test.toList) := by
  refine ⟨loaded_injective, ?_⟩
  have hfront : ∀ q ∈ headerCells :: records.map cells, Csv.Front q.1 := by
    intro q hq
    rcases List.mem_cons.mp hq with rfl | hq
    · exact header_front
    · obtain ⟨r, -, rfl⟩ := List.mem_map.mp hq
      exact cells_front r
  rw [load, writeCsv_eq]
  constructor
  · intro h r hr
    obtain ⟨rows, hparse, hload⟩ := Option.bind_eq_some_iff.mp h
    cases rows with
    | nil => cases hload
    | cons header rows =>
      dsimp only at hload
      by_cases hheader : header = columns
      · rw [if_pos hheader, mapM_eq_some, List.forall₂_map_right_iff] at hload
        have hrows : List.Forall₂ (fun row q => row.length = q.1.length + 1 ∧ row.getLast? = some q.2)
            (header :: rows) (headerCells :: records.map cells) := by
          refine .cons ⟨by rw [hheader]; rfl, by rw [hheader]; rfl⟩ ?_
          rw [List.forall₂_map_right_iff]
          exact hload.imp fun row r hrow => loadRow_shape hrow
        exact Csv.bare_of_parse hfront hparse hrows (cells r)
          (List.mem_cons_of_mem _ (List.mem_map_of_mem hr))
      · rw [if_neg hheader] at hload
        cases hload
  · intro hbare
    have hlast : ∀ q ∈ headerCells :: records.map cells, Bare q.2 := by
      intro q hq
      rcases List.mem_cons.mp hq with rfl | hq
      · exact column_bare (columns_eq ▸ List.mem_append_right _ (List.mem_singleton_self _))
      · obtain ⟨r, hr, rfl⟩ := List.mem_map.mp hq
        exact hbare r hr
    rw [Csv.parse_write hfront hlast, List.map_cons, List.map_map, Option.bind_some]
    dsimp only
    rw [if_pos columns_eq.symm, mapM_eq_some, List.forall₂_map_right_iff, List.forall₂_map_left_iff,
      List.forall₂_same]
    exact fun r _ => loadRow_cells r

/- The comma makes a sixth field. -/
theorem csv_comma_lost : ¬∀ records : List Transaction,
    load (writeCsv records) = some (records.map loaded) := by
  intro hall
  have hrow := hall [⟨0, .read32, 0x40000004, 1, "a,b"⟩]
  revert hrow
  decide

end SocValidation.Transport
