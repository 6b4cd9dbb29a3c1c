import SocValidation.Lib.Pandas
import SocValidation.Regmap.Databook
import SocValidation.Transport.Csv
import SocValidation.Transport.SharedLog

/-!
# What the analysis counts (analyze_logs.py)

`main` reads the logs of a run and counts by register, by test and by operation. The
methods of pandas are a parameter with what is documented of them. The durations in
milliseconds, which are floating point, are a parameter, and the printing is not modelled.
-/

namespace SocValidation.Transport
open Csv (Bare)
open Device (Reply)
open Pandas (Value Cell Agg present textCell missing IsWord IsText)

/-! ### The data frame -/

def known : List (ℕ × String) :=
  [(0x40000000, "DMA.CTRL"), (0x40000004, "DMA.STATUS"), (0x40000008, "DMA.IRQ_STATUS"),
    (0x4000000C, "DMA.SRC_ADDR"), (0x40000010, "DMA.DST_ADDR"), (0x40000014, "DMA.XFER_LEN"),
    (0x50000000, "PCIE.LINK_STATUS"), (0x50000004, "PCIE.LINK_CTRL"), (0x50000008, "PCIE.ERR_STATUS")]

/- `f"0x{a:08X}"`. -/
def hexName (a : ℕ) : String := String.ofList ('0' :: 'x' :: Numeral.hex8 a)

def registerName (a : ℕ) : String := (known.lookup a).getD (hexName a)

structure FrameRow where
  timestampNs : Cell
  op : Cell
  address : ℕ
  test : Cell
  register : String
  deriving DecidableEq, Repr

/- The columns that are used, side by side. -/
def readFile (p : Pandas) (text : List Char) : Option (List (Cell × Cell × Cell × Cell)) :=
  (p.readCsv text).bind fun frame =>
  (frame "timestamp_ns").bind fun timestamps =>
  (frame "op").bind fun ops =>
  (frame "address").bind fun addresses =>
  (frame "test").map fun tests =>
  timestamps.zip (ops.zip (addresses.zip tests))

/- The address is `int(str(v), 16)`. -/
def frameRow : Cell × Cell × Cell × Cell → Option FrameRow
  | (timestampNs, op, address, test) => (readHex address.str.toList).map fun address =>
    ⟨timestampNs, op, address, test, registerName address⟩

/- `load` of all the files. Without a file it exits. -/
def loadAll (p : Pandas) (files : List (List Char)) : Option (List FrameRow) :=
  if files = [] then none
  else (files.mapM (readFile p)).bind fun frames => (p.concat frames).mapM frameRow

/-! ### The tables of `main` -/

section
variable {κ : Type} [LinearOrder κ]

/- The slowest tests: `durationMs` is what `(max - min) / 1e6` comes to. -/
def slowest (p : Pandas) (durationMs : Cell → Cell → κ) (top : ℤ) (df : List FrameRow) : List Agg :=
  let span := p.agg (df.map fun row => (row.test, row.timestampNs))
  p.head top (p.sortValues (fun row => durationMs row.max row.min) span)

end

def hot (p : Pandas) (top : ℤ) (df : List FrameRow) : List (String × ℕ) :=
  p.head top (p.sortValues Prod.snd (p.size (df.map fun row => some row.register)))

def polls (p : Pandas) (df : List FrameRow) : List ((Value × String) × ℕ) :=
  p.size ((df.filter fun row => row.op = some (.text "read32")).map fun row =>
    row.test.map fun test => (test, row.register))

def heavy (p : Pandas) (df : List FrameRow) : List ((Value × String) × ℕ) :=
  p.sortValues Prod.snd ((polls p df).filter fun row => 10 < row.2)

/- The polling loops that are printed. -/
def pollingLoops (p : Pandas) (top : ℤ) (df : List FrameRow) : List ((Value × String) × ℕ) :=
  p.head top (heavy p df)

def operationMix (p : Pandas) (df : List FrameRow) : List (Value × ℕ) := p.valueCounts (df.map FrameRow.op)

/-! ### Names of registers -/

theorem hexName_injective : Function.Injective hexName := by
  intro a b h
  have hdigits := congrArg (fun s : String => Numeral.read 16 (s.toList.drop 2)) h
  simp only [hexName, String.toList_ofList, List.drop_succ_cons, List.drop_zero] at hdigits
  rw [Numeral.read_hex8, Numeral.read_hex8] at hdigits
  exact Option.some.inj hdigits

theorem mem_known {a : ℕ} {name : String} (h : known.lookup a = some name) : (a, name) ∈ known := by
  obtain ⟨l, r, hknown, -⟩ := List.lookup_eq_some_iff.mp h
  rw [hknown]
  exact List.mem_append_right _ List.mem_cons_self

/- No two addresses are counted as one register. -/
theorem registerName_injective : Function.Injective registerName := by
  have hnames : ∀ e ∈ known, ∀ e' ∈ known, e.2 = e'.2 → e.1 = e'.1 := by decide
  have hhex : ∀ e ∈ known, ∀ a, e.2 ≠ hexName a := by
    have hhead : ∀ e ∈ known, e.2.toList.head? ≠ some '0' := by decide
    intro e he a heq
    refine hhead e he ?_
    rw [heq, hexName, String.toList_ofList]
    rfl
  intro a b h
  unfold registerName at h
  cases ha : known.lookup a with
  | none =>
    cases hb : known.lookup b with
    | none =>
      rw [ha, hb] at h
      exact hexName_injective h
    | some name =>
      rw [ha, hb] at h
      exact absurd h.symm (hhex _ (mem_known hb) a)
  | some name =>
    cases hb : known.lookup b with
    | none =>
      rw [ha, hb] at h
      exact absurd h (hhex _ (mem_known ha) b)
    | some name' =>
      rw [ha, hb] at h
      exact hnames _ (mem_known ha) _ (mem_known hb) h

/- The table that is kept by hand has the names that the generator gives. -/
theorem registerName_databook : ∀ L ∈ Regmap.socLayouts,
    (registerName L.kAddress.toNat).toList = L.reg.block.text ++ '.' :: L.reg.name.text := by decide

/-! ### From the logs to the frame -/

/- What a log is to say of a call. -/
abbrev Entry := String × Op × BitVec 64 × BitVec 32

/- The cells of an entry that has been read with its time stamp. -/
def entryCells (e : Value × Entry) : Cell × Cell × Cell × Cell :=
  (some e.1, textCell (opName e.2.2.1),
    textCell (String.ofList ('0' :: 'x' :: Nat.toDigits 16 e.2.2.2.1.toNat)), textCell e.2.1)

/- The row of the frame that they become. -/
def entryRow (e : Value × Entry) : FrameRow :=
  ⟨some e.1, some (.text (opName e.2.2.1)), e.2.2.2.1.toNat, textCell e.2.1,
    registerName e.2.2.2.1.toNat⟩

/- The names of tests that come through the file and the reader. -/
def Legible (name : String) : Prop := Bare name.toList ∧ (name ∈ missing ∨ IsWord name)

theorem textCell_hex (n : ℕ) : textCell (String.ofList ('0' :: 'x' :: Nat.toDigits 16 n)) =
    some (.text (String.ofList ('0' :: 'x' :: Nat.toDigits 16 n))) := by
  have hhead : ∀ s ∈ missing, s.toList.head? ≠ some '0' := by decide
  rw [textCell, present, if_neg fun hmem => hhead _ hmem (by rw [String.toList_ofList]; rfl)]
  rfl

theorem textCell_opName (op : Op) : textCell (opName op) = some (.text (opName op)) := by
  have hop : opName op ∉ missing := by cases op <;> decide
  rw [textCell, present, if_neg hop]
  rfl

theorem isText_opName (op : Op) : IsText (opName op).toList := by
  have hword : IsWord (opName op) :=
    ⟨by cases op <;> decide, by cases op <;> decide, by cases op <;> decide⟩
  refine Or.inr (Or.inl ?_)
  rwa [String.ofList_toList]

theorem Legible.isText {name : String} (h : Legible name) : IsText name.toList := by
  rcases h.2 with hmissing | hword
  · exact Or.inl (by rwa [String.ofList_toList])
  · exact Or.inr (Or.inl (by rwa [String.ofList_toList]))

theorem frameRow_cells (e : Value × Entry) : frameRow (entryCells e) = some (entryRow e) := by
  rw [frameRow, entryCells, textCell_hex, textCell_opName]
  simp only [Cell.str, String.toList_ofList, readHex_toDigits]
  rfl

theorem readFile_writeCsv {p : Pandas} (hp : p.Documented) {records : List Transaction}
    (hnames : ∀ r ∈ records, Legible r.test) : ∃ entries : List (Value × Entry),
      entries.map Prod.snd = records.map Transaction.told ∧
        readFile p (writeCsv records) = some (entries.map entryCells) := by
  have hrows : ∀ q ∈ headerCells :: records.map cells,
      Csv.Front q.1 ∧ Bare q.2 ∧ q.1.length = headerCells.1.length := by
    refine List.forall_mem_cons.mpr ⟨⟨header_front, column_bare (by decide), rfl⟩, fun q hq => ?_⟩
    obtain ⟨r, hr, rfl⟩ := List.mem_map.mp hq
    exact ⟨cells_front r, (hnames r hr).1, rfl⟩
  obtain ⟨frame, hread, hcolumns⟩ :=
    hp.readCsv headerCells (records.map cells) (by decide) (by decide) hrows
  obtain ⟨timestamps, htimestamps, htimes⟩ := hcolumns 0 "timestamp_ns".toList rfl
  obtain ⟨ops, hops, hopTexts⟩ := hcolumns 1 "op".toList rfl
  obtain ⟨addresses, haddresses, haddressTexts⟩ := hcolumns 2 "address".toList rfl
  obtain ⟨tests, htests, htestTexts⟩ := hcolumns 4 "test".toList rfl
  rw [List.map_map] at htimes hopTexts haddressTexts htestTexts
  rw [String.ofList_toList] at htimestamps hops haddresses htests
  -- the numbers stay whatever values they are read as, the texts are known
  obtain ⟨values, hlength, rfl⟩ := htimes.numbers (List.forall_mem_map.mpr fun r _ =>
    ⟨_, r.timestampNs.isLt, rfl⟩)
  have hopColumn := hopTexts.texts (List.forall_mem_map.mpr fun r _ => isText_opName r.op)
  have haddressColumn := haddressTexts.texts (List.forall_mem_map.mpr fun r _ =>
    Or.inr (Or.inr ⟨_, rfl⟩))
  have htestColumn := htestTexts.texts (List.forall_mem_map.mpr fun r hr => (hnames r hr).isText)
  rw [List.map_map] at hopColumn haddressColumn htestColumn
  rw [List.length_map] at hlength
  subst hopColumn haddressColumn htestColumn
  refine ⟨values.zip (records.map Transaction.told), ?_, ?_⟩
  · exact List.map_snd_zip (by rw [List.length_map, hlength])
  · rw [readFile, writeCsv_eq, hread]
    simp only [Option.bind_some, htimestamps, hops, haddresses, htests, Option.map_some, List.zip_map']
    rw [List.zip_map, List.zip_map_right, List.map_map]
    refine congrArg some (List.map_congr_left fun e _ => ?_)
    simp [cells, entryCells, Transaction.told, Prod.map]

theorem loadAll_logs {p : Pandas} (hp : p.Documented) {logs : List (List Transaction)} (hne : logs ≠ [])
    (hnames : ∀ records ∈ logs, ∀ r ∈ records, Legible r.test) : ∃ entries : List (Value × Entry),
      entries.map Prod.snd = logs.flatMap (fun records => records.map Transaction.told) ∧
        loadAll p (logs.map writeCsv) = some (entries.map entryRow) := by
  have hfiles : ∃ files : List (List (Value × Entry)),
      files.map (List.map Prod.snd) = logs.map (fun records => records.map Transaction.told) ∧
        (logs.map writeCsv).mapM (readFile p) = some (files.map (List.map entryCells)) := by
    clear hne
    induction logs with
    | nil => exact ⟨[], rfl, rfl⟩
    | cons records logs ih =>
      obtain ⟨entries, htold, hread⟩ := readFile_writeCsv hp (hnames records List.mem_cons_self)
      obtain ⟨files, hrest, hreads⟩ := ih fun rs hrs => hnames rs (List.mem_cons_of_mem _ hrs)
      refine ⟨entries :: files, by rw [List.map_cons, List.map_cons, htold, hrest], ?_⟩
      rw [List.map_cons, List.mapM_cons, hread, hreads]
      rfl
  obtain ⟨files, htold, hreads⟩ := hfiles
  refine ⟨files.flatten, ?_, ?_⟩
  · rw [List.map_flatten, htold, List.flatMap_def]
  · have hrows : (files.flatten.map entryCells).mapM frameRow = some (files.flatten.map entryRow) := by
      rw [mapM_eq_some, List.forall₂_map_left_iff, List.forall₂_map_right_iff, List.forall₂_same]
      exact fun e _ => frameRow_cells e
    rw [loadAll, if_neg (by simpa using hne), hreads, Option.bind_some, hp.concat, ← List.map_flatten]
    exact hrows

/-! ### What the tables count -/

section Tables
variable {p : Pandas} {rows : List (Value × Entry)} {test name : String} {n : ℕ}

theorem present_eq_some {written : String} :
    present written = some test ↔ written = test ∧ test ∉ missing := by
  unfold present
  split
  next h => exact iff_of_false (by simp) fun hc => hc.2 (hc.1 ▸ h)
  next h =>
    rw [Option.some.injEq]
    constructor
    · rintro rfl
      exact ⟨rfl, h⟩
    · exact And.left

theorem nameOf_injective : Function.Injective fun a : BitVec 64 => registerName a.toNat :=
  fun _ _ h => BitVec.eq_of_toNat_eq (registerName_injective h)

theorem text_injective : Function.Injective Value.text := fun _ _ h => Value.text.inj h

/- The rows of the frame that are grouped, by the entries that they come from. -/
theorem entry_keys {β γ : Type} {key : FrameRow → Option β} {of : Entry → Option γ} {naming : γ → β}
    (h : ∀ e, key (entryRow e) = (of e.2).map naming) :
    (rows.map entryRow).map key = (rows.map Prod.snd).map fun x => (of x).map naming := by
  rw [List.map_map, List.map_map]
  exact List.map_congr_left fun e _ => h e

theorem hot_counts (hp : p.Documented) (top : ℤ) : ∃ table,
    Groups.Cut top Prod.snd table (hot p top (rows.map entryRow)) ∧
      (∀ name n, (name, n) ∈ table ↔ 0 < n ∧ ∃ a : BitVec 64, name = registerName a.toNat ∧
        n = (rows.map Prod.snd).countP fun x => x.2.2.1 = a) ∧
      (table.map Prod.fst).Nodup ∧ (table.map Prod.snd).sum = rows.length := by
  have hsizes := (hp.size ((rows.map entryRow).map fun row => some row.register)).perm
    (hp.perm Prod.snd _)
  refine ⟨_, hp.cut top Prod.snd _, fun name n => ?_, hsizes.nodup, ?_⟩
  · have hkeys : (rows.map entryRow).map (fun row => some row.register) =
        (rows.map Prod.snd).map fun x => (some x.2.2.1).map fun a => registerName a.toNat :=
      entry_keys fun _ => rfl
    rw [hsizes.mem_named nameOf_injective hkeys]
    simp only [Option.some.injEq]
  · rw [hsizes.sum, List.countP_map, List.countP_map]
    exact List.countP_eq_length.mpr fun _ _ => rfl

theorem operationMix_counts (hp : p.Documented) :
    (∀ value n, (value, n) ∈ operationMix p (rows.map entryRow) ↔ 0 < n ∧ ∃ op,
      value = .text (opName op) ∧ n = (rows.map Prod.snd).countP fun x => x.2.1 = op) ∧
      ((operationMix p (rows.map entryRow)).map Prod.fst).Nodup := by
  have hsizes := hp.valueCounts ((rows.map entryRow).map FrameRow.op)
  refine ⟨fun value n => ?_, hsizes.nodup⟩
  have hkeys : (rows.map entryRow).map FrameRow.op =
      (rows.map Prod.snd).map fun x => (some x.2.1).map fun op => .text (opName op) :=
    entry_keys fun _ => rfl
  rw [operationMix, hsizes.mem_named (text_injective.comp opName_injective) hkeys]
  simp only [Option.some.injEq]
  rfl

/- The rows without a test are in no group. -/
theorem count_present {entries : List Entry} (q : Entry → Prop) [DecidablePred q] (hpos : 0 < n) :
    (n = entries.countP fun x => present x.1 = some test ∧ q x) ↔
      test ∉ missing ∧ n = entries.countP fun x => x.1 = test ∧ q x := by
  by_cases htest : test ∈ missing
  · refine iff_of_false (fun hn => ?_) fun hc => hc.1 htest
    obtain ⟨x, -, hx⟩ := List.countP_pos_iff.mp (hn ▸ hpos)
    exact (present_eq_some.mp (of_decide_eq_true hx).1).2 htest
  · simp only [present_eq_some, htest, not_false_eq_true, and_true, true_and]

theorem slowest_counts {κ : Type} [LinearOrder κ] (hp : p.Documented) (durationMs : Cell → Cell → κ)
    (top : ℤ) : ∃ table, Groups.Cut top (fun row : Agg => durationMs row.max row.min) table
        (slowest p durationMs top (rows.map entryRow)) ∧
      (∀ group n, (group, n) ∈ table.map Agg.counted ↔ 0 < n ∧ ∃ test, group = .text test ∧
        test ∉ missing ∧ n = (rows.map Prod.snd).countP fun x => x.1 = test) ∧
      (table.map Agg.group).Nodup := by
  have hsizes := hp.agg_sizes ((rows.map entryRow).map fun row => (row.test, row.timestampNs))
    (List.forall_mem_map.mpr (List.forall_mem_map.mpr fun e _ => Option.some_ne_none e.1))
  have hperm := hp.perm (fun row : Agg => durationMs row.max row.min)
    (p.agg ((rows.map entryRow).map fun row => (row.test, row.timestampNs)))
  refine ⟨_, hp.cut top _ _, fun group n => ?_, ?_⟩
  · have hkeys : ((rows.map entryRow).map fun row => (row.test, row.timestampNs)).map Prod.fst =
        (rows.map Prod.snd).map fun x => (present x.1).map Value.text := by
      rw [List.map_map]
      exact entry_keys fun _ => rfl
    rw [(hperm.map Agg.counted).mem_iff, hsizes.mem_named text_injective hkeys]
    refine and_congr_right fun hpos => exists_congr fun test => and_congr_right fun _ => ?_
    simpa only [and_true] using count_present (fun _ => True) hpos
  · exact (hperm.map Agg.group).nodup_iff.mpr (hp.agg_nodup _)

theorem pollingLoops_counts (hp : p.Documented) (top : ℤ) : ∃ table,
    Groups.Cut top Prod.snd table (pollingLoops p top (rows.map entryRow)) ∧
      (∀ group name n, ((group, name), n) ∈ table ↔ 10 < n ∧ ∃ test, group = .text test ∧
        test ∉ missing ∧ ∃ a : BitVec 64, name = registerName a.toNat ∧
          n = (rows.map Prod.snd).countP fun x => x.1 = test ∧ x.2.1 = .read32 ∧ x.2.2.1 = a) ∧
      (table.map Prod.fst).Nodup := by
  have hsizes := hp.size (((rows.map entryRow).filter fun row => row.op = some (.text "read32")).map
    fun row => row.test.map fun test => (test, row.register))
  have hperm := hp.perm Prod.snd ((polls p (rows.map entryRow)).filter fun row => 10 < row.2)
  refine ⟨_, hp.cut top _ _, fun group name n => ?_, ?_⟩
  · have hreads : (rows.map entryRow).filter (fun row => row.op = some (.text "read32")) =
        (rows.filter fun e => e.2.2.1 = .read32).map entryRow := by
      rw [List.filter_map]
      refine congrArg (List.map entryRow) (List.filter_congr fun e _ => decide_eq_decide.mpr ⟨?_, ?_⟩)
      · exact fun h => opName_injective (text_injective (Option.some.inj h))
      · exact fun h => congrArg (fun op => some (Value.text (opName op))) h
    have hkeys : ((rows.map entryRow).filter fun row => row.op = some (.text "read32")).map
          (fun row => row.test.map fun test => (test, row.register)) =
        ((rows.filter fun e => e.2.2.1 = .read32).map Prod.snd).map fun x =>
          ((present x.1).map fun test => (test, x.2.2.1)).map
            (Prod.map Value.text fun a : BitVec 64 => registerName a.toNat) := by
      rw [hreads]
      refine entry_keys fun e => ?_
      rw [Option.map_map]
      exact Option.map_map ..
    have hcount : ∀ (test : String) (a : BitVec 64),
        ((rows.filter fun e => e.2.2.1 = .read32).map Prod.snd).countP (fun x =>
          (present x.1).map (fun test => (test, x.2.2.1)) = some (test, a)) =
        (rows.map Prod.snd).countP fun x => present x.1 = some test ∧ x.2.1 = .read32 ∧ x.2.2.1 = a := by
      intro test a
      rw [List.countP_map, List.countP_map, List.countP_filter]
      refine List.countP_congr fun e _ => ?_
      cases hpresent : present e.2.1 with
      | none => simp [hpresent]
      | some written => simp [hpresent, and_assoc, and_comm]
    rw [hperm.mem_iff, List.mem_filter, polls,
      hsizes.mem_named (text_injective.prodMap nameOf_injective) hkeys, decide_eq_true_eq]
    constructor
    · rintro ⟨⟨hpos, ⟨test, a⟩, heq, hn⟩, hten⟩
      obtain ⟨rfl, rfl⟩ := Prod.mk.inj heq
      obtain ⟨htest, hn⟩ := (count_present _ hpos).mp (hn.trans (hcount test a))
      exact ⟨hten, test, rfl, htest, a, rfl, hn⟩
    · rintro ⟨hten, test, rfl, htest, a, rfl, hn⟩
      have hpos : 0 < n := by omega
      have hcounted := ((count_present _ hpos).mpr ⟨htest, hn⟩).trans (hcount test a).symm
      exact ⟨⟨hpos, (test, a), rfl, hcounted⟩, hten⟩
  · refine (hperm.map Prod.fst).nodup_iff.mpr (hsizes.nodup.sublist ?_)
    exact List.filter_sublist.map Prod.fst

end Tables

/- The tables count the entries of logs. What `main` prints of a table is its first rows. -/
structure Counted {κ : Type} [LinearOrder κ] (p : Pandas) (durationMs : Cell → Cell → κ) (top : ℤ)
    (entries : List Entry) (df : List FrameRow) : Prop where
  length : df.length = entries.length
  registers : ∃ table, Groups.Cut top Prod.snd table (hot p top df) ∧
    (∀ name n, (name, n) ∈ table ↔ 0 < n ∧ ∃ a : BitVec 64, name = registerName a.toNat ∧
      n = entries.countP fun x => x.2.2.1 = a) ∧
    (table.map Prod.fst).Nodup ∧ (table.map Prod.snd).sum = df.length
  operations : (∀ value n, (value, n) ∈ operationMix p df ↔ 0 < n ∧ ∃ op, value = .text (opName op) ∧
      n = entries.countP fun x => x.2.1 = op) ∧
    ((operationMix p df).map Prod.fst).Nodup
  tests : ∃ table,
    Groups.Cut top (fun row : Agg => durationMs row.max row.min) table (slowest p durationMs top df) ∧
    (∀ group n, (group, n) ∈ table.map Agg.counted ↔ 0 < n ∧ ∃ test, group = .text test ∧
      test ∉ missing ∧ n = entries.countP fun x => x.1 = test) ∧
    (table.map Agg.group).Nodup
  loops : ∃ table, Groups.Cut top Prod.snd table (pollingLoops p top df) ∧
    (∀ group name n, ((group, name), n) ∈ table ↔ 10 < n ∧ ∃ test, group = .text test ∧
      test ∉ missing ∧ ∃ a : BitVec 64, name = registerName a.toNat ∧
        n = entries.countP fun x => x.1 = test ∧ x.2.1 = .read32 ∧ x.2.2.1 = a) ∧
    (table.map Prod.fst).Nodup

theorem counted_rows {κ : Type} [LinearOrder κ] {p : Pandas} (hp : p.Documented)
    (durationMs : Cell → Cell → κ) (top : ℤ) (rows : List (Value × Entry)) :
    Counted p durationMs top (rows.map Prod.snd) (rows.map entryRow) where
  length := by rw [List.length_map, List.length_map]
  registers := by
    rw [List.length_map]
    exact hot_counts hp top
  operations := operationMix_counts hp
  tests := slowest_counts hp durationMs top
  loops := pollingLoops_counts hp top

/-! ### A session and its analysis -/

variable {ι : Type} {tap : ι → Tap}

/- What the logs `ks` are to say of a session, one log after the other. -/
def logged (tap : ι → Tap) (ks : List ℕ) (history : List (ι × Call × Reply)) : List Entry :=
  ks.flatMap fun k => history.filterMap (Tap.entry tap k)

theorem entry_test {k : ℕ} {e : ι × Call × Reply} {x : Entry} (he : Tap.entry tap k e = some x) :
    (tap e.1).log = k ∧ x.1 = (tap e.1).test := by
  unfold Tap.entry at he
  split at he
  next hk =>
    obtain ⟨value, -, rfl⟩ := Option.map_eq_some_iff.mp he
    exact ⟨hk, rfl⟩
  next => cases he

/-- The tables of the analysis count the calls of a session. Whatever transports write to
the logs that are analysed together and however their calls interleave, a register stands
in its table once, with the calls to its address and no others, and all calls are there; an
operation has its calls, and a test that has a name the calls under its name; a polling loop
stands in its table just where a test has read a register with more than ten calls. Of the
registers, the tests and the polling loops the first `top` rows are printed, in falling order
of the calls or of the durations. The registers of the databook stand under its names for
them. -/
theorem analysis_counts {κ : Type} [LinearOrder κ] (p : Pandas) (hp : p.Documented)
    (durationMs : Cell → Cell → κ) (top : ℤ) (layers : List Layer) (bus : Stack layers) (h : Host)
    (tap : ι → Tap) (calls : List (ι × Call)) (ks : List ℕ) (hks : ks ≠ [])
    (hbelow : ∀ k ∈ ks, k ∉ Stack.logs layers bus) (hempty : ∀ k ∈ ks, h.logs k = [])
    (hnames : ∀ i, (tap i).log ∈ ks → Legible (tap i).test) :
    (∃ df, loadAll p (ks.map fun k => writeCsv ((Tap.session tap bus h calls).2.2.logs k)) = some df ∧
        Counted p durationMs top (logged tap ks (Tap.session tap bus h calls).1) df) ∧
      ∀ L ∈ Regmap.socLayouts,
        (registerName L.kAddress.toNat).toList = L.reg.block.text ++ '.' :: L.reg.name.text := by
  refine ⟨?_, registerName_databook⟩
  have htold : ∀ k ∈ ks, ((Tap.session tap bus h calls).2.2.logs k).map Transaction.told =
      (Tap.session tap bus h calls).1.filterMap (Tap.entry tap k) := by
    intro k hk
    obtain ⟨records, readings, hlog⟩ :=
      tap_recorded (Stack.punctual layers) bus (Stack.keepsLog (hbelow k hk)) h calls
    rw [hlog.logs, hempty k hk, List.nil_append, hlog.told]
  have hrecords : ∀ records ∈ ks.map (Tap.session tap bus h calls).2.2.logs, ∀ r ∈ records,
      Legible r.test := by
    intro records hmem r hr
    obtain ⟨k, hk, rfl⟩ := List.mem_map.mp hmem
    have htest : r.told ∈ ((Tap.session tap bus h calls).2.2.logs k).map Transaction.told :=
      List.mem_map_of_mem hr
    rw [htold k hk, List.mem_filterMap] at htest
    obtain ⟨e, -, he⟩ := htest
    obtain ⟨hlog, htest⟩ := entry_test he
    have hname : r.test = (tap e.1).test := htest
    rw [hname]
    exact hnames e.1 (hlog.symm ▸ hk)
  obtain ⟨rows, hrows, hframe⟩ := loadAll_logs hp (by simpa using hks) hrecords
  rw [List.flatMap_map, List.flatMap_congr htold] at hrows
  rw [List.map_map] at hframe
  refine ⟨_, hframe, ?_⟩
  rw [logged, ← hrows]
  exact counted_rows hp durationMs top rows

/- The tests of two runs, one of them a poll of eleven reads. -/
def polledTaps (i : Bool) : Tap := ⟨if i then 0 else 1, if i then "dma" else "<none>"⟩

def polledCalls : List (Bool × Call) :=
  (false, .write32 0x40000000 1) :: List.replicate 11 (true, .read32 0x40000004)

theorem analysis_counts_polls : ∃ df, loadAll Pandas.plain
    ([0, 1].map fun k => writeCsv ((Tap.session (σ := Stack []) polledTaps Device.fresh freshHost
      polledCalls).2.2.logs k)) = some df ∧ ∃ table,
    Groups.Cut 10 Prod.snd table (pollingLoops Pandas.plain 10 df) ∧
      ((.text "dma", "DMA.STATUS"), 11) ∈ table := by
  have hname : ∀ i : Bool, Legible (polledTaps i).test := by
    intro i
    refine ⟨Csv.bare_of_chars ?_, Or.inr ?_⟩
    · cases i <;>
        simp [polledTaps, Csv.comma, Csv.quote, Csv.EndsRow, Csv.lineFeed, Csv.carriageReturn]
    · cases i <;> exact ⟨by decide, by decide, by decide⟩
  obtain ⟨⟨df, hdf, hcounted⟩, -⟩ := analysis_counts Pandas.plain Pandas.plain_documented
    (fun _ _ => 0) 10 [] Device.fresh freshHost polledTaps polledCalls [0, 1] (by decide)
    (fun _ _ => List.not_mem_nil) (fun k _ => rfl) fun i _ => hname i
  obtain ⟨table, hcut, hloops, -⟩ := hcounted.loops
  refine ⟨df, hdf, table, hcut, (hloops (.text "dma") "DMA.STATUS" 11).mpr
    ⟨by decide, "dma", rfl, by decide, 0x40000004, ?_, ?_⟩⟩
  · decide
  · decide

end SocValidation.Transport
