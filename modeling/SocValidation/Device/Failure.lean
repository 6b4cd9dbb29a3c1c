import SocValidation.Device.Effects

/-!
# Block accesses that throw (ReadBlock, WriteBlock)

The loop asks for one word after the other, and nothing undoes the words before the
one that throws. A failing block access is thus a shorter one that does not fail.
-/

namespace SocValidation.Device

variable {d : Device} {address : BitVec 64} {words : List (BitVec 32)} {op : Op}
variable {e : TransportError} {count k n : ℕ}

/- Of `count` words from the `k`-th on, `n` have a register and the next has none. -/
structure StopsAt (address : BitVec 64) (k count n : ℕ) : Prop where
  lt : n < count
  before : ∀ i < n, decoded (address + BitVec.ofNat 64 ((k + i) * 4)) = true
  undecoded : decoded (address + BitVec.ofNat 64 ((k + n) * 4)) = false

theorem StopsAt.first (h : decoded (address + BitVec.ofNat 64 (k * 4)) = false) :
    StopsAt address k (count + 1) 0 :=
  ⟨Nat.succ_pos count, nofun, h⟩

theorem StopsAt.next (hdec : decoded (address + BitVec.ofNat 64 (k * 4)) = true)
    (h : StopsAt address (k + 1) count n) : StopsAt address k (count + 1) (n + 1) := by
  have hshift : ∀ i, k + 1 + i = k + (i + 1) := fun i => by omega
  refine ⟨Nat.succ_lt_succ h.lt, fun i hi => ?_, ?_⟩
  · cases i with
    | zero => exact hdec
    | succ i =>
      rw [← hshift]
      exact h.before i (by omega)
  · rw [← hshift]
    exact h.undecoded

/-! ### The words before the one that throws -/

theorem readFrom_stops (h : (readFrom address count k d).1.error = some e) :
    ∃ n, StopsAt address k count n ∧
      e = ⟨"no register decoded at address", address + BitVec.ofNat 64 ((k + n) * 4)⟩ ∧
      readFrom address n k d =
        ({ words := (readFrom address count k d).1.words }, (readFrom address count k d).2) := by
  induction count generalizing k d with
  | zero => cases h
  | succ count ih =>
    simp only [readFrom] at h ⊢
    cases hdec : decoded (address + BitVec.ofNat 64 (k * 4)) with
    | false =>
      rw [read32_of_not_decoded hdec] at h ⊢
      exact ⟨0, .first hdec, (Option.some.inj h).symm, rfl⟩
    | true =>
      rw [read32_of_decoded hdec] at h ⊢
      obtain ⟨n, hstops, he, hcut⟩ := ih h
      refine ⟨n + 1, hstops.next hdec, ?_, ?_⟩
      · rw [he, show k + 1 + n = k + (n + 1) by omega]
      · rw [readFrom, read32_of_decoded hdec]
        simp only [hcut]

theorem writeFrom_stops (h : (writeFrom address words k d).1.error = some e) :
    ∃ n, StopsAt address k words.length n ∧
      e = ⟨"no register decoded at address", address + BitVec.ofNat 64 ((k + n) * 4)⟩ ∧
      writeFrom address (words.take n) k d = ({}, (writeFrom address words k d).2) := by
  induction words generalizing k d with
  | nil => cases h
  | cons w words ih =>
    simp only [writeFrom] at h ⊢
    cases hdec : decoded (address + BitVec.ofNat 64 (k * 4)) with
    | false =>
      rw [write32_of_not_decoded hdec] at h ⊢
      exact ⟨0, .first hdec, (Option.some.inj h).symm, rfl⟩
    | true =>
      obtain ⟨p, hp⟩ := policyFor_of_decoded hdec
      rw [write32_of_ok hp] at h ⊢
      obtain ⟨n, hstops, he, hcut⟩ := ih h
      refine ⟨n + 1, hstops.next hdec, ?_, ?_⟩
      · rw [he, show k + 1 + n = k + (n + 1) by omega]
      · rw [List.take_succ_cons, writeFrom, write32_of_ok hp]
        exact hcut

/- Each word that went through has ticked once. -/
theorem ticks_accesses {accs : List Access} (h : ∀ acc ∈ accs, decoded acc.address = true) :
    (accs.foldl access d).ticks = d.ticks + BitVec.ofNat 64 accs.length := by
  induction accs generalizing d with
  | nil => exact (BitVec.add_zero _).symm
  | cons acc accs ih =>
    have hone := (access_fields (d := d) (h acc (List.mem_cons_self ..))).1
    rw [List.foldl_cons, ih fun other hother => h other (List.mem_cons_of_mem _ hother), hone,
      List.length_cons, Nat.add_comm accs.length, BitVec.ofNat_add, BitVec.add_assoc]
    rfl

theorem reads_length (h : ∀ i < n, decoded (address + BitVec.ofNat 64 ((k + i) * 4)) = true) :
    (reads address n k).length = n := by
  induction n generalizing k with
  | zero => rfl
  | succ n ih =>
    have hfirst : decoded (address + BitVec.ofNat 64 (k * 4)) = true := h 0 (Nat.succ_pos n)
    rw [reads, if_pos hfirst, List.length_cons, ih fun i hi => ?_]
    rw [show k + 1 + i = k + (i + 1) by omega]
    exact h (i + 1) (by omega)

theorem writes_length
    (h : ∀ i < words.length, decoded (address + BitVec.ofNat 64 ((k + i) * 4)) = true) :
    (writes address words k).length = words.length := by
  induction words generalizing k with
  | nil => rfl
  | cons w words ih =>
    have hfirst : decoded (address + BitVec.ofNat 64 (k * 4)) = true := h 0 (Nat.succ_pos _)
    rw [writes, if_pos hfirst, List.length_cons, List.length_cons, ih fun i hi => ?_]
    rw [show k + 1 + i = k + (i + 1) by omega]
    exact h (i + 1) (Nat.succ_lt_succ hi)

/-! ### A failing block access -/

def Op.isBlock : Op → Bool
  | .readBlock _ _ _ => true
  | .writeBlock _ _ => true
  | _ => false

/- The same block access, of the first `n` words only. -/
def Op.first (n : ℕ) : Op → Op
  | .readBlock address out _ => .readBlock address out n
  | .writeBlock address (.null _) => .writeBlock address (.null n)
  | .writeBlock address (.buffer words) => .writeBlock address (.buffer (words.take n))
  | op => op

/- After `n` words the access throws `e`. -/
inductive Op.FailsAt : Op → ℕ → TransportError → Prop
  | nullRead (address : BitVec 64) (count : ℕ) (h : count ≠ 0) :
      FailsAt (.readBlock address false count) 0 ⟨"ReadBlock called with a null buffer", address⟩
  | nullWrite (address : BitVec 64) (count : ℕ) (h : count ≠ 0) :
      FailsAt (.writeBlock address (.null count)) 0
        ⟨"WriteBlock called with a null buffer", address⟩
  | read (address : BitVec 64) (count n : ℕ) (h : StopsAt address 0 count n) :
      FailsAt (.readBlock address true count) n
        ⟨"no register decoded at address", address + BitVec.ofNat 64 (n * 4)⟩
  | write (address : BitVec 64) (words : List (BitVec 32)) (n : ℕ)
      (h : StopsAt address 0 words.length n) :
      FailsAt (.writeBlock address (.buffer words)) n
        ⟨"no register decoded at address", address + BitVec.ofNat 64 (n * 4)⟩

/- The registers, `ticks_`, `dma_running_` and `dma_done_at_`. -/
def Unchanged (d d' : Device) : Prop :=
  d'.storage = d.storage ∧ d'.ticks = d.ticks ∧ d'.dmaRunning = d.dmaRunning ∧
    d'.dmaDoneAt = d.dmaDoneAt

theorem Unchanged.refl (d : Device) : Unchanged d d := ⟨rfl, rfl, rfl, rfl⟩

theorem unchanged_iff {accs : List Access} (hdec : ∀ acc ∈ accs, decoded acc.address = true)
    (hshort : accs.length < 10) : Unchanged d (accs.foldl access d) ↔ accs.length = 0 := by
  constructor
  · rintro ⟨-, hticks, -, -⟩
    rw [ticks_accesses hdec, add_eq_left] at hticks
    have hnat := congrArg BitVec.toNat hticks
    rw [BitVec.toNat_ofNat] at hnat
    have hsmall : accs.length % 2 ^ 64 = accs.length := Nat.mod_eq_of_lt (by omega)
    rwa [hsmall] at hnat
  · intro hnil
    rw [List.eq_nil_of_length_eq_zero hnil]
    exact .refl d

theorem StopsAt.words_before (h : StopsAt address 0 count n) :
    n < 10 ∧ ∀ i < n, decoded (address + BitVec.ofNat 64 ((0 + i) * 4)) = true := by
  have hplain : ∀ i < n, decoded (address + BitVec.ofNat 64 (i * 4)) = true := by
    intro i hi
    have hi' := h.before i hi
    rwa [Nat.zero_add] at hi'
  exact ⟨block_short hplain, h.before⟩

theorem readBlock_buffer : d.readBlock address true count = readFrom address count 0 d :=
  if_neg fun hc => absurd hc.1 (by decide)

theorem readBlock_null (hcount : count ≠ 0) : d.readBlock address false count =
    ({ error := some ⟨"ReadBlock called with a null buffer", address⟩ }, d) :=
  if_pos ⟨rfl, hcount⟩

theorem writeBlock_null (hcount : count ≠ 0) : d.writeBlock address (.null count) =
    ({ error := some ⟨"WriteBlock called with a null buffer", address⟩ }, d) :=
  if_pos hcount

theorem readBlock_fails {out : Bool} (h : (d.readBlock address out count).1.error = some e) :
    ∃ n, (Op.readBlock address out count).FailsAt n e ∧
      d.readBlock address out n =
        ({ words := (d.readBlock address out count).1.words },
          (d.readBlock address out count).2) ∧
      (Unchanged d (d.readBlock address out count).2 ↔ n = 0) := by
  cases out with
  | false =>
    by_cases hcount : count = 0
    · rw [hcount] at h
      cases h
    · rw [readBlock_null hcount] at h ⊢
      cases h
      exact ⟨0, .nullRead address count hcount, rfl, iff_of_true (.refl d) rfl⟩
  | true =>
    rw [readBlock_buffer] at h
    obtain ⟨n, hstops, rfl, hcut⟩ := readFrom_stops h
    obtain ⟨hshort, hbefore⟩ := hstops.words_before
    have hlength := reads_length hbefore
    have hstate : (readFrom address count 0 d).2 = (reads address n 0).foldl access d := by
      rw [← readFrom_accesses, hcut]
    have hdec : ∀ acc ∈ reads address n 0, decoded acc.address = true := by
      intro acc hacc
      obtain ⟨a, rfl, ha⟩ := mem_reads hacc
      exact ha
    rw [Nat.zero_add]
    refine ⟨n, .read address count n hstops, ?_, ?_⟩
    · rw [readBlock_buffer, readBlock_buffer]
      exact hcut
    · rw [readBlock_buffer, hstate, unchanged_iff hdec (by omega), hlength]

theorem writeBlock_fails {source : Source} (h : (d.writeBlock address source).1.error = some e) :
    ∃ n, (Op.writeBlock address source).FailsAt n e ∧
      d.apply ((Op.writeBlock address source).first n) =
        ({ words := (d.writeBlock address source).1.words }, (d.writeBlock address source).2) ∧
      (Unchanged d (d.writeBlock address source).2 ↔ n = 0) := by
  cases source with
  | null count =>
    by_cases hcount : count = 0
    · rw [hcount] at h
      cases h
    · rw [writeBlock_null hcount] at h ⊢
      cases h
      exact ⟨0, .nullWrite address count hcount, rfl, iff_of_true (.refl d) rfl⟩
  | buffer words =>
    change (writeFrom address words 0 d).1.error = some e at h
    change ∃ n, (Op.writeBlock address (.buffer words)).FailsAt n e ∧
      writeFrom address (words.take n) 0 d =
        ({ words := (writeFrom address words 0 d).1.words }, (writeFrom address words 0 d).2) ∧
      (Unchanged d (writeFrom address words 0 d).2 ↔ n = 0)
    obtain ⟨n, hstops, rfl, hcut⟩ := writeFrom_stops h
    obtain ⟨hshort, hbefore⟩ := hstops.words_before
    have htake : (words.take n).length = n := List.length_take_of_le hstops.lt.le
    have hlength := writes_length (by rwa [htake] : ∀ i < (words.take n).length,
      decoded (address + BitVec.ofNat 64 ((0 + i) * 4)) = true)
    have hstate : (writeFrom address words 0 d).2 =
        (writes address (words.take n) 0).foldl access d := by
      rw [← writeFrom_accesses, hcut]
    have hdec : ∀ acc ∈ writes address (words.take n) 0, decoded acc.address = true := by
      intro acc hacc
      obtain ⟨m, v, rfl, -, hall⟩ := mem_writes hacc
      exact hall m (Nat.le_refl m)
    rw [Nat.zero_add, writeFrom_words]
    refine ⟨n, .write address words n hstops, hcut, ?_⟩
    rw [hstate, unchanged_iff hdec (by omega), hlength, htake]

/-- A block access that throws has the effect of the words before the first one without
a register, as if only those had been asked for, and so none just when there are none. -/
theorem failed_block (d : Device) (hop : op.isBlock = true) (h : (d.apply op).1.error = some e) :
    ∃ n, op.FailsAt n e ∧
      d.apply (op.first n) = ({ words := (d.apply op).1.words }, (d.apply op).2) ∧
      (Unchanged d (d.apply op).2 ↔ n = 0) := by
  cases op with
  | readBlock address out count => exact readBlock_fails h
  | writeBlock address source => exact writeBlock_fails h
  | _ => cases hop

/- XFER_LEN is the last register of its block: the second word has none. -/
def overrun : Op := .writeBlock kDmaXferLen (.buffer [64, 0])

theorem failed_block_overrun :
    ∃ n, overrun.FailsAt n ⟨"no register decoded at address", kDmaXferLen + 4⟩ ∧
      fresh.apply (overrun.first n) =
        ({ words := (fresh.apply overrun).1.words }, (fresh.apply overrun).2) ∧
      (Unchanged fresh (fresh.apply overrun).2 ↔ n = 0) :=
  failed_block fresh rfl (by decide)

theorem failed_block_keeps_words : ¬∀ (d : Device) (op : Op) (e : TransportError), d.Reachable →
    op.isBlock = true → (d.apply op).1.error = some e → Unchanged d (d.apply op).2 := by
  intro hall
  obtain ⟨-, hticks, -, -⟩ := hall fresh overrun ⟨"no register decoded at address", kDmaXferLen + 4⟩
    ⟨[], rfl⟩ rfl (by decide)
  revert hticks
  decide

end SocValidation.Device
