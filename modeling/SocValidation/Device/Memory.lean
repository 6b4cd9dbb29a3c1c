import SocValidation.Device.Invariant
import SocValidation.Lib.Trace

/-!
# The registers that software owns (Write32, WriteBlock, Reset)

To a driver the registers without read-only and W1C bits are memory: a read returns
the last word delivered since `Reset`. LINK_STATUS shows the last retrain in the
same way. Nothing else reaches any of them.
-/

namespace SocValidation.Device
open BitRange Regmap

variable {d : Device} {address a : BitVec 64} {acc : Access} {op : Op} {es : List Effect}

/-! ### The words that reads return -/

theorem readFrom_words {count n j : ℕ} {w : BitVec 32}
    (h : (readFrom address count n d).1.words[j]? = some w) :
    j < count ∧ ∃ pre post, reads address count n =
        pre ++ .read (address + BitVec.ofNat 64 ((n + j) * 4)) :: post ∧
      (∀ acc ∈ pre, ∃ b, acc = .read b) ∧
      w = (pre.foldl access d).tick.word (address + BitVec.ofNat 64 ((n + j) * 4)) := by
  induction count generalizing n j d with
  | zero => simp [readFrom] at h
  | succ count ih =>
    simp only [readFrom, reads] at h ⊢
    cases hdec : decoded (address + BitVec.ofNat 64 (n * 4)) with
    | false =>
      rw [read32_of_not_decoded hdec] at h
      simp at h
    | true =>
      rw [read32_of_decoded hdec] at h
      cases j with
      | zero =>
        simp only [List.getElem?_cons_zero, Option.some.injEq] at h
        exact ⟨by omega, [], reads address count (n + 1), rfl, by simp, h.symm⟩
      | succ j =>
        simp only [List.getElem?_cons_succ] at h
        obtain ⟨hj, pre, post, hsplit, hpre, hw⟩ := ih h
        rw [show n + 1 + j = n + (j + 1) by omega] at hsplit hw
        refine ⟨by omega, .read (address + BitVec.ofNat 64 (n * 4)) :: pre, post, ?_, ?_, ?_⟩
        · rw [if_pos rfl, hsplit, List.cons_append]
        · intro acc hacc
          rcases List.mem_cons.mp hacc with rfl | hacc
          · exact ⟨_, rfl⟩
          · exact hpre acc hacc
        · rw [hw, List.foldl_cons, access_read hdec]

/- The address whose word is the `j`-th that the operation returns. -/
def Op.readAt : Op → ℕ → Option (BitVec 64)
  | .read32 address, j => if j = 0 then some address else none
  | .readBlock address out count, j =>
    if out = true ∧ j < count then some (address + BitVec.ofNat 64 (j * 4)) else none
  | _, _ => none

theorem apply_words {j : ℕ} {w : BitVec 32} (h : (d.apply op).1.words[j]? = some w) :
    ∃ a pre post, op.readAt j = some a ∧ op.accesses = pre ++ .read a :: post ∧
      (∀ acc ∈ pre, ∃ b, acc = .read b) ∧ w = (pre.foldl access d).tick.word a := by
  cases op with
  | read32 address =>
    cases hdec : decoded address with
    | false => simp [apply, read32_of_not_decoded hdec] at h
    | true =>
      simp only [apply, read32_of_decoded hdec] at h
      cases j with
      | zero =>
        simp only [List.getElem?_cons_zero, Option.some.injEq] at h
        exact ⟨address, [], [], rfl, by simp [Op.accesses, hdec], by simp, h.symm⟩
      | succ j => simp at h
  | readBlock address out count =>
    simp only [apply, readBlock] at h
    split at h
    · simp at h
    next hout =>
      obtain ⟨hj, pre, post, hsplit, hpre, hw⟩ := readFrom_words h
      simp only [Nat.zero_add] at hsplit hw
      have hbuffer : out = true := by
        cases out with
        | true => rfl
        | false => exact absurd ⟨rfl, by omega⟩ hout
      refine ⟨_, pre, post, if_pos ⟨hbuffer, hj⟩, ?_, hpre, hw⟩
      rw [Op.accesses, if_neg hout]
      exact hsplit
  | write32 address value =>
    simp only [apply] at h
    split at h <;> simp at h
  | writeBlock address source =>
    cases source with
    | null count =>
      simp only [apply, writeBlock] at h
      split at h <;> simp at h
    | buffer words =>
      simp only [apply, writeBlock, writeFrom_words] at h
      simp at h
  | reset => simp [apply] at h
  | setTransferLatency ticks => simp [apply] at h

theorem readFrom_length {count n j : ℕ} (hj : j < count)
    (hdec : ∀ i, i ≤ j → decoded (address + BitVec.ofNat 64 ((n + i) * 4)) = true) :
    j < (readFrom address count n d).1.words.length := by
  induction count generalizing n j d with
  | zero => omega
  | succ count ih =>
    have hfirst : decoded (address + BitVec.ofNat 64 (n * 4)) = true := hdec 0 (Nat.zero_le j)
    rw [readFrom, read32_of_decoded hfirst]
    cases j with
    | zero => exact Nat.succ_pos _
    | succ j =>
      refine Nat.succ_lt_succ (ih (by omega) fun i hi => ?_)
      rw [show n + 1 + i = n + (i + 1) by omega]
      exact hdec (i + 1) (by omega)

/- A word comes back where its address and those before it are decoded. -/
theorem apply_length {j : ℕ} (h : ∀ i, i ≤ j → ∃ a, op.readAt i = some a ∧ decoded a = true) :
    j < (d.apply op).1.words.length := by
  cases op with
  | read32 address =>
    obtain ⟨a, hat, hdec⟩ := h j (Nat.le_refl j)
    simp only [Op.readAt] at hat
    split at hat
    next hj =>
      cases hat
      rw [hj, apply, read32_of_decoded hdec]
      exact Nat.one_pos
    · cases hat
  | readBlock address out count =>
    have hat : ∀ i, i ≤ j → (out = true ∧ i < count) ∧
        decoded (address + BitVec.ofNat 64 (i * 4)) = true := by
      intro i hi
      obtain ⟨a, hat, hdec⟩ := h i hi
      simp only [Op.readAt] at hat
      split at hat
      next hin =>
        cases hat
        exact ⟨hin, hdec⟩
      · cases hat
    obtain ⟨⟨hout, hj⟩, -⟩ := hat j (Nat.le_refl j)
    rw [apply, readBlock, if_neg (by simp [hout])]
    apply readFrom_length hj
    intro i hi
    rw [Nat.zero_add]
    exact (hat i hi).2
  | write32 address value =>
    obtain ⟨a, hat, -⟩ := h j (Nat.le_refl j)
    cases hat
  | writeBlock address source =>
    obtain ⟨a, hat, -⟩ := h j (Nat.le_refl j)
    cases hat
  | reset =>
    obtain ⟨a, hat, -⟩ := h j (Nat.le_refl j)
    cases hat
  | setTransferLatency ticks =>
    obtain ⟨a, hat, -⟩ := h j (Nat.le_refl j)
    cases hat

/-! ### The history as a memory -/

def isReset : Effect → Bool
  | .reset => true
  | _ => false

def deliveredTo (a : BitVec 64) : Effect → Option (BitVec 32)
  | .access (.write address value) => if address = a then some value else none
  | _ => none

/- A word with bit 0 set, delivered to LINK_CTRL. -/
def retrains : Effect → Option (BitVec 32)
  | .access (.write address value) =>
    if address = kPcieLinkCtrl ∧ value &&& 0x1 ≠ 0 then some value else none
  | _ => none

/- What the history delivers to the address after its last reset. -/
def delivered (a : BitVec 64) (es : List Effect) : List (BitVec 32) :=
  (Trace.since isReset es).filterMap (deliveredTo a)

def retrained (es : List Effect) : List (BitVec 32) :=
  (Trace.since isReset es).filterMap retrains

def SoftwareOwned (a : BitVec 64) : Prop :=
  a = kDmaCtrl ∨ a = kDmaSrcAddr ∨ a = kDmaDstAddr ∨ a = kDmaXferLen ∨ a = kPcieLinkCtrl

theorem owned_xferLen : SoftwareOwned kDmaXferLen := Or.inr (Or.inr (Or.inr (Or.inl rfl)))

theorem policyFor_owned (h : SoftwareOwned a) : policyFor a = .ok ⟨0, 0, 0⟩ := by
  rcases h with rfl | rfl | rfl | rfl | rfl <;> decide

theorem owned_ne (h : SoftwareOwned a) : a ≠ kDmaIrq ∧ a ≠ kDmaStatus ∧ a ≠ kPcieLinkStatus := by
  rcases h with rfl | rfl | rfl | rfl | rfl <;> decide

theorem masked_plain (current value : BitVec 32) : masked ⟨0, 0, 0⟩ current value = value := by
  apply BitVec.eq_of_getLsbD_eq
  intro i hi
  rw [getLsbD_masked _ _ _ hi]
  simp

theorem word_tick_of_ne (hirq : a ≠ kDmaIrq) (hstatus : a ≠ kDmaStatus) :
    d.tick.word a = d.word a := by
  rw [word_tick, if_neg hirq, if_neg hstatus, ite_self]

theorem word_owned (h : SoftwareOwned a) (hdec : decoded acc.address = true) :
    (d.access acc).word a = (deliveredTo a (.access acc)).getD (d.word a) := by
  obtain ⟨hirq, hstatus, hlink⟩ := owned_ne h
  cases acc with
  | read address =>
    have hread : decoded address = true := hdec
    rw [word_read hread, word_tick_of_ne hirq hstatus]
    rfl
  | write address value =>
    have hwrite : decoded address = true := hdec
    obtain ⟨p, hp⟩ := policyFor_of_decoded hwrite
    rw [word_write hp, if_neg fun hc => hlink hc.1, if_neg fun hc => hstatus hc.1,
      word_tick_of_ne hirq hstatus]
    by_cases he : a = address
    · subst he
      cases hp.symm.trans (policyFor_owned h)
      rw [if_pos rfl, masked_plain]
      simp [deliveredTo]
    · simp [deliveredTo, he, Ne.symm he]

theorem policyFor_linkStatus : policyFor kPcieLinkStatus = .ok ⟨0, 0xFFFFFFFF, 0⟩ := by decide

theorem word_linkStatus (hdec : decoded acc.address = true) :
    (d.access acc).word kPcieLinkStatus =
      ((retrains (.access acc)).map trained).getD (d.word kPcieLinkStatus) := by
  have htick : d.tick.word kPcieLinkStatus = d.word kPcieLinkStatus :=
    word_tick_of_ne (by decide) (by decide)
  cases acc with
  | read address =>
    have hread : decoded address = true := hdec
    rw [word_read hread, htick]
    rfl
  | write address value =>
    have hwrite : decoded address = true := hdec
    obtain ⟨p, hp⟩ := policyFor_of_decoded hwrite
    have hstatus : kPcieLinkStatus ≠ kDmaStatus := by decide
    rw [word_write hp]
    by_cases ht : address = kPcieLinkCtrl ∧ value &&& 0x1 ≠ 0
    · rw [if_pos ⟨rfl, ht⟩, retrains, if_pos ht]
      rfl
    · rw [if_neg fun hc => ht hc.2, if_neg fun hc => hstatus hc.1, htick, retrains, if_neg ht]
      split
      next he =>
        rw [← he] at hp ⊢
        cases hp.symm.trans policyFor_linkStatus
        rw [htick]
        exact masked_readOnly _ _ _
      · rfl

/- A part of the state that `Reset` clears and only some accesses store in. -/
theorem history_word (observe : Device → BitVec 32) (stores : Effect → Option (BitVec 32))
    (hes : ∀ acc, .access acc ∈ es → decoded acc.address = true) (hfresh : observe fresh = 0)
    (hreset : ∀ d : Device, observe d.reset = 0)
    (hlatency : ∀ (d : Device) ticks, observe { d with latency := ticks } = observe d)
    (hnone : ∀ ticks, stores (.latency ticks) = none)
    (haccess : ∀ (d : Device) acc, decoded acc.address = true →
      observe (d.access acc) = (stores (.access acc)).getD (observe d)) :
    observe (es.foldl effect fresh) =
      ((Trace.since isReset es).filterMap stores).getLast?.getD 0 := by
  apply Trace.foldl_observe_since effect observe stores isReset 0 hfresh
  · intro e _ hr t
    cases e with
    | reset => exact hreset t
    | _ => cases hr
  · intro e he hr t
    cases e with
    | reset => cases hr
    | latency ticks =>
      rw [hnone]
      exact hlatency t ticks
    | access acc => exact haccess t acc (hes acc he)

theorem history_owned (h : SoftwareOwned a)
    (hes : ∀ acc, .access acc ∈ es → decoded acc.address = true) :
    (es.foldl effect fresh).word a = (delivered a es).getLast?.getD 0 := by
  have hreset : ∀ d : Device, d.reset.word a = 0 := fun d =>
    reset_word (p := ⟨0, _, _⟩) (policyFor_owned h)
  exact history_word (fun d => d.word a) (deliveredTo a) hes (hreset _) hreset (fun _ _ => rfl)
    (fun _ => rfl) fun d acc hdec => word_owned h hdec

theorem history_linkStatus (hes : ∀ acc, .access acc ∈ es → decoded acc.address = true) :
    (es.foldl effect fresh).word kPcieLinkStatus =
      ((retrained es).getLast?.map trained).getD 0 := by
  have hreset : ∀ d : Device, d.reset.word kPcieLinkStatus = 0 := fun d =>
    reset_word (p := ⟨0, _, _⟩) policyFor_linkStatus
  have hlast := history_word (fun d => d.word kPcieLinkStatus) (fun e => (retrains e).map trained)
    hes (hreset _) hreset (fun _ _ => rfl) (fun _ => rfl) fun d acc hdec => word_linkStatus hdec
  rw [← List.map_filterMap, List.getLast?_map] at hlast
  exact hlast

/- The reads of a block before the one that is looked at add nothing to the history. -/
theorem since_reads {stores : Effect → Option (BitVec 32)} {pre : List Access}
    (hstores : ∀ b, stores (.access (.read b)) = none) (hreads : ∀ acc ∈ pre, ∃ b, acc = .read b) :
    (Trace.since isReset (es ++ pre.map Effect.access)).filterMap stores =
      (Trace.since isReset es).filterMap stores := by
  induction pre using List.reverseRecOn with
  | nil => rw [List.map_nil, List.append_nil]
  | append_singleton pre acc ih =>
    obtain ⟨b, rfl⟩ := hreads acc (by simp)
    have hpre := ih fun other hother => hreads other (List.mem_append_left _ hother)
    rw [List.map_append, ← List.append_assoc, List.map_singleton, Trace.since_concat,
      if_neg (by simp [isReset]), List.filterMap_append, hpre]
    simp [hstores]

/-! ### The link-up word -/

theorem getLsbD_trained (v : BitVec 32) (i : ℕ) :
    (trained v).getLsbD i = if 1 ≤ i ∧ i ≤ 3 then v.getLsbD i else (trained 0).getLsbD i := by
  have hseven : ∀ j, (0x7 : BitVec 32).getLsbD j = (decide (j < 32) && decide (j < 3)) := fun j => by
    rw [show (0x7 : BitVec 32) = BitVec.ofNat 32 (2 ^ 3 - 1) from rfl, BitVec.getLsbD_ofNat,
      Nat.testBit_two_pow_sub_one]
  have hspeed : ((((v >>> 1) &&& 0x7) <<< 1) : BitVec 32).getLsbD i =
      (decide (1 ≤ i ∧ i ≤ 3) && v.getLsbD i) := by
    rw [BitVec.getLsbD_shiftLeft, BitVec.getLsbD_and, BitVec.getLsbD_ushiftRight, hseven]
    by_cases h : 1 ≤ i ∧ i ≤ 3
    · rw [show 1 + (i - 1) = i by omega, decide_eq_true h, decide_eq_true (show i < 32 by omega),
        decide_eq_true (show i - 1 < 32 by omega), decide_eq_true (show i - 1 < 3 by omega),
        decide_eq_false (show ¬i < 1 by omega)]
      simp
    · rw [decide_eq_false h]
      by_cases h1 : i < 1
      · rw [decide_eq_true h1]
        simp
      · rw [decide_eq_false (show ¬i - 1 < 3 by omega)]
        simp
  have hconst : ∀ w : BitVec 32, trained w = (0x1 ||| ((w >>> 1) &&& 0x7) <<< 1) ||| 0x4100 := fun w => by
    rw [trained, BitVec.or_assoc]
    rfl
  have hzero : (0x1 ||| (((0 : BitVec 32) >>> 1) &&& 0x7) <<< 1) ||| 0x4100 = (0x4101 : BitVec 32) := by
    decide
  rw [hconst 0, hzero, hconst v, BitVec.getLsbD_or, BitVec.getLsbD_or, hspeed,
    show (0x4101 : BitVec 32) = 0x1 ||| 0x4100 by decide, BitVec.getLsbD_or]
  by_cases h : 1 ≤ i ∧ i ≤ 3
  · rw [if_pos h, decide_eq_true h]
    have hi : i = 1 ∨ i = 2 ∨ i = 3 := by omega
    rcases hi with rfl | rfl | rfl <;> simp
  · rw [if_neg h, decide_eq_false h]
    simp

theorem trained_fields (v : BitVec 32) :
    linkLINK_UP.getter (trained v) = 1 ∧ linkWIDTH.getter (trained v) = 16 ∧
      linkLTSSM.getter (trained v) = 0x10 ∧
      linkSPEED.getter (trained v) = ctrlTARGET_SPEED.getter v := by
  have hsame : ∀ f : Field, 3 < f.bits.lo ∨ f.bits.hi < 1 →
      f.getter (trained v) = f.getter (trained 0) := by
    intro f hf
    rw [f.getter_eq, f.getter_eq, Range.get_eq_iff]
    intro i hi
    rw [f.has_range_iff] at hi
    rw [getLsbD_trained, if_neg (by omega)]
  refine ⟨?_, ?_, ?_, ?_⟩
  · rw [hsame linkLINK_UP (by decide)]
    decide
  · rw [hsame linkWIDTH (by decide)]
    decide
  · rw [hsame linkLTSSM (by decide)]
    decide
  · rw [linkSPEED.getter_eq, ctrlTARGET_SPEED.getter_eq]
    show linkSPEED.range.get (trained v) = linkSPEED.range.get v
    rw [Range.get_eq_iff]
    intro i hi
    rw [linkSPEED.has_range_iff] at hi
    have hlo : (1 : ℤ) ≤ i := hi.1
    have hhi : (i : ℤ) ≤ 3 := hi.2
    rw [getLsbD_trained, if_pos (by omega)]

/-- Every word that a read returns is what the history says of its address, one comes
back from every decoded address before the first undecoded one, and a single access
to an undecoded address changes nothing. -/
theorem software_registers (ops : List Op) (op : Op) :
    (∀ j, (∀ i, i ≤ j → ∃ a, op.readAt i = some a ∧ decoded a = true) →
      j < ((fresh.run ops).apply op).1.words.length) ∧
    (∀ (j : ℕ) (w : BitVec 32), ((fresh.run ops).apply op).1.words[j]? = some w →
      ∃ a, op.readAt j = some a ∧
        (SoftwareOwned a → ∃ p, policyFor a = .ok p ∧
          w = (delivered a (ops.flatMap Op.effects)).getLast?.getD p.reset) ∧
        (a = kPcieLinkStatus →
          ((retrained (ops.flatMap Op.effects)).getLast? = none → w = 0) ∧
          ∀ v, (retrained (ops.flatMap Op.effects)).getLast? = some v →
            w = trained v ∧ linkLINK_UP.getter w = 1 ∧ linkWIDTH.getter w = 16 ∧
              linkLTSSM.getter w = 0x10 ∧ linkSPEED.getter w = ctrlTARGET_SPEED.getter v)) ∧
    ∀ a v, decoded a = false →
      (fresh.run ops).apply (.read32 a) =
        ({ error := some ⟨"no register decoded at address", a⟩ }, fresh.run ops) ∧
      (fresh.run ops).apply (.write32 a v) =
        ({ error := some ⟨"no register decoded at address", a⟩ }, fresh.run ops) := by
  refine ⟨fun j hj => apply_length hj, fun j w hw => ?_, fun a v hdec => ?_⟩
  · obtain ⟨a, pre, post, hat, hsplit, hreads, rfl⟩ := apply_words hw
    have hes : ∀ acc, .access acc ∈ ops.flatMap Op.effects ++ pre.map Effect.access →
        decoded acc.address = true := by
      intro acc hacc
      rcases List.mem_append.mp hacc with hacc | hacc
      · exact effects_decoded hacc
      · obtain ⟨b, hb, heq⟩ := List.mem_map.mp hacc
        cases heq
        have hmem : acc ∈ op.accesses := by
          rw [hsplit]
          exact List.mem_append_left _ hb
        exact accesses_decoded hmem
    have hstate : pre.foldl access (fresh.run ops) =
        (ops.flatMap Op.effects ++ pre.map Effect.access).foldl effect fresh := by
      rw [List.foldl_append, ← run_effects, List.foldl_map]
      rfl
    refine ⟨a, hat, fun howned => ⟨_, policyFor_owned howned, ?_⟩, fun ha => ?_⟩
    · obtain ⟨hirq, hstatus, -⟩ := owned_ne howned
      have hdelivered : delivered a (ops.flatMap Op.effects ++ pre.map Effect.access) =
          delivered a (ops.flatMap Op.effects) := since_reads (fun b => rfl) hreads
      rw [word_tick_of_ne hirq hstatus, hstate, history_owned howned hes, hdelivered]
    · subst ha
      have hretrained : retrained (ops.flatMap Op.effects ++ pre.map Effect.access) =
          retrained (ops.flatMap Op.effects) := since_reads (fun b => rfl) hreads
      rw [word_tick_of_ne (by decide) (by decide), hstate, history_linkStatus hes, hretrained]
      refine ⟨fun hnone => ?_, fun v hv => ?_⟩
      · rw [hnone]
        rfl
      · rw [hv]
        exact ⟨rfl, trained_fields v⟩
  · constructor
    · simp only [apply, read32_of_not_decoded hdec]
    · simp only [apply, write32_of_not_decoded hdec]

end SocValidation.Device
