import SocValidation.Device.Effects
import SocValidation.Regmap.SocMap

/-!
# What holds in every reachable state of the device (emulated_device.cpp)

The status word is that of one of three phases of the DMA engine, and which one
goes with the running flag. The policy keeps STATUS from being written and lets
the three W1C bits of a register only go down; ticks raise the first of them.
-/

namespace SocValidation.Device
open BitRange Regmap

variable {d : Device} {a b : BitVec 64} {v : BitVec 32} {p : RegPolicy} {acc : Access} {i : ℕ}

/-! ### The masked write, bit by bit -/

theorem getLsbD_masked (p : RegPolicy) (current value : BitVec 32) (hi : i < 32) :
    (masked p current value).getLsbD i =
      if p.w1cMask.getLsbD i then current.getLsbD i && !value.getLsbD i
      else if p.roMask.getLsbD i then current.getLsbD i
      else value.getLsbD i := by
  have hclear : (if p.w1cMask ≠ 0 then current &&& ~~~(value &&& p.w1cMask) else current).getLsbD i =
      (current.getLsbD i && !(value.getLsbD i && p.w1cMask.getLsbD i)) := by
    by_cases hw : p.w1cMask = 0
    · rw [if_neg (not_not.mpr hw), hw]
      simp
    · rw [if_pos hw]
      simp [hi]
  simp only [masked, BitVec.getLsbD_or, BitVec.getLsbD_and, hclear, BitVec.getLsbD_not, hi,
    decide_true, Bool.true_and]
  cases p.w1cMask.getLsbD i <;> cases p.roMask.getLsbD i <;> cases current.getLsbD i <;>
    cases value.getLsbD i <;> rfl

theorem masked_readOnly (current value : BitVec 32) (reset : BitVec 32) :
    masked ⟨reset, 0xFFFFFFFF, 0⟩ current value = current := by
  apply BitVec.eq_of_getLsbD_eq
  intro i hi
  have hones : (0xFFFFFFFF#32).getLsbD i = true := by
    rw [show 0xFFFFFFFF#32 = BitVec.allOnes 32 from rfl, BitVec.getLsbD_allOnes]
    exact decide_eq_true hi
  rw [getLsbD_masked _ _ _ hi]
  simp [hones]

/-! ### STATUS -/

theorem policyFor_status : policyFor kDmaStatus = .ok ⟨1, 0xFFFFFFFF, 0⟩ := by decide

/- Only a tick and a GO that starts a transfer change STATUS. -/
theorem word_status (h : decoded acc.address = true) : (d.access acc).word kDmaStatus =
    if acc.go ∧ d.tick.dmaRunning = false then kStatusBusy else d.tick.word kDmaStatus := by
  cases acc with
  | read address =>
    have hdec : decoded address = true := h
    have hgo : ¬(Access.read address).go := fun hc => hc
    rw [word_read hdec, if_neg fun hc => hgo hc.1]
  | write address value =>
    have hdec : decoded address = true := h
    obtain ⟨p, hp⟩ := policyFor_of_decoded hdec
    have hlink : ¬(kDmaStatus = kPcieLinkStatus ∧ address = kPcieLinkCtrl ∧ value &&& 0x1 ≠ 0) :=
      fun hc => absurd hc.1 (by decide)
    rw [word_write hp, if_neg hlink]
    by_cases hgo : (Access.write address value).go ∧ d.tick.dmaRunning = false
    · rw [if_pos ⟨rfl, hgo⟩, if_pos hgo]
    · rw [if_neg fun hc => hgo hc.2, if_neg hgo]
      split
      next he =>
        rw [← he] at hp ⊢
        cases hp.symm.trans policyFor_status
        exact masked_readOnly _ _ _
      · rfl

/-! ### The W1C registers -/

def Access.ones (acc : Access) (register : BitVec 64) (i : ℕ) : Bool :=
  match acc with
  | .read _ => false
  | .write address value => decide (address = register) && value.getLsbD i

def W1cRegister (register : BitVec 64) : Prop := register = kDmaIrq ∨ register = kPcieErrStatus

theorem policyFor_w1c {register : BitVec 64} (h : W1cRegister register) :
    policyFor register = .ok ⟨0, 0, 7⟩ := by
  rcases h with rfl | rfl <;> decide

/-- An access takes a W1C bit down when it writes a 1 there, and never up. -/
theorem getLsbD_w1c {register : BitVec 64} (hr : W1cRegister register)
    (h : decoded acc.address = true) (hi : i < 3) :
    ((d.access acc).word register).getLsbD i =
      ((d.tick.word register).getLsbD i && !acc.ones register i) := by
  have hmask : (7#32).getLsbD i = true := by
    have h3 : i = 0 ∨ i = 1 ∨ i = 2 := by omega
    rcases h3 with rfl | rfl | rfl <;> decide
  cases acc with
  | read address =>
    have hdec : decoded address = true := h
    rw [word_read hdec]
    simp [Access.ones]
  | write address value =>
    have hdec : decoded address = true := h
    obtain ⟨p, hp⟩ := policyFor_of_decoded hdec
    have hlink : ¬(register = kPcieLinkStatus ∧ address = kPcieLinkCtrl ∧ value &&& 0x1 ≠ 0) := by
      rcases hr with rfl | rfl
      · exact fun hc => absurd hc.1 (by decide)
      · exact fun hc => absurd hc.1 (by decide)
    have hstatus : ¬(register = kDmaStatus ∧ (Access.write address value).go ∧
        d.tick.dmaRunning = false) := by
      rcases hr with rfl | rfl
      · exact fun hc => absurd hc.1 (by decide)
      · exact fun hc => absurd hc.1 (by decide)
    rw [word_write hp, if_neg hlink, if_neg hstatus]
    by_cases he : register = address
    · subst he
      cases hp.symm.trans (policyFor_w1c hr)
      rw [if_pos rfl, getLsbD_masked _ _ _ (by omega)]
      simp [hmask, Access.ones]
    · rw [if_neg he]
      simp [Access.ones, Ne.symm he]

/-- A tick raises a W1C bit only as DONE_IRQ of a transfer that completes. -/
theorem getLsbD_tick_w1c {register : BitVec 64} (hr : W1cRegister register) (hi : i < 3) :
    (d.tick.word register).getLsbD i =
      ((d.word register).getLsbD i || decide (d.due ∧ register = kDmaIrq ∧ i = 0)) := by
  have hdone : kIrqDone.getLsbD i = decide (i = 0) := by
    have h3 : i = 0 ∨ i = 1 ∨ i = 2 := by omega
    rcases h3 with rfl | rfl | rfl <;> decide
  rw [word_tick]
  by_cases hdue : d.due
  · rw [if_pos hdue]
    rcases hr with rfl | rfl
    · rw [if_pos rfl, BitVec.getLsbD_or, hdone]
      simp [hdue]
    · rw [if_neg (by decide), if_neg (by decide)]
      simp [show kPcieErrStatus ≠ kDmaIrq by decide]
  · rw [if_neg hdue]
    simp [hdue]

/-! ### The phases of the DMA engine -/

inductive Phase where
  | idle
  | busy
  | done (beats : BitVec 16)

def Phase.word : Phase → BitVec 32
  | .idle => kStatusIdle
  | .busy => kStatusBusy
  | .done beats => kStatusIdle ||| kStatusDone ||| (beats.setWidth 32 <<< 8)

theorem completed_word (xferLen : BitVec 32) :
    completed xferLen = (Phase.done (((xferLen &&& 0x00FFFFFF) / 4#32).setWidth 16)).word := by
  have hlow : ∀ x : BitVec 32, x &&& 0xFFFF = (x.setWidth 16).setWidth 32 := fun x => by
    apply BitVec.eq_of_getLsbD_eq
    intro i hi
    rw [BitVec.getLsbD_and, BitVec.getLsbD_setWidth, BitVec.getLsbD_setWidth,
      show (0xFFFF : BitVec 32) = BitVec.ofNat 32 (2 ^ 16 - 1) from rfl, BitVec.getLsbD_ofNat,
      Nat.testBit_two_pow_sub_one]
    simp [hi, Bool.and_comm]
  rw [completed, Phase.word, hlow]

structure Inv (d : Device) : Prop where
  keys : d.Keys
  phase : ∃ phase : Phase, d.word kDmaStatus = phase.word ∧ (d.dmaRunning = true ↔ phase = .busy)
  w1c : ∀ register i, W1cRegister register → i < 3 → ¬(register = kDmaIrq ∧ i = 0) →
    (d.word register).getLsbD i = false

theorem tick_phase
    (h : ∃ phase : Phase, d.word kDmaStatus = phase.word ∧ (d.dmaRunning = true ↔ phase = .busy)) :
    ∃ phase : Phase, d.tick.word kDmaStatus = phase.word ∧
      (d.tick.dmaRunning = true ↔ phase = .busy) := by
  obtain ⟨-, -, -, hrunning⟩ := tick_fields (d := d)
  rw [word_tick, hrunning]
  by_cases hdue : d.due
  · rw [if_pos hdue, if_neg (by decide), if_pos rfl, completed_word]
    exact ⟨_, rfl, by simp [hdue]⟩
  · rw [if_neg hdue]
    simpa [hdue] using h

theorem access_phase (h : decoded acc.address = true)
    (hp : ∃ phase : Phase, d.word kDmaStatus = phase.word ∧ (d.dmaRunning = true ↔ phase = .busy)) :
    ∃ phase : Phase, (d.access acc).word kDmaStatus = phase.word ∧
      ((d.access acc).dmaRunning = true ↔ phase = .busy) := by
  obtain ⟨-, -, -, hrunning⟩ := access_fields (d := d) h
  rw [word_status h, hrunning]
  by_cases hgo : acc.go ∧ d.tick.dmaRunning = false
  · rw [if_pos hgo]
    exact ⟨.busy, rfl, by simp [hgo.1]⟩
  · rw [if_neg hgo]
    have hsame : (d.tick.dmaRunning || decide acc.go) = d.tick.dmaRunning := by
      cases hr : d.tick.dmaRunning with
      | true => rfl
      | false => rw [decide_eq_false fun hg => hgo ⟨hg, hr⟩]; rfl
    rw [hsame]
    exact tick_phase hp

theorem reset_word {reset : BitVec 32} (hp : policyFor a = .ok ⟨reset, p.roMask, p.w1cMask⟩) :
    d.reset.word a = reset := by
  have hdec : decoded a = true := by
    rw [decoded, hp]
    rfl
  obtain ⟨q, hq, hs⟩ := reset_storage (d := d) hdec
  cases hp.symm.trans hq
  rw [word, hs]
  rfl

theorem reset_inv (hk : ∀ a, decoded a = false → d.storage a = none) : Inv d.reset := by
  have hstatus : d.reset.word kDmaStatus = 1 := reset_word (p := ⟨1, _, _⟩) policyFor_status
  refine ⟨Keys.reset hk, ⟨.idle, hstatus, by simp [reset]⟩, fun register i hr hi _ => ?_⟩
  rw [reset_word (p := ⟨0, _, _⟩) (policyFor_w1c hr)]
  exact BitVec.getLsbD_zero

theorem access_inv (h : decoded acc.address = true) (hinv : Inv d) : Inv (d.access acc) := by
  refine ⟨hinv.keys.access h, access_phase h hinv.phase, fun register i hr hi hn => ?_⟩
  rw [getLsbD_w1c hr h hi, getLsbD_tick_w1c hr hi, hinv.w1c register i hr hi hn,
    decide_eq_false fun hc => hn hc.2]
  rfl

theorem reachable_inv (h : Reachable d) : Inv d := by
  refine reachable_invariant Inv (reset_inv fun a _ => rfl) (fun d acc hi hdec => access_inv hdec hi)
    (fun d hi => reset_inv fun a ha => ?_) (fun d ticks hi => ⟨hi.keys, hi.phase, hi.w1c⟩) h
  have hnone := hi.keys a
  rw [ha] at hnone
  simpa using hnone

/-! ### STATUS through the generated getters -/

theorem getLsbD_phase (phase : Phase) (i : ℕ) : phase.word.getLsbD i =
    match phase with
    | .idle => decide (i = 0)
    | .busy => decide (i = 1)
    | .done beats =>
      decide (i = 0) || decide (i = 2) || (decide (8 ≤ i ∧ i < 24) && beats.getLsbD (i - 8)) := by
  have hidle : kStatusIdle.getLsbD i = decide (i = 0) := by
    rw [show kStatusIdle = BitVec.twoPow 32 0 by decide, BitVec.getLsbD_twoPow]
    simp [eq_comm]
  have hbusy : kStatusBusy.getLsbD i = decide (i = 1) := by
    rw [show kStatusBusy = BitVec.twoPow 32 1 by decide, BitVec.getLsbD_twoPow]
    simp [eq_comm]
  have hdone : kStatusDone.getLsbD i = decide (i = 2) := by
    rw [show kStatusDone = BitVec.twoPow 32 2 by decide, BitVec.getLsbD_twoPow]
    simp [eq_comm]
  cases phase with
  | idle => exact hidle
  | busy => exact hbusy
  | done beats =>
    simp only [Phase.word, BitVec.getLsbD_or, hidle, hdone, BitVec.getLsbD_shiftLeft,
      BitVec.getLsbD_setWidth]
    congr 1
    by_cases h8 : i < 8
    · simp [h8, show ¬8 ≤ i by omega]
    · by_cases h24 : i < 24
      · simp [h8, h24, show i < 32 by omega, show i - 8 < 32 by omega, show 8 ≤ i by omega]
      · simp [h24, BitVec.getLsbD_of_ge beats (i - 8) (by omega)]

variable {phase : Phase}

theorem idle_iff : statusIDLE.getter phase.word = 1 ↔ phase ≠ .busy := by
  have hbit : statusIDLE.getter phase.word = 1 ↔ phase.word.getLsbD 0 = true :=
    statusIDLE.getter_eq_one_iff phase.word rfl
  rw [hbit, getLsbD_phase]
  cases phase <;> simp

theorem busy_iff : statusBUSY.getter phase.word = 1 ↔ phase = .busy := by
  have hbit : statusBUSY.getter phase.word = 1 ↔ phase.word.getLsbD 1 = true :=
    statusBUSY.getter_eq_one_iff phase.word rfl
  rw [hbit, getLsbD_phase]
  cases phase <;> simp

theorem done_iff : statusDONE.getter phase.word = 1 ↔ ∃ beats, phase = .done beats := by
  have hbit : statusDONE.getter phase.word = 1 ↔ phase.word.getLsbD 2 = true :=
    statusDONE.getter_eq_one_iff phase.word rfl
  rw [hbit, getLsbD_phase]
  cases phase <;> simp

theorem outside_zero
    (h : ∀ f ∈ dmaSTATUS.fields, ¬(f.bits.lo ≤ (i : ℤ) ∧ (i : ℤ) ≤ f.bits.hi)) :
    phase.word.getLsbD i = false := by
  have h0 : ¬((0 : ℤ) ≤ i ∧ (i : ℤ) ≤ 0) := h statusIDLE (by simp [dmaSTATUS, makeRegister])
  have h1 : ¬((1 : ℤ) ≤ i ∧ (i : ℤ) ≤ 1) := h statusBUSY (by simp [dmaSTATUS, makeRegister])
  have h2 : ¬((2 : ℤ) ≤ i ∧ (i : ℤ) ≤ 2) := h statusDONE (by simp [dmaSTATUS, makeRegister])
  have h3 : ¬((8 : ℤ) ≤ i ∧ (i : ℤ) ≤ 23) := h statusBEATS (by simp [dmaSTATUS, makeRegister])
  rw [getLsbD_phase]
  cases phase with
  | idle => exact decide_eq_false (by omega)
  | busy => exact decide_eq_false (by omega)
  | done beats =>
    rw [decide_eq_false (show ¬i = 0 by omega), decide_eq_false (show ¬i = 2 by omega),
      decide_eq_false (show ¬(8 ≤ i ∧ i < 24) by omega)]
    rfl

/-- What holds in every state that any sequence of operations reaches. -/
theorem device_invariant (ops : List Op) :
    (∀ address, ((fresh.run ops).storage address).isSome ↔ address ∈ policy.map Prod.fst) ∧
    (statusIDLE.getter ((fresh.run ops).word kDmaStatus) = 1 ∧
        statusBUSY.getter ((fresh.run ops).word kDmaStatus) = 0 ∨
      statusIDLE.getter ((fresh.run ops).word kDmaStatus) = 0 ∧
        statusBUSY.getter ((fresh.run ops).word kDmaStatus) = 1) ∧
    (statusDONE.getter ((fresh.run ops).word kDmaStatus) = 1 →
      statusIDLE.getter ((fresh.run ops).word kDmaStatus) = 1) ∧
    (statusBUSY.getter ((fresh.run ops).word kDmaStatus) = 1 →
      statusBEATS.getter ((fresh.run ops).word kDmaStatus) = 0) ∧
    (∀ i : ℕ, (∀ f ∈ dmaSTATUS.fields, ¬(f.bits.lo ≤ i ∧ i ≤ f.bits.hi)) →
      ((fresh.run ops).word kDmaStatus).getLsbD i = false) ∧
    ((fresh.run ops).dmaRunning = true ↔ statusBUSY.getter ((fresh.run ops).word kDmaStatus) = 1) ∧
    (∀ i, i = 1 ∨ i = 2 → ((fresh.run ops).word kDmaIrq).getLsbD i = false) ∧
    ∀ i, i < 3 → ((fresh.run ops).word kPcieErrStatus).getLsbD i = false := by
  have hinv : Inv (fresh.run ops) := reachable_inv ⟨ops, rfl⟩
  obtain ⟨phase, hstatus, hrunning⟩ := hinv.phase
  rw [hstatus, hrunning, busy_iff]
  refine ⟨fun address => ?_, ?_, ?_, ?_, fun i hi => outside_zero hi, Iff.rfl, fun i hi => ?_,
    fun i hi => ?_⟩
  · rw [hinv.keys address]
    exact decoded_iff
  · by_cases hb : phase = .busy
    · right
      refine ⟨(statusIDLE.getter_bit phase.word rfl).resolve_right fun h => ?_, hb⟩
      exact idle_iff.mp h hb
    · left
      refine ⟨idle_iff.mpr hb, (statusBUSY.getter_bit phase.word rfl).resolve_right fun h => ?_⟩
      exact hb (busy_iff.mp h)
  · intro hd
    obtain ⟨beats, rfl⟩ := done_iff.mp hd
    exact idle_iff.mpr (by simp)
  · intro hb
    subst hb
    decide
  · exact hinv.w1c kDmaIrq i (Or.inl rfl) (by omega) (by omega)
  · exact hinv.w1c kPcieErrStatus i (Or.inr rfl) hi fun hc => absurd hc.1 (by decide)

end SocValidation.Device
