import SocValidation.Regmap.Accessor
import SocValidation.Device.Memory

/-!
# The device and the databook (emulated_device.cpp:27-43, soc.yaml)

The policy table of the device is written out by hand beside the map that the register
layer is generated from. It agrees with the map in every field of every register, so the
device does to each field what its access kind promises.
-/

namespace SocValidation.Regmap
open BitRange
open Device (decoded policyFor masked trained kDmaStatus kStatusBusy kPcieLinkStatus kPcieLinkCtrl)

variable {p : RegPolicy} {L : Layout} {f : Field}

def socLayouts : List Layout :=
  [dmaCTRL, dmaSTATUS, dmaIRQ_STATUS, dmaSRC_ADDR, dmaDST_ADDR, dmaXFER_LEN, pcieLINK_STATUS,
    pcieLINK_CTRL, pcieERR_STATUS]

theorem socCode_registers : socCode.flatMap BlockCode.registers = socLayouts.map Layout.reg := rfl

/-! ### Policies and fields -/

/- What a policy makes of a bit, in the words of the map. -/
def bitAccess (p : RegPolicy) (b : ℕ) : String :=
  if p.w1cMask.getLsbD b then "W1C" else if p.roMask.getLsbD b then "RO" else "RW"

structure Conforms (p : RegPolicy) (L : Layout) : Prop where
  reset : p.reset = L.kReset
  access : ∀ f ∈ L.fields, ∀ b, f.range.Has b → bitAccess p b = f.access

/- What a write of `v` makes of a field. -/
def Field.written (f : Field) (old v : BitVec 32) : BitVec 32 :=
  if f.access = "RW" then f.getter v
  else if f.access = "W1C" then f.getter old &&& ~~~f.getter v
  else f.getter old

theorem getLsbD_written (hf : f.access = "RW" ∨ f.access = "RO" ∨ f.access = "W1C")
    (old v : BitVec 32) (i : ℕ) : (f.written old v).getLsbD i =
      (decide (i < f.range.width) &&
        if f.access = "W1C" then old.getLsbD (f.range.lo + i) && !v.getLsbD (f.range.lo + i)
        else if f.access = "RO" then old.getLsbD (f.range.lo + i)
        else v.getLsbD (f.range.lo + i)) := by
  have hin : i < f.range.width → i < 32 := fun hi => by
    have hlt := f.range.hi_lt
    unfold Range.width at hi
    omega
  rcases hf with hf | hf | hf
  · simp [Field.written, hf, f.getter_eq, Range.getLsbD_get]
  · simp [Field.written, hf, f.getter_eq, Range.getLsbD_get]
  · have hwritten : f.written old v = f.range.get old &&& ~~~f.range.get v := by
      rw [← f.getter_eq, ← f.getter_eq, Field.written, if_neg (by rw [hf]; decide), if_pos hf]
    rw [hwritten, BitVec.getLsbD_and, BitVec.getLsbD_not, Range.getLsbD_get, Range.getLsbD_get, if_pos hf]
    by_cases hi : i < f.range.width
    · simp [hi, hin hi]
    · simp [hi]

theorem bitAccess_kinds (b : ℕ) :
    bitAccess p b = "RW" ∨ bitAccess p b = "RO" ∨ bitAccess p b = "W1C" := by
  unfold bitAccess
  split
  · exact Or.inr (Or.inr rfl)
  · split
    · exact Or.inr (Or.inl rfl)
    · exact Or.inl rfl

theorem getter_masked (hp : Conforms p L) (hf : f ∈ L.fields) (old v : BitVec 32) :
    f.getter (masked p old v) = f.written old v := by
  have hlo := f.range.lo_le
  have hkinds : f.access = "RW" ∨ f.access = "RO" ∨ f.access = "W1C" := by
    rw [← hp.access f hf f.range.lo ⟨Nat.le_refl _, hlo⟩]
    exact bitAccess_kinds _
  apply BitVec.eq_of_getLsbD_eq
  intro i hi
  rw [getLsbD_written hkinds, f.getter_eq, Range.getLsbD_get]
  by_cases hwidth : i < f.range.width
  · have hhas : f.range.Has (f.range.lo + i) := by
      unfold Range.width at hwidth
      exact ⟨by omega, by omega⟩
    rw [Device.getLsbD_masked _ _ _ (f.range.lt_of_has hhas), ← hp.access f hf _ hhas, bitAccess]
    cases p.w1cMask.getLsbD (f.range.lo + i) <;> cases p.roMask.getLsbD (f.range.lo + i) <;> simp
  · simp [hwidth]

/-! ### The table -/

theorem policies_conform : ∀ L ∈ socLayouts, ∃ p, policyFor L.kAddress = .ok p ∧ Conforms p L := by
  have hall : ∀ L ∈ socLayouts, ∃ entry ∈ Device.policy, entry.1 = L.kAddress ∧
      policyFor L.kAddress = .ok entry.2 ∧ entry.2.reset = L.kReset ∧
      ∀ f ∈ L.fields, ∀ b < 32, f.range.Has b → bitAccess entry.2 b = f.access := by
    decide
  intro L hL
  obtain ⟨entry, -, -, hpolicy, hreset, haccess⟩ := hall L hL
  exact ⟨entry.2, hpolicy, hreset, fun f hf b hb => haccess f hf b (f.range.lt_of_has hb) hb⟩

theorem decoded_databook (a : BitVec 64) :
    decoded a = true ↔ ∃ L ∈ socLayouts, L.kAddress = a := by
  have haddresses : Device.policy.map Prod.fst = socLayouts.map Layout.kAddress := by decide
  rw [Device.decoded_iff, haddresses, List.mem_map]

/- The other registers after a write: the hardware changes STATUS when a transfer starts
and LINK_STATUS when the link is trained, and else only what the tick has changed. -/
theorem written_beside {d : Device} {a b : BitVec 64} (ha : decoded a = true) (hb : b ≠ a) (v : BitVec 32) :
    (d.access (.write a v)).word b =
      if b = kPcieLinkStatus ∧ a = kPcieLinkCtrl ∧ v &&& 0x1 ≠ 0 then trained v
      else if b = kDmaStatus ∧ (Device.Access.write a v).go ∧ d.tick.dmaRunning = false then kStatusBusy
      else d.tick.word b := by
  obtain ⟨p, hp⟩ := Device.policyFor_of_decoded ha
  rw [Device.word_write hp, if_neg hb]

/-- The device implements the databook. It decodes the addresses of the registers that
the generator makes of the map and no others, each register comes up at its reset value,
and whatever the state and the word, a write does to each field what its access kind says
and to the other registers nothing but the start of a transfer and the training of the link. -/
theorem databook_implemented : ∃ code, generate socYaml = .ok code ∧
    (∀ a, decoded a = true ↔
      ∃ block ∈ code, ∃ reg ∈ block.registers, BitVec.ofInt 64 reg.address = a) ∧
    ∀ block ∈ code, ∀ reg ∈ block.registers, ∃ L : Layout, L.reg = reg ∧
      ∀ d : Device, d.reset.word L.kAddress = L.kReset ∧
        ∀ v : BitVec 32,
          (∀ f ∈ L.fields, f.getter ((d.access (.write L.kAddress v)).word L.kAddress) =
            f.written (d.tick.word L.kAddress) v) ∧
          ∀ b, b ≠ L.kAddress → (d.access (.write L.kAddress v)).word b =
            if b = kPcieLinkStatus ∧ L.kAddress = kPcieLinkCtrl ∧ v &&& 0x1 ≠ 0 then trained v
            else if b = kDmaStatus ∧ (Device.Access.write L.kAddress v).go ∧
              d.tick.dmaRunning = false then kStatusBusy
            else d.tick.word b := by
  have hregisters : ∀ reg : RegisterCode, (∃ block ∈ socCode, reg ∈ block.registers) ↔
      ∃ L ∈ socLayouts, L.reg = reg := fun reg => by
    rw [← List.mem_flatMap, socCode_registers, List.mem_map]
  refine ⟨socCode, generate_socYaml, fun a => ?_, fun block hblock reg hreg => ?_⟩
  · rw [decoded_databook]
    constructor
    · rintro ⟨L, hL, rfl⟩
      obtain ⟨block, hblock, hreg⟩ := (hregisters L.reg).mpr ⟨L, hL, rfl⟩
      exact ⟨block, hblock, L.reg, hreg, rfl⟩
    · rintro ⟨block, hblock, reg, hreg, rfl⟩
      obtain ⟨L, hL, rfl⟩ := (hregisters reg).mp ⟨block, hblock, hreg⟩
      exact ⟨L, hL, rfl⟩
  · obtain ⟨L, hL, rfl⟩ := (hregisters reg).mp ⟨block, hblock, hreg⟩
    have hdec := (decoded_databook L.kAddress).mpr ⟨L, hL, rfl⟩
    obtain ⟨p, hp, hconforms⟩ := policies_conform L hL
    refine ⟨L, rfl, fun d => ⟨?_, fun v => ⟨fun f hf => ?_, fun b hb => written_beside hdec hb v⟩⟩⟩
    · rw [← hconforms.reset]
      exact Device.reset_word (p := p) hp
    · -- the side effects of a write go to registers that are not its own
      have hlink : ¬(L.kAddress = kPcieLinkStatus ∧ L.kAddress = kPcieLinkCtrl ∧ v &&& 0x1 ≠ 0) :=
        fun ⟨hstatus, hctrl, _⟩ => absurd (hstatus.symm.trans hctrl) (by decide)
      have hgo : ¬(L.kAddress = kDmaStatus ∧ (Device.Access.write L.kAddress v).go ∧
          d.tick.dmaRunning = false) :=
        fun ⟨hstatus, hgo, _⟩ => absurd (hstatus.symm.trans hgo.1) (by decide)
      rw [Device.word_write hp, if_neg hlink, if_neg hgo, if_pos rfl]
      exact getter_masked hconforms hf _ v

end SocValidation.Regmap
