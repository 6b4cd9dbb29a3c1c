import SocValidation.Device.Memory
import SocValidation.Regmap.Accessor

/-!
# Modify on DMA_CTRL (register.hpp:49-54, emulated_device.cpp)

GO is a plain RW bit: it stays as written, and every write of a 1 to it starts a
transfer when none runs. `Modify` writes back the bit that it has read, so whether it
starts one is decided by the last word that was delivered to CTRL.
-/

namespace SocValidation.Regmap
open BitRange Transport
open Device (kDmaCtrl kDmaStatus kCtrlGo kStatusBusy Access decoded_ctrl delivered)

variable {d : Device} {h : Host} {chain : List (Call dmaCTRL)}

/-! ### The GO bit of a word -/

def goIndex : Fin dmaCTRL.fields.length := ⟨0, by decide⟩

/- The call is not `set_GO`. -/
def SparesGo (c : Call dmaCTRL) : Prop := c.setTo? goIndex = none

theorem go_getter (raw : BitVec 32) : ctrlGO.getter raw = raw &&& kCtrlGo := by
  have hliteral : ctrlGO.literal = kCtrlGo := by decide
  rw [ctrlGO.getter_low raw rfl, hliteral]

theorem go_write_iff (raw : BitVec 32) : (Access.write kDmaCtrl raw).go ↔ ctrlGO.getter raw ≠ 0 := by
  rw [go_getter]
  exact and_iff_right rfl

/- A chain without `set_GO` leaves the bit as it was read. -/
theorem getter_spared (raw : BitVec 32) (hchain : ∀ c ∈ chain, SparesGo c) :
    ctrlGO.getter (runCalls raw chain) = ctrlGO.getter raw := by
  have hnone : ∀ c ∈ chain, c.reads? goIndex = none := by
    intro c hc
    rw [reads?_of_rw rfl, hchain c hc]
    rfl
  have hfield : dmaCTRL.fields[goIndex] = ctrlGO := rfl
  have hget := getter_untouched raw hnone
  rwa [hfield] at hget

/-! ### One read and one write -/

theorem kAddress_ctrl : dmaCTRL.kAddress = kDmaCtrl := by decide

/- `Modify` on the device: both accesses come back, and the word that is written is
the mutated one. -/
theorem modify_device (hw : dmaCTRL.reg.access ≠ "RO") (mutate : BitVec 32 → BitVec 32) :
    Accessor.modify dmaCTRL d h hw mutate =
      (.ok (mutate (d.word kDmaCtrl)),
        (d.access (.read kDmaCtrl)).access (.write kDmaCtrl (mutate (d.word kDmaCtrl))), h) := by
  have howned : Device.SoftwareOwned kDmaCtrl := Or.inl rfl
  have hread : d.read32 kDmaCtrl = (.ok (d.word kDmaCtrl), d.access (.read kDmaCtrl)) := by
    rw [Device.access_read decoded_ctrl, Device.read32_of_decoded decoded_ctrl,
      Device.word_tick_of_ne (by decide) (by decide)]
  have hwrite : ∀ (x : Device) value, x.write32 kDmaCtrl value =
      (.ok (), x.access (.write kDmaCtrl value)) := fun x value => by
    rw [Device.access_write (Device.policyFor_owned howned),
      Device.write32_of_ok (Device.policyFor_owned howned)]
  simp only [Accessor.modify, Accessor.read, Accessor.write, kAddress_ctrl, ITransport.read32,
    ITransport.write32, hread, hwrite]
  rfl

/- While no transfer runs, ticks change neither the flag nor STATUS. -/
theorem tick_idle (hidle : d.dmaRunning = false) :
    d.tick.dmaRunning = false ∧ ∀ a, d.tick.word a = d.word a := by
  have hdue : ¬d.due := by
    rintro ⟨hr, -⟩
    rw [hidle] at hr
    cases hr
  refine ⟨?_, fun a => ?_⟩
  · rw [Device.tick_fields.2.2.2, hidle]
    rfl
  · rw [Device.word_tick, if_neg hdue]

/- The device after the two accesses of a `Modify` without `set_GO`. -/
theorem modified_ctrl (hidle : d.dmaRunning = false) (hchain : ∀ c ∈ chain, SparesGo c) :
    ((d.access (.read kDmaCtrl)).access
        (.write kDmaCtrl (runCalls (d.word kDmaCtrl) chain))).dmaRunning =
        decide (ctrlGO.getter (d.word kDmaCtrl) ≠ 0) ∧
      ((d.access (.read kDmaCtrl)).access
        (.write kDmaCtrl (runCalls (d.word kDmaCtrl) chain))).word kDmaStatus =
        if ctrlGO.getter (d.word kDmaCtrl) ≠ 0 then kStatusBusy else d.word kDmaStatus := by
  have hdecr : Device.decoded (Access.read kDmaCtrl).address = true := decoded_ctrl
  have hdecw : Device.decoded
      (Access.write kDmaCtrl (runCalls (d.word kDmaCtrl) chain)).address = true := decoded_ctrl
  have hgo : (Access.write kDmaCtrl (runCalls (d.word kDmaCtrl) chain)).go ↔
      ctrlGO.getter (d.word kDmaCtrl) ≠ 0 := by
    rw [go_write_iff, getter_spared _ hchain]
  obtain ⟨htick, hword⟩ := tick_idle hidle
  -- the read leaves the engine idle, so the tick of the write completes nothing either
  have hread : (d.access (.read kDmaCtrl)).dmaRunning = false := by
    obtain ⟨-, -, -, hrunning⟩ := Device.access_fields (d := d) hdecr
    rw [hrunning, htick]
    rfl
  have hstatus : (d.access (.read kDmaCtrl)).word kDmaStatus = d.word kDmaStatus := by
    rw [Device.word_read decoded_ctrl, hword]
  obtain ⟨htick', hword'⟩ := tick_idle hread
  obtain ⟨-, -, -, hrunning⟩ := Device.access_fields (d := d.access (.read kDmaCtrl)) hdecw
  rw [hrunning, Device.word_status hdecw, htick', hword', hstatus, Bool.false_or]
  by_cases hone : ctrlGO.getter (d.word kDmaCtrl) ≠ 0
  · rw [if_pos hone, if_pos ⟨hgo.mpr hone, rfl⟩, decide_eq_true hone, decide_eq_true (hgo.mpr hone)]
    exact ⟨rfl, rfl⟩
  · have hno := fun hc => hone (hgo.mp hc)
    rw [if_neg hone, if_neg fun hc => hno hc.1, decide_eq_false hone, decide_eq_false hno]
    exact ⟨rfl, rfl⟩

/- The GO bit that the history has left in CTRL. -/
def goOf (es : List Device.Effect) : BitVec 32 :=
  ctrlGO.getter ((delivered kDmaCtrl es).getLast?.getD 0)

/-- With no transfer running, `Modify` without `set_GO` starts one just when the last
word that was delivered to CTRL since `Reset` has GO set. -/
theorem modify_starts_iff (hw : dmaCTRL.reg.access ≠ "RO") (ops : List Device.Op) (h : Host)
    (hidle : (Device.fresh.run ops).dmaRunning = false) (hchain : ∀ c ∈ chain, SparesGo c) :
    ∃ word after, Accessor.modify dmaCTRL (Device.fresh.run ops) h hw (fun raw => runCalls raw chain) =
        (.ok word, after, h) ∧
      (goOf (ops.flatMap Device.Op.effects) = 0 →
        after.dmaRunning = false ∧
          after.word kDmaStatus = (Device.fresh.run ops).word kDmaStatus) ∧
      (goOf (ops.flatMap Device.Op.effects) ≠ 0 →
        after.dmaRunning = true ∧ after.word kDmaStatus = kStatusBusy ∧
          kStatusBusy ≠ (Device.fresh.run ops).word kDmaStatus) := by
  have hbit : goOf (ops.flatMap Device.Op.effects) =
      ctrlGO.getter ((Device.fresh.run ops).word kDmaCtrl) := by
    rw [goOf, Device.run_effects,
      Device.history_owned (Or.inl rfl) fun acc hacc => Device.effects_decoded hacc]
  obtain ⟨hrunning, hstatus⟩ := modified_ctrl hidle hchain
  refine ⟨_, _, modify_device hw _, fun hzero => ?_, fun hone => ?_⟩
  · rw [hbit] at hzero
    rw [hrunning, hstatus, hzero]
    exact ⟨rfl, rfl⟩
  · rw [hbit] at hone
    rw [hrunning, hstatus, if_pos hone, decide_eq_true hone]
    refine ⟨rfl, rfl, fun hbusy => ?_⟩
    -- STATUS is BUSY only while a transfer runs
    obtain ⟨phase, hphase, hrun⟩ := (Device.reachable_inv ⟨ops, rfl⟩).phase
    have hgetter : statusBUSY.getter phase.word = 1 := by
      rw [← hphase, ← hbusy]
      decide
    rw [hrun.mpr (Device.busy_iff.mp hgetter)] at hidle
    cases hidle

/- `ctrl.Modify([](auto& r) { r.set_BURST_LEN(4); })` -/
def setBurst : List (Call dmaCTRL) := [.set ⟨3, by decide⟩ rfl 4]

theorem setBurst_spares : ∀ c ∈ setBurst, SparesGo c := by
  intro c hc
  obtain rfl := List.mem_singleton.mp hc
  rfl

def firstHost : Host := ⟨fun _ => 0, 0, fun _ => []⟩

theorem modify_starts_enabled : ∃ word after,
    Accessor.modify dmaCTRL (Device.fresh.run [.write32 kDmaCtrl 4]) firstHost (by decide)
        (fun raw => runCalls raw setBurst) = (.ok word, after, firstHost) ∧
      after.dmaRunning = false ∧
      after.word kDmaStatus = (Device.fresh.run [.write32 kDmaCtrl 4]).word kDmaStatus := by
  obtain ⟨word, after, hmodify, hidle, -⟩ := modify_starts_iff (by decide) [.write32 kDmaCtrl 4]
    firstHost (by decide) setBurst_spares
  exact ⟨word, after, hmodify, hidle (by decide)⟩

/- The transfer has completed, but its GO is still in CTRL and is written back. -/
theorem modify_restarts : ¬∀ (hw : dmaCTRL.reg.access ≠ "RO") (d : Device) (h : Host),
    d.Reachable → d.dmaRunning = false → ∀ chain : List (Call dmaCTRL),
      (∀ c ∈ chain, SparesGo c) →
      (Accessor.modify dmaCTRL d h hw fun raw => runCalls raw chain).2.1.dmaRunning = false ∧
      (Accessor.modify dmaCTRL d h hw fun raw => runCalls raw chain).2.1.word kDmaStatus =
        d.word kDmaStatus := by
  intro hall
  obtain ⟨hidle, -⟩ := hall (by decide)
    (Device.fresh.run [.setTransferLatency 1, .write32 kDmaCtrl 1, .read32 kDmaStatus]) firstHost
    ⟨_, rfl⟩ (by decide) setBurst setBurst_spares
  revert hidle
  decide

end SocValidation.Regmap
