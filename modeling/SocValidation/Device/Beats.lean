import SocValidation.Device.Memory
import Mathlib.Data.Nat.ModEq

/-!
# The beats that a completed transfer reports (Tick, soc.yaml)

The completing tick computes the beats from the word that XFER_LEN holds then, not
from the one it held at GO, and BEATS has 16 bits where 24 bits of length make 22.
-/

namespace SocValidation.Device
open BitRange Regmap

variable {d start : Device} {a : BitVec 64} {es before mid post : List Effect} {go acc : Access}
variable {ops : List Op}

/-! ### From GO to the completing tick -/

/- `go` starts a transfer in `d`, and after `mid` the next tick completes it: no
`Reset` takes it down, and no tick before was the completing one. -/
structure Transfer (d : Device) (go : Access) (mid : List Effect) : Prop where
  starts : go.go
  ready : d.tick.dmaRunning = false
  noReset : Effect.reset ∉ mid
  runs : ∀ xs acc ys, mid = xs ++ .access acc :: ys → ¬(xs.foldl effect (d.access go)).due
  completes : (mid.foldl effect (d.access go)).due

theorem word_delivered (h : SoftwareOwned a) (hreset : Effect.reset ∉ es)
    (hdec : ∀ acc, .access acc ∈ es → decoded acc.address = true) :
    (es.foldl effect start).word a =
      (es.filterMap (deliveredTo a)).getLast?.getD (start.word a) := by
  apply Trace.foldl_observe effect (fun d => d.word a) (deliveredTo a)
  intro e he t
  cases e with
  | access acc => exact word_owned h (hdec acc he)
  | reset => exact absurd he hreset
  | latency ticks => rfl

theorem go_address (h : go.go) : ∃ value, go = .write kDmaCtrl value := by
  cases go with
  | read address => exact absurd h (fun hc => hc)
  | write address value => exact ⟨value, by rw [h.1]⟩

/- Writing GO leaves XFER_LEN alone. -/
theorem word_go (h : go.go) : (d.access go).word kDmaXferLen = d.word kDmaXferLen := by
  obtain ⟨value, rfl⟩ := go_address h
  have hdec : decoded (Access.write kDmaCtrl value).address = true := decoded_ctrl
  rw [word_owned owned_xferLen hdec, deliveredTo, if_neg (by decide)]
  rfl

/-! ### The reported number -/

theorem bytes_eq (w : BitVec 32) : xferBYTES.getter w = w &&& 0x00FFFFFF := by
  have hliteral : xferBYTES.literal = 0x00FFFFFF := by decide
  rw [xferBYTES.getter_low w rfl, hliteral]

theorem beats_phase (beats : BitVec 16) :
    statusBEATS.getter (Phase.done beats).word = beats.setWidth 32 := by
  apply BitVec.eq_of_getLsbD_eq
  intro i hi
  have hlo : statusBEATS.range.lo = 8 := rfl
  have hwidth : statusBEATS.range.width = 16 := rfl
  rw [Field.getter_eq, Range.getLsbD_get, getLsbD_phase, hlo, hwidth, BitVec.getLsbD_setWidth]
  by_cases h : i < 16
  · simp [h, hi, show ¬8 + i = 2 by omega, show 8 + i < 24 by omega]
  · simp [h, BitVec.getLsbD_of_ge beats i (by omega)]

theorem beats_completed (w : BitVec 32) :
    (statusBEATS.getter (completed w)).toNat = (xferBYTES.getter w).toNat / 4 % 2 ^ 16 := by
  rw [completed_word, beats_phase, ← bytes_eq, BitVec.toNat_setWidth, BitVec.toNat_setWidth,
    BitVec.toNat_udiv]
  have h : (xferBYTES.getter w).toNat / 4 % 2 ^ 16 < 2 ^ 32 := by omega
  exact Nat.mod_eq_of_lt h

theorem Transfer.beats (h : Transfer d go mid)
    (hdec : ∀ acc, .access acc ∈ mid → decoded acc.address = true) :
    (statusBEATS.getter ((mid.foldl effect (d.access go)).tick.word kDmaStatus)).toNat =
      (xferBYTES.getter ((mid.filterMap (deliveredTo kDmaXferLen)).getLast?.getD
        (d.word kDmaXferLen))).toNat / 4 % 2 ^ 16 := by
  have hstatus : kDmaStatus ≠ kDmaIrq := by decide
  rw [word_tick, if_pos h.completes, if_neg hstatus, if_pos rfl, beats_completed,
    word_delivered owned_xferLen h.noReset hdec, word_go h.starts]

/-- A transfer reports the beats it was started with just when they fit BEATS and
what was last written to XFER_LEN meanwhile, if anything, has as many modulo 2^16. -/
theorem beats_reported_iff
    (hsplit : ops.flatMap Op.effects = before ++ .access go :: (mid ++ .access acc :: post))
    (h : Transfer (before.foldl effect fresh) go mid) :
    (statusBEATS.getter ((mid.foldl effect
        ((before.foldl effect fresh).access go)).tick.word kDmaStatus)).toNat =
        (xferBYTES.getter ((before.foldl effect fresh).word kDmaXferLen)).toNat / 4 ↔
      (xferBYTES.getter ((before.foldl effect fresh).word kDmaXferLen)).toNat < 2 ^ 18 ∧
        ∀ w, (mid.filterMap (deliveredTo kDmaXferLen)).getLast? = some w →
          (xferBYTES.getter w).toNat / 4 ≡
            (xferBYTES.getter ((before.foldl effect fresh).word kDmaXferLen)).toNat / 4
            [MOD 2 ^ 16] := by
  have hdec : ∀ acc, .access acc ∈ mid → decoded acc.address = true := by
    intro a ha
    have hmem : Effect.access a ∈ ops.flatMap Op.effects := by
      rw [hsplit]
      simp [ha]
    exact effects_decoded hmem
  rw [h.beats hdec]
  generalize (before.foldl effect fresh).word kDmaXferLen = held
  generalize (mid.filterMap (deliveredTo kDmaXferLen)).getLast? = written
  unfold Nat.ModEq
  cases written with
  | none =>
    simp only [Option.getD_none]
    constructor
    · intro heq
      exact ⟨by omega, nofun⟩
    · rintro ⟨hfits, -⟩
      omega
  | some w =>
    simp only [Option.getD_some, Option.some.injEq, forall_eq']
    constructor
    · intro heq
      exact ⟨by omega, by omega⟩
    · rintro ⟨hfits, hsame⟩
      omega

/- 64 bytes; XFER_LEN is written again while the transfer runs, with as many beats. -/
theorem beats_reported_sixteen :
    (statusBEATS.getter (((fresh.run [.setTransferLatency 2, .write32 kDmaXferLen 64,
      .write32 kDmaCtrl 1, .write32 kDmaXferLen 67]).tick.word kDmaStatus))).toNat = 64 / 4 := by
  have hsplit : [Op.setTransferLatency 2, .write32 kDmaXferLen 64, .write32 kDmaCtrl 1,
        .write32 kDmaXferLen 67, .read32 kDmaStatus].flatMap Op.effects =
      [.latency 2, .access (.write kDmaXferLen 64)] ++ .access (.write kDmaCtrl 1) ::
        ([.access (.write kDmaXferLen 67)] ++ .access (.read kDmaStatus) :: []) := by
    decide
  have htransfer : Transfer ([Effect.latency 2, .access (.write kDmaXferLen 64)].foldl effect fresh)
      (.write kDmaCtrl 1) [.access (.write kDmaXferLen 67)] := by
    refine ⟨by decide, by decide, by decide, fun xs acc ys heq => ?_, by decide⟩
    obtain rfl : xs = [] := by
      cases xs with
      | nil => rfl
      | cons e xs => simp at heq
    decide
  refine (beats_reported_iff hsplit htransfer).mpr ⟨by decide, fun w hw => ?_⟩
  obtain rfl : 67 = w := by simpa [deliveredTo] using hw
  decide

/- 256 KiB: the tick reports that no beat was transferred. -/
theorem beats_truncated : ¬∀ (ops : List Op) (before : List Effect) (go : Access)
    (mid : List Effect) (acc : Access) (post : List Effect),
    ops.flatMap Op.effects = before ++ .access go :: (mid ++ .access acc :: post) →
    Transfer (before.foldl effect fresh) go mid →
    (statusBEATS.getter ((mid.foldl effect
      ((before.foldl effect fresh).access go)).tick.word kDmaStatus)).toNat =
      (xferBYTES.getter ((before.foldl effect fresh).word kDmaXferLen)).toNat / 4 := by
  intro hall
  have htransfer : Transfer
      ([Effect.latency 1, .access (.write kDmaXferLen 0x40000)].foldl effect fresh)
      (.write kDmaCtrl 1) [] :=
    ⟨by decide, by decide, by decide, fun xs acc ys heq => by simp at heq, by decide⟩
  have hbeats := hall [.setTransferLatency 1, .write32 kDmaXferLen 0x40000, .write32 kDmaCtrl 1,
    .read32 kDmaStatus] _ _ _ (.read kDmaStatus) [] (by decide) htransfer
  revert hbeats
  decide

end SocValidation.Device
