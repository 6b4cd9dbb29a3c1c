import SocValidation.Regmap.SocMap
import SocValidation.Transport.Model
import SocValidation.Device.Invariant

/-!
# RegisterAccessor (register.hpp)

A register is read and written as a word, and a caller's function changes the word in
between. `WriteOnly` starts from the reset value instead of the word in the device;
in the bits of a W1C field that is a write of 0 only where the reset value has a 0.
-/

namespace SocValidation.Regmap
open BitRange Transport

variable {L : Layout} {i : Fin L.fields.length} {chain : List (Call L)} {b : ℕ}

namespace Layout
variable (L : Layout)

def kAddress : BitVec 64 := BitVec.ofInt 64 L.reg.address

def kReset : BitVec 32 := BitVec.ofInt 32 L.reg.reset

/- The bits of the W1C fields, as a device's `w1c_mask` has them. -/
def w1cBits : BitVec 32 :=
  (L.fields.filter fun f => f.access = "W1C").foldl (fun m f => m ||| f.literal) 0

end Layout

/-! ### The accessor -/

namespace Accessor
variable {σ : Type} [ITransport σ] (L : Layout) (s : σ) (h : Host)

def read : Except TransportError (BitVec 32) × σ × Host := ITransport.read32 L.kAddress s h

/- The second argument is the `static_assert`. -/
def write (_ : L.reg.access ≠ "RO") (raw : BitVec 32) : Except TransportError Unit × σ × Host :=
  ITransport.write32 L.kAddress raw s h

def modify (hw : L.reg.access ≠ "RO") (mutate : BitVec 32 → BitVec 32) :
    Except TransportError (BitVec 32) × σ × Host :=
  match read L s h with
  | (.error e, s, h) => (.error e, s, h)
  | (.ok raw, s, h) =>
    let written := write L s h hw (mutate raw)
    (written.1.map fun _ => mutate raw, written.2)

def writeOnly (hw : L.reg.access ≠ "RO") (mutate : BitVec 32 → BitVec 32) :
    Except TransportError (BitVec 32) × σ × Host :=
  let written := write L s h hw (mutate L.kReset)
  (written.1.map fun _ => mutate L.kReset, written.2)

end Accessor

/-! ### W1C fields under WriteOnly -/

theorem getLsbD_foldl_literal (fields : List Field) (m : BitVec 32) :
    (fields.foldl (fun m f => m ||| f.literal) m).getLsbD b = true ↔
      m.getLsbD b = true ∨ ∃ f ∈ fields, f.range.Has b := by
  induction fields generalizing m with
  | nil => simp
  | cons f fields ih =>
    rw [List.foldl_cons, ih, BitVec.getLsbD_or, f.literal_eq, Range.getLsbD_mask, Bool.or_eq_true,
      decide_eq_true_iff, or_assoc, List.exists_mem_cons_iff]

theorem getLsbD_w1cBits (hi : (L.fields.get i).access = "W1C") (hb : (L.fields.get i).range.Has b) :
    L.w1cBits.getLsbD b = true := by
  rw [Layout.w1cBits, getLsbD_foldl_literal]
  refine Or.inr ⟨L.fields.get i, ?_, hb⟩
  rw [List.mem_filter]
  exact ⟨List.get_mem _ _, decide_eq_true hi⟩

/- A chain without the field's clearer leaves the reset value in its bits. -/
theorem runCalls_reset (hi : (L.fields.get i).access = "W1C") (hchain : ∀ c ∈ chain, c.clears i = false)
    (hb : (L.fields.get i).range.Has b) :
    (runCalls L.kReset chain).getLsbD b = L.kReset.getLsbD b := by
  have hnone : ∀ c ∈ chain, c.reads? i = none := by
    intro c hc
    rw [reads?_of_w1c hi, hchain c hc]
    rfl
  have hword : (L.fields.get i).range.get (runCalls L.kReset chain) = (L.fields.get i).range.get L.kReset := by
    rw [← Field.getter_eq, ← Field.getter_eq]
    exact getter_untouched L.kReset hnone
  exact (Range.get_eq_iff _ _ _).mp hword b hb

/-- `WriteOnly` sends one word, and the W1C field that it was not asked to clear keeps
its bits just when no bit that is set in the device is set in the reset value. -/
theorem write_only_spares_iff (L : Layout) (hw : L.reg.access ≠ "RO") (policy : RegPolicy)
    (hpolicy : policy.w1cMask = L.w1cBits) (i : Fin L.fields.length) (hi : (L.fields.get i).access = "W1C")
    (chain : List (Call L)) (hchain : ∀ c ∈ chain, c.clears i = false) (current : BitVec 32) :
    ∃ word, (∀ (σ : Type) [ITransport σ] (s : σ) (h : Host),
        (Accessor.writeOnly L s h hw fun raw => runCalls raw chain).2 =
          (ITransport.write32 L.kAddress word s h).2) ∧
      ((L.fields.get i).getter (Device.masked policy current word) = (L.fields.get i).getter current ↔
        L.kReset &&& (L.fields.get i).literal &&& current = 0) := by
  refine ⟨runCalls L.kReset chain, fun σ _ s h => rfl, ?_⟩
  have hbits : ∀ b, (L.fields.get i).range.Has b →
      (Device.masked policy current (runCalls L.kReset chain)).getLsbD b =
        (current.getLsbD b && !L.kReset.getLsbD b) := by
    intro b hb
    rw [Device.getLsbD_masked _ _ _ ((L.fields.get i).range.lt_of_has hb), hpolicy, getLsbD_w1cBits hi hb,
      runCalls_reset hi hchain hb, if_pos rfl]
  rw [Field.getter_eq, Field.getter_eq, Field.literal_eq, Range.get_eq_iff,
    Range.and_mask_and_eq_zero_iff]
  refine forall_congr' fun b => forall_congr' fun hb => ?_
  rw [hbits b hb]
  cases current.getLsbD b <;> cases L.kReset.getLsbD b <;> simp

/- A register that the generator accepts, with a reset value of 1 in a W1C field. -/
def latchedMap : Yaml :=
  .map [entry "blocks" (.seq [.map [entry "name" (.str "DMA"), entry "base" (.int 0x40000000),
    entry "registers" (.seq [
      registerEntry "IRQ_STATUS" 0x08 1 "RW" [
        fieldEntry "DONE_IRQ" "0" "W1C" [],
        fieldEntry "ERR_IRQ" "1" "W1C" [],
        fieldEntry "OVERFLOW" "2" "W1C" []]])]])]

def latchedIRQ_STATUS : Layout := makeRegister "DMA" "IRQ_STATUS" 0x40000008 "RW" 1
  [irqDONE_IRQ, irqERR_IRQ, irqOVERFLOW] dmaIRQ_STATUS.apart

theorem generate_latchedMap :
    generate latchedMap = .ok [⟨.str "DMA", 0x40000000, [latchedIRQ_STATUS.reg]⟩] := rfl

def clearErr : List (Call dmaIRQ_STATUS) := [.clear ⟨1, by decide⟩ rfl]

theorem write_only_spares_done : ∃ word, (∀ (σ : Type) [ITransport σ] (s : σ) (h : Host),
      (Accessor.writeOnly dmaIRQ_STATUS s h (by decide) fun raw => runCalls raw clearErr).2 =
        (ITransport.write32 dmaIRQ_STATUS.kAddress word s h).2) ∧
    (irqDONE_IRQ.getter (Device.masked ⟨0, 0, 7⟩ 3 word) = irqDONE_IRQ.getter 3 ↔
      dmaIRQ_STATUS.kReset &&& irqDONE_IRQ.literal &&& 3 = 0) :=
  write_only_spares_iff dmaIRQ_STATUS (by decide) ⟨0, 0, 7⟩ (by decide) ⟨0, by decide⟩ rfl clearErr
    (by decide) 3

/- The mutation clears ERR_IRQ only, and DONE_IRQ is lost with it. -/
theorem write_only_clears_done : ¬∀ (spec : Yaml) (code : List BlockCode), generate spec = .ok code →
    ∀ block ∈ code, ∀ L : Layout, L.reg ∈ block.registers → ∀ hw : L.reg.access ≠ "RO",
    ∀ policy : RegPolicy, policy.w1cMask = L.w1cBits →
    ∀ i : Fin L.fields.length, (L.fields.get i).access = "W1C" → ∀ chain : List (Call L),
      (∀ c ∈ chain, c.clears i = false) → ∀ (current word : BitVec 32),
      (∀ (σ : Type) [ITransport σ] (s : σ) (h : Host),
        (Accessor.writeOnly L s h hw fun raw => runCalls raw chain).2 =
          (ITransport.write32 L.kAddress word s h).2) →
      (L.fields.get i).getter (Device.masked policy current word) = (L.fields.get i).getter current := by
  intro hall
  have hlost := hall latchedMap _ generate_latchedMap _ (List.mem_singleton_self _) latchedIRQ_STATUS
    (List.mem_singleton_self _) (by decide) ⟨0, 0, 7⟩ (by decide) ⟨0, by decide⟩ rfl
    [.clear ⟨1, by decide⟩ rfl] (by decide) 1 3 (fun σ _ s h => rfl)
  revert hlost
  decide

end SocValidation.Regmap
