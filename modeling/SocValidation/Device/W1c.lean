import SocValidation.Device.Invariant
import SocValidation.Lib.Trace
import Mathlib.Data.Set.Defs

/-!
# The write-1-to-clear bits (Tick, Write32, WriteBlock)

A W1C bit changes in one access at a time: up in the tick of an access that
completes a transfer, down in a write that has a 1 there. The tick comes first, so a
write that clears also clears what its own tick has just latched.
-/

namespace SocValidation.Device
open Regmap

variable {d : Device} {address r : BitVec 64} {acc : Access} {op : Op} {i : ℕ}

/- A bit that the policy of the register marks. -/
def W1cBit (r : BitVec 64) (i : ℕ) : Prop :=
  ∃ p, policyFor r = .ok p ∧ p.w1cMask.getLsbD i = true

theorem W1cBit.register (h : W1cBit r i) : W1cRegister r ∧ i < 3 := by
  obtain ⟨p, hp, hi⟩ := h
  have htable : ∀ entry ∈ policy, entry.2.w1cMask = 0 ∨
      (entry.1 = kDmaIrq ∨ entry.1 = kPcieErrStatus) ∧ entry.2.w1cMask = 7 := by decide
  have hseven : (7 : BitVec 32).getLsbD i = (decide (i < 32) && decide (i < 3)) := by
    rw [show (7 : BitVec 32) = BitVec.ofNat 32 (2 ^ 3 - 1) from rfl, BitVec.getLsbD_ofNat,
      Nat.testBit_two_pow_sub_one]
  unfold policyFor at hp
  split at hp
  next entry hf =>
    cases hp
    have heq : entry.1 = r := by simpa using List.find?_some hf
    rcases htable entry (List.mem_of_find?_eq_some hf) with h0 | ⟨hr, h7⟩
    · rw [h0] at hi
      simp at hi
    · rw [heq] at hr
      rw [h7, hseven] at hi
      exact ⟨hr, by simp at hi; omega⟩
  · cases hp

/-! ### One access -/

theorem access_falls (hbit : W1cBit r i) (hdec : decoded acc.address = true)
    (h1 : (d.word r).getLsbD i = true) (h0 : ((d.access acc).word r).getLsbD i = false) :
    ∃ v, acc = .write r v ∧ v.getLsbD i = true := by
  obtain ⟨hr, hi⟩ := hbit.register
  rw [getLsbD_w1c hr hdec hi, getLsbD_tick_w1c hr hi, h1, Bool.true_or, Bool.true_and] at h0
  cases acc with
  | read address => simp [Access.ones] at h0
  | write address value =>
    simp only [Access.ones, Bool.not_eq_false', Bool.and_eq_true, decide_eq_true_eq] at h0
    exact ⟨value, by rw [h0.1], h0.2⟩

theorem access_rises (hbit : W1cBit r i) (hdec : decoded acc.address = true)
    (h0 : (d.word r).getLsbD i = false) (h1 : ((d.access acc).word r).getLsbD i = true) :
    d.due ∧ r = kDmaIrq ∧ i = 0 := by
  obtain ⟨hr, hi⟩ := hbit.register
  rw [getLsbD_w1c hr hdec hi, getLsbD_tick_w1c hr hi, h0, Bool.false_or, Bool.and_eq_true] at h1
  exact of_decide_eq_true h1.1

/-! ### One operation -/

/- The word at index `n` of a block and all before it are at decoded addresses, so
the block gets as far as writing it. -/
def Delivers (address : BitVec 64) (words : List (BitVec 32)) (n : ℕ) (r : BitVec 64)
    (v : BitVec 32) : Prop :=
  words[n]? = some v ∧ r = address + BitVec.ofNat 64 (n * 4) ∧
    ∀ m, m ≤ n → decoded (address + BitVec.ofNat 64 (m * 4)) = true

/- The operation writes a 1 to the bit, alone or in a block. -/
def Op.Clears (op : Op) (r : BitVec 64) (i : ℕ) : Prop :=
  (∃ v, op = .write32 r v ∧ v.getLsbD i = true) ∨
  ∃ address words n v, op = .writeBlock address (.buffer words) ∧ Delivers address words n r v ∧
    v.getLsbD i = true

theorem clears_of_mem {v : BitVec 32} (h : Access.write r v ∈ op.accesses) (hv : v.getLsbD i = true) :
    op.Clears r i := by
  cases op with
  | read32 address =>
    simp only [Op.accesses] at h
    split at h <;> simp at h
  | write32 address value =>
    simp only [Op.accesses] at h
    split at h
    · cases List.mem_singleton.mp h
      exact Or.inl ⟨v, rfl, hv⟩
    · cases h
  | readBlock address out count =>
    simp only [Op.accesses] at h
    split at h
    · cases h
    · obtain ⟨a, heq, -⟩ := mem_reads h
      cases heq
  | writeBlock address source =>
    cases source with
    | null count => cases h
    | buffer words =>
      obtain ⟨n, w, heq, hw, hall⟩ := mem_writes h
      cases heq
      simp only [Nat.zero_add] at hall ⊢
      exact Or.inr ⟨address, words, n, v, rfl, ⟨hw, rfl, hall⟩, hv⟩
  | reset => cases h
  | setTransferLatency ticks => cases h

/- One of the accesses that the operation makes completes a transfer. -/
def Completes (d : Device) (op : Op) : Prop :=
  ∃ pre acc post, op.effects = pre ++ .access acc :: post ∧ (pre.foldl effect d).due

theorem apply_falls (hbit : W1cBit r i) (h1 : (d.word r).getLsbD i = true)
    (h0 : ((d.apply op).2.word r).getLsbD i = false) :
    op = .reset ∨ ∃ v, .write r v ∈ op.accesses ∧ v.getLsbD i = true := by
  rw [apply_effects] at h0
  obtain ⟨pre, e, post, hsplit, hpre, he⟩ := Trace.foldl_change effect
    (fun x => (x.word r).getLsbD i = true) h1 (by simpa using h0)
  have hmem : e ∈ op.effects := by
    rw [hsplit]
    simp
  rcases mem_effects hmem with ⟨acc, hacc, rfl⟩ | ⟨-, hop⟩ | ⟨ticks, rfl, -⟩
  · right
    have hfall : (((pre.foldl effect d).access acc).word r).getLsbD i = false := by
      rw [← Bool.not_eq_true]
      exact he
    obtain ⟨v, rfl, hv⟩ := access_falls hbit (accesses_decoded hacc) hpre hfall
    exact ⟨v, hacc, hv⟩
  · exact Or.inl hop
  · exact absurd hpre he

theorem apply_rises (hbit : W1cBit r i) (h0 : (d.word r).getLsbD i = false)
    (h1 : ((d.apply op).2.word r).getLsbD i = true) :
    r = kDmaIrq ∧ i = 0 ∧ d.Completes op := by
  rw [apply_effects] at h1
  obtain ⟨pre, e, post, hsplit, hpre, he⟩ := Trace.foldl_change effect
    (fun x => (x.word r).getLsbD i = false) h0 (by simpa using h1)
  have hmem : e ∈ op.effects := by
    rw [hsplit]
    simp
  rcases mem_effects hmem with ⟨acc, hacc, rfl⟩ | ⟨rfl, -⟩ | ⟨ticks, rfl, -⟩
  · have hrise : (((pre.foldl effect d).access acc).word r).getLsbD i = true := by
      rw [← Bool.not_eq_false]
      exact he
    obtain ⟨hdue, hr, hi⟩ := access_rises hbit (accesses_decoded hacc) hpre hrise
    exact ⟨hr, hi, pre, acc, post, hsplit, hdue⟩
  · have hzero : ((pre.foldl effect d).reset.word r) = 0 :=
      reset_word (p := ⟨0, _, _⟩) (policyFor_w1c hbit.register.1)
    apply absurd _ he
    show ((pre.foldl effect d).reset.word r).getLsbD i = false
    rw [hzero]
    exact BitVec.getLsbD_zero
  · exact absurd hpre he

/-! ### Runs -/

theorem run_concat (d : Device) (ops : List Op) (op : Op) :
    d.run (ops ++ [op]) = ((d.run ops).apply op).2 := by
  rw [run_append]
  rfl

/- No agent resets, and a word that an agent gets to write has 1s in those W1C bits
only that the agent owns. -/
def KeepTo (owns : Bool → Set (BitVec 64 × ℕ)) (schedule : List (Bool × Op)) : Prop :=
  ∀ entry ∈ schedule, entry.2 ≠ .reset ∧ ∀ register j v, W1cBit register j →
    .write register v ∈ entry.2.accesses → v.getLsbD j = true → (register, j) ∈ owns entry.1

/-- A latched bit goes down only by `Reset` or by a written 1, and comes up only as
DONE_IRQ of a completed transfer. So two agents that keep to disjoint sets of bits
never clear a bit of each other, however their operations interleave. -/
theorem w1c_latched (hbit : W1cBit r i) :
    (∀ ops op, ((fresh.run ops).word r).getLsbD i = true →
      ((fresh.run (ops ++ [op])).word r).getLsbD i = false → op = .reset ∨ op.Clears r i) ∧
    (∀ ops op, ((fresh.run ops).word r).getLsbD i = false →
      ((fresh.run (ops ++ [op])).word r).getLsbD i = true →
      r = kDmaIrq ∧ kIrqDone.getLsbD i = true ∧ (fresh.run ops).Completes op) ∧
    ∀ (owns : Bool → Set (BitVec 64 × ℕ)) (ops : List Op) (schedule : List (Bool × Op)),
      (∀ bit, bit ∈ owns false → bit ∉ owns true) → KeepTo owns schedule →
      ∀ pre agent op post, schedule = pre ++ (agent, op) :: post → (r, i) ∈ owns (!agent) →
        ((fresh.run (ops ++ pre.map Prod.snd)).word r).getLsbD i = true →
        ((fresh.run (ops ++ (pre ++ [(agent, op)]).map Prod.snd)).word r).getLsbD i = true := by
  refine ⟨fun ops op h1 h0 => ?_, fun ops op h0 h1 => ?_, ?_⟩
  · rw [run_concat] at h0
    rcases apply_falls hbit h1 h0 with hreset | ⟨v, hmem, hv⟩
    · exact Or.inl hreset
    · exact Or.inr (clears_of_mem hmem hv)
  · rw [run_concat] at h1
    obtain ⟨hr, hi, hdone⟩ := apply_rises hbit h0 h1
    exact ⟨hr, by rw [hi]; decide, hdone⟩
  · intro owns ops schedule hdisj hkeep pre agent op post hsplit howned h1
    obtain ⟨hreset, hown⟩ := hkeep (agent, op) (by rw [hsplit]; simp)
    rw [List.map_append, ← List.append_assoc]
    change ((fresh.run (_ ++ [op])).word r).getLsbD i = true
    rw [run_concat]
    by_contra h0
    rw [Bool.not_eq_true] at h0
    rcases apply_falls hbit h1 h0 with hop | ⟨v, hmem, hv⟩
    · exact hreset hop
    · -- the bit would belong to both agents
      have hmine : (r, i) ∈ owns agent := hown r i v hbit hmem hv
      cases agent with
      | false => exact hdisj _ hmine howned
      | true => exact hdisj _ howned hmine

theorem w1c_latched_done :
    (∀ ops op, ((fresh.run ops).word kDmaIrq).getLsbD 0 = true →
      ((fresh.run (ops ++ [op])).word kDmaIrq).getLsbD 0 = false → op = .reset ∨ op.Clears kDmaIrq 0) ∧
    ((fresh.run [.setTransferLatency 1, .write32 kDmaCtrl 1]).Completes (.read32 kDmaStatus)) := by
  have hdone := w1c_latched (r := kDmaIrq) (i := 0) ⟨⟨0, 0, 7⟩, by decide, by decide⟩
  refine ⟨hdone.1, (hdone.2.1 [.setTransferLatency 1, .write32 kDmaCtrl 1] (.read32 kDmaStatus) ?_ ?_).2.2⟩
  · decide
  · decide

/-! ### The access that completes a transfer -/

theorem done_irq (raw : BitVec 32) : irqDONE_IRQ.getter raw = if raw.getLsbD 0 then 1 else 0 := by
  have hone : irqDONE_IRQ.getter raw = 1 ↔ raw.getLsbD 0 = true :=
    irqDONE_IRQ.getter_eq_one_iff raw rfl
  by_cases h : raw.getLsbD 0 = true
  · rw [if_pos h]
    exact hone.mpr h
  · rw [if_neg h]
    exact (irqDONE_IRQ.getter_bit raw rfl).resolve_right fun hc => h (hone.mp hc)

theorem ones_iff : acc.ones r i = true ↔ ∃ v, acc = .write r v ∧ v.getLsbD i = true := by
  cases acc with
  | read address => simp [Access.ones]
  | write address value =>
    simp only [Access.ones, Bool.and_eq_true, decide_eq_true_eq]
    constructor
    · intro h
      exact ⟨value, by rw [h.1], h.2⟩
    · intro h
      obtain ⟨v, heq, hv⟩ := h
      cases heq
      exact ⟨rfl, hv⟩

theorem due_access (hdue : d.due) (hdec : decoded acc.address = true) :
    ((d.access acc).word kDmaIrq).getLsbD 0 = !acc.ones kDmaIrq 0 := by
  rw [getLsbD_w1c (Or.inl rfl) hdec (by decide), getLsbD_tick_w1c (Or.inl rfl) (by decide),
    decide_eq_true ⟨hdue, rfl, rfl⟩, Bool.or_true, Bool.true_and]

/- After the acknowledge of a completion nothing runs that the next tick could complete. -/
theorem not_due_of_ones (hdue : d.due) (hdec : decoded acc.address = true)
    (h : acc.ones kDmaIrq 0 = true) : ¬(d.access acc).due := by
  obtain ⟨v, rfl, -⟩ := ones_iff.mp h
  have hgo : ¬(Access.write kDmaIrq v).go := fun hc => absurd hc.1 (by decide)
  have hrunning := (access_fields (d := d) hdec).2.2.2
  rw [decide_eq_false hgo, tick_fields.2.2.2, decide_eq_true hdue, Bool.not_true, Bool.and_false,
    Bool.or_false] at hrunning
  intro hc
  rw [hc.1] at hrunning
  cases hrunning

/-- DONE_IRQ is latched by the access that completes a transfer, unless the access
itself writes a 1 to it. What the access leaves, a read that follows returns. -/
theorem completion_irq (hdue : d.due) (hdec : decoded acc.address = true) :
    ((∀ v, acc = .write kDmaIrq v → v.getLsbD 0 = false) →
      irqDONE_IRQ.getter ((d.access acc).word kDmaIrq) = 1) ∧
    (∀ v, acc = .write kDmaIrq v → v.getLsbD 0 = true →
      irqDONE_IRQ.getter ((d.access acc).word kDmaIrq) = 0) ∧
    ((d.access acc).read32 kDmaIrq).1.map irqDONE_IRQ.getter =
      .ok (irqDONE_IRQ.getter ((d.access acc).word kDmaIrq)) := by
  have hbit := due_access hdue hdec
  refine ⟨fun hnone => ?_, fun v heq hv => ?_, ?_⟩
  · have hones : acc.ones kDmaIrq 0 = false := by
      rw [← Bool.not_eq_true, ones_iff]
      intro h
      obtain ⟨v, heq, hv⟩ := h
      rw [hnone v heq] at hv
      cases hv
    rw [done_irq, hbit, hones]
    rfl
  · rw [done_irq, hbit, ones_iff.mpr ⟨v, heq, hv⟩]
    rfl
  · have hnext : ((d.access acc).tick.word kDmaIrq).getLsbD 0 =
        ((d.access acc).word kDmaIrq).getLsbD 0 := by
      rw [getLsbD_tick_w1c (Or.inl rfl) (by decide), hbit]
      cases hones : acc.ones kDmaIrq 0 with
      | true =>
        have hnot := not_due_of_ones hdue hdec hones
        simp [hnot]
      | false => rfl
    have hread : decoded kDmaIrq = true := by decide
    rw [read32_of_decoded hread]
    show Except.ok (irqDONE_IRQ.getter ((d.access acc).tick.word kDmaIrq)) = _
    rw [done_irq, done_irq, hnext]

theorem completion_irq_read :
    irqDONE_IRQ.getter (((fresh.run [.setTransferLatency 1, .write32 kDmaCtrl 1]).access
      (.read kDmaStatus)).word kDmaIrq) = 1 :=
  have hdue : (fresh.run [.setTransferLatency 1, .write32 kDmaCtrl 1]).due := by decide
  have hdec : decoded (Access.read kDmaStatus).address = true := by decide
  (completion_irq hdue hdec).1 nofun

/- An acknowledge in the completing access takes the new completion with it. -/
theorem acknowledge_clears_completion :
    ¬∀ (d : Device) (acc : Access), d.Reachable → d.due → decoded acc.address = true →
      irqDONE_IRQ.getter ((d.access acc).word kDmaIrq) = 1 := by
  intro h
  have hlost := h (fresh.run [.setTransferLatency 1, .write32 kDmaCtrl 1]) (.write kDmaIrq 1)
    ⟨_, rfl⟩ (by decide) (by decide)
  exact absurd hlost (by decide)

end SocValidation.Device
