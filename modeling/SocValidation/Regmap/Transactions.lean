import SocValidation.Regmap.Modify
import SocValidation.Transport.Log

/-!
# What the register layer does to a bus (register.hpp, bench_main.cpp:108-158)

`Modify` is one read and one write, whatever stands between the accessor and the
device. On a register that software owns it is an update in place. On a W1C register
the read brings back the latched bits, and writing them back takes them down.
-/

namespace SocValidation.Regmap
open BitRange Transport
open Device (decoded kDmaIrq kDmaStatus kDmaXferLen)

variable {σ : Type} [ITransport σ] {view : σ → Device} {L : Layout} {s : σ} {h : Host}
variable {a : BitVec 64} {v : BitVec 32} {b : ℕ} {i : Fin L.fields.length} {chain : List (Call L)}

/-! ### Single accesses through a stack -/

theorem read32_shown (hσ : Transparent view) (hdec : decoded a = true) (s : σ) (h : Host) :
    ∃ s' h', ITransport.read32 a s h = (.ok ((view s).tick.word a), s', h') ∧
      (Transport.Call.read32 a).on s h = ({ words := [(view s).tick.word a] }, s', h') ∧
      view s' = (view s).access (.read a) := by
  obtain ⟨hreply, hview⟩ := hσ (.read32 a) s h
  have hdevice : (view s).apply (.read32 a) =
      ({ words := [(view s).tick.word a] }, (view s).access (.read a)) := by
    rw [Device.access_read hdec, Device.apply, Device.read32_of_decoded hdec]
  rw [Transport.Call.toOp, hdevice] at hreply hview
  simp only [Transport.Call.on] at hreply hview ⊢
  rcases hr : ITransport.read32 a s h with ⟨r, s', h'⟩
  rw [hr] at hreply hview
  cases r with
  | error e => simp [Transport.Call.readReply] at hreply
  | ok w =>
    obtain rfl : w = (view s).tick.word a := by simpa [Transport.Call.readReply] using hreply
    exact ⟨s', h', rfl, rfl, hview⟩

theorem write32_shown (hσ : Transparent view) (hdec : decoded a = true) (v : BitVec 32) (s : σ)
    (h : Host) : ∃ s' h', ITransport.write32 a v s h = (.ok (), s', h') ∧
      (Transport.Call.write32 a v).on s h = ({}, s', h') ∧
      view s' = (view s).access (.write a v) := by
  obtain ⟨p, hp⟩ := Device.policyFor_of_decoded hdec
  obtain ⟨hreply, hview⟩ := hσ (.write32 a v) s h
  have hdevice : (view s).apply (.write32 a v) = ({}, (view s).access (.write a v)) := by
    rw [Device.access_write hp, Device.apply, Device.write32_of_ok hp]
  rw [Transport.Call.toOp, hdevice] at hreply hview
  simp only [Transport.Call.on] at hreply hview ⊢
  rcases hr : ITransport.write32 a v s h with ⟨r, s', h'⟩
  rw [hr] at hreply hview
  cases r with
  | error e => simp [Transport.Call.writeReply] at hreply
  | ok u => exact ⟨s', h', rfl, rfl, hview⟩

/- The device between the two accesses and after them. -/
theorem modify_shown (hσ : Transparent view) (hdec : decoded L.kAddress = true)
    (hw : L.reg.access ≠ "RO") (mutate : BitVec 32 → BitVec 32) (s : σ) (h : Host) :
    ∃ s' h', Accessor.modify L s h hw mutate =
        (.ok (mutate ((view s).tick.word L.kAddress)), s', h') ∧
      view s' = ((view s).access (.read L.kAddress)).access
        (.write L.kAddress (mutate ((view s).tick.word L.kAddress))) := by
  obtain ⟨s₁, h₁, hread, -, hview₁⟩ := read32_shown hσ hdec s h
  obtain ⟨s₂, h₂, hwrite, -, hview₂⟩ :=
    write32_shown hσ hdec (mutate ((view s).tick.word L.kAddress)) s₁ h₁
  refine ⟨s₂, h₂, ?_, hview₁ ▸ hview₂⟩
  simp only [Accessor.modify, Accessor.read, Accessor.write, hread, hwrite]
  rfl

theorem writeOnly_shown (hσ : Transparent view) (hdec : decoded L.kAddress = true)
    (hw : L.reg.access ≠ "RO") (mutate : BitVec 32 → BitVec 32) (s : σ) (h : Host) :
    ∃ s' h', Accessor.writeOnly L s h hw mutate = (.ok (mutate L.kReset), s', h') ∧
      view s' = (view s).access (.write L.kAddress (mutate L.kReset)) := by
  obtain ⟨s₁, h₁, hwrite, -, hview⟩ := write32_shown hσ hdec (mutate L.kReset) s h
  refine ⟨s₁, h₁, ?_, hview⟩
  simp only [Accessor.writeOnly, Accessor.write, hwrite]
  rfl

/-! ### W1C registers -/

/- A call reaches the bits of a W1C field only as the field's own clearer. -/
theorem getLsbD_apply_w1c (hi : (L.fields.get i).access = "W1C") (hb : (L.fields.get i).range.Has b)
    (raw : BitVec 32) (c : Call L) :
    (c.apply raw).getLsbD b = (raw.getLsbD b || c.clears i) := by
  cases c with
  | set j hj v =>
    have hne : j ≠ i := by
      rintro rfl
      have hrw : (L.fields.get j).access = "RW" := hj
      rw [hrw] at hi
      exact absurd hi (by decide)
    rw [Call.apply, Field.setter_eq, Range.put_frame _ _ _ ((Layout.apart_of_ne hne).not_has hb)]
    simp [Call.clears]
  | clear j hj =>
    rw [Call.apply, Field.clearer_eq]
    by_cases hji : j = i
    · subst hji
      have hhas : L.fields[j].range.Has b := hb
      rw [Range.getLsbD_fill, decide_eq_true hhas]
      simp [Call.clears]
    · rw [Range.fill_frame _ _ ((Layout.apart_of_ne hji).not_has hb)]
      simp [Call.clears, hji]

theorem getLsbD_runCalls_w1c (hi : (L.fields.get i).access = "W1C")
    (hb : (L.fields.get i).range.Has b) (raw : BitVec 32) (chain : List (Call L)) :
    (runCalls raw chain).getLsbD b = (raw.getLsbD b || chain.any (Call.clears i)) := by
  induction chain generalizing raw with
  | nil => simp [runCalls]
  | cons c chain ih =>
    have hrest := ih (c.apply raw)
    rw [getLsbD_apply_w1c hi hb] at hrest
    rw [List.any_cons, ← Bool.or_assoc]
    exact hrest

theorem decoded_w1c (hr : Device.W1cRegister a) : decoded a = true := by
  rcases hr with rfl | rfl <;> decide

/-- `Modify` on a W1C register takes down every bit that its read has found latched,
cleared by the mutation or not; up afterwards is only a completion that falls on the
write itself. `WriteOnly` keeps what is latched where the reset value is 0 and the
mutation does not clear it. -/
theorem modify_w1c_iff (layers : List Layer) (s : Stack layers) (h : Host) (L : Layout)
    (hr : Device.W1cRegister L.kAddress) (hw : L.reg.access ≠ "RO") (i : Fin L.fields.length)
    (hi : (L.fields.get i).access = "W1C") (b : ℕ) (hb : (L.fields.get i).range.Has b) (hb3 : b < 3)
    (chain : List (Call L)) :
    (∃ word after host, Accessor.modify L s h hw (fun raw => runCalls raw chain) =
        (.ok word, after, host) ∧
      (((Stack.device layers after).word L.kAddress).getLsbD b = true ↔
        ((Stack.device layers s).tick.word L.kAddress).getLsbD b = false ∧
          chain.any (Call.clears i) = false ∧ L.kAddress = kDmaIrq ∧ b = 0 ∧
          ((Stack.device layers s).access (.read kDmaIrq)).due)) ∧
    ∃ word after host, Accessor.writeOnly L s h hw (fun raw => runCalls raw chain) =
        (.ok word, after, host) ∧
      (((Stack.device layers after).word L.kAddress).getLsbD b = true ↔
        ((Stack.device layers s).tick.word L.kAddress).getLsbD b = true ∧
          chain.any (Call.clears i) = false ∧ L.kReset.getLsbD b = false) := by
  have hstack := Stack.transparent layers
  have hdec := decoded_w1c hr
  obtain ⟨after, host, hmodify, hview⟩ :=
    modify_shown hstack hdec hw (fun raw => runCalls raw chain) s h
  obtain ⟨after', host', hwriteOnly, hview'⟩ :=
    writeOnly_shown hstack hdec hw (fun raw => runCalls raw chain) s h
  generalize Stack.device layers s = d at hmodify hview hview' ⊢
  have hdecw : ∀ v, decoded (Device.Access.write L.kAddress v).address = true := fun _ => hdec
  have hones : ∀ v, (Device.Access.write L.kAddress v).ones L.kAddress b = v.getLsbD b := fun v => by
    simp [Device.Access.ones]
  refine ⟨⟨_, after, host, hmodify, ?_⟩, ⟨_, after', host', hwriteOnly, ?_⟩⟩
  · rw [hview, Device.getLsbD_w1c hr (hdecw _) hb3, hones, getLsbD_runCalls_w1c hi hb,
      Device.getLsbD_tick_w1c hr hb3, Device.word_read hdec]
    cases hold : (d.tick.word L.kAddress).getLsbD b with
    | true => simp
    | false =>
      simp only [Bool.false_or, Bool.and_eq_true, Bool.not_eq_true', decide_eq_true_eq, true_and]
      constructor
      · rintro ⟨⟨hdue, hirq, hzero⟩, hclears⟩
        exact ⟨hclears, hirq, hzero, hirq ▸ hdue⟩
      · rintro ⟨hclears, hirq, hzero, hdue⟩
        exact ⟨⟨hirq.symm ▸ hdue, hirq, hzero⟩, hclears⟩
  · rw [hview', Device.getLsbD_w1c hr (hdecw _) hb3, hones, getLsbD_runCalls_w1c hi hb]
    simp only [Bool.and_eq_true, Bool.not_eq_true', Bool.or_eq_false_iff]
    exact and_congr_right fun _ => and_comm

/- A completion is latched when `Modify` clears ERR_IRQ. -/
def latched : Device :=
  Device.fresh.run [.setTransferLatency 1, .write32 Device.kDmaCtrl 1, .read32 kDmaStatus]

theorem modify_w1c_loses : ∃ word after host,
    Accessor.modify (σ := Stack []) dmaIRQ_STATUS latched freshHost (by decide)
        (fun raw => runCalls raw clearErr) = (.ok word, after, host) ∧
      ((Stack.device [] after).word dmaIRQ_STATUS.kAddress).getLsbD 0 = false := by
  obtain ⟨⟨word, after, host, hmodify, hiff⟩, -⟩ := modify_w1c_iff [] latched freshHost dmaIRQ_STATUS
    (Or.inl (by decide)) (by decide) ⟨0, by decide⟩ rfl 0 (by decide) (by decide) clearErr
  refine ⟨word, after, host, hmodify, ?_⟩
  rw [← Bool.not_eq_true, hiff]
  rintro ⟨hbit, -⟩
  revert hbit
  decide

/-! ### Registers that software owns -/

/- What a call through a log leaves there when it comes back. -/
theorem logged_record (call : Transport.Call) {t : LoggedTransport σ} (hσ : Transparent view)
    (hlog : KeepsLog t.inner t.log) (hdec : call.Decodes) (h : Host) :
    ∃ r : Transaction, call.recorded (call.on t.inner h).1 = some r.value ∧ r.op = call.op ∧
      r.address = call.address ∧ r.test = t.test ∧
      (call.on t h).2.2.logs t.log = h.logs t.log ++ [r] := by
  apply logged_ok t h hlog
  rw [(hσ call t.inner h).1]
  exact (error_iff call _).mpr hdec

/-- `Modify` on a register that software owns leaves a record of the word that it reads
and a record of the mutated word in a log that no logger below writes to, stores the
mutated word, and changes no other register of the kind. -/
theorem modify_owned (layers : List Layer) (t : LoggedTransport (Stack layers)) (h : Host)
    (hlog : t.log ∉ Stack.logs layers t.inner) (L : Layout) (ha : Device.SoftwareOwned L.kAddress)
    (hw : L.reg.access ≠ "RO") (mutate : BitVec 32 → BitVec 32) :
    ∃ after host, ∃ read write : Transaction,
      Accessor.modify L t h hw mutate =
        (.ok (mutate ((Stack.device layers t.inner).word L.kAddress)), after, host) ∧
      host.logs t.log = h.logs t.log ++ [read, write] ∧
      (read.op = .read32 ∧ read.address = L.kAddress ∧ read.test = t.test ∧
        read.value = (Stack.device layers t.inner).word L.kAddress) ∧
      (write.op = .write32 ∧ write.address = L.kAddress ∧ write.test = t.test ∧
        write.value = mutate ((Stack.device layers t.inner).word L.kAddress)) ∧
      ∀ a, Device.SoftwareOwned a → (Stack.device layers after.inner).word a =
        if a = L.kAddress then mutate ((Stack.device layers t.inner).word L.kAddress)
        else (Stack.device layers t.inner).word a := by
  have hstack := (Stack.transparent layers).logged
  obtain ⟨hirq, hstatus, -⟩ := Device.owned_ne ha
  have hdec : decoded L.kAddress = true := by
    rw [decoded, Device.policyFor_owned ha]
    rfl
  have hold : (Stack.device layers t.inner).tick.word L.kAddress =
      (Stack.device layers t.inner).word L.kAddress := Device.word_tick_of_ne hirq hstatus
  obtain ⟨t₁, h₁, hread, honRead, hview₁⟩ := read32_shown hstack hdec t h
  obtain ⟨t₂, h₂, hwrite, honWrite, hview₂⟩ := write32_shown hstack hdec
    (mutate ((Stack.device layers t.inner).word L.kAddress)) t₁ h₁
  simp only [hold] at hread honRead
  -- the two records
  obtain ⟨read, hvalue, hop, haddress, htest, hlogs⟩ := logged_record (.read32 L.kAddress)
    (Stack.transparent layers) (Stack.keepsLog hlog) hdec h
  have hkept := logged_kept (.read32 L.kAddress) t h
  have hkeeps₁ := logged_keeps (.read32 L.kAddress) t h (Stack.keepsLog hlog)
  rw [honRead] at hlogs hkept hkeeps₁
  obtain ⟨hlog₁, htest₁⟩ := hkept
  obtain ⟨write, hvalue', hop', haddress', htest', hlogs'⟩ := logged_record
    (.write32 L.kAddress (mutate ((Stack.device layers t.inner).word L.kAddress)))
    (Stack.transparent layers) hkeeps₁ hdec h₁
  rw [honWrite, hlog₁] at hlogs'
  refine ⟨t₂, h₂, read, write, ?_, ?_, ⟨hop, haddress, htest, ?_⟩,
    ⟨hop', haddress', htest'.trans htest₁, ?_⟩, fun a howned => ?_⟩
  · simp only [Accessor.modify, Accessor.read, Accessor.write, hread, hwrite]
    rfl
  · rw [hlogs', hlogs, List.append_assoc]
    rfl
  · have hreply := (Stack.transparent layers (.read32 L.kAddress) t.inner h).1
    simp only [Transport.Call.toOp, Device.apply, Device.read32_of_decoded hdec, hold] at hreply
    rw [hreply] at hvalue
    simpa [Transport.Call.recorded] using hvalue.symm
  · simp only [Transport.Call.recorded] at hvalue'
    split at hvalue'
    · exact (Option.some.inj hvalue').symm
    · cases hvalue'
  · have hdecr : decoded (Device.Access.read L.kAddress).address = true := hdec
    have hdecw : ∀ v, decoded (Device.Access.write L.kAddress v).address = true := fun _ => hdec
    rw [hview₂, Device.word_owned howned (hdecw _), hview₁, Device.word_owned howned hdecr]
    by_cases he : a = L.kAddress
    · subst he
      simp [Device.deliveredTo]
    · simp [Device.deliveredTo, he, Ne.symm he]

/- A log over a JTAG adapter; the test `ModifyIsOneReadPlusOneWrite`. -/
theorem modify_owned_burst : ∃ after host, ∃ read write : Transaction,
    Accessor.modify dmaCTRL freshLink freshHost (by decide)
        (fun raw => runCalls raw setBurst) = (.ok 0x40, after, host) ∧
      host.logs 0 = [read, write] ∧ read.value = 0 ∧ write.value = 0x40 := by
  obtain ⟨after, host, read, write, hmodify, hlogs, ⟨-, -, -, hread⟩, ⟨-, -, -, hwrite⟩, -⟩ :=
    modify_owned [.protocol] freshLink freshHost List.not_mem_nil dmaCTRL
      (Or.inl (by decide)) (by decide) (fun raw => runCalls raw setBurst)
  exact ⟨after, host, read, write, hmodify, hlogs, hread, hwrite⟩

end SocValidation.Regmap
