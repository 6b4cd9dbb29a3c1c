import SocValidation.Transport.Stack

/-!
# What the transaction log holds (txn_log.cpp, transports.hpp)

The counter of a `ProtocolTransport` moves before the inner call, the record of a
`LoggedTransport` is made after it, and the device has moved in between. The three
agree as long as every call comes back, which for a device depends on nothing but
the call.
-/

namespace SocValidation.Transport
open Device (Reply Source decoded)

variable {σ : Type} [ITransport σ] {call : Call} {calls : List Call} {address : BitVec 64}

/-! ### Calls that come back -/

theorem readFrom_error (count n : ℕ) (d : Device) : (Device.readFrom address count n d).1.error = none ↔
    ∀ i < count, decoded (address + BitVec.ofNat 64 ((n + i) * 4)) = true := by
  induction count generalizing n d with
  | zero => simp [Device.readFrom]
  | succ count ih =>
    rw [Nat.forall_lt_succ_left, Device.readFrom]
    cases hdec : decoded (address + BitVec.ofNat 64 (n * 4)) with
    | true =>
      rw [Device.read32_of_decoded hdec]
      simp only [ih (n + 1), true_and, Nat.add_assoc, Nat.add_comm 1]
    | false =>
      rw [Device.read32_of_not_decoded hdec]
      simp

theorem writeFrom_error (words : List (BitVec 32)) (n : ℕ) (d : Device) :
    (Device.writeFrom address words n d).1.error = none ↔
      ∀ i < words.length, decoded (address + BitVec.ofNat 64 ((n + i) * 4)) = true := by
  induction words generalizing n d with
  | nil => simp [Device.writeFrom]
  | cons w words ih =>
    rw [List.length_cons, Nat.forall_lt_succ_left, Device.writeFrom]
    cases hdec : decoded (address + BitVec.ofNat 64 (n * 4)) with
    | true =>
      obtain ⟨p, hp⟩ := Device.policyFor_of_decoded hdec
      rw [Device.write32_of_ok hp]
      simp only [ih (n + 1), true_and, Nat.add_assoc, Nat.add_comm 1]
    | false =>
      rw [Device.write32_of_not_decoded hdec]
      simp

/- There is a buffer where one is needed, and every word has an address that decodes. -/
def Call.Decodes : Call → Prop
  | .read32 address => decoded address = true
  | .write32 address _ => decoded address = true
  | .readBlock address out count =>
    (out = true ∨ count = 0) ∧ ∀ i < count, decoded (address + BitVec.ofNat 64 (i * 4)) = true
  | .writeBlock _ (.null count) => count = 0
  | .writeBlock address (.buffer words) =>
    ∀ i < words.length, decoded (address + BitVec.ofNat 64 (i * 4)) = true

instance : (call : Call) → Decidable call.Decodes
  | .read32 _ => inferInstanceAs (Decidable (_ = _))
  | .write32 _ _ => inferInstanceAs (Decidable (_ = _))
  | .readBlock _ _ _ => inferInstanceAs (Decidable ((_ ∨ _) ∧ ∀ i < _, _))
  | .writeBlock _ (.null _) => inferInstanceAs (Decidable (_ = _))
  | .writeBlock _ (.buffer _) => inferInstanceAs (Decidable (∀ i < _, _))

theorem error_iff (call : Call) (d : Device) : (d.apply call.toOp).1.error = none ↔ call.Decodes := by
  cases call with
  | read32 address =>
    cases hdec : decoded address with
    | true => simp [Call.toOp, Device.apply, Device.read32_of_decoded hdec, Call.Decodes, hdec]
    | false => simp [Call.toOp, Device.apply, Device.read32_of_not_decoded hdec, Call.Decodes, hdec]
  | write32 address value =>
    cases hdec : decoded address with
    | true =>
      obtain ⟨p, hp⟩ := Device.policyFor_of_decoded hdec
      simp [Call.toOp, Device.apply, Device.write32_of_ok hp, Call.Decodes, hdec]
    | false => simp [Call.toOp, Device.apply, Device.write32_of_not_decoded hdec, Call.Decodes, hdec]
  | readBlock address out count =>
    simp only [Call.toOp, Device.apply, Device.readBlock, Call.Decodes]
    by_cases hnull : out = false ∧ count ≠ 0
    · simp [hnull.1, hnull.2]
    · have hbuffer : out = true ∨ count = 0 := by
        cases out with
        | true => exact Or.inl rfl
        | false => exact Or.inr (not_not.mp fun hc => hnull ⟨rfl, hc⟩)
      rw [if_neg hnull, readFrom_error]
      simp [hbuffer]
  | writeBlock address source =>
    cases source with
    | null count =>
      simp only [Call.toOp, Device.apply, Device.writeBlock, Call.Decodes]
      by_cases hcount : count = 0
      · simp [hcount]
      · simp [hcount]
    | buffer words =>
      simp only [Call.toOp, Device.apply, Device.writeBlock, Call.Decodes]
      rw [writeFrom_error]
      simp

/-! ### The record of a call -/

/- What a call makes of a transport, whatever the host holds at that moment. -/
def Becomes (s u : σ) : Prop := ∃ (call : Call) (h : Host), u = (call.on s h).2.1

/- In whatever state its calls bring it, the transport makes no record in the log. -/
def KeepsLog (s : σ) (log : ℕ) : Prop := ∀ u, Relation.ReflTransGen Becomes s u →
  ∀ (call : Call) (h : Host), (call.on u h).2.2.logs log = h.logs log

variable {s : σ} {log : ℕ}

theorem KeepsLog.kept (hs : KeepsLog s log) (call : Call) (h : Host) :
    (call.on s h).2.2.logs log = h.logs log := hs s .refl call h

theorem KeepsLog.next (hs : KeepsLog s log) (call : Call) (h : Host) :
    KeepsLog (call.on s h).2.1 log := fun u hu => hs u (.head ⟨call, h, rfl⟩ hu)

/- A property of states that every call keeps, and under which none makes a record. -/
theorem keepsLog_of_inv (P : σ → Prop) (hs : P s)
    (hstep : ∀ u, P u → ∀ (call : Call) (h : Host),
      P (call.on u h).2.1 ∧ (call.on u h).2.2.logs log = h.logs log) : KeepsLog s log := by
  intro u hu call h
  have hinv : P u := by
    induction hu with
    | refl => exact hs
    | tail _ hnext ih =>
      obtain ⟨call, h, rfl⟩ := hnext
      exact (hstep _ ih call h).1
  exact (hstep u hinv call h).2

theorem keepsLog_device (d : Device) (log : ℕ) : KeepsLog d log :=
  keepsLog_of_inv (fun _ => True) trivial fun d _ call h => by
    rw [call.on_device]
    exact ⟨trivial, rfl⟩

theorem KeepsLog.protocol {t : ProtocolTransport σ} (ht : KeepsLog t.backing log) : KeepsLog t log :=
  keepsLog_of_inv (fun t : ProtocolTransport σ => KeepsLog t.backing log) ht fun t ht call h => by
    rw [call.on_protocol]
    exact ⟨ht.next call h, ht.kept call h⟩

theorem KeepsLog.logged {t : LoggedTransport σ} (ht : KeepsLog t.inner log) (hne : t.log ≠ log) :
    KeepsLog t log := by
  refine keepsLog_of_inv (fun t : LoggedTransport σ => KeepsLog t.inner log ∧ t.log ≠ log) ⟨ht, hne⟩ ?_
  rintro t ⟨ht, hne⟩ call h
  rw [call.on_logged, LoggedTransport.forward]
  refine ⟨⟨ht.next call h, hne⟩, ?_⟩
  cases call.recorded (call.on t.inner h).1 with
  | none => exact ht.kept call h
  | some value =>
    exact ((call.on t.inner h).2.2.record_logs_of_ne hne.symm ..).trans (ht.kept call h)

theorem recorded_eq_none (call : Call) (s : σ) (h : Host) :
    call.recorded (call.on s h).1 = none ↔ (call.on s h).1.error ≠ none := by
  cases call with
  | read32 address =>
    simp only [Call.on, Call.recorded]
    rcases ITransport.read32 address s h with ⟨r, t, g⟩
    cases r <;> simp [Call.readReply]
  | write32 address value => simp [Call.recorded]
  | readBlock address out count => simp [Call.recorded, LoggedTransport.counted]
  | writeBlock address source => simp [Call.recorded, LoggedTransport.counted]

theorem logged_kept (call : Call) (t : LoggedTransport σ) (h : Host) :
    (call.on t h).2.1.log = t.log ∧ (call.on t h).2.1.test = t.test := by
  rw [call.on_logged]
  exact ⟨rfl, rfl⟩

/- What a logger refers to stays out of its log. -/
theorem logged_keeps (call : Call) (t : LoggedTransport σ) (h : Host) (hσ : KeepsLog t.inner t.log) :
    KeepsLog (call.on t h).2.1.inner (call.on t h).2.1.log := by
  rw [call.on_logged]
  exact hσ.next call h

/- A call that comes back leaves one record, and one that throws leaves none. -/
theorem logged_ok (t : LoggedTransport σ) (h : Host) (hσ : KeepsLog t.inner t.log)
    (hok : (call.on t.inner h).1.error = none) :
    ∃ r : Transaction, call.recorded (call.on t.inner h).1 = some r.value ∧ r.op = call.op ∧
      r.address = call.address ∧ r.test = t.test ∧
      (call.on t h).2.2.logs t.log = h.logs t.log ++ [r] := by
  cases hr : call.recorded (call.on t.inner h).1 with
  | none => exact absurd hok ((recorded_eq_none call t.inner h).mp hr)
  | some value =>
    have hinner := hσ.kept call h
    refine ⟨⟨(call.on t.inner h).2.2.clock (call.on t.inner h).2.2.readings, call.op, call.address,
      value, t.test⟩, rfl, rfl, rfl, rfl, ?_⟩
    rw [call.on_logged, LoggedTransport.forward]
    simp only [hr]
    rw [Host.record_logs, hinner]

theorem logged_error (t : LoggedTransport σ) (h : Host) (hσ : KeepsLog t.inner t.log)
    (hthrows : (call.on t.inner h).1.error ≠ none) : (call.on t h).2.2.logs t.log = h.logs t.log := by
  have hr := (recorded_eq_none call t.inner h).mpr hthrows
  rw [call.on_logged, LoggedTransport.forward]
  simp only [hr]
  exact hσ.kept call h

/- A logger makes its record behind those of the transport under it. -/
theorem logged_size_on (call : Call) (t : LoggedTransport σ) (h : Host) (log : ℕ) :
    (call.on t h).2.2.size log = (call.on t.inner h).2.2.size log +
      if (call.on t.inner h).1.error = none ∧ t.log = log then 1 else 0 := by
  rw [call.on_logged, LoggedTransport.forward]
  cases hr : call.recorded (call.on t.inner h).1 with
  | none => rw [if_neg fun hc => (recorded_eq_none call t.inner h).mp hr hc.1]; rfl
  | some value =>
    have hok : (call.on t.inner h).1.error = none :=
      not_not.mp fun hthrows => by
        rw [(recorded_eq_none call t.inner h).mpr hthrows] at hr
        cases hr
    dsimp only
    by_cases hlog : t.log = log
    · rw [if_pos ⟨hok, hlog⟩, ← hlog, Host.size, Host.record_logs, List.length_append]
      rfl
    · rw [if_neg fun hc => hlog hc.2, Host.size, Host.record_logs_of_ne _ (Ne.symm hlog)]
      rfl

/-! ### The logs of a stack -/

namespace Stack

/- The logs that its loggers write to, that of the outer one first. -/
def logs : (layers : List Layer) → Stack layers → List ℕ
  | [], _ => []
  | .protocol :: layers, t => logs layers (ProtocolTransport.backing t)
  | .logged :: layers, t => LoggedTransport.log t :: logs layers (LoggedTransport.inner t)

variable {layers : List Layer}

theorem logs_on (layers : List Layer) (call : Call) (s : Stack layers) (h : Host) :
    logs layers (call.on s h).2.1 = logs layers s := by
  induction layers with
  | nil => rfl
  | cons layer layers ih =>
    cases layer with
    | protocol =>
      rw [show call.on s h = _ from call.on_protocol (σ := Stack layers) s h]
      exact ih (ProtocolTransport.backing s)
    | logged =>
      rw [show call.on s h = _ from call.on_logged (σ := Stack layers) s h]
      exact congrArg (_ :: ·) (ih (LoggedTransport.inner s))

theorem keepsLog {s : Stack layers} (hlog : log ∉ logs layers s) : KeepsLog s log := by
  induction layers with
  | nil => exact keepsLog_device s log
  | cons layer layers ih =>
    cases layer with
    | protocol => exact (ih hlog).protocol
    | logged =>
      obtain ⟨hne, hinner⟩ := not_or.mp (mt List.mem_cons.mpr hlog)
      exact (ih hinner).logged (Ne.symm hne)

theorem error_iff (layers : List Layer) (call : Call) (s : Stack layers) (h : Host) :
    (call.on s h).1.error = none ↔ call.Decodes := by
  rw [(transparent layers call s h).1]
  exact Transport.error_iff call _

/- Of a call that comes back each logger makes a record in its log. -/
theorem size_on (layers : List Layer) (call : Call) (s : Stack layers) (h : Host) (log : ℕ) :
    (call.on s h).2.2.size log =
      h.size log + if call.Decodes then (logs layers s).count log else 0 := by
  induction layers with
  | nil =>
    rw [show call.on s h = _ from call.on_device s h]
    simp [logs]
  | cons layer layers ih =>
    cases layer with
    | protocol =>
      rw [show call.on s h = _ from call.on_protocol (σ := Stack layers) s h]
      exact ih (ProtocolTransport.backing s)
    | logged =>
      rw [show (call.on s h).2.2.size log = _ from logged_size_on (σ := Stack layers) call s h log,
        ih (LoggedTransport.inner s), logs, List.count_cons, Nat.add_assoc]
      have hcomes := error_iff layers call (LoggedTransport.inner s) h
      by_cases hdec : call.Decodes
      · simp [hcomes, hdec]
      · simp [hcomes, hdec]

/- A stack keeps out of a log just when no logger of it writes there. -/
theorem keepsLog_iff {s : Stack layers} : KeepsLog s log ↔ log ∉ logs layers s := by
  refine ⟨fun hkeeps hmem => ?_, keepsLog⟩
  have hsize := size_on layers (.read32 Device.kDmaStatus) s ⟨fun _ => 0, 0, fun _ => []⟩ log
  rw [Host.size, hkeeps.kept, if_pos (show (Call.read32 Device.kDmaStatus).Decodes by decide)] at hsize
  have hcount := List.count_pos_iff.mpr hmem
  simp only [Host.size] at hsize
  omega

/- After any calls. -/
theorem size_run (layers : List Layer) (s : Stack layers) (h : Host) (calls : List Call) (log : ℕ) :
    logs layers (Call.run s h calls).1 = logs layers s ∧
      (Call.run s h calls).2.size log =
        h.size log + (logs layers s).count log * calls.countP (fun call => call.Decodes) := by
  induction calls using List.reverseRecOn with
  | nil => exact ⟨rfl, rfl⟩
  | append_singleton calls call ih =>
    obtain ⟨hlogs, hsize⟩ := ih
    rw [Call.run_concat]
    refine ⟨(logs_on layers call _ _).trans hlogs, ?_⟩
    rw [size_on, hlogs, hsize, List.countP_append, List.countP_singleton, Nat.mul_add, Nat.add_assoc]
    by_cases hdec : call.Decodes
    · simp [hdec]
    · simp [hdec]

end Stack

/-! ### The log beside the counter -/

abbrev LoggedLink := LoggedTransport (ProtocolTransport Device)

theorem link_error (call : Call) (t : LoggedLink) (h : Host) :
    (call.on t.inner h).1.error = none ↔ call.Decodes := by
  rw [(transparent_device.protocol call t.inner h).1]
  exact error_iff call t.inner.backing

theorem link_size (call : Call) (t : LoggedLink) (h : Host) :
    (call.on t h).2.2.size t.log = h.size t.log + if call.Decodes then 1 else 0 := by
  by_cases hdec : call.Decodes
  · have hok := (link_error call t h).mpr hdec
    obtain ⟨r, -, -, -, -, hlogs⟩ := logged_ok t h (keepsLog_device t.inner.backing t.log).protocol hok
    rw [Host.size, hlogs, List.length_append, if_pos hdec]
    rfl
  · have hthrows := (link_error call t h).not.mpr hdec
    rw [Host.size, logged_error t h (keepsLog_device t.inner.backing t.log).protocol hthrows, if_neg hdec]
    rfl

theorem link_accesses (call : Call) (t : LoggedLink) (h : Host) :
    (call.on t h).2.1.inner.accesses = t.inner.accesses + 1 := by
  rw [call.on_logged, LoggedTransport.forward, call.on_protocol]
  rfl

theorem link_run (t : LoggedLink) (h : Host) (calls : List Call) :
    (Call.run t h calls).1.log = t.log ∧
    (Call.run t h calls).2.size t.log = h.size t.log + calls.countP (fun call => call.Decodes) ∧
    (Call.run t h calls).1.inner.accesses = t.inner.accesses + BitVec.ofNat 64 calls.length := by
  induction calls using List.reverseRecOn with
  | nil => exact ⟨rfl, rfl, (BitVec.add_zero _).symm⟩
  | append_singleton calls call ih =>
    obtain ⟨hlog, hsize, haccesses⟩ := ih
    have hstep := link_size call (Call.run t h calls).1 (Call.run t h calls).2
    rw [hlog, hsize] at hstep
    rw [Call.run_concat]
    refine ⟨(logged_kept call _ _).1.trans hlog, ?_, ?_⟩
    · rw [hstep, List.countP_append, List.countP_singleton, Nat.add_assoc]
      simp
    · rw [link_accesses, haccesses, List.length_append, BitVec.add_assoc]
      congr 1
      exact (BitVec.ofNat_add _ _).symm

theorem take_succ {n : ℕ} (hcall : calls[n]? = some call) :
    calls.take (n + 1) = calls.take n ++ [call] := by
  rw [List.take_add_one, hcall]
  rfl

/-- After every call the log has as many records as the counter says, and one of
each call that moved the device, just when no call throws. -/
theorem log_complete_iff (t : LoggedLink) (h : Host) (hlog : h.logs t.log = [])
    (hcounter : t.inner.accesses = 0) (calls : List Call) :
    (∀ n,
      BitVec.ofNat 64 ((Call.run t h (calls.take n)).2.size t.log) =
        (Call.run t h (calls.take n)).1.inner.accesses ∧
      ∀ call, calls[n]? = some call →
        (Call.run t h (calls.take (n + 1))).1.inner.backing ≠
          (Call.run t h (calls.take n)).1.inner.backing →
        ∃ record : Transaction, record.op = call.op ∧ record.address = call.address ∧
          (Call.run t h (calls.take (n + 1))).2.logs t.log =
            (Call.run t h (calls.take n)).2.logs t.log ++ [record]) ↔
    ∀ call ∈ calls, call.Decodes := by
  have hempty : h.size t.log = 0 := by
    rw [Host.size, hlog]
    rfl
  have hrun := fun calls => link_run t h calls
  simp only [hempty, hcounter, zero_add] at hrun
  constructor
  · intro hall call hmem
    by_contra hdec
    -- the call that throws moves the counter and leaves the log as it was
    obtain ⟨n, hn, rfl⟩ := List.getElem_of_mem hmem
    have hcall := List.getElem?_eq_getElem hn
    have hbefore := (hall n).1
    have hafter := (hall (n + 1)).1
    rw [(hrun _).2.1, (hrun _).2.2] at hbefore
    rw [(hrun _).2.1, (hrun _).2.2, take_succ hcall, List.countP_append, List.countP_singleton,
      decide_eq_false hdec, List.length_append] at hafter
    have hone : BitVec.ofNat 64 (calls.take n).length =
        BitVec.ofNat 64 (calls.take n).length + BitVec.ofNat 64 1 := by
      rw [← BitVec.ofNat_add]
      exact hbefore.symm.trans hafter
    exact absurd (BitVec.self_eq_add_right.mp hone) (by decide)
  · intro hall n
    have hcount : (calls.take n).countP (fun call => call.Decodes) = (calls.take n).length :=
      List.countP_eq_length.mpr fun call hcall => decide_eq_true (hall call (List.mem_of_mem_take hcall))
    refine ⟨?_, fun call hcall _ => ?_⟩
    · rw [(hrun _).2.1, (hrun _).2.2, hcount]
    · have hstep := Call.run_concat t h (calls.take n) call
      have hok := (link_error call (Call.run t h (calls.take n)).1 (Call.run t h (calls.take n)).2).mpr
        (hall call (List.mem_of_getElem? hcall))
      obtain ⟨r, -, hop, haddress, -, hlogs⟩ :=
        logged_ok (Call.run t h (calls.take n)).1 _ (keepsLog_device _ _).protocol hok
      rw [(hrun _).1] at hlogs
      rw [take_succ hcall, hstep]
      exact ⟨r, hop, haddress, hlogs⟩

/- The decorators around a new device, and a host with empty logs. -/
def freshLink : LoggedLink :=
  { inner := { backing := Device.fresh, cost := ⟨40, 10e6⟩, label := "jtag" }, log := 0 }

def freshHost : Host := ⟨fun n => BitVec.ofNat 64 n, 0, fun _ => []⟩

def mixedCalls : List Call :=
  [.write32 Device.kDmaXferLen 64, .writeBlock 0x4000000C (.buffer [5, 6]), .write32 Device.kDmaCtrl 1,
    .readBlock Device.kDmaStatus true 2, .read32 Device.kDmaStatus]

/- All five calls are counted and recorded; the fourth has moved the device. -/
theorem log_complete_mixed :
    BitVec.ofNat 64 ((Call.run freshLink freshHost (mixedCalls.take 5)).2.size 0) =
        (Call.run freshLink freshHost (mixedCalls.take 5)).1.inner.accesses ∧
      ∃ record : Transaction, record.op = .readBlock ∧ record.address = Device.kDmaStatus ∧
        (Call.run freshLink freshHost (mixedCalls.take 4)).2.logs 0 =
          (Call.run freshLink freshHost (mixedCalls.take 3)).2.logs 0 ++ [record] := by
  have hcomplete := (log_complete_iff freshLink freshHost rfl rfl mixedCalls).mpr (by decide)
  have hmoved : (Call.run freshLink freshHost (mixedCalls.take 4)).1.inner.backing ≠
      (Call.run freshLink freshHost (mixedCalls.take 3)).1.inner.backing := fun hsame =>
    absurd (congrArg Device.ticks hsame) (by decide)
  exact ⟨(hcomplete 5).1, (hcomplete 3).2 _ rfl hmoved⟩

/- The last word of the block has no register: the write is counted, the first word
of it is in the device, and the log is empty. -/
theorem log_misses_failed_block : ¬∀ (t : LoggedLink) (h : Host), h.logs t.log = [] →
    t.inner.accesses = 0 → ∀ (calls : List Call) (n : ℕ),
      BitVec.ofNat 64 ((Call.run t h (calls.take n)).2.size t.log) =
        (Call.run t h (calls.take n)).1.inner.accesses ∧
      ∀ call, calls[n]? = some call →
        (Call.run t h (calls.take (n + 1))).1.inner.backing ≠
          (Call.run t h (calls.take n)).1.inner.backing →
        ∃ record : Transaction, record.op = call.op ∧ record.address = call.address ∧
          (Call.run t h (calls.take (n + 1))).2.logs t.log =
            (Call.run t h (calls.take n)).2.logs t.log ++ [record] := by
  intro hall
  have hsame := (hall freshLink freshHost rfl rfl [.writeBlock Device.kDmaXferLen (.buffer [8, 0])] 1).1
  revert hsame
  decide

end SocValidation.Transport
