import SocValidation.Transport.Log

/-!
# One log under several transports (txn_log.hpp, txn_log.cpp)

A `LoggedTransport` refers to a transport and to a log; its own is the name of a test.
However the calls through several of them interleave, a log has what they gave back, in
the order of the calls, each under the name of its transport.
-/

namespace SocValidation.Transport
open Device (Reply)

/- A `LoggedTransport` without the transport that it refers to. -/
structure Tap where
  log : ℕ
  test : String

variable {σ ι : Type} [ITransport σ] {call : Call} {bus : σ} {h : Host} {tap : ι → Tap} {k : ℕ} {i : ι}

namespace Tap

def on (tap : Tap) (call : Call) (bus : σ) (h : Host) : Reply × σ × Host :=
  let r := call.on (⟨bus, tap.log, tap.test⟩ : LoggedTransport σ) h
  (r.1, r.2.1.inner, r.2.2)

/- The calls, each through its own tap, with what they gave back. -/
def session (tap : ι → Tap) (bus : σ) (h : Host) : List (ι × Call) → List (ι × Call × Reply) × σ × Host
  | [] => ([], bus, h)
  | (i, call) :: calls =>
    let r := (tap i).on call bus h
    let rest := session tap r.2.1 r.2.2 calls
    ((i, call, r.1) :: rest.1, rest.2)

/- What the log is to say of a call that has given back the reply. -/
def entry (tap : ι → Tap) (k : ℕ) (e : ι × Call × Reply) : Option (String × Op × BitVec 64 × BitVec 32) :=
  if (tap e.1).log = k then
    (e.2.1.recorded e.2.2).map fun value => ((tap e.1).test, e.2.1.op, e.2.1.address, value)
  else none

theorem on_eq (tap : Tap) (call : Call) (bus : σ) (h : Host) : tap.on call bus h =
    ((call.on bus h).1, (call.on bus h).2.1,
      match call.recorded (call.on bus h).1 with
      | some value => (call.on bus h).2.2.record tap.log call.op call.address value tap.test
      | none => (call.on bus h).2.2) := by
  rw [on, call.on_logged]
  rfl

end Tap

/-! ### The clock -/

/- A transport that only reads the clock, and not backwards. -/
def Punctual (σ : Type) [ITransport σ] : Prop :=
  ∀ (call : Call) (s : σ) (h : Host),
    (call.on s h).2.2.clock = h.clock ∧ h.readings ≤ (call.on s h).2.2.readings

theorem punctual_device : Punctual Device := by
  intro call d h
  rw [call.on_device]
  exact ⟨rfl, Nat.le_refl _⟩

theorem Punctual.protocol (hσ : Punctual σ) : Punctual (ProtocolTransport σ) := by
  intro call t h
  rw [call.on_protocol]
  exact hσ call t.backing h

theorem Punctual.logged (hσ : Punctual σ) : Punctual (LoggedTransport σ) := by
  intro call t h
  obtain ⟨hclock, hreadings⟩ := hσ call t.inner h
  rw [call.on_logged, LoggedTransport.forward]
  dsimp only
  split
  · exact ⟨hclock, Nat.le_succ_of_le hreadings⟩
  · exact ⟨hclock, hreadings⟩

theorem Stack.punctual (layers : List Layer) : Punctual (Stack layers) := by
  induction layers with
  | nil => exact punctual_device
  | cons layer layers ih =>
    cases layer with
    | protocol => exact ih.protocol
    | logged => exact ih.logged

/-! ### A session -/

def Transaction.told (r : Transaction) : String × Op × BitVec 64 × BitVec 32 :=
  (r.test, r.op, r.address, r.value)

/- What the log has more after a session than before it. -/
structure Recorded (tap : ι → Tap) (k : ℕ) (h h' : Host) (history : List (ι × Call × Reply))
    (records : List Transaction) (readings : List ℕ) : Prop where
  logs : h'.logs k = h.logs k ++ records
  told : records.map Transaction.told = history.filterMap (Tap.entry tap k)
  times : records.map Transaction.timestampNs = readings.map h.clock
  later : readings.Pairwise (· < ·)
  first : ∀ n ∈ readings, h.readings ≤ n

theorem tap_recorded (hσ : Punctual σ) (bus : σ) (hkeeps : KeepsLog bus k) (h : Host)
    (calls : List (ι × Call)) : ∃ records readings,
      Recorded tap k h (Tap.session tap bus h calls).2.2 (Tap.session tap bus h calls).1 records
        readings := by
  induction calls generalizing bus h with
  | nil => exact ⟨[], [], by simp [Tap.session], rfl, rfl, .nil, by simp⟩
  | cons e calls ih =>
    obtain ⟨i, call⟩ := e
    obtain ⟨hclock, hreadings⟩ := hσ call bus h
    have hlogs := hkeeps.kept call h
    have hnext : KeepsLog ((tap i).on call bus h).2.1 k := by
      rw [Tap.on_eq]
      exact hkeeps.next call h
    obtain ⟨records, readings, hrest⟩ :=
      ih ((tap i).on call bus h).2.1 hnext ((tap i).on call bus h).2.2
    rw [Tap.on_eq] at hrest
    simp only [Tap.session, Tap.on_eq]
    cases hr : call.recorded (call.on bus h).1 with
    | none =>
      simp only [hr] at hrest ⊢
      refine ⟨records, readings, hlogs ▸ hrest.logs, ?_, hclock ▸ hrest.times, hrest.later,
        fun n hn => hreadings.trans (hrest.first n hn)⟩
      rw [List.filterMap_cons_none (by simp [Tap.entry, hr])]
      exact hrest.told
    | some value =>
      simp only [hr] at hrest ⊢
      have hfirst : ∀ n ∈ readings, (call.on bus h).2.2.readings < n := fun n hn => hrest.first n hn
      by_cases hk : (tap i).log = k
      · subst hk
        refine ⟨⟨(call.on bus h).2.2.clock (call.on bus h).2.2.readings, call.op, call.address, value,
          (tap i).test⟩ :: records, (call.on bus h).2.2.readings :: readings, ?_, ?_, ?_,
          List.pairwise_cons.mpr ⟨hfirst, hrest.later⟩, ?_⟩
        · rw [hrest.logs, Host.record_logs, hlogs, List.append_assoc]
          rfl
        · have hentry : Tap.entry tap (tap i).log (i, call, (call.on bus h).1) =
              some ((tap i).test, call.op, call.address, value) := by simp [Tap.entry, hr]
          rw [List.filterMap_cons_some hentry, List.map_cons, hrest.told]
          rfl
        · rw [List.map_cons, List.map_cons, hrest.times, hclock]
          exact congrArg (_ :: List.map · readings) hclock
        · exact List.forall_mem_cons.mpr
            ⟨hreadings, fun n hn => hreadings.trans (Nat.le_of_lt (hfirst n hn))⟩
      · have hother : ((call.on bus h).2.2.record (tap i).log call.op call.address value
            (tap i).test).logs k = h.logs k := by
          rw [← hlogs]
          exact Host.record_logs_of_ne _ (Ne.symm hk) ..
        refine ⟨records, readings, hother ▸ hrest.logs, ?_, hclock ▸ hrest.times, hrest.later,
          fun n hn => hreadings.trans (Nat.le_of_lt (hfirst n hn))⟩
        rw [List.filterMap_cons_none (by simp [Tap.entry, hk])]
        exact hrest.told

theorem session_replies {view : σ → Device} (hσ : Transparent view) (bus : σ) (h : Host)
    (calls : List (ι × Call)) :
    (Tap.session tap bus h calls).1.map (fun e => e.2.2) =
      (view bus).replies (calls.map fun e => e.2.toOp) := by
  induction calls generalizing bus h with
  | nil => rfl
  | cons e calls ih =>
    obtain ⟨i, call⟩ := e
    obtain ⟨hreply, hview⟩ := hσ call bus h
    simp only [Tap.session, Tap.on_eq, List.map_cons]
    rw [ih, hview, hreply]
    rfl

/-- Whatever transports refer to it and however their calls interleave, a log has in
order what the calls through its own transports gave back, which is what the device gave,
at times that never go back. Under the name of a test that no other transport has stand
the calls of that test. -/
theorem shared_log (layers : List Layer) (bus : Stack layers) (h : Host) (tap : ι → Tap) (k : ℕ)
    (hlog : k ∉ Stack.logs layers bus) (calls : List (ι × Call)) :
    (Tap.session tap bus h calls).1.map (fun e => e.2.2) =
        (Stack.device layers bus).replies (calls.map fun e => e.2.toOp) ∧
      ∃ records, (Tap.session tap bus h calls).2.2.logs k = h.logs k ++ records ∧
        records.map Transaction.told =
          (Tap.session tap bus h calls).1.filterMap (Tap.entry tap k) ∧
        ((∀ m n, m ≤ n → h.clock m ≤ h.clock n) →
          records.Pairwise fun r r' => r.timestampNs ≤ r'.timestampNs) ∧
        ∀ test, (records.filter fun r => r.test = test).map Transaction.told =
          ((Tap.session tap bus h calls).1.filter fun e => (tap e.1).test = test).filterMap
            (Tap.entry tap k) := by
  obtain ⟨records, readings, hlog⟩ :=
    tap_recorded (Stack.punctual layers) bus (Stack.keepsLog hlog) h calls
  refine ⟨session_replies (Stack.transparent layers) bus h calls, records, hlog.logs, hlog.told,
    fun hclock => ?_, fun test => ?_⟩
  · rw [← List.pairwise_map, hlog.times, List.pairwise_map]
    exact hlog.later.imp fun hlt => hclock _ _ (Nat.le_of_lt hlt)
  · have hentry : ∀ e, (Tap.entry tap k e).filter (fun x => decide (x.1 = test)) =
        if decide ((tap e.1).test = test) = true then Tap.entry tap k e else none := by
      intro e
      unfold Tap.entry
      by_cases hk : (tap e.1).log = k
      · by_cases htest : (tap e.1).test = test
        · cases e.2.1.recorded e.2.2 <;> simp [hk, htest]
        · cases e.2.1.recorded e.2.2 <;> simp [hk, htest]
      · simp [hk]
    have hfilter : (records.filter fun r => r.test = test).map Transaction.told =
        (records.map Transaction.told).filter fun x => x.1 = test := by
      rw [List.filter_map]
      rfl
    rw [hfilter, hlog.told, List.filter_filterMap, List.filterMap_filter]
    exact congrArg (fun f => List.filterMap f _) (funext hentry)

/- Two tests on one device, each with a transport of its own. -/
def twoTaps (i : Bool) : Tap := ⟨0, if i then "dma" else "irq"⟩

def crossedCalls : List (Bool × Call) :=
  [(true, .write32 Device.kDmaCtrl 1), (false, .read32 Device.kDmaIrq), (true, .read32 Device.kDmaStatus)]

theorem shared_log_two : ∃ records : List Transaction,
    (Tap.session (σ := Stack []) twoTaps Device.fresh freshHost crossedCalls).2.2.logs 0 = records ∧
      (records.filter fun r => r.test = "dma").map Transaction.told =
        [("dma", .write32, Device.kDmaCtrl, 1), ("dma", .read32, Device.kDmaStatus, 2)] := by
  obtain ⟨-, records, hlogs, -, -, htests⟩ :=
    shared_log [] Device.fresh freshHost twoTaps 0 List.not_mem_nil crossedCalls
  refine ⟨records, hlogs, ?_⟩
  rw [htests "dma"]
  decide

end SocValidation.Transport
