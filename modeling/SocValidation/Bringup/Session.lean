import SocValidation.Bringup.Polling
import SocValidation.Regmap.Modify
import SocValidation.Sequencer.Serializable

/-!
# The bring-up session (dma_bringup.py)

Three tests in a chain share one logged bus: the reset values are checked, a transfer is
started, and its completion is waited for.
-/

namespace SocValidation.Bringup
open Transport Sequencer
open Regmap (Layout dmaCTRL goIndex runCalls statusIDLE statusBUSY)
open Device (Reply decoded kDmaCtrl kDmaStatus)

/-! ### The test bodies -/

/- `f"{raw:#x}"` -/
def formatHex (raw : BitVec 32) : String := "0x" ++ String.ofList (Nat.toDigits 16 raw.toNat)

/- A call that throws ends the body. -/
def orRaised (raised : String → String → String) (reply : Reply) (out : Option Thrown) : Option Thrown :=
  match reply.error with
  | some e => some (.exception (raised "TransportError" e.what))
  | none => out

def resetCheck (raised : String → String → String) (status : BitVec 32) : Option Thrown :=
  if statusIDLE.getter status ≠ 1 then
    some (.exception (raised "AssertionError"
      ("IDLE should be set out of reset, got " ++ formatHex status)))
  else if statusBUSY.getter status ≠ 0 then
    some (.exception (raised "AssertionError" "BUSY must be clear out of reset"))
  else none

def checkResetValues (raised : String → String → String) : Program Call Reply (Option Thrown) :=
  .call (.read32 kDmaStatus) fun reply =>
    .ret (orRaised raised reply (resetCheck raised (reply.words.headD 0)))

theorem burst_lt : 3 < dmaCTRL.fields.length := by decide

theorem channel_lt : 4 < dmaCTRL.fields.length := by decide

/- `ctrl.go = 1`, `ctrl.burst_len = 8`, `ctrl.channel = 2` -/
def transferFields : List (Regmap.Call dmaCTRL) :=
  [.set goIndex rfl 1, .set ⟨3, burst_lt⟩ rfl 8, .set ⟨4, channel_lt⟩ rfl 2]

def startTransfer (raised : String → String → String) : Program Call Reply (Option Thrown) :=
  .call (.write32 kDmaCtrl (runCalls dmaCTRL.kReset transferFields)) fun reply =>
    .ret (orRaised raised reply none)

/-! ### The suite -/

def bringupSuite : Sequencer where
  tests := [{ name := "reset_values" }, { name := "start_transfer", dependsOn := ["reset_values"] },
    { name := "wait_for_done", dependsOn := ["start_transfer"] }]
  name_ne_empty := by decide
  names_nodup := by decide

def bringupBody (raised : String → String → String) (n : String) : Program Call Reply (Option Thrown) :=
  if n = "reset_values" then checkResetValues raised
  else if n = "start_transfer" then startTransfer raised
  else if n = "wait_for_done" then waitForDone raised
  else .ret none

/- The closures of the three tests refer to the same `bus`. -/
def bringup (raised : String → String → String) : Bodies Unit Call Reply where
  script n f := if f = .body then (bringupBody raised n).onObject () else .ret none
  reach _ := {()}
  within n f := by
    split
    · exact Program.within_onObject _ _
    · trivial

/- `LoggedTransport(device, log)` over a new device with its latency set. -/
def bringupBus (latency : BitVec 64) : LoggedTransport Device × Host :=
  (⟨Device.fresh.run [.setTransferLatency latency], 0, "<none>"⟩, freshHost)

def bringupServe (_ : Unit) : Call → LoggedTransport Device × Host →
    Reply × (LoggedTransport Device × Host) := Call.served

theorem bringup_levels :
    bringupSuite.levels = .ok [["reset_values"], ["start_transfer"], ["wait_for_done"]] := by decide

/-! ### The tests on the device -/

variable {raised : String → String → String} {latency : BitVec 64}

/- The device as each test finds it. -/
def resetDevice (latency : BitVec 64) : Device := Device.fresh.run [.setTransferLatency latency]

def checkedDevice (latency : BitVec 64) : Device := (resetDevice latency).access (.read kDmaStatus)

def startedDevice (latency : BitVec 64) : Device :=
  (checkedDevice latency).access (.write kDmaCtrl 0x2081)

/- The reads of `wait_for_done`. -/
def transferReads (latency : BitVec 64) : ℕ := max ((2 + latency).toNat - 2) 1

/- As many as the latency but at least one; and one where the sum with the two ticks before
wraps. -/
theorem transferReads_eq (latency : BitVec 64) :
    transferReads latency = if latency.toNat < 2 ^ 64 - 2 then max latency.toNat 1 else 1 := by
  have hlt := latency.isLt
  unfold transferReads
  rw [BitVec.toNat_add, show (2 : BitVec 64).toNat = 2 from rfl]
  split
  · rw [Nat.mod_eq_of_lt (by omega)]
    omega
  · omega

theorem check_device : (checkResetValues raised).run Call.onDevice (resetDevice latency) =
    (none, checkedDevice latency) := by
  have hreset : Device.fresh.word kDmaStatus = 1 := by decide
  have hword : (resetDevice latency).tick.word kDmaStatus = 1 :=
    (polled_idle_word (d := resetDevice latency) rfl 0).trans hreset
  have hidle : statusIDLE.getter 1 = 1 := by decide
  have hbusy : statusBUSY.getter 1 = 0 := by decide
  have hcheck : resetCheck raised 1 = none := by
    rw [resetCheck, if_neg (not_not.mpr hidle), if_neg (not_not.mpr hbusy)]
  rw [checkResetValues, Program.run, onDevice_status, hword]
  simp only [Program.run, orRaised, List.headD_cons, hcheck]
  rfl

theorem start_device : (startTransfer raised).run Call.onDevice (checkedDevice latency) =
    (none, startedDevice latency) := by
  have hraw : runCalls dmaCTRL.kReset transferFields = 0x2081 := by decide
  obtain ⟨p, hp⟩ := Device.policyFor_of_decoded (show decoded kDmaCtrl = true by decide)
  have hwrite : Call.onDevice (.write32 kDmaCtrl 0x2081) (checkedDevice latency) =
      ({}, startedDevice latency) := by
    rw [Call.onDevice, Call.toOp, Device.apply, Device.write32_of_ok hp, startedDevice,
      Device.access_write hp]
  rw [startTransfer, hraw, Program.run, hwrite]
  rfl

theorem checked_fields (latency : BitVec 64) : (checkedDevice latency).ticks = 1 ∧
    (checkedDevice latency).latency = latency ∧ (checkedDevice latency).dmaRunning = false := by
  have hdec : decoded (Device.Access.read kDmaStatus).address = true := Regmap.decoded_status
  obtain ⟨hticks, hlatency, -, -⟩ := Device.access_fields (d := resetDevice latency) hdec
  refine ⟨hticks, hlatency, ?_⟩
  rw [checkedDevice, (Regmap.read_status _).2.2]
  rfl

theorem started_reads (latency : BitVec 64) : (startedDevice latency).ticks = 2 ∧
    readsToDone (startedDevice latency) = some (transferReads latency) := by
  obtain ⟨hticks, hlatency, hrunning⟩ := checked_fields latency
  have hready : (checkedDevice latency).tick.dmaRunning = false := by
    rw [Device.tick_fields.2.2.2, hrunning]
    rfl
  obtain ⟨hunder, hnow, hdone⟩ := Device.go_starts (v := 0x2081) hready (by decide)
  have hnow' : (startedDevice latency).ticks = 2 := by
    rw [startedDevice, Device.access, hnow, hticks]
    rfl
  have hdone' : (startedDevice latency).dmaDoneAt = 2 + latency := by
    rw [startedDevice, Device.access, hdone, hticks, hlatency]
    rfl
  have hstarted : (startedDevice latency).dmaRunning = true := hunder.running
  refine ⟨hnow', ?_⟩
  rw [readsToDone, hstarted, if_pos rfl, readsLeft, hstarted, hnow', hdone', Countdown.left, if_pos rfl]
  rfl

theorem started_reachable (latency : BitVec 64) : (startedDevice latency).Reachable :=
  reachable_access (reachable_access ⟨_, rfl⟩ Regmap.decoded_status) Device.decoded_ctrl

/-! ### The tests on the bus -/

/- The bus after a test, and what the test came to. -/
def afterTest (raised : String → String → String) (n : String) (bus : LoggedTransport Device × Host) :
    Option Thrown × LoggedTransport Device × Host := (bringupBody raised n).run Call.served bus

theorem whole_bringup {n : String} {t : TestCase} (ht : bringupSuite.findTest n = some t)
    (hsetup : t.setup = false) (hteardown : t.teardown = false)
    (s : (Unit → LoggedTransport Device × Host) × (String → Option (Option Thrown))) :
    (clients bringupSuite (bringup raised)).whole bringupServe s n =
      (fun _ => (afterTest raised n (s.1 ())).2,
        Function.update s.2 n (some (afterTest raised n (s.1 ())).1)) := by
  have hprogram : (clients bringupSuite (bringup raised)).program n =
      (bringupBody raised n).onObject () := clients_plain ht hsetup hteardown
  rw [Program.Clients.whole, hprogram, Program.run_onObject]
  refine Prod.ext (funext fun i => ?_) rfl
  exact Function.update_self (f := s.1) () _

/- A test body on a bus whose log is the first one. -/
theorem onBus {p : Program Call Reply (Option Thrown)} (bus : LoggedTransport Device × Host)
    {d : Device} {calls : List Call} (hinner : bus.1.inner = d) (hlog : bus.1.log = 0)
    (hcalls : p.calls Call.onDevice d = calls) :
    (p.run Call.served bus).1 = (p.run Call.onDevice d).1 ∧
      (p.run Call.served bus).2.1.inner = (p.run Call.onDevice d).2 ∧
      (p.run Call.served bus).2.1.log = 0 ∧
      (p.run Call.served bus).2.2.size 0 = bus.2.size 0 + calls.countP (fun call => call.Decodes) := by
  obtain ⟨hout, hview, -⟩ := transparent_device.logged.program p bus.1 bus.2
  obtain ⟨hkept, hsize⟩ := Stack.size_program [.logged] p bus.1 bus.2 0
  have hlogs : Stack.logs [.logged] bus.1 = [0] := congrArg (· :: []) hlog
  have hdevice : Stack.device [.logged] bus.1 = d := hinner
  rw [hlogs] at hkept hsize
  rw [hdevice, hcalls, List.count_singleton_self, Nat.one_mul] at hsize
  rw [hinner] at hout hview
  exact ⟨hout, hview, (List.cons.inj hkept).1, hsize⟩

def bringupSerial (raised : String → String → String) (latency : BitVec 64) :
    (Unit → LoggedTransport Device × Host) × (String → Option (Option Thrown)) :=
  serialRun bringupSuite (bringup raised) bringupServe (fun _ => bringupBus latency)
    [["reset_values"], ["start_transfer"], ["wait_for_done"]]

/- The session one test after another: what the tests come to, and the size of the log. -/
theorem bringup_serial (raised : String → String → String) (latency : BitVec 64) :
    (bringupSerial raised latency).2 "reset_values" = some none ∧
      (bringupSerial raised latency).2 "start_transfer" = some none ∧
      (bringupSerial raised latency).2 "wait_for_done" =
        some (if transferReads latency ≤ 50 then none else neverDone raised) ∧
      ((bringupSerial raised latency).1 ()).2.size 0 = 2 + min (transferReads latency) 50 := by
  obtain ⟨checked, hchecked⟩ : ∃ r, r = afterTest raised "reset_values" (bringupBus latency) := ⟨_, rfl⟩
  obtain ⟨started, hstarted⟩ : ∃ r, r = afterTest raised "start_transfer" checked.2 := ⟨_, rfl⟩
  obtain ⟨waited, hwaited⟩ : ∃ r, r = afterTest raised "wait_for_done" started.2 := ⟨_, rfl⟩
  have hserial : bringupSerial raised latency = (fun _ => waited.2,
      Function.update (Function.update (Function.update (fun _ => none) "reset_values"
        (some checked.1)) "start_transfer" (some started.1)) "wait_for_done" (some waited.1)) := by
    rw [hwaited, hstarted, hchecked, bringupSerial, serialRun, Program.Clients.serial]
    simp only [List.flatten_cons, List.flatten_nil, List.append_nil, List.cons_append,
      List.nil_append, List.foldl_cons, List.foldl_nil]
    rw [whole_bringup (n := "reset_values") rfl rfl rfl, whole_bringup (n := "start_transfer") rfl rfl rfl,
      whole_bringup (n := "wait_for_done") rfl rfl rfl]
  -- the three tests, each on the device that the one before has left
  obtain ⟨hout₁, hdevice₁, hlog₁, hsize₁⟩ := onBus (p := checkResetValues raised)
    (bringupBus latency) rfl rfl rfl
  have hinner : (bringupBus latency).1.inner = resetDevice latency := rfl
  rw [hinner, check_device] at hout₁ hdevice₁
  obtain ⟨hout₂, hdevice₂, hlog₂, hsize₂⟩ := onBus (p := startTransfer raised) _ hdevice₁ hlog₁ rfl
  rw [start_device] at hout₂ hdevice₂
  obtain ⟨hticks, hreads⟩ := started_reads latency
  obtain ⟨hrun, hcalls⟩ := waitForDone_device raised (started_reachable latency)
    (by rw [hticks]; decide)
  rw [hreads] at hrun hcalls
  obtain ⟨hout₃, -, -, hsize₃⟩ := onBus _ hdevice₂ hlog₂ hcalls
  have hread : (Call.read32 kDmaStatus).Decodes := Regmap.decoded_status
  rw [hsize₂, hsize₁, List.countP_replicate, if_pos (decide_eq_true hread)] at hsize₃
  rw [hrun] at hout₃
  have hchecked' : checked.1 = none := hchecked ▸ hout₁
  have hstarted' : started.1 = none := by rw [hstarted, hchecked]; exact hout₂
  have hwaited' : waited.1 = if transferReads latency ≤ 50 then none else neverDone raised := by
    rw [hwaited, hstarted, hchecked]
    simp only [Option.any_some, decide_eq_true_eq] at hout₃
    exact hout₃
  have hlog : waited.2.2.size 0 = 2 + min (transferReads latency) 50 := by
    rw [hwaited, hstarted, hchecked]
    exact hsize₃
  rw [hserial]
  refine ⟨?_, ?_, ?_, hlog⟩
  · simp [hchecked']
  · simp [hstarted']
  · simp [hwaited']

theorem bringup_ordered (raised : String → String → String) : Ordered bringupSuite (bringup raised) := by
  have hstart : bringupSuite.DependsOn "start_transfer" "reset_values" :=
    ⟨_, List.mem_cons_of_mem _ List.mem_cons_self, rfl, by decide⟩
  have hwait : bringupSuite.DependsOn "wait_for_done" "start_transfer" :=
    ⟨_, List.mem_cons_of_mem _ (List.mem_cons_of_mem _ List.mem_cons_self), rfl, by decide⟩
  have hnames : ∀ n ∈ bringupSuite.names, n = "reset_values" ∨ n = "start_transfer" ∨
      n = "wait_for_done" := by decide
  intro m hm n hn hne
  rcases hnames m hm with rfl | rfl | rfl <;> rcases hnames n hn with rfl | rfl | rfl
  · exact absurd rfl hne
  · exact Or.inr (Or.inr (.single hstart))
  · exact Or.inr (Or.inr (.tail (.single hwait) hstart))
  · exact Or.inr (Or.inl (.single hstart))
  · exact absurd rfl hne
  · exact Or.inr (Or.inr (.single hwait))
  · exact Or.inr (Or.inl (.tail (.single hwait) hstart))
  · exact Or.inr (Or.inl (.single hwait))
  · exact absurd rfl hne

/- A test that makes these calls and passes. -/
def passes (n : String) (calls : List Call) : List (Event (Unit × Call)) :=
  [.launch n, .act n .readBefore, .act n (.call .body)] ++
    calls.map (fun call => .act n (.use ((), call))) ++
    [.act n (.ret none), .act n (.ready none), .act n .join, .act n .readAfter, .collect n]

/- The script as it stands, with its latency of 6. -/
def scriptRun : List (Event (Unit × Call)) :=
  passes "reset_values" [.read32 kDmaStatus] ++ passes "start_transfer" [.write32 kDmaCtrl 0x2081] ++
    passes "wait_for_done" (List.replicate 6 (.read32 kDmaStatus))

def pythonText (kind message : String) : String := kind ++ ": " ++ message

theorem scriptRun_returns : (suiteTo bringupSuite (bringup pythonText) bringupServe 4 0
    (fun _ => bringupBus 6) scriptRun).map (fun st => st.run.prog) = some [] := by
  decide

end SocValidation.Bringup
