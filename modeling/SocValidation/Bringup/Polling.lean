import SocValidation.Device.Countdown
import SocValidation.Regmap.FieldReads
import SocValidation.Sequencer.Run
import SocValidation.Transport.Programs

/-!
# Polling STATUS for DONE (dma_bringup.py:38-47, bench_main.cpp:43-47)

A loop reads STATUS until it reads DONE, at most so many times. The poll that completes
the transfer is the one that brings it its last tick: the loops make one read a tick,
and none after.
-/

namespace SocValidation.Bringup
open Transport
open Sequencer (Thrown)
open Regmap (polled statusIDLE statusBUSY statusDONE)
open Device (Reply completed decoded kDmaStatus kDmaXferLen kStatusBusy Timer Tracks)

variable {d : Device} {n j limit : ℕ}

/-! ### STATUS while a transfer runs -/

/- The reads that a running transfer still takes, the one that completes it included. -/
def readsLeft (d : Device) : Option ℕ := Countdown.left d.ticks.toNat d.dmaDoneAt.toNat d.dmaRunning

theorem readsLeft_pos (h : readsLeft d = some n) : 0 < n := by
  unfold readsLeft Countdown.left at h
  split at h
  · obtain rfl := Option.some.inj h
    omega
  · cases h

theorem polled_concat (d : Device) (j : ℕ) : polled d (j + 1) = (polled d j).access (.read kDmaStatus) := by
  rw [polled, List.replicate_succ', List.foldl_append]
  rfl

theorem polled_tracks (hfit : d.ticks.toNat + j < 2 ^ 64) :
    Tracks ⟨d.latency.toNat, d.ticks.toNat + j,
      (List.replicate j none).foldl Countdown.step (readsLeft d)⟩ (polled d j) := by
  induction j with
  | zero => exact ⟨rfl, rfl, rfl⟩
  | succ j ih =>
    have hprev := ih (by omega)
    rw [polled_concat, List.replicate_succ', List.foldl_append]
    have hdec : decoded (Device.Access.read kDmaStatus).address = true := Regmap.decoded_status
    exact hprev.access hdec hfit fun hgo => absurd hgo id

theorem reachable_access {acc : Device.Access} (h : d.Reachable) (hdec : decoded acc.address = true) :
    (d.access acc).Reachable := by
  obtain ⟨ops, rfl⟩ := h
  cases acc with
  | read a =>
    have hread : decoded a = true := hdec
    refine ⟨ops ++ [.read32 a], ?_⟩
    rw [Device.run_append, Device.access_read hread]
    simp only [Device.run, List.foldl_cons, List.foldl_nil, Device.apply, Device.read32_of_decoded hread]
  | write a v =>
    have hwrite : decoded a = true := hdec
    obtain ⟨p, hp⟩ := Device.policyFor_of_decoded hwrite
    refine ⟨ops ++ [.write32 a v], ?_⟩
    rw [Device.run_append, Device.access_write hp]
    simp only [Device.run, List.foldl_cons, List.foldl_nil, Device.apply, Device.write32_of_ok hp]

theorem polled_reachable (h : d.Reachable) (j : ℕ) : (polled d j).Reachable := by
  induction j with
  | zero => exact h
  | succ j ih =>
    rw [polled_concat]
    exact reachable_access ih Regmap.decoded_status

/- What the read number `j` brings, counted from 0. -/
theorem polled_word (hreach : d.Reachable) (hleft : readsLeft d = some n) (hj : j < n)
    (hfit : d.ticks.toNat + j + 1 < 2 ^ 64) : (polled d j).tick.word kDmaStatus =
      if j + 1 = n then completed ((polled d j).word kDmaXferLen) else kStatusBusy := by
  have htracks := polled_tracks (d := d) (j := j) (by omega)
  rw [hleft, Countdown.left_after (by rw [List.length_replicate]; exact hj),
    List.length_replicate] at htracks
  have hdue := htracks.due_iff hfit
  have hrunning := htracks.running
  obtain ⟨phase, hstatus, hphase⟩ := (Device.reachable_inv (polled_reachable hreach j)).phase
  have hirq : kDmaStatus ≠ Device.kDmaIrq := by decide
  rw [Device.word_tick, if_neg hirq, if_pos rfl]
  by_cases hlast : j + 1 = n
  · have hone : n - j = 1 := by omega
    rw [if_pos (hdue.mpr (congrArg some hone)), if_pos hlast]
  · have hmore : ¬(polled d j).due := fun hc => hlast (by
      have heq : some (n - j) = some 1 := hdue.mp hc
      have hone := Option.some.inj heq
      omega)
    rw [if_neg hmore, if_neg hlast, hstatus, hphase.mp hrunning]
    rfl

/- With no transfer running a read brings what STATUS holds. -/
theorem polled_idle_word (hidle : d.dmaRunning = false) (j : ℕ) :
    (polled d j).tick.word kDmaStatus = d.word kDmaStatus := by
  have hirq : kDmaStatus ≠ Device.kDmaIrq := by decide
  induction j with
  | zero =>
    have hdue : ¬d.due := fun hc => by
      rw [hc.1] at hidle
      cases hidle
    change d.tick.word kDmaStatus = _
    rw [Device.word_tick, if_neg hirq, if_pos rfl, if_neg hdue]
  | succ j ih =>
    have hdue := Regmap.polled_idle hidle (j + 1)
    rw [Device.word_tick, if_neg hirq, if_pos rfl, if_neg hdue, polled_concat,
      Device.word_read Regmap.decoded_status, ih]

/-! ### A loop -/

section Loop
variable {ε : Type} {decides : Reply → Option ε} {out : ε}

theorem onDevice_status (d : Device) : Call.onDevice (.read32 kDmaStatus) d =
    ({ words := [d.tick.word kDmaStatus] }, d.access (.read kDmaStatus)) := by
  rw [Call.onDevice, Call.toOp, Device.access_read Regmap.decoded_status, Device.apply,
    Device.read32_of_decoded Regmap.decoded_status]

/-- A loop that goes on over the busy word and ends at a completed one, while a transfer
runs: it makes a read a tick and sees the transfer complete if it has enough reads. -/
theorem poll_running (late : ε) (hbusy : decides { words := [kStatusBusy] } = none)
    (hdone : ∀ xferLen, decides { words := [completed xferLen] } = some out) (hreach : d.Reachable)
    (hleft : readsLeft d = some n) (hfit : d.ticks.toNat + limit < 2 ^ 64) :
    ((Program.poll (.read32 kDmaStatus) decides late limit).run Call.onDevice d).1 =
        (if n ≤ limit then out else late) ∧
      (Program.poll (.read32 kDmaStatus) decides late limit).calls Call.onDevice d =
        List.replicate (min n limit) (.read32 kDmaStatus) := by
  have hnext : ∀ j, (Call.onDevice (.read32 kDmaStatus) (polled d j)).2 = polled d (j + 1) := fun j => by
    rw [onDevice_status, polled_concat]
  have hmiss : ∀ j, j + 1 < n → j < limit →
      decides (Call.onDevice (.read32 kDmaStatus) (polled d j)).1 = none := fun j hj hlimit => by
    rw [onDevice_status, polled_word hreach hleft (by omega) (by omega), if_neg (by omega)]
    exact hbusy
  by_cases hn : n ≤ limit
  · obtain ⟨m, rfl⟩ : ∃ m, n = m + 1 := ⟨n - 1, by have := readsLeft_pos hleft; omega⟩
    have hhit : decides (Call.onDevice (.read32 kDmaStatus) (polled d m)).1 = some out := by
      rw [onDevice_status, polled_word hreach hleft (by omega) (by omega), if_pos rfl]
      exact hdone _
    obtain ⟨hrun, hcalls⟩ := Program.poll_decided late hnext hn
      (fun j hj => hmiss j (by omega) (by omega)) hhit
    have hstart : polled d 0 = d := rfl
    rw [hstart] at hrun hcalls
    rw [hrun, hcalls, if_pos hn, Nat.min_eq_left hn]
    exact ⟨rfl, rfl⟩
  · obtain ⟨hrun, hcalls⟩ := Program.poll_late late hnext fun j hj => hmiss j (by omega) hj
    have hstart : polled d 0 = d := rfl
    rw [hstart] at hrun hcalls
    rw [hrun, hcalls, if_neg hn, Nat.min_eq_right (by omega)]
    exact ⟨rfl, rfl⟩

end Loop

/-! ### wait_for_done -/

/- What the reply to a poll decides. `raised kind message` is the text that the binding
makes of a Python exception. -/
def doneYet (raised : String → String → String) (reply : Reply) : Option (Option Thrown) :=
  match reply.error with
  | some e => some (some (.exception (raised "TransportError" e.what)))
  | none =>
    let status := reply.words.headD 0
    if statusDONE.getter status ≠ 0 then
      some (if statusBUSY.getter status = 0 then none
        else some (.exception (raised "AssertionError" "DONE and BUSY must not both be set")))
    else none

def neverDone (raised : String → String → String) : Option Thrown :=
  some (.exception (raised "AssertionError" "transfer never reported DONE"))

def waitForDone (raised : String → String → String) : Program Call Reply (Option Thrown) :=
  .poll (.read32 kDmaStatus) (doneYet raised) (neverDone raised) 50

/- A word of the device is never both DONE and BUSY. -/
theorem doneYet_phase (raised : String → String → String) (phase : Device.Phase) :
    doneYet raised { words := [phase.word] } =
      if statusDONE.getter phase.word = 0 then none else some none := by
  have hword : doneYet raised { words := [phase.word] } =
      if statusDONE.getter phase.word ≠ 0 then
        some (if statusBUSY.getter phase.word = 0 then none
          else some (.exception (raised "AssertionError" "DONE and BUSY must not both be set")))
      else none := rfl
  rw [hword]
  rcases statusDONE.getter_bit phase.word rfl with hzero | hone
  · rw [if_neg (not_not.mpr hzero), if_pos hzero]
  · have hset : statusDONE.getter phase.word ≠ 0 := by
      rw [hone]
      decide
    rw [if_pos hset, if_neg hset]
    obtain ⟨beats, rfl⟩ := Device.done_iff.mp hone
    rcases statusBUSY.getter_bit (Device.Phase.done beats).word rfl with hbit | hbit
    · rw [if_pos hbit]
    · cases Device.busy_iff.mp hbit

/- The reads after which DONE is read, if it ever is. -/
def readsToDone (d : Device) : Option ℕ :=
  if d.dmaRunning then readsLeft d
  else if statusDONE.getter (d.word kDmaStatus) = 0 then none else some 1

theorem waitForDone_device (raised : String → String → String) (hreach : d.Reachable)
    (hfit : d.ticks.toNat + 50 < 2 ^ 64) :
    ((waitForDone raised).run Call.onDevice d).1 =
        (if (readsToDone d).any (fun n => n ≤ 50) then none else neverDone raised) ∧
      (waitForDone raised).calls Call.onDevice d =
        List.replicate (min ((readsToDone d).getD 50) 50) (.read32 kDmaStatus) := by
  cases hrunning : d.dmaRunning with
  | true =>
    obtain ⟨n, hn⟩ : ∃ n, readsLeft d = some n := by
      rw [readsLeft, hrunning]
      exact ⟨_, rfl⟩
    have hreads : readsToDone d = some n := by rw [readsToDone, hrunning, if_pos rfl, hn]
    rw [hreads]
    have hbusy : doneYet raised { words := [kStatusBusy] } = none :=
      (doneYet_phase raised .busy).trans (if_pos (by decide))
    have hdone : ∀ xferLen, doneYet raised { words := [completed xferLen] } = some none := by
      intro xferLen
      rw [Device.completed_word, doneYet_phase, Device.done_iff.mpr ⟨_, rfl⟩]
      rfl
    obtain ⟨hrun, hcalls⟩ := poll_running (neverDone raised) hbusy hdone hreach hn hfit
    rw [waitForDone, hrun, hcalls]
    simp
  | false =>
    obtain ⟨phase, hstatus, hphase⟩ := (Device.reachable_inv hreach).phase
    have hreads : readsToDone d =
        if statusDONE.getter (d.word kDmaStatus) = 0 then none else some 1 := by
      rw [readsToDone, hrunning]
      rfl
    have hreply : ∀ j, doneYet raised (Call.onDevice (.read32 kDmaStatus) (polled d j)).1 =
        doneYet raised { words := [phase.word] } := fun j => by
      rw [onDevice_status, polled_idle_word hrunning, hstatus]
    have hnext : ∀ j, (Call.onDevice (.read32 kDmaStatus) (polled d j)).2 = polled d (j + 1) := fun j => by
      rw [onDevice_status, polled_concat]
    by_cases hdone : statusDONE.getter phase.word = 0
    · have hnone : ∀ j < 50, doneYet raised (Call.onDevice (.read32 kDmaStatus) (polled d j)).1 = none :=
        fun j _ => by rw [hreply, doneYet_phase, if_pos hdone]
      obtain ⟨hrun, hcalls⟩ := Program.poll_late (neverDone raised) hnext hnone
      rw [hreads, hstatus, if_pos hdone]
      exact ⟨congrArg Prod.fst hrun, hcalls⟩
    · have hsome : doneYet raised (Call.onDevice (.read32 kDmaStatus) (polled d 0)).1 = some none := by
        rw [hreply, doneYet_phase, if_neg hdone]
      obtain ⟨hrun, hcalls⟩ := Program.poll_decided (neverDone raised) hnext (n := 50) (by decide)
        (fun j hj => absurd hj (Nat.not_lt_zero j)) hsome
      rw [hreads, hstatus, if_neg hdone]
      exact ⟨congrArg Prod.fst hrun, hcalls⟩

/-- Over every stack `wait_for_done` returns if the transfer that runs completes within 50
reads, or DONE was set and nothing runs, and else raises that DONE was never reported; it
never sees DONE and BUSY together. It stops reading at the first DONE. -/
theorem wait_for_done (raised : String → String → String) (layers : List Layer) (s : Stack layers)
    (h : Host) (hreach : (Stack.device layers s).Reachable)
    (hfit : (Stack.device layers s).ticks.toNat + 50 < 2 ^ 64) :
    ((waitForDone raised).run Call.served (s, h)).1 =
        (if (readsToDone (Stack.device layers s)).any (fun n => n ≤ 50) then none
          else neverDone raised) ∧
      (waitForDone raised).calls Call.served (s, h) =
        List.replicate (min ((readsToDone (Stack.device layers s)).getD 50) 50)
          (.read32 kDmaStatus) := by
  obtain ⟨hout, -, hcalls⟩ := (Stack.transparent layers).program (waitForDone raised) s h
  obtain ⟨hrun, hreads⟩ := waitForDone_device raised hreach hfit
  exact ⟨hout.trans hrun, hcalls.trans hreads⟩

/- A latency of 60 is too much for the loop. -/
theorem wait_for_done_late :
    ((waitForDone fun kind message => kind ++ ": " ++ message).run Call.served
      ((jtagTransport (Device.fresh.run [.setTransferLatency 60, .write32 Device.kDmaCtrl 1]) :
        Stack [.protocol]), freshHost)).1 =
      some (.exception "AssertionError: transfer never reported DONE") :=
  (wait_for_done _ [.protocol] _ freshHost ⟨_, rfl⟩ (by decide)).1

end SocValidation.Bringup
