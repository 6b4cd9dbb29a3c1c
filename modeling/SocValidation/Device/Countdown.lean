import SocValidation.Device.Transfer
import SocValidation.Lib.Countdown

/-!
# The DMA engine as a countdown (emulated_device.cpp:43-52, 62-72, 96-101)

To software the engine is a timer: GO sets it to the latency when it is not running,
each access takes it down by one, and `Reset` stops it. The device keeps a counter of
64 bits and a deadline instead, and shows this timer as long as their sum fits.
-/

namespace SocValidation.Device

variable {d : Device} {acc : Access} {e : Effect} {es : List Effect}

/- What the timer is for; natural numbers, and no deadline. -/
structure Timer where
  latency : ℕ
  accesses : ℕ
  job : Option ℕ
  deriving DecidableEq, Repr

namespace Timer

def fresh : Timer := ⟨8, 0, none⟩

def effect (t : Timer) : Effect → Timer
  | .access acc =>
    { t with
      accesses := t.accesses + 1
      job := Countdown.step t.job (if acc.go then some t.latency else none) }
  | .reset => { t with accesses := 0, job := none }
  | .latency ticks => { t with latency := ticks.toNat }

end Timer

variable {t : Timer}

structure Tracks (t : Timer) (d : Device) : Prop where
  latency : d.latency.toNat = t.latency
  accesses : d.ticks.toNat = t.accesses
  job : Countdown.left d.ticks.toNat d.dmaDoneAt.toNat d.dmaRunning = t.job

/-! ### One step -/

theorem Tracks.running (h : Tracks t d) : d.dmaRunning = t.job.isSome := by
  rw [← h.job, Countdown.left_isSome]

theorem ticks_succ (hfit : d.ticks.toNat + 1 < 2 ^ 64) : (d.ticks + 1).toNat = d.ticks.toNat + 1 := by
  rw [BitVec.toNat_add]
  exact Nat.mod_eq_of_lt hfit

theorem due_iff_le (hfit : d.ticks.toNat + 1 < 2 ^ 64) :
    d.due ↔ d.dmaRunning = true ∧ d.dmaDoneAt.toNat ≤ d.ticks.toNat + 1 := by
  have hle : d.dmaDoneAt ≤ d.ticks + 1 ↔ d.dmaDoneAt.toNat ≤ (d.ticks + 1).toNat := Iff.rfl
  rw [due, hle, ticks_succ hfit]

/- The next access completes the transfer when the timer has one access left. -/
theorem Tracks.due_iff (h : Tracks t d) (hfit : t.accesses + 1 < 2 ^ 64) : d.due ↔ t.job = some 1 := by
  rw [← h.accesses] at hfit
  rw [due_iff_le hfit, ← h.job, Countdown.left_eq_one_iff]

/- The deadline must fit only where a transfer may start. -/
theorem Tracks.access (h : Tracks t d) (hdec : decoded acc.address = true)
    (hfit : t.accesses + 1 < 2 ^ 64) (hgoFit : acc.go → t.accesses + 1 + t.latency < 2 ^ 64) :
    Tracks (t.effect (.access acc)) (d.access acc) := by
  have hcount : d.ticks.toNat + 1 < 2 ^ 64 := by
    rw [h.accesses]
    exact hfit
  obtain ⟨hticks, hlatency, hdone, hrunning⟩ := access_fields (d := d) hdec
  have htick : d.tick.dmaRunning =
      (d.dmaRunning && !decide (d.dmaDoneAt.toNat ≤ d.ticks.toNat + 1)) := by
    rw [tick_fields.2.2.2, Bool.eq_iff_iff]
    simp only [Bool.and_eq_true, Bool.not_eq_true', decide_eq_false_iff_not, due_iff_le hcount]
    tauto
  have hjob : Countdown.tick t.job =
      Countdown.left (d.ticks + 1).toNat d.dmaDoneAt.toNat d.tick.dmaRunning := by
    rw [← h.job, Countdown.tick_left, ← htick, ticks_succ hcount]
  refine ⟨?_, ?_, ?_⟩
  · rw [hlatency]
    exact h.latency
  · rw [hticks, ticks_succ hcount, h.accesses]
    rfl
  · change Countdown.left _ _ _ = Countdown.step t.job (if acc.go then some t.latency else none)
    rw [hticks, hdone, hrunning, Countdown.step, hjob]
    cases hr : d.tick.dmaRunning with
    | true => simp [Countdown.left]
    | false =>
      by_cases hgo : acc.go
      · have hsum : (d.ticks + 1 + d.latency).toNat = (d.ticks + 1).toNat + t.latency := by
          rw [BitVec.toNat_add, ticks_succ hcount, h.latency, h.accesses]
          exact Nat.mod_eq_of_lt (hgoFit hgo)
        rw [if_pos ⟨hgo, rfl⟩, decide_eq_true hgo, Bool.false_or, hsum, Countdown.left_start, if_pos hgo]
        rfl
      · rw [decide_eq_false hgo, Bool.or_false, if_neg hgo]
        rfl

theorem Tracks.reset (h : Tracks t d) : Tracks (t.effect .reset) d.reset := ⟨h.latency, rfl, rfl⟩

theorem Tracks.setLatency (h : Tracks t d) (ticks : BitVec 64) :
    Tracks (t.effect (.latency ticks)) { d with latency := ticks } := ⟨rfl, h.accesses, h.job⟩

/-! ### Runs -/

/- Each latency that is set, and the first one, fits above all the accesses. -/
structure Fits (bound : ℕ) (es : List Effect) : Prop where
  first : 8 ≤ bound
  later : ∀ ticks, .latency ticks ∈ es → ticks.toNat ≤ bound
  sum : accessCount es + bound < 2 ^ 64

theorem Fits.init {bound : ℕ} (h : Fits bound (es ++ [e])) : Fits bound es := by
  refine ⟨h.first, fun ticks hmem => h.later ticks (List.mem_append_left _ hmem), ?_⟩
  have hsum := h.sum
  rw [accessCount_concat] at hsum
  omega

theorem Fits.timer {bound : ℕ} (h : Fits bound es) :
    (es.foldl Timer.effect Timer.fresh).latency ≤ bound ∧
      (es.foldl Timer.effect Timer.fresh).accesses ≤ accessCount es := by
  induction es using List.reverseRecOn with
  | nil => exact ⟨h.first, Nat.le_refl _⟩
  | append_singleton es e ih =>
    obtain ⟨hlatency, haccesses⟩ := ih h.init
    rw [List.foldl_append, List.foldl_cons, List.foldl_nil, accessCount_concat]
    cases e with
    | access acc => exact ⟨hlatency, Nat.succ_le_succ haccesses⟩
    | reset => exact ⟨hlatency, Nat.zero_le _⟩
    | latency ticks => exact ⟨h.later ticks (by simp), haccesses⟩

theorem tracks_run {bound : ℕ} (h : Fits bound es)
    (hdec : ∀ acc, .access acc ∈ es → decoded acc.address = true) :
    Tracks (es.foldl Timer.effect Timer.fresh) (es.foldl effect fresh) := by
  induction es using List.reverseRecOn with
  | nil => exact ⟨rfl, rfl, rfl⟩
  | append_singleton es e ih =>
    have hprev := ih h.init fun acc hacc => hdec acc (List.mem_append_left _ hacc)
    obtain ⟨hlatency, haccesses⟩ := h.init.timer
    have hsum := h.sum
    rw [accessCount_concat] at hsum
    rw [List.foldl_append, List.foldl_append]
    cases e with
    | access acc =>
      change accessCount es + 1 + bound < 2 ^ 64 at hsum
      exact hprev.access (hdec acc (by simp)) (by omega) fun _ => by omega
    | reset => exact hprev.reset
    | latency ticks => exact hprev.setLatency ticks

/-- While the accesses of a run and every latency in it fit 64 bits together, the device
shows a timer of natural numbers after each single access: the same count of accesses,
a transfer running just when the timer runs, and completed by the next access just when
the timer has one left. -/
theorem countdown_refines (ops : List Op) (bound : ℕ) (hfit : Fits bound (ops.flatMap Op.effects))
    (pre post : List Effect) (hsplit : ops.flatMap Op.effects = pre ++ post) :
    (pre.foldl effect fresh).ticks.toNat = (pre.foldl Timer.effect Timer.fresh).accesses ∧
      (pre.foldl effect fresh).dmaRunning = (pre.foldl Timer.effect Timer.fresh).job.isSome ∧
      ((pre.foldl effect fresh).due ↔ (pre.foldl Timer.effect Timer.fresh).job = some 1) := by
  have hpre : Fits bound pre := by
    have hsum := hfit.sum
    refine ⟨hfit.first, fun ticks hmem => hfit.later ticks ?_, ?_⟩
    · rw [hsplit]
      exact List.mem_append_left _ hmem
    · rw [hsplit, accessCount, List.countP_append] at hsum
      exact Nat.lt_of_le_of_lt (by unfold accessCount; omega) hsum
  have htracks := tracks_run hpre fun acc hacc => by
    have hmem : .access acc ∈ ops.flatMap Op.effects := by
      rw [hsplit]
      exact List.mem_append_left _ hacc
    exact effects_decoded hmem
  refine ⟨htracks.accesses, htracks.running, htracks.due_iff ?_⟩
  obtain ⟨-, haccesses⟩ := hpre.timer
  have hsum := hpre.sum
  have hfirst := hpre.first
  omega

/- The largest latency that fits, and a transfer that runs for it. -/
theorem countdown_refines_long :
    ((Device.fresh.run [.setTransferLatency (BitVec.allOnes 64 - 8), .write32 kDmaCtrl 1]).ticks.toNat = 1 ∧
      (Device.fresh.run [.setTransferLatency (BitVec.allOnes 64 - 8), .write32 kDmaCtrl 1]).dmaRunning =
        true) := by
  have hfit : Fits (2 ^ 64 - 9) (([.setTransferLatency (BitVec.allOnes 64 - 8),
      .write32 kDmaCtrl 1] : List Op).flatMap Op.effects) := by
    have heffects : ([.setTransferLatency (BitVec.allOnes 64 - 8), .write32 kDmaCtrl 1] :
        List Op).flatMap Op.effects =
        [.latency (BitVec.allOnes 64 - 8), .access (.write kDmaCtrl 1)] := by decide
    rw [heffects]
    refine ⟨by decide, fun ticks hmem => ?_, by decide⟩
    obtain rfl : ticks = BitVec.allOnes 64 - 8 := by simpa using hmem
    decide
  obtain ⟨hticks, hrunning, -⟩ := countdown_refines _ _ hfit
    (([.setTransferLatency (BitVec.allOnes 64 - 8), .write32 kDmaCtrl 1] : List Op).flatMap Op.effects)
    [] (List.append_nil _).symm
  rw [run_effects]
  exact ⟨hticks.trans (by decide), hrunning.trans (by decide)⟩

end SocValidation.Device
