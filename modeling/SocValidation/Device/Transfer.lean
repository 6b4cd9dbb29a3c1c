import SocValidation.Device.Invariant

/-!
# How long a transfer takes (Tick, Write32, set_transfer_latency)

The write that starts a transfer puts the deadline `latency_` ticks ahead of the
counter, and every access that succeeds moves the counter by one. The sum is taken
modulo 2^64: a deadline that wraps lies behind the counter already.
-/

namespace SocValidation.Device
open Regmap

variable {d start : Device} {acc : Access} {e : Effect} {es : List Effect} {ops : List Op}
variable {v : BitVec 32} {k : ℕ}

def Effect.isAccess : Effect → Bool
  | .access _ => true
  | .reset => false
  | .latency _ => false

def accessCount (es : List Effect) : ℕ := es.countP Effect.isAccess

theorem accessCount_concat : accessCount (es ++ [e]) = accessCount es + if e.isAccess then 1 else 0 := by
  simp [accessCount, List.countP_append, List.countP_singleton]

/-! ### A transfer under way -/

/- `d` is `k` accesses after `start`, and the transfer of `start` still runs. -/
structure Underway (start : Device) (k : ℕ) (d : Device) : Prop where
  ticks : d.ticks.toNat = start.ticks.toNat + k
  running : d.dmaRunning = true
  doneAt : d.dmaDoneAt = start.dmaDoneAt
  status : d.word kDmaStatus = kStatusBusy

theorem Underway.due_iff (hu : Underway start k d) (hk : start.ticks.toNat + k + 1 < 2 ^ 64) :
    d.due ↔ start.dmaDoneAt.toNat ≤ start.ticks.toNat + k + 1 := by
  have hnext : (d.ticks + 1).toNat = start.ticks.toNat + k + 1 := by
    rw [BitVec.toNat_add, hu.ticks]
    exact Nat.mod_eq_of_lt hk
  have hle : d.dmaDoneAt ≤ d.ticks + 1 ↔ d.dmaDoneAt.toNat ≤ (d.ticks + 1).toNat := Iff.rfl
  rw [due, hle, hnext, hu.doneAt]
  exact and_iff_right hu.running

theorem Underway.access (hu : Underway start k d) (hk : start.ticks.toNat + k + 1 < 2 ^ 64)
    (hdue : ¬d.due) (hdec : decoded acc.address = true) : Underway start (k + 1) (d.access acc) := by
  obtain ⟨hticks, -, hdone, hrunning⟩ := access_fields (d := d) hdec
  have htick : d.tick.dmaRunning = true := by
    rw [tick_fields.2.2.2, hu.running, decide_eq_false hdue]
    rfl
  have hbusy : ¬(acc.go ∧ d.tick.dmaRunning = false) := by
    rw [htick]
    exact fun hc => absurd hc.2 (by decide)
  constructor
  case ticks =>
    rw [hticks, BitVec.toNat_add, hu.ticks]
    exact Nat.mod_eq_of_lt hk
  case running =>
    rw [hrunning, htick]
    rfl
  case doneAt =>
    rw [hdone, if_neg hbusy]
    exact hu.doneAt
  case status =>
    rw [word_status hdec, if_neg hbusy, word_tick, if_neg hdue]
    exact hu.status

/- Up to the deadline nothing that can happen, a reset apart, ends the transfer. -/
theorem underway_run (h0 : Underway start 0 start) (hreset : Effect.reset ∉ es)
    (hdec : ∀ acc, .access acc ∈ es → decoded acc.address = true)
    (hticks : start.ticks.toNat + accessCount es < 2 ^ 64)
    (hearly : accessCount es = 0 ∨ start.ticks.toNat + accessCount es < start.dmaDoneAt.toNat) :
    Underway start (accessCount es) (es.foldl effect start) := by
  induction es using List.reverseRecOn with
  | nil => exact h0
  | append_singleton es e ih =>
    rw [accessCount_concat] at hticks hearly ⊢
    rw [List.foldl_append, List.foldl_cons, List.foldl_nil]
    have hu : Underway start (accessCount es) (es.foldl effect start) := by
      apply ih
      · exact fun hr => hreset (List.mem_append_left _ hr)
      · exact fun acc ha => hdec acc (List.mem_append_left _ ha)
      · omega
      · omega
    cases e with
    | access acc =>
      simp only [Effect.isAccess, if_true] at hticks hearly ⊢
      have hdue : ¬(es.foldl effect start).due := by
        rw [hu.due_iff hticks]
        omega
      exact hu.access hticks hdue (hdec acc (by simp))
    | reset => exact absurd (List.mem_append_right es (List.mem_singleton_self _)) hreset
    | latency ticks => exact ⟨hu.ticks, hu.running, hu.doneAt, hu.status⟩

/-! ### From the write of GO -/

theorem go_starts (hready : d.tick.dmaRunning = false) (hgo : v &&& kCtrlGo ≠ 0) :
    Underway (d.write32 kDmaCtrl v).2 0 (d.write32 kDmaCtrl v).2 ∧
      (d.write32 kDmaCtrl v).2.ticks = d.ticks + 1 ∧
      (d.write32 kDmaCtrl v).2.dmaDoneAt = d.ticks + 1 + d.latency := by
  have hdec : decoded (Access.write kDmaCtrl v).address = true := decoded_ctrl
  have hstart : (Access.write kDmaCtrl v).go ∧ d.tick.dmaRunning = false := ⟨⟨rfl, hgo⟩, hready⟩
  obtain ⟨hticks, -, hdone, hrunning⟩ := access_fields (d := d) hdec
  rw [if_pos hstart] at hdone
  rw [decide_eq_true hstart.1, Bool.or_true] at hrunning
  have hstatus := word_status (d := d) hdec
  rw [if_pos hstart] at hstatus
  exact ⟨⟨rfl, hrunning, rfl, hstatus⟩, hticks, hdone⟩

/- What comes before an access of a history without `Reset`, and the access itself. -/
theorem history_front {ops : List Op} {pre post : List Effect} (hreset : Op.reset ∉ ops)
    (hsplit : ops.flatMap Op.effects = pre ++ .access acc :: post) :
    Effect.reset ∉ pre ∧ (∀ a, .access a ∈ pre → decoded a.address = true) ∧
      decoded acc.address = true := by
  have hpre : ∀ e ∈ pre, e ∈ ops.flatMap Op.effects := by
    intro e he
    rw [hsplit]
    exact List.mem_append_left _ he
  have hacc : .access acc ∈ ops.flatMap Op.effects := by
    rw [hsplit]
    exact List.mem_append_right pre List.mem_cons_self
  exact ⟨fun hr => hreset (effects_reset (hpre _ hr)), fun a ha => effects_decoded (hpre _ ha),
    effects_decoded hacc⟩

/-- In every continuation without `Reset` and as long as the counter does not wrap,
the transfer that the write starts is completed by the `max latency 1`-th access and
by none before, and STATUS is BUSY up to there. -/
def TakesLatency (d : Device) (v : BitVec 32) : Prop :=
  ∀ (ops : List Op) (pre : List Effect) (acc : Access) (post : List Effect),
    Op.reset ∉ ops → ops.flatMap Op.effects = pre ++ .access acc :: post →
    (d.write32 kDmaCtrl v).2.ticks.toNat + accessCount pre + 1 < 2 ^ 64 →
    (accessCount pre + 1 < max d.latency.toNat 1 →
      ¬(pre.foldl effect (d.write32 kDmaCtrl v).2).due ∧
      ((pre ++ [Effect.access acc]).foldl effect (d.write32 kDmaCtrl v).2).word kDmaStatus = kStatusBusy) ∧
    (accessCount pre + 1 = max d.latency.toNat 1 → (pre.foldl effect (d.write32 kDmaCtrl v).2).due)

/-- The transfer takes the configured latency exactly when its deadline does not wrap,
or when no further access fits below 2^64. -/
theorem takes_latency_iff (d : Device) (v : BitVec 32) (hready : d.tick.dmaRunning = false)
    (hgo : v &&& kCtrlGo ≠ 0) (hticks : d.ticks.toNat + 1 < 2 ^ 64) :
    TakesLatency d v ↔
      d.ticks.toNat + 1 + d.latency.toNat < 2 ^ 64 ∨ d.ticks.toNat + 1 = 2 ^ 64 - 1 := by
  obtain ⟨h0, hstart, hdone⟩ := go_starts hready hgo
  unfold TakesLatency
  generalize (d.write32 kDmaCtrl v).2 = start at h0 hstart hdone ⊢
  have ht : start.ticks.toNat = d.ticks.toNat + 1 := by
    rw [hstart, BitVec.toNat_add]
    exact Nat.mod_eq_of_lt hticks
  have hdeadline : start.dmaDoneAt.toNat = (d.ticks.toNat + 1 + d.latency.toNat) % 2 ^ 64 := by
    rw [hdone, ← hstart, BitVec.toNat_add, ht]
  have hlatency : d.latency.toNat < 2 ^ 64 := d.latency.isLt
  constructor
  · -- a deadline that wraps is reached by the very next access, which a read can make
    intro hlaw
    by_contra hn
    rw [not_or, not_lt] at hn
    have hnext : start.ticks.toNat + accessCount [] + 1 < 2 ^ 64 := by
      change start.ticks.toNat + 0 + 1 < 2 ^ 64
      omega
    obtain ⟨hnot, -⟩ := (hlaw [.read32 kDmaCtrl] [] (.read kDmaCtrl) [] (by decide) (by decide)
      hnext).1 (show 0 + 1 < max d.latency.toNat 1 by omega)
    apply hnot
    rw [List.foldl_nil, h0.due_iff (by omega), hdeadline]
    omega
  · intro hcond ops pre acc post hreset hsplit hnowrap
    obtain ⟨hnotreset, hdec, hlast⟩ := history_front hreset hsplit
    have hsum : start.dmaDoneAt.toNat = start.ticks.toNat + d.latency.toNat := by
      rw [hdeadline, ht]
      exact Nat.mod_eq_of_lt (by omega)
    -- short of the last access, the deadline is still ahead
    have hbefore : accessCount pre + 1 ≤ max d.latency.toNat 1 →
        Underway start (accessCount pre) (pre.foldl effect start) := by
      intro hk
      apply underway_run h0 hnotreset hdec
      · omega
      · omega
    constructor
    · intro hk
      have hdue : ¬(pre.foldl effect start).due := by
        rw [(hbefore hk.le).due_iff hnowrap]
        omega
      refine ⟨hdue, ?_⟩
      rw [List.foldl_append]
      exact ((hbefore hk.le).access hnowrap hdue hlast).status
    · intro hk
      rw [(hbefore hk.le).due_iff hnowrap]
      omega

theorem takes_latency_three : TakesLatency (fresh.run [.setTransferLatency 3]) 1 :=
  (takes_latency_iff (fresh.run [.setTransferLatency 3]) 1 (by decide) (by decide) (by decide)).mpr
    (Or.inl (by decide))

/- With the largest latency, the first access after GO completes the transfer. -/
theorem latency_wraps : ¬TakesLatency (fresh.run [.setTransferLatency (BitVec.allOnes 64)]) 1 := by
  intro hlaw
  obtain ⟨hnot, -⟩ := (hlaw [.read32 kDmaStatus] [] (.read kDmaStatus) [] (by decide) (by decide)
    (by decide)).1 (by decide)
  exact hnot (by decide)

end SocValidation.Device
