import SocValidation.Regmap.Transactions

/-!
# Reading fields one by one (register.hpp:3-7, bench_main.cpp:108-158)

Code that reads the register again for each field spends one access a field, and the
device may complete a transfer between two of them. The fields read before then are
those of the busy word, the others those of the completed one.
-/

namespace SocValidation.Regmap
open Transport
open Device (Access access completed decoded kDmaStatus kDmaXferLen kStatusBusy)

variable {σ : Type} [ITransport σ] {view : σ → Device} {d : Device} {L : Layout}
variable {fields : List Field}

namespace Accessor

/- The naive loop: `status.Read().IDLE()`, `status.Read().BUSY()`, .. -/
def readFields (L : Layout) : List Field → σ → Host →
    Except TransportError (List (BitVec 32)) × σ × Host
  | [], s, h => (.ok [], s, h)
  | f :: fields, s, h =>
    match read L s h with
    | (.error e, s, h) => (.error e, s, h)
    | (.ok raw, s, h) =>
      let rest := readFields L fields s h
      (rest.1.map fun values => f.getter raw :: values, rest.2)

/- The coalesced one: a snapshot, and its fields. -/
def readOnce (L : Layout) (fields : List Field) (s : σ) (h : Host) :
    Except TransportError (List (BitVec 32)) × σ × Host :=
  match read L s h with
  | (.error e, s, h) => (.error e, s, h)
  | (.ok raw, s, h) => (.ok (fields.map fun f => f.getter raw), s, h)

end Accessor

/-! ### Reads in a row -/

def polled (d : Device) (k : ℕ) : Device := (List.replicate k (.read kDmaStatus)).foldl access d

theorem polled_succ (d : Device) (k : ℕ) : polled d (k + 1) = polled (d.access (.read kDmaStatus)) k := by
  rw [polled, List.replicate_succ]
  rfl

theorem decoded_status : decoded kDmaStatus = true := by decide

/- What a read of STATUS leaves, with its tick. -/
theorem read_status (d : Device) :
    (d.access (.read kDmaStatus)).word kDmaStatus =
        (if d.due then completed (d.word kDmaXferLen) else d.word kDmaStatus) ∧
      (d.access (.read kDmaStatus)).word kDmaXferLen = d.word kDmaXferLen ∧
      (d.access (.read kDmaStatus)).dmaRunning = (d.dmaRunning && !decide d.due) := by
  have hdec : decoded (Access.read kDmaStatus).address = true := decoded_status
  obtain ⟨-, -, -, hrunning⟩ := Device.access_fields (d := d) hdec
  have hgo : ¬(Access.read kDmaStatus).go := fun hc => hc
  rw [decide_eq_false hgo, Bool.or_false, Device.tick_fields.2.2.2] at hrunning
  refine ⟨?_, ?_, hrunning⟩
  · have hirq : kDmaStatus ≠ Device.kDmaIrq := by decide
    rw [Device.word_read decoded_status, Device.word_tick, if_neg hirq, if_pos rfl]
  · rw [Device.word_read decoded_status, Device.word_tick_of_ne (by decide) (by decide)]

/- Reads start nothing. -/
theorem polled_idle (hidle : d.dmaRunning = false) (k : ℕ) : ¬(polled d k).due := by
  induction k generalizing d with
  | zero =>
    rintro ⟨hr, -⟩
    have hrunning : d.dmaRunning = true := hr
    rw [hidle] at hrunning
    cases hrunning
  | succ k ih =>
    rw [polled_succ]
    apply ih
    rw [(read_status d).2.2, hidle]
    rfl

/- The fields before the completing read, and the fields from it on. -/
theorem readFields_shown (hσ : Transparent view) (fields : List Field) (s : σ) (h : Host) :
    ∃ before after s' h', fields = before ++ after ∧
      Accessor.readFields dmaSTATUS fields s h =
        (.ok (before.map (fun f => f.getter ((view s).word kDmaStatus)) ++
          after.map fun f => f.getter (completed ((view s).word kDmaXferLen))), s', h') ∧
      (∀ k < before.length, ¬(polled (view s) k).due) ∧
      (after ≠ [] → (polled (view s) before.length).due) := by
  induction fields generalizing s h with
  | nil => exact ⟨[], [], s, h, rfl, rfl, nofun, fun hc => absurd rfl hc⟩
  | cons f fields ih =>
    obtain ⟨s₁, h₁, hread, -, hview⟩ := read32_shown hσ decoded_status s h
    obtain ⟨before, after, s', h', rfl, hrest, hearly, hlate⟩ := ih s₁ h₁
    obtain ⟨hstatus, hxfer, hrunning⟩ := read_status (view s)
    have hraw : (view s).tick.word kDmaStatus = (view s₁).word kDmaStatus := by
      rw [hview, Device.word_read decoded_status]
    have hall : Accessor.readFields dmaSTATUS (f :: (before ++ after)) s h =
        (.ok (f.getter ((view s₁).word kDmaStatus) ::
          (before.map (fun f => f.getter ((view s₁).word kDmaStatus)) ++
            after.map fun f => f.getter (completed ((view s₁).word kDmaXferLen)))), s', h') := by
      have haddress : dmaSTATUS.kAddress = kDmaStatus := by decide
      simp only [Accessor.readFields, Accessor.read, haddress, hread, hrest, hraw]
      rfl
    rw [← hview] at hstatus hxfer hrunning
    by_cases hdue : (view s).due
    · -- the very first read completes, and what follows reads the same word
      rw [if_pos hdue] at hstatus
      rw [decide_eq_true hdue, Bool.not_true, Bool.and_false] at hrunning
      obtain rfl : after = [] := by
        by_contra hne
        exact polled_idle hrunning _ (hlate hne)
      refine ⟨[], f :: (before ++ []), s', h', rfl, ?_, nofun, fun _ => hdue⟩
      rw [hall, hstatus]
      simp
    · rw [if_neg hdue] at hstatus
      refine ⟨f :: before, after, s', h', rfl, ?_, fun k hk => ?_, fun hne => ?_⟩
      · rw [hall, hstatus, hxfer]
        rfl
      · cases k with
        | zero => exact hdue
        | succ k =>
          rw [polled_succ, ← hview]
          exact hearly k (Nat.lt_of_succ_lt_succ hk)
      · rw [List.length_cons, polled_succ, ← hview]
        exact hlate hne

/-! ### What the loops cost -/

theorem read_accesses (hdec : decoded L.kAddress = true) (layers : List Layer)
    (t : ProtocolTransport (Stack layers)) (h : Host) :
    ∃ raw t' h', Accessor.read L t h = (.ok raw, t', h') ∧ t'.accesses = t.accesses + 1 := by
  obtain ⟨t', h', hread, -, -⟩ := read32_shown (Stack.transparent layers).protocol hdec t h
  refine ⟨_, t', h', hread, ?_⟩
  have hcount : (ITransport.read32 L.kAddress t h).2.1.accesses = t.accesses + 1 := rfl
  rwa [hread] at hcount

theorem readFields_accesses (hdec : decoded L.kAddress = true) (layers : List Layer)
    (fields : List Field) (t : ProtocolTransport (Stack layers)) (h : Host) :
    (Accessor.readFields L fields t h).2.1.accesses =
      t.accesses + BitVec.ofNat 64 fields.length := by
  induction fields generalizing t h with
  | nil => exact (BitVec.add_zero _).symm
  | cons f fields ih =>
    obtain ⟨raw, t', h', hread, hcount⟩ := read_accesses hdec layers t h
    simp only [Accessor.readFields, hread]
    rw [ih, hcount, BitVec.add_assoc, List.length_cons, Nat.add_comm, BitVec.ofNat_add]
    rfl

/-- Through a bus, the fields of STATUS cost one access each when they are read one by
one and one altogether when they are read at once. The values are those of the first
word up to the read that completes a transfer, and those of the completed word from
there on; the snapshot has them all from the first word. -/
theorem field_reads (layers : List Layer) (t : ProtocolTransport (Stack layers)) (h : Host)
    (hreach : (Stack.device layers t.backing).Reachable) (fields : List Field) :
    ∃ before after t₁ h₁ t₂ h₂, fields = before ++ after ∧
      Accessor.readFields dmaSTATUS fields t h =
        (.ok (before.map (fun f => f.getter ((Stack.device layers t.backing).tick.word kDmaStatus)) ++
          after.map fun f =>
            f.getter (completed ((Stack.device layers t.backing).word kDmaXferLen))), t₁, h₁) ∧
      Accessor.readOnce dmaSTATUS fields t h =
        (.ok (fields.map fun f =>
          f.getter ((Stack.device layers t.backing).tick.word kDmaStatus)), t₂, h₂) ∧
      t₁.accesses = t.accesses + BitVec.ofNat 64 fields.length ∧ t₂.accesses = t.accesses + 1 ∧
      (∀ k, 1 ≤ k → k < before.length → ¬(polled (Stack.device layers t.backing) k).due) ∧
      (after ≠ [] → before ≠ [] ∧ (polled (Stack.device layers t.backing) before.length).due ∧
        (Stack.device layers t.backing).tick.word kDmaStatus = kStatusBusy) := by
  have hstack := (Stack.transparent layers).protocol
  have hdec : decoded dmaSTATUS.kAddress = true := by decide
  obtain ⟨before, after, t₁, h₁, hsplit, hfields, hearly, hlate⟩ := readFields_shown hstack fields t h
  obtain ⟨raw, t₂, h₂, hread, hcount₂⟩ := read_accesses hdec layers t h
  have hcount₁ := readFields_accesses hdec layers fields t h
  rw [hfields] at hcount₁
  obtain ⟨t₃, h₃, hread', -, -⟩ := read32_shown hstack hdec t h
  have hsame := hread.symm.trans hread'
  obtain rfl : raw = (Stack.device layers t.backing).tick.word kDmaStatus :=
    Except.ok.inj (congrArg Prod.fst hsame)
  have honce : Accessor.readOnce dmaSTATUS fields t h =
      (.ok (fields.map fun f =>
        f.getter ((Stack.device layers t.backing).tick.word kDmaStatus)), t₂, h₂) := by
    rw [Accessor.readOnce, hread]
  generalize Stack.device layers t.backing = d at *
  by_cases hdue : d.due
  · -- the first read completes: there is only the completed word
    have hirq : kDmaStatus ≠ Device.kDmaIrq := by decide
    have hword : d.tick.word kDmaStatus = completed (d.word kDmaXferLen) := by
      rw [Device.word_tick, if_pos hdue, if_neg hirq, if_pos rfl]
    obtain rfl : before = [] := by
      by_contra hne
      exact hearly 0 (List.length_pos_iff.mpr hne) hdue
    have hidle : (d.access (.read kDmaStatus)).dmaRunning = false := by
      rw [(read_status d).2.2, decide_eq_true hdue, Bool.not_true, Bool.and_false]
    refine ⟨fields, [], t₁, h₁, t₂, h₂, (List.append_nil _).symm, ?_, honce, ?_, hcount₂,
      fun k hk _ => ?_, fun hc => absurd rfl hc⟩
    · rw [hfields, hword, hsplit]
      simp
    · exact hcount₁
    · obtain ⟨k, rfl⟩ : ∃ m, k = m + 1 := ⟨k - 1, by omega⟩
      rw [polled_succ]
      exact polled_idle hidle k
  · have hword : d.tick.word kDmaStatus = d.word kDmaStatus := by
      rw [Device.word_tick, if_neg hdue]
    refine ⟨before, after, t₁, h₁, t₂, h₂, hsplit, ?_, honce, hcount₁, hcount₂,
      fun k _ hk => hearly k hk, fun hne => ⟨?_, hlate hne, ?_⟩⟩
    · rw [hfields, hword]
    · rintro rfl
      exact hdue (hlate hne)
    · have hrunning : d.dmaRunning = true := by
        by_contra hidle
        exact polled_idle (Bool.eq_false_iff.mpr hidle) _ (hlate hne)
      obtain ⟨phase, hstatus, hphase⟩ := (Device.reachable_inv hreach).phase
      rw [hword, hstatus, hphase.mp hrunning]
      rfl

/- A transfer that the third access completes. -/
def busyLink : ProtocolTransport (Stack []) :=
  jtagTransport (Device.fresh.run [.setTransferLatency 3, .write32 Device.kDmaCtrl 1])

theorem field_reads_busy : ∃ values t₁ h₁,
    Accessor.readFields dmaSTATUS dmaSTATUS.fields busyLink freshHost = (.ok values, t₁, h₁) ∧
      t₁.accesses = busyLink.accesses + 4 := by
  obtain ⟨before, after, t₁, h₁, t₂, h₂, -, hfields, -, hcount, -⟩ :=
    field_reads [] busyLink freshHost ⟨_, rfl⟩ dmaSTATUS.fields
  exact ⟨_, t₁, h₁, hfields, hcount⟩

/- BUSY and DONE read 1 together, and IDLE reads 0. -/
example : (Accessor.readFields dmaSTATUS dmaSTATUS.fields busyLink freshHost).1.toOption =
    some [0, 1, 1, 0] := by decide

end SocValidation.Regmap
