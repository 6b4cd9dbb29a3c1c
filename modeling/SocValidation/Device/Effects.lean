import SocValidation.Device.Model

/-!
# What an operation does to the device, access by access

Decoding does not depend on the state, so an operation is a fixed sequence of
successful word accesses; one that throws has made those before the failing word.
Every run is thus a run of single effects, and one lemma for each part of the
state says what an access makes of it.
-/

namespace SocValidation.Device

variable {d : Device} {address a b : BitVec 64} {value v : BitVec 32} {p : RegPolicy}
variable {acc : Access} {op : Op} {ops : List Op}

/-! ### Decoding -/

theorem policyFor_of_decoded (h : decoded address = true) : ∃ p, policyFor address = .ok p := by
  unfold decoded at h
  cases hp : policyFor address with
  | ok p => exact ⟨p, rfl⟩
  | error e =>
    rw [hp] at h
    cases h

theorem policyFor_of_not_decoded (h : decoded address = false) :
    policyFor address = .error ⟨"no register decoded at address", address⟩ := by
  unfold decoded at h
  unfold policyFor at h ⊢
  split at h
  · cases h
  · rfl

theorem decoded_ctrl : decoded kDmaCtrl = true := by decide

/-! ### A run as a run of effects -/

theorem read32_of_decoded (h : decoded address = true) :
    d.read32 address = (.ok (d.tick.word address), d.tick.touch address) := by
  obtain ⟨p, hp⟩ := policyFor_of_decoded h
  rw [read32, hp]

theorem read32_of_not_decoded (h : decoded address = false) :
    d.read32 address = (.error ⟨"no register decoded at address", address⟩, d) := by
  rw [read32, policyFor_of_not_decoded h]

theorem write32_of_ok (hp : policyFor address = .ok p) :
    d.write32 address value = (.ok (),
      ((d.tick.store address (masked p (d.tick.word address) value)).startDma address value).trainLink
        address value) := by
  rw [write32, hp]

theorem write32_of_not_decoded (h : decoded address = false) :
    d.write32 address value = (.error ⟨"no register decoded at address", address⟩, d) := by
  rw [write32, policyFor_of_not_decoded h]

theorem readFrom_accesses (address : BitVec 64) (count i : ℕ) (d : Device) :
    (readFrom address count i d).2 = (reads address count i).foldl access d := by
  induction count generalizing i d with
  | zero => rfl
  | succ count ih =>
    simp only [readFrom, reads]
    cases hdec : decoded (address + BitVec.ofNat 64 (i * 4)) with
    | true =>
      rw [if_pos rfl, read32_of_decoded hdec, List.foldl_cons, access, read32_of_decoded hdec]
      exact ih (i + 1) _
    | false =>
      rw [read32_of_not_decoded hdec]
      rfl

theorem writeFrom_accesses (address : BitVec 64) (words : List (BitVec 32)) (i : ℕ) (d : Device) :
    (writeFrom address words i d).2 = (writes address words i).foldl access d := by
  induction words generalizing i d with
  | nil => rfl
  | cons w words ih =>
    simp only [writeFrom, writes]
    cases hdec : decoded (address + BitVec.ofNat 64 (i * 4)) with
    | true =>
      obtain ⟨p, hp⟩ := policyFor_of_decoded hdec
      rw [if_pos rfl, write32_of_ok hp, List.foldl_cons, access, write32_of_ok hp]
      exact ih (i + 1) _
    | false =>
      rw [write32_of_not_decoded hdec]
      rfl

theorem writeFrom_words (words : List (BitVec 32)) (n : ℕ) (d : Device) :
    (writeFrom address words n d).1.words = [] := by
  induction words generalizing n d with
  | nil => rfl
  | cons w words ih =>
    simp only [writeFrom]
    split
    · rfl
    · exact ih _ _

theorem read32_accesses (d : Device) (address : BitVec 64) :
    (d.read32 address).2 = (Op.read32 address).accesses.foldl access d := by
  simp only [Op.accesses]
  cases hdec : decoded address with
  | true => rfl
  | false =>
    rw [read32_of_not_decoded hdec]
    rfl

theorem write32_accesses (d : Device) (address : BitVec 64) (value : BitVec 32) :
    (d.write32 address value).2 = (Op.write32 address value).accesses.foldl access d := by
  simp only [Op.accesses]
  cases hdec : decoded address with
  | true => rfl
  | false =>
    rw [write32_of_not_decoded hdec]
    rfl

/- An operation is its effects, one after another. -/
theorem apply_effects (d : Device) (op : Op) : (d.apply op).2 = op.effects.foldl effect d := by
  have hmap : ∀ l : List Access, (l.map Effect.access).foldl effect d = l.foldl access d := fun l => by
    rw [List.foldl_map]
    rfl
  cases op with
  | read32 address =>
    refine Eq.trans ?_ ((read32_accesses d address).trans (hmap _).symm)
    rcases hr : d.read32 address with ⟨r, d'⟩
    cases r <;> simp [apply, hr]
  | write32 address value =>
    refine Eq.trans ?_ ((write32_accesses d address value).trans (hmap _).symm)
    rcases hr : d.write32 address value with ⟨r, d'⟩
    cases r <;> simp [apply, hr]
  | readBlock address out count =>
    refine Eq.trans ?_ (hmap (Op.readBlock address out count).accesses).symm
    simp only [apply, readBlock, Op.accesses]
    split
    · rfl
    · exact readFrom_accesses address count 0 d
  | writeBlock address source =>
    refine Eq.trans ?_ (hmap (Op.writeBlock address source).accesses).symm
    cases source with
    | null count =>
      simp only [apply, writeBlock, Op.accesses]
      split <;> rfl
    | buffer words => exact writeFrom_accesses address words 0 d
  | reset => rfl
  | setTransferLatency ticks => rfl

theorem run_effects (d : Device) (ops : List Op) :
    d.run ops = (ops.flatMap Op.effects).foldl effect d := by
  induction ops generalizing d with
  | nil => rfl
  | cons op ops ih =>
    rw [List.flatMap_cons, List.foldl_append, ← apply_effects]
    exact ih _

theorem run_append (d : Device) (xs ys : List Op) : d.run (xs ++ ys) = (d.run xs).run ys :=
  List.foldl_append

/-! ### The accesses of an operation -/

theorem mem_reads {count n : ℕ} (h : acc ∈ reads address count n) :
    ∃ a, acc = .read a ∧ decoded a = true := by
  induction count generalizing n with
  | zero => cases h
  | succ count ih =>
    simp only [reads] at h
    split at h
    next hdec =>
      rcases List.mem_cons.mp h with rfl | h
      · exact ⟨_, rfl, hdec⟩
      · exact ih h
    · cases h

/- A word that is written is at a decoded address, and so are those before it. -/
theorem mem_writes {words : List (BitVec 32)} {n : ℕ} (h : acc ∈ writes address words n) :
    ∃ m v, acc = .write (address + BitVec.ofNat 64 ((n + m) * 4)) v ∧ words[m]? = some v ∧
      ∀ k, k ≤ m → decoded (address + BitVec.ofNat 64 ((n + k) * 4)) = true := by
  induction words generalizing n with
  | nil => cases h
  | cons w words ih =>
    simp only [writes] at h
    split at h
    next hdec =>
      rcases List.mem_cons.mp h with rfl | h
      · refine ⟨0, w, rfl, rfl, fun k hk => ?_⟩
        rw [Nat.le_zero.mp hk]
        exact hdec
      · obtain ⟨m, v, heq, hw, hall⟩ := ih h
        refine ⟨m + 1, v, ?_, hw, fun k hk => ?_⟩
        · rw [heq, show n + 1 + m = n + (m + 1) by omega]
        · cases k with
          | zero => exact hdec
          | succ k =>
            rw [show n + (k + 1) = n + 1 + k by omega]
            exact hall k (by omega)
    · cases h

theorem accesses_decoded (h : acc ∈ op.accesses) : decoded acc.address = true := by
  cases op with
  | read32 address =>
    simp only [Op.accesses] at h
    split at h
    next hdec => rwa [List.mem_singleton.mp h]
    · cases h
  | write32 address value =>
    simp only [Op.accesses] at h
    split at h
    next hdec => rwa [List.mem_singleton.mp h]
    · cases h
  | readBlock address out count =>
    simp only [Op.accesses] at h
    split at h
    · cases h
    · obtain ⟨a, rfl, hdec⟩ := mem_reads h
      exact hdec
  | writeBlock address source =>
    cases source with
    | null count => cases h
    | buffer words =>
      obtain ⟨m, v, rfl, -, hall⟩ := mem_writes h
      exact hall m (Nat.le_refl m)
  | reset => cases h
  | setTransferLatency ticks => cases h

theorem mem_effects {e : Effect} (h : e ∈ op.effects) :
    (∃ acc ∈ op.accesses, e = .access acc) ∨ e = .reset ∧ op = .reset ∨
      ∃ ticks, e = .latency ticks ∧ op = .setTransferLatency ticks := by
  have haccess : ∀ op : Op, e ∈ op.accesses.map Effect.access → ∃ acc ∈ op.accesses, e = .access acc := by
    intro op h
    obtain ⟨acc, hacc, heq⟩ := List.mem_map.mp h
    exact ⟨acc, hacc, heq.symm⟩
  cases op with
  | reset => exact Or.inr (Or.inl ⟨List.mem_singleton.mp h, rfl⟩)
  | setTransferLatency ticks => exact Or.inr (Or.inr ⟨ticks, List.mem_singleton.mp h, rfl⟩)
  | read32 address => exact Or.inl (haccess (.read32 address) h)
  | write32 address value => exact Or.inl (haccess (.write32 address value) h)
  | readBlock address out count => exact Or.inl (haccess (.readBlock address out count) h)
  | writeBlock address source => exact Or.inl (haccess (.writeBlock address source) h)

theorem mem_accesses (h : .access acc ∈ op.effects) : acc ∈ op.accesses := by
  rcases mem_effects h with ⟨a, ha, heq⟩ | ⟨heq, -⟩ | ⟨ticks, heq, -⟩
  · cases heq
    exact ha
  · cases heq
  · cases heq

theorem effects_decoded (h : .access acc ∈ ops.flatMap Op.effects) : decoded acc.address = true := by
  obtain ⟨op, -, hop⟩ := List.mem_flatMap.mp h
  exact accesses_decoded (mem_accesses hop)

theorem effects_reset (h : .reset ∈ ops.flatMap Op.effects) : Op.reset ∈ ops := by
  obtain ⟨op, hmem, hop⟩ := List.mem_flatMap.mp h
  rcases mem_effects hop with ⟨acc, -, heq⟩ | ⟨-, rfl⟩ | ⟨ticks, heq, -⟩
  · cases heq
  · exact hmem
  · cases heq

/-- Invariant rule: what the constructor establishes and each effect keeps holds
in every reachable state. -/
theorem reachable_invariant (P : Device → Prop) (h0 : P fresh)
    (haccess : ∀ d acc, P d → decoded acc.address = true → P (d.access acc))
    (hreset : ∀ d, P d → P d.reset) (hlatency : ∀ d ticks, P d → P { d with latency := ticks })
    (h : Reachable d) : P d := by
  obtain ⟨ops, rfl⟩ := h
  rw [run_effects]
  have hdec : ∀ acc, .access acc ∈ ops.flatMap Op.effects → decoded acc.address = true :=
    fun acc => effects_decoded
  generalize ops.flatMap Op.effects = es at hdec ⊢
  induction es using List.reverseRecOn with
  | nil => exact h0
  | append_singleton es e ih =>
    rw [List.foldl_append, List.foldl_cons, List.foldl_nil]
    have hp := ih fun acc ha => hdec acc (List.mem_append_left _ ha)
    cases e with
    | access acc => exact haccess _ acc hp (hdec acc (by simp))
    | reset => exact hreset _ hp
    | latency ticks => exact hlatency _ ticks hp

/-! ### Which addresses have a word -/

theorem decoded_iff : decoded a = true ↔ a ∈ policy.map Prod.fst := by
  unfold decoded policyFor
  cases hf : policy.find? fun entry => entry.1 = a with
  | some entry =>
    have heq : entry.1 = a := by simpa using List.find?_some hf
    have hmem := List.mem_map_of_mem (f := Prod.fst) (List.mem_of_find?_eq_some hf)
    exact ⟨fun _ => heq ▸ hmem, fun _ => rfl⟩
  | none =>
    have hnot : a ∉ policy.map Prod.fst := by
      intro h
      obtain ⟨entry, hmem, rfl⟩ := List.mem_map.mp h
      exact absurd (List.find?_eq_none.mp hf entry hmem) (by simp)
    simp [Except.toOption, hnot]

/- There are nine registers, so no longer block comes back. -/
theorem block_short {count : ℕ} (h : ∀ i < count, decoded (address + BitVec.ofNat 64 (i * 4)) = true) :
    count < 10 := by
  by_contra hn
  have hnodup : ((List.range 10).map fun i => address + BitVec.ofNat 64 (i * 4)).Nodup := by
    have hoffsets : ((List.range 10).map fun i => BitVec.ofNat 64 (i * 4)).Nodup := by decide
    have hmap := hoffsets.map (add_right_injective address)
    rw [List.map_map] at hmap
    exact hmap
  have hsub : ((List.range 10).map fun i => address + BitVec.ofNat 64 (i * 4)) ⊆
      policy.map Prod.fst := by
    intro x hx
    obtain ⟨i, hi, rfl⟩ := List.mem_map.mp hx
    exact decoded_iff.mp (h i (by have := List.mem_range.mp hi; omega))
  have hle := (hnodup.subperm hsub).length_le
  revert hle
  simp [policy]

theorem foldl_reset {l : List (BitVec 64 × RegPolicy)} (hl : (l.map Prod.fst).Nodup)
    (m : BitVec 64 → Option (BitVec 32)) :
    l.foldl (fun (m : BitVec 64 → Option (BitVec 32)) entry =>
        Function.update m entry.1 (some entry.2.reset)) m a =
      match l.find? fun entry => entry.1 = a with
      | some entry => some entry.2.reset
      | none => m a := by
  induction l generalizing m with
  | nil => rfl
  | cons entry l ih =>
    rw [List.map_cons, List.nodup_cons] at hl
    rw [List.foldl_cons, ih hl.2, List.find?_cons]
    by_cases he : entry.1 = a
    · have hnone : (l.find? fun entry => entry.1 = a) = none := by
        rw [List.find?_eq_none]
        intro other hmem heq
        have hother : other.1 = a := by simpa using heq
        exact hl.1 (he.trans hother.symm ▸ List.mem_map_of_mem hmem)
      simp [hnone, he]
    · have hne : a ≠ entry.1 := Ne.symm he
      simp [he, Function.update_of_ne hne]

theorem policy_nodup : (policy.map Prod.fst).Nodup := by decide

theorem reset_storage (h : decoded a = true) :
    ∃ p, policyFor a = .ok p ∧ d.reset.storage a = some p.reset := by
  obtain ⟨p, hp⟩ := policyFor_of_decoded h
  refine ⟨p, hp, (foldl_reset policy_nodup d.storage).trans ?_⟩
  unfold policyFor at hp
  cases hf : policy.find? fun entry => entry.1 = a with
  | some entry =>
    rw [hf] at hp
    cases hp
    rfl
  | none =>
    rw [hf] at hp
    cases hp

theorem reset_storage_of_not_decoded (h : decoded a = false) : d.reset.storage a = d.storage a := by
  refine (foldl_reset policy_nodup d.storage).trans ?_
  have hnone : (policy.find? fun entry => entry.1 = a) = none := by
    rw [List.find?_eq_none]
    intro entry hmem heq
    have hin : decoded a = true := by
      rw [decoded_iff, ← of_decide_eq_true heq]
      exact List.mem_map_of_mem hmem
    rw [h] at hin
    cases hin
  rw [hnone]

/- The map holds the decoded addresses and no others. -/
def Keys (d : Device) : Prop := ∀ a, (d.storage a).isSome = decoded a

theorem Keys.store (hk : d.Keys) (h : decoded address = true) : (d.store address v).Keys := by
  intro a
  unfold Device.store
  by_cases ha : a = address
  · rw [ha, h]
    simp
  · dsimp only
    rw [Function.update_of_ne ha]
    exact hk a

theorem Keys.touch (hk : d.Keys) (h : decoded address = true) : (d.touch address).Keys := by
  unfold Device.touch
  split
  · exact hk
  · exact hk.store h

theorem Keys.tick (hk : d.Keys) : d.tick.Keys := by
  have hticks : Keys { d with ticks := d.ticks + 1 } := hk
  unfold Device.tick
  split
  · exact ((hticks.touch (by decide)).store (by decide)).store (by decide)
  · exact hticks

theorem Keys.access (hk : d.Keys) (h : decoded acc.address = true) : (d.access acc).Keys := by
  cases acc with
  | read address =>
    have hdec : decoded address = true := h
    rw [Device.access, read32_of_decoded hdec]
    exact hk.tick.touch hdec
  | write address value =>
    have hdec : decoded address = true := h
    obtain ⟨p, hp⟩ := policyFor_of_decoded hdec
    rw [Device.access, write32_of_ok hp]
    have hstart : ∀ x : Device, x.Keys → (x.startDma address value).Keys := fun x hx => by
      unfold startDma
      split
      · exact hx.store (show decoded kDmaStatus = true by decide)
      · exact hx
    have htrain : ∀ x : Device, x.Keys → (x.trainLink address value).Keys := fun x hx => by
      unfold trainLink
      split
      · exact hx.store (show decoded kPcieLinkStatus = true by decide)
      · exact hx
    exact htrain _ (hstart _ (hk.tick.store hdec))

theorem Keys.reset (hk : ∀ a, decoded a = false → d.storage a = none) : d.reset.Keys := by
  intro a
  cases h : decoded a with
  | true =>
    obtain ⟨p, -, hs⟩ := reset_storage (d := d) h
    rw [hs]
    rfl
  | false =>
    rw [reset_storage_of_not_decoded h, hk a h]
    rfl

/-! ### What each step makes of a word -/

theorem word_store : (d.store address value).word a = if a = address then value else d.word a := by
  unfold word store
  by_cases h : a = address
  · simp [h]
  · simp [h]

theorem word_touch : (d.touch address).word a = d.word a := by
  unfold touch
  split
  · rfl
  next hn =>
    rw [word_store]
    split
    next he =>
      have hnone : d.storage address = none := by simpa using hn
      simp [he, word, hnone]
    · rfl

theorem touch_fields : (d.touch a).ticks = d.ticks ∧ (d.touch a).latency = d.latency ∧
    (d.touch a).dmaDoneAt = d.dmaDoneAt ∧ (d.touch a).dmaRunning = d.dmaRunning := by
  unfold touch
  split <;> exact ⟨rfl, rfl, rfl, rfl⟩

/- The word that a completing tick reports. -/
def completed (xferLen : BitVec 32) : BitVec 32 :=
  kStatusIdle ||| kStatusDone ||| ((((xferLen &&& 0x00FFFFFF) / 4#32) &&& 0xFFFF) <<< 8)

theorem word_tick : d.tick.word a =
    if d.due then
      if a = kDmaIrq then d.word kDmaIrq ||| kIrqDone
      else if a = kDmaStatus then completed (d.word kDmaXferLen)
      else d.word a
    else d.word a := by
  have hrunning : ∀ (x : Device) r, word { x with dmaRunning := r } a = x.word a := fun _ _ => rfl
  have hticks : ∀ a n, word { d with ticks := n } a = d.word a := fun _ _ => rfl
  have hne : kDmaIrq ≠ kDmaStatus := by decide
  unfold tick
  split
  · simp only [hrunning, word_store, word_touch, hticks, if_neg hne]
    rfl
  · rfl

theorem tick_fields : d.tick.ticks = d.ticks + 1 ∧ d.tick.latency = d.latency ∧
    d.tick.dmaDoneAt = d.dmaDoneAt ∧ d.tick.dmaRunning = (d.dmaRunning && !decide d.due) := by
  unfold tick
  by_cases h : d.due
  · simp [h, store, touch_fields]
  · simp [h]

def Access.go : Access → Prop
  | .read _ => False
  | .write address value => address = kDmaCtrl ∧ value &&& kCtrlGo ≠ 0

instance : Decidable acc.go := by
  cases acc with
  | read address => exact inferInstanceAs (Decidable False)
  | write address value => exact inferInstanceAs (Decidable (_ ∧ _))

theorem access_read (h : decoded a = true) : d.access (.read a) = d.tick.touch a := by
  rw [access, read32_of_decoded h]

theorem access_write (hp : policyFor a = .ok p) : d.access (.write a v) =
    ((d.tick.store a (masked p (d.tick.word a) v)).startDma a v).trainLink a v := by
  rw [access, write32_of_ok hp]

theorem trainLink_fields : (d.trainLink a v).ticks = d.ticks ∧ (d.trainLink a v).latency = d.latency ∧
    (d.trainLink a v).dmaDoneAt = d.dmaDoneAt ∧ (d.trainLink a v).dmaRunning = d.dmaRunning := by
  unfold trainLink
  split <;> exact ⟨rfl, rfl, rfl, rfl⟩

theorem startDma_fields : (d.startDma a v).ticks = d.ticks ∧ (d.startDma a v).latency = d.latency ∧
    (d.startDma a v).dmaDoneAt =
      (if (Access.write a v).go ∧ d.dmaRunning = false then d.ticks + d.latency else d.dmaDoneAt) ∧
    (d.startDma a v).dmaRunning = (d.dmaRunning || decide (Access.write a v).go) := by
  unfold startDma
  by_cases hs : a = kDmaCtrl ∧ v &&& kCtrlGo ≠ 0 ∧ d.dmaRunning = false
  · have hgo : (Access.write a v).go := ⟨hs.1, hs.2.1⟩
    rw [if_pos hs, if_pos ⟨hgo, hs.2.2⟩, decide_eq_true hgo, Bool.or_true]
    exact ⟨rfl, rfl, rfl, rfl⟩
  · rw [if_neg hs, if_neg fun hc => hs ⟨hc.1.1, hc.1.2, hc.2⟩]
    refine ⟨rfl, rfl, rfl, ?_⟩
    cases hr : d.dmaRunning with
    | true => rfl
    | false => rw [decide_eq_false fun hc => hs ⟨hc.1, hc.2, hr⟩, Bool.or_false]

theorem access_fields (h : decoded acc.address = true) :
    (d.access acc).ticks = d.ticks + 1 ∧ (d.access acc).latency = d.latency ∧
    (d.access acc).dmaDoneAt =
      (if acc.go ∧ d.tick.dmaRunning = false then d.ticks + 1 + d.latency else d.dmaDoneAt) ∧
    (d.access acc).dmaRunning = (d.tick.dmaRunning || decide acc.go) := by
  obtain ⟨hticks, hlatency, hdone, -⟩ := tick_fields (d := d)
  cases acc with
  | read address =>
    have hdec : decoded address = true := h
    rw [access_read hdec]
    obtain ⟨h1, h2, h3, h4⟩ := touch_fields (d := d.tick) (a := address)
    have hgo : ¬(Access.read address).go := fun hc => hc
    rw [if_neg fun hc => hgo hc.1, decide_eq_false hgo, Bool.or_false]
    exact ⟨h1.trans hticks, h2.trans hlatency, h3.trans hdone, h4⟩
  | write address value =>
    have hdec : decoded address = true := h
    obtain ⟨p, hp⟩ := policyFor_of_decoded hdec
    rw [access_write hp]
    obtain ⟨h1, h2, h3, h4⟩ := trainLink_fields (a := address) (v := value)
      (d := (d.tick.store address (masked p (d.tick.word address) value)).startDma address value)
    obtain ⟨g1, g2, g3, g4⟩ := startDma_fields (a := address) (v := value)
      (d := d.tick.store address (masked p (d.tick.word address) value))
    refine ⟨h1.trans (g1.trans hticks), h2.trans (g2.trans hlatency), ?_, h4.trans g4⟩
    rw [h3, g3]
    simp only [store, hticks, hlatency, hdone]

/- The word of LINK_STATUS after a retrain. -/
def trained (value : BitVec 32) : BitVec 32 :=
  0x1 ||| (((value >>> 1) &&& 0x7) <<< 1) ||| (16#32 <<< 4) ||| (0x10#32 <<< 10)

theorem word_write (hp : policyFor a = .ok p) : (d.access (.write a v)).word b =
    if b = kPcieLinkStatus ∧ a = kPcieLinkCtrl ∧ v &&& 0x1 ≠ 0 then trained v
    else if b = kDmaStatus ∧ (Access.write a v).go ∧ d.tick.dmaRunning = false then kStatusBusy
    else if b = a then masked p (d.tick.word a) v
    else d.tick.word b := by
  have hstarted : ∀ x : Device, x.dmaRunning = d.tick.dmaRunning → (x.startDma a v).word b =
      if b = kDmaStatus ∧ (Access.write a v).go ∧ d.tick.dmaRunning = false then kStatusBusy
      else x.word b := by
    intro x hx
    unfold startDma
    rw [hx]
    by_cases hs : a = kDmaCtrl ∧ v &&& kCtrlGo ≠ 0 ∧ d.tick.dmaRunning = false
    · rw [if_pos hs]
      change (x.store kDmaStatus kStatusBusy).word b = _
      rw [word_store]
      have hgo : (Access.write a v).go := ⟨hs.1, hs.2.1⟩
      simp [hgo, hs.2.2]
    · have hn : ¬(b = kDmaStatus ∧ (Access.write a v).go ∧ d.tick.dmaRunning = false) :=
        fun hc => hs ⟨hc.2.1.1, hc.2.1.2, hc.2.2⟩
      rw [if_neg hs, if_neg hn]
  rw [access_write hp, ← word_store, ← hstarted (d.tick.store a (masked p (d.tick.word a) v)) rfl]
  unfold trainLink
  by_cases ht : a = kPcieLinkCtrl ∧ v &&& 0x1 ≠ 0
  · rw [if_pos ht]
    change (Device.store _ kPcieLinkStatus (trained v)).word b = _
    rw [word_store]
    by_cases hb : b = kPcieLinkStatus
    · rw [if_pos hb, if_pos ⟨hb, ht⟩]
    · rw [if_neg hb, if_neg fun hc => hb hc.1]
  · rw [if_neg ht, if_neg fun hc => ht hc.2]

theorem word_read (h : decoded a = true) : (d.access (.read a)).word b = d.tick.word b := by
  rw [access_read h, word_touch]

end SocValidation.Device
