import SocValidation.Device.Invariant

/-!
# Runs that cannot be told apart (Reset, and the words written to read-only registers)

`Reset` brings back the state of the constructor except for the latency, since no
run makes keys beside those of `policy_`. A word written to a wholly read-only
register costs a tick and is otherwise lost, as is the result of a read there.
-/

namespace SocValidation.Device

variable {d : Device} {address a : BitVec 64} {v w : BitVec 32} {op op' : Op} {ops ops' : List Op}

/- What the operations of a run give back. -/
def replies (d : Device) : List Op → List Reply
  | [] => []
  | op :: ops => (d.apply op).1 :: (d.apply op).2.replies ops

/-! ### Reset -/

theorem reset_fresh (hk : ∀ a, decoded a = false → d.storage a = none) :
    d.reset = { fresh with latency := d.latency } := by
  have hstorage : d.reset.storage = fresh.storage := by
    funext a
    cases hdec : decoded a with
    | true =>
      obtain ⟨p, hp, hs⟩ := reset_storage (d := d) hdec
      obtain ⟨q, hq, ht⟩ := reset_storage (d := ⟨fun _ => none, 0, 8, 0, false⟩) hdec
      cases hp.symm.trans hq
      exact hs.trans ht.symm
    | false =>
      rw [reset_storage_of_not_decoded hdec, hk a hdec, fresh, reset_storage_of_not_decoded hdec]
  calc
    d.reset = { d.reset with storage := fresh.storage } := by rw [← hstorage]
    _ = { fresh with latency := d.latency } := rfl

theorem reachable_reset (h : Reachable d) : d.reset = { fresh with latency := d.latency } := by
  apply reset_fresh
  intro a ha
  have hnone := (reachable_inv h).keys a
  rw [ha] at hnone
  simpa using hnone

/-- After `Reset` every sequence of operations gives back what it gives a new device
of the same latency, with the same ticks after each of them. -/
theorem reset_power_on (ops rest : List Op) :
    (fresh.run (ops ++ [.reset])).replies rest =
      (fresh.run [.setTransferLatency (fresh.run ops).latency]).replies rest ∧
    ∀ n, (fresh.run (ops ++ [.reset] ++ rest.take n)).ticks =
      (fresh.run ([.setTransferLatency (fresh.run ops).latency] ++ rest.take n)).ticks := by
  have hstate : fresh.run (ops ++ [.reset]) =
      fresh.run [.setTransferLatency (fresh.run ops).latency] := by
    rw [run_append]
    exact reachable_reset ⟨ops, rfl⟩
  refine ⟨?_, fun n => ?_⟩
  · rw [hstate]
  · rw [run_append, run_append _ [_], hstate]

/-! ### Read-only registers -/

def ReadOnly (a : BitVec 64) : Prop := a = kDmaStatus ∨ a = kPcieLinkStatus

instance : Decidable (ReadOnly a) := inferInstanceAs (Decidable (_ ∨ _))

theorem policyFor_readOnly (h : ReadOnly a) : ∃ r, policyFor a = .ok ⟨r, 0xFFFFFFFF, 0⟩ := by
  rcases h with rfl | rfl
  · exact ⟨1, policyFor_status⟩
  · exact ⟨0, by decide⟩

theorem store_word : d.store a (d.word a) = d.touch a := by
  unfold touch word
  cases hs : d.storage a with
  | some w =>
    have hkept : Function.update d.storage a (some w) = d.storage := by
      rw [← hs, Function.update_eq_self]
    simp [store, hkept]
  | none => rfl

/- The mask keeps the word that the tick leaves, and neither side effect listens. -/
theorem access_readOnly (h : ReadOnly a) : d.access (.write a v) = d.access (.read a) := by
  obtain ⟨r, hp⟩ := policyFor_readOnly h
  have hdec : decoded a = true := by rw [decoded, hp]; rfl
  have hctrl : a ≠ kDmaCtrl := by rcases h with rfl | rfl <;> decide
  have hlink : a ≠ kPcieLinkCtrl := by rcases h with rfl | rfl <;> decide
  rw [access_write hp, access_read hdec, masked_readOnly, store_word]
  unfold startDma trainLink
  rw [if_neg fun hc => hlink hc.1, if_neg fun hc => hctrl hc.1]

theorem readOnly_decoded (h : ReadOnly a) : decoded a = true := by
  rcases h with rfl | rfl <;> decide

theorem write32_readOnly (h : ReadOnly a) : d.write32 a v = (.ok (), d.access (.read a)) := by
  obtain ⟨p, hp⟩ := policyFor_of_decoded (readOnly_decoded h)
  rw [← access_readOnly (v := v) h, access, write32_of_ok hp]

/-- The first operation becomes the second where words delivered to read-only
registers change, or where one such write becomes a read. -/
inductive Unseen : Op → Op → Prop
  | same (op : Op) : Unseen op op
  | value (a : BitVec 64) (v w : BitVec 32) : ReadOnly a → Unseen (.write32 a v) (.write32 a w)
  | discard (a : BitVec 64) (v : BitVec 32) : ReadOnly a → Unseen (.write32 a v) (.read32 a)
  | block (a : BitVec 64) (xs ys : List (BitVec 32)) : xs.length = ys.length →
      (∀ (i : ℕ) (v w : BitVec 32), xs[i]? = some v → ys[i]? = some w →
        ReadOnly (a + BitVec.ofNat 64 (i * 4)) ∨ v = w) →
      Unseen (.writeBlock a (.buffer xs)) (.writeBlock a (.buffer ys))

theorem writeFrom_unseen {xs ys : List (BitVec 32)} {n : ℕ} (hlen : xs.length = ys.length)
    (h : ∀ (i : ℕ) (v w : BitVec 32), xs[i]? = some v → ys[i]? = some w →
      ReadOnly (address + BitVec.ofNat 64 ((n + i) * 4)) ∨ v = w) :
    writeFrom address xs n d = writeFrom address ys n d := by
  induction xs generalizing ys n d with
  | nil =>
    cases ys with
    | nil => rfl
    | cons w ys => cases hlen
  | cons v xs ih =>
    cases ys with
    | nil => cases hlen
    | cons w ys =>
      have hfirst : d.write32 (address + BitVec.ofNat 64 (n * 4)) v =
          d.write32 (address + BitVec.ofNat 64 (n * 4)) w := by
        rcases h 0 v w rfl rfl with hro | rfl
        · rw [Nat.add_zero] at hro
          rw [write32_readOnly hro, write32_readOnly hro]
        · rfl
      have hrest : ∀ x : Device, writeFrom address xs (n + 1) x = writeFrom address ys (n + 1) x := by
        intro x
        apply ih (Nat.succ.inj hlen)
        intro i v w hv hw
        rw [show n + 1 + i = n + (i + 1) by omega]
        exact h (i + 1) v w hv hw
      simp only [writeFrom, hfirst, hrest]

theorem apply_unseen (h : Unseen op op') : (d.apply op').2 = (d.apply op).2 ∧
    ((d.apply op').1 = (d.apply op).1 ∨ ∃ a v, ReadOnly a ∧ op = .write32 a v ∧ op' = .read32 a ∧
      (d.apply op).1.error = none ∧ (d.apply op').1.error = none) := by
  cases h with
  | same => exact ⟨rfl, Or.inl rfl⟩
  | value a v w hro =>
    have hsame : d.apply (.write32 a w) = d.apply (.write32 a v) := by
      simp only [apply, write32_readOnly hro]
    rw [hsame]
    exact ⟨rfl, Or.inl rfl⟩
  | discard a v hro =>
    have hread := readOnly_decoded hro
    refine ⟨?_, Or.inr ⟨a, v, hro, rfl, rfl, ?_, ?_⟩⟩
    · simp only [apply, write32_readOnly hro, access, read32_of_decoded hread]
    · simp only [apply, write32_readOnly hro]
    · simp only [apply, read32_of_decoded hread]
  | block a xs ys hlen hwords =>
    have hsame : writeFrom a xs 0 d = writeFrom a ys 0 d := by
      apply writeFrom_unseen hlen
      intro i v w hv hw
      rw [Nat.zero_add]
      exact hwords i v w hv hw
    simp only [apply, writeBlock, hsame]
    exact ⟨trivial, Or.inl trivial⟩

theorem run_unseen (h : List.Forall₂ Unseen ops ops') (n : ℕ) :
    d.run (ops'.take n) = d.run (ops.take n) := by
  induction h generalizing d n with
  | nil => rfl
  | cons hop _ ih =>
    cases n with
    | zero => rfl
    | succ n =>
      simp only [List.take_succ_cons, run, List.foldl_cons, (apply_unseen hop).1]
      exact ih n

/-- The device cannot tell the two runs apart, and neither can the caller, except that
a read in place of a write returns a word. -/
theorem read_only_unobservable (h : List.Forall₂ Unseen ops ops') (n : ℕ) :
    fresh.run (ops'.take n) = fresh.run (ops.take n) ∧
    ∀ op op', ops[n]? = some op → ops'[n]? = some op' →
      ((fresh.run (ops'.take n)).apply op').1 = ((fresh.run (ops.take n)).apply op).1 ∨
      ∃ a v, ReadOnly a ∧ op = .write32 a v ∧ op' = .read32 a ∧
        ((fresh.run (ops.take n)).apply op).1.error = none ∧
        ((fresh.run (ops'.take n)).apply op').1.error = none := by
  refine ⟨run_unseen h n, fun op op' hop hop' => ?_⟩
  rw [run_unseen h n]
  apply (apply_unseen _).2
  rw [List.forall₂_iff_get] at h
  obtain ⟨hlen, hget⟩ := h
  obtain ⟨hn, rfl⟩ := List.getElem?_eq_some_iff.mp hop
  obtain ⟨hn', rfl⟩ := List.getElem?_eq_some_iff.mp hop'
  exact hget n hn hn'

theorem read_only_unobservable_discard :
    fresh.run ([.write32 kDmaStatus 0x7, .write32 kDmaCtrl 1].take 1) =
      fresh.run ([.read32 kDmaStatus, .write32 kDmaCtrl 1].take 1) :=
  (read_only_unobservable (.cons (.discard kDmaStatus 0x7 (Or.inl rfl))
    (.cons (.same (.write32 kDmaCtrl 1)) .nil)) 1).1.symm

end SocValidation.Device
