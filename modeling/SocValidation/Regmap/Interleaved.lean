import SocValidation.Lib.LostUpdate
import SocValidation.Regmap.Transactions

/-!
# Modify from several threads (register.hpp:37-53)

`Modify` is not atomic: other accesses may come between its read and its write. To
threads that call it on a register that software owns, the device is a cell that they
load and store, and what happens to their updates is what happens to those of a cell.
-/

namespace SocValidation.Regmap
open Transport LostUpdate
open Device (decoded SoftwareOwned)

/- A thread is between the accesses of `Modify` while it holds the word that it has read. -/
structure Session (σ γ : Type) where
  bus : σ
  host : Host
  held : γ → Option (BitVec 32)

/- The call delivers no word to the address. -/
def Spares (a : BitVec 64) (k : Transport.Call) : Prop :=
  ∀ acc ∈ k.toOp.accesses, Device.deliveredTo a (.access acc) = none

inductive Half (a : BitVec 64) (γ : Type) where
  | read (c : γ)
  | write (c : γ)
  | call (k : Transport.Call) (spares : Spares a k)

variable {σ γ : Type} [ITransport σ] [DecidableEq γ] {L : Layout} {hw : L.reg.access ≠ "RO"}
variable {mutate : γ → BitVec 32 → BitVec 32} {a : BitVec 64}

namespace Session

/- The halves of `Modify`, each on its own thread, and any other access of the bus. -/
def step (L : Layout) (hw : L.reg.access ≠ "RO") (mutate : γ → BitVec 32 → BitVec 32)
    (s : Session σ γ) : Half L.kAddress γ → Option (Session σ γ)
  | .read c =>
    if (s.held c).isSome then none
    else
      let r := Accessor.read L s.bus s.host
      some ⟨r.2.1, r.2.2, Function.update s.held c r.1.toOption⟩
  | .write c =>
    (s.held c).map fun raw =>
      let r := Accessor.write L s.bus s.host hw (mutate c raw)
      ⟨r.2.1, r.2.2, Function.update s.held c none⟩
  | .call k _ =>
    let r := k.on s.bus s.host
    some ⟨r.2.1, r.2.2, s.held⟩

/- `Modify` is its two halves with nothing in between. -/
theorem modify_halves {s : Session σ γ} {c : γ} {word : BitVec 32} {bus : σ} {host : Host}
    (hidle : s.held c = none)
    (hmodify : Accessor.modify L s.bus s.host hw (mutate c) = (.ok word, bus, host)) :
    Trace.run (step L hw mutate) s [.read c, .write c] = some ⟨bus, host, s.held⟩ := by
  have hback : ∀ x, Function.update (Function.update s.held c x) c none = s.held := fun x => by
    rw [Function.update_idem, ← hidle, Function.update_eq_self]
  simp only [Accessor.modify] at hmodify
  rcases hread : Accessor.read L s.bus s.host with ⟨r, bus₁, host₁⟩
  rw [hread] at hmodify
  cases r with
  | error e => simp at hmodify
  | ok raw =>
    obtain ⟨-, rfl, rfl⟩ : _ ∧ (Accessor.write L bus₁ host₁ hw (mutate c raw)).2.1 = bus ∧
        (Accessor.write L bus₁ host₁ hw (mutate c raw)).2.2 = host := by
      simpa [Prod.ext_iff] using hmodify
    simp [Trace.run, step, hidle, hread, Except.toOption, hback]

/- The device as a cell. -/
def cell (view : σ → Device) (a : BitVec 64) (s : Session σ γ) : Cell γ (BitVec 32) :=
  ⟨(view s.bus).word a, s.held⟩

end Session

def Half.turn : Half a γ → Option (Turn γ)
  | .read c => some (.load c)
  | .write c => some (.store c)
  | .call _ _ => none

/-! ### A register that software owns as a cell -/

theorem decoded_owned (ha : SoftwareOwned a) : decoded a = true := by
  rw [decoded, Device.policyFor_owned ha]
  rfl

theorem word_spared {d : Device} {k : Transport.Call} (ha : SoftwareOwned a) (hk : Spares a k) :
    (d.apply k.toOp).2.word a = d.word a := by
  have heffects : k.toOp.effects = k.toOp.accesses.map Device.Effect.access := by
    cases k <;> rfl
  have hdec : ∀ acc ∈ k.toOp.accesses, decoded acc.address = true := fun acc => Device.accesses_decoded
  rw [Device.apply_effects, heffects]
  rw [Spares] at hk
  generalize k.toOp.accesses = accs at hk hdec
  induction accs generalizing d with
  | nil => rfl
  | cons acc accs ih =>
    rw [List.map_cons, List.foldl_cons, ih (fun b hb => hk b (List.mem_cons_of_mem _ hb))
      fun b hb => hdec b (List.mem_cons_of_mem _ hb)]
    change (d.access acc).word a = _
    rw [Device.word_owned ha (hdec acc List.mem_cons_self), hk acc List.mem_cons_self]
    rfl

variable {view : σ → Device} {s s' : Session σ γ}

theorem step_cell (hσ : Transparent view) (ha : SoftwareOwned L.kAddress) {half : Half L.kAddress γ}
    {t : Turn γ} (h : s.step L hw mutate half = some s') (ht : half.turn = some t) :
    turn mutate (s.cell view L.kAddress) t = some (s'.cell view L.kAddress) := by
  obtain ⟨hirq, hstatus, -⟩ := Device.owned_ne ha
  have hdec := decoded_owned ha
  have hread : decoded (Device.Access.read L.kAddress).address = true := hdec
  have hwrite : ∀ v, decoded (Device.Access.write L.kAddress v).address = true := fun _ => hdec
  cases half with
  | read c =>
    cases ht
    simp only [Session.step, Accessor.read] at h
    split at h
    · cases h
    next hidle =>
      obtain ⟨bus, host, hrun, -, hview⟩ := read32_shown hσ hdec s.bus s.host
      rw [hrun] at h
      cases h
      have hword : (view bus).word L.kAddress = (view s.bus).word L.kAddress := by
        rw [hview, Device.word_owned ha hread]
        rfl
      simp only [turn, Session.cell, hidle, hword, Device.word_tick_of_ne hirq hstatus]
      rfl
  | write c =>
    cases ht
    obtain ⟨raw, hheld, rfl⟩ := Option.map_eq_some_iff.mp h
    obtain ⟨bus, host, hrun, -, hview⟩ := write32_shown hσ hdec (mutate c raw) s.bus s.host
    have hword : (view bus).word L.kAddress = mutate c raw := by
      rw [hview, Device.word_owned ha (hwrite _)]
      simp [Device.deliveredTo]
    simp only [turn, Session.cell, hheld, Option.map_some, Accessor.write, hrun, hword]
  | call k hk => cases ht

theorem step_other (hσ : Transparent view) (ha : SoftwareOwned L.kAddress) {half : Half L.kAddress γ}
    (h : s.step L hw mutate half = some s') (ht : half.turn = none) :
    s'.cell view L.kAddress = s.cell view L.kAddress := by
  cases half with
  | read c => cases ht
  | write c => cases ht
  | call k hk =>
    cases h
    simp only [Session.cell]
    rw [(hσ k s.bus s.host).2, word_spared ha hk]

/-- Threads that `Modify` a register that software owns, each as a read and a write that
nothing need keep together, in any interleaving with each other and with other accesses of
the bus: the register holds what the kept updates make of its first word, one after another.
An update is kept once and in its order or not at all, and all are kept just when none is
written between the read and the write of another. The two halves in a row are a `Modify`. -/
theorem modify_interleaved (layers : List Layer) (L : Layout) (ha : SoftwareOwned L.kAddress)
    (hw : L.reg.access ≠ "RO") (mutate : γ → BitVec 32 → BitVec 32)
    (s s' : Session (Stack layers) γ) (tr : List (Half L.kAddress γ)) (hidle : ∀ c, s.held c = none)
    (hrun : Trace.run (Session.step L hw mutate) s tr = some s') :
    (∀ c word bus host, Accessor.modify L s.bus s.host hw (mutate c) = (.ok word, bus, host) →
      Trace.run (Session.step L hw mutate) s [.read c, .write c] = some ⟨bus, host, s.held⟩) ∧
    (Stack.device layers s'.bus).word L.kAddress =
        (kept (tr.filterMap Half.turn)).foldl (fun word c => mutate c word)
          ((Stack.device layers s.bus).word L.kAddress) ∧
      (kept (tr.filterMap Half.turn)).Sublist (stored (tr.filterMap Half.turn)) ∧
      (kept (tr.filterMap Half.turn) = stored (tr.filterMap Half.turn) ↔
        Undisturbed (tr.filterMap Half.turn)) := by
  have hstack := Stack.transparent layers
  have hsimulates := Trace.run_simulate (Session.cell (Stack.device layers) L.kAddress) Half.turn
    (fun _ _ _ _ hstep hturn => step_cell hstack ha hstep hturn)
    (fun _ _ _ hstep hturn => step_other hstack ha hstep hturn) hrun
  have hstart : s.cell (Stack.device layers) L.kAddress =
      start ((Stack.device layers s.bus).word L.kAddress) := by
    rw [Session.cell, start, funext hidle]
  rw [hstart] at hsimulates
  obtain ⟨hupdates, hvalue⟩ := run_value hsimulates
  exact ⟨fun c _ _ _ hmodify => Session.modify_halves (hidle c) hmodify, hvalue, kept_sublist hupdates,
    kept_eq_stored_iff hupdates⟩

/- Two threads set a field each, one the burst length and one the channel. -/
def setField (c : Bool) (word : BitVec 32) : BitVec 32 :=
  if c then ctrlBURST_LEN.setter word 4 else ctrlCHANNEL.setter word 2

def crossedModifies : List (Half dmaCTRL.kAddress Bool) :=
  [.read true, .read false, .write true, .write false]

/- The burst length is lost. -/
theorem modify_interleaved_crossed : ∃ s' : Session (Stack []) Bool,
    Trace.run (Session.step dmaCTRL (by decide) setField) ⟨Device.fresh, freshHost, fun _ => none⟩
      crossedModifies = some s' ∧ (Stack.device [] s'.bus).word dmaCTRL.kAddress = 0x2000 := by
  have hruns : (Trace.run (Session.step (σ := Stack []) dmaCTRL (by decide) setField)
      ⟨Device.fresh, freshHost, fun _ => none⟩ crossedModifies).isSome := by decide
  obtain ⟨s', hs⟩ := Option.isSome_iff_exists.mp hruns
  have hword := (modify_interleaved [] dmaCTRL (Or.inl (by decide)) (by decide) setField _ s'
    crossedModifies (fun _ => rfl) hs).2.1
  exact ⟨s', hs, hword.trans (by decide)⟩

end SocValidation.Regmap
