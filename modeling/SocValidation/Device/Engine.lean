import SocValidation.Device.Invariant
import SocValidation.Lib.Trace
import Mathlib.Data.List.Chain

/-!
# What the DMA engine has done (Tick, Write32, Reset)

A run is told as the list of what happened to the engine: a transfer started or
completed, or `Reset` took it back. STATUS is the word of the last of them, and a
completion comes after a start of its own. DONE_IRQ is the trace that a completion
leaves until a 1 is written to it.
-/

namespace SocValidation.Device
open Regmap

variable {d : Device} {acc : Access} {e : Effect} {es : List Effect}

/- `stopped`: a transfer was running. -/
inductive Happening where
  | started
  | completed (beats : BitVec 16)
  | reset (stopped : Bool)
  deriving DecidableEq, Repr

variable {hs : List Happening}

/- The tick of an access comes before the side effect of its write. -/
def ticked (d : Device) : List Happening :=
  if d.due then [.completed (((d.word kDmaXferLen &&& 0x00FFFFFF) / 4#32).setWidth 16)] else []

def launched (d : Device) (acc : Access) : List Happening :=
  if acc.go ∧ d.tick.dmaRunning = false then [.started] else []

def happened (d : Device) : Effect → List Happening
  | .access acc => d.ticked ++ d.launched acc
  | .reset => [.reset d.dmaRunning]
  | .latency _ => []

def happenings (d : Device) : List Effect → List Happening
  | [] => []
  | e :: es => d.happened e ++ (d.effect e).happenings es

theorem happenings_concat (d : Device) (es : List Effect) (e : Effect) :
    d.happenings (es ++ [e]) = d.happenings es ++ (es.foldl effect d).happened e := by
  induction es generalizing d with
  | nil => simp [happenings]
  | cons first es ih =>
    rw [List.cons_append, happenings, happenings, ih, List.append_assoc]
    rfl

/-! ### The order of what happens -/

namespace Happening

/- What may come right after what. -/
def Next : Happening → Happening → Prop
  | a, .started => a ≠ .started
  | a, .completed _ => a = .started
  | a, .reset stopped => stopped = true ↔ a = .started

def phase : Happening → Phase
  | .started => .busy
  | .completed beats => .done beats
  | .reset _ => .idle

def isCompleted : Happening → Bool
  | .completed _ => true
  | _ => false

end Happening

/- The constructor ends with a `Reset` of its own. -/
def last (hs : List Happening) : Happening := hs.getLast?.getD (.reset false)

theorem last_concat (hs : List Happening) (a : Happening) : last (hs ++ [a]) = a := by
  simp [last]

/- The list accounts for the state, and for every start in it. -/
structure Accounts (hs : List Happening) (d : Device) : Prop where
  status : d.word kDmaStatus = (last hs).phase.word
  running : d.dmaRunning = true ↔ last hs = .started
  order : (Happening.reset false :: hs).IsChain Happening.Next
  balance : hs.count .started = hs.countP Happening.isCompleted + hs.count (.reset true) +
    if d.dmaRunning then 1 else 0

theorem order_concat {a : Happening} (h : (Happening.reset false :: hs).IsChain Happening.Next)
    (ha : (last hs).Next a) : (Happening.reset false :: (hs ++ [a])).IsChain Happening.Next := by
  rw [← List.cons_append, List.isChain_append]
  refine ⟨h, List.isChain_singleton a, fun x hx y hy => ?_⟩
  have hlast : x = last hs := by
    rw [List.getLast?_cons, Option.mem_some_iff] at hx
    exact hx.symm
  have hhead : a = y := by simpa using hy
  rwa [hlast, ← hhead]

theorem Accounts.tick (h : Accounts hs d) : Accounts (hs ++ d.ticked) d.tick := by
  have hrunning := (tick_fields (d := d)).2.2.2
  unfold ticked
  by_cases hdue : d.due
  · have hstarted : last hs = .started := h.running.mp hdue.1
    have hbalance := h.balance
    rw [if_pos hdue.1] at hbalance
    rw [decide_eq_true hdue, Bool.not_true, Bool.and_false] at hrunning
    rw [if_pos hdue]
    refine ⟨?_, ?_, order_concat h.order hstarted, ?_⟩
    · rw [last_concat, word_tick, if_pos hdue, if_neg (by decide), if_pos rfl, completed_word]
      rfl
    · rw [last_concat, hrunning]
      simp
    · rw [hrunning, List.count_append, List.countP_append, List.count_append]
      simp [Happening.isCompleted]
      omega
  · rw [decide_eq_false hdue, Bool.not_false, Bool.and_true] at hrunning
    rw [if_neg hdue, List.append_nil]
    refine ⟨?_, ?_, h.order, ?_⟩
    · rw [word_tick, if_neg hdue]
      exact h.status
    · rw [hrunning]
      exact h.running
    · rw [hrunning]
      exact h.balance

/- The side effect of the write, after its tick. -/
theorem Accounts.launch (h : Accounts hs d.tick) (hdec : decoded acc.address = true) :
    Accounts (hs ++ d.launched acc) (d.access acc) := by
  have hrunning := (access_fields (d := d) hdec).2.2.2
  have hstatus := word_status (d := d) hdec
  unfold launched
  by_cases hgo : acc.go ∧ d.tick.dmaRunning = false
  · have hnot : last hs ≠ .started := fun hc => by
      rw [h.running.mpr hc] at hgo
      exact absurd hgo.2 (by decide)
    have hbalance := h.balance
    rw [hgo.2, if_neg (by decide)] at hbalance
    rw [decide_eq_true hgo.1, Bool.or_true] at hrunning
    rw [if_pos hgo] at hstatus ⊢
    refine ⟨?_, ?_, order_concat h.order hnot, ?_⟩
    · rw [last_concat, hstatus]
      rfl
    · rw [last_concat, hrunning]
      simp
    · rw [hrunning, List.count_append, List.countP_append, List.count_append]
      simp [Happening.isCompleted]
      omega
  · have hsame : (d.access acc).dmaRunning = d.tick.dmaRunning := by
      rw [hrunning]
      cases hr : d.tick.dmaRunning with
      | true => rfl
      | false => rw [decide_eq_false fun hg => hgo ⟨hg, hr⟩]; rfl
    rw [if_neg hgo] at hstatus ⊢
    rw [List.append_nil]
    refine ⟨?_, ?_, h.order, ?_⟩
    · rw [hstatus]
      exact h.status
    · rw [hsame]
      exact h.running
    · rw [hsame]
      exact h.balance

theorem Accounts.reset (h : Accounts hs d) : Accounts (hs ++ [.reset d.dmaRunning]) d.reset := by
  have hbalance := h.balance
  refine ⟨?_, ?_, order_concat h.order h.running, ?_⟩
  · rw [last_concat]
    exact reset_word (p := ⟨1, _, _⟩) policyFor_status
  · rw [last_concat]
    simp [Device.reset]
  · rw [List.count_append, List.countP_append, List.count_append]
    cases hr : d.dmaRunning with
    | true => simp [hr, Happening.isCompleted, Device.reset] at hbalance ⊢; omega
    | false => simp [hr, Happening.isCompleted, Device.reset] at hbalance ⊢; omega

theorem accounts_run (hdec : ∀ acc, .access acc ∈ es → decoded acc.address = true) :
    Accounts (fresh.happenings es) (es.foldl effect fresh) := by
  induction es using List.reverseRecOn with
  | nil =>
    refine ⟨?_, ?_, List.isChain_singleton _, rfl⟩
    · exact reset_word (p := ⟨1, _, _⟩) policyFor_status
    · exact iff_of_false (by decide) (by decide)
  | append_singleton es e ih =>
    have hprev := ih fun acc hacc => hdec acc (List.mem_append_left _ hacc)
    rw [happenings_concat, List.foldl_append, List.foldl_cons, List.foldl_nil]
    cases e with
    | access acc =>
      rw [happened, ← List.append_assoc]
      exact hprev.tick.launch (hdec acc (by simp))
    | reset => exact hprev.reset
    | latency ticks =>
      rw [happened, List.append_nil]
      exact ⟨hprev.status, hprev.running, hprev.order, hprev.balance⟩

/-- In every run STATUS is the word of what happened last, a transfer runs just when
that was a start, every completion comes right after a start, and every start is
followed by its completion or by the `Reset` that stops it, or still runs. -/
theorem engine_protocol (ops : List Op) :
    Accounts (fresh.happenings (ops.flatMap Op.effects)) (fresh.run ops) := by
  rw [run_effects]
  exact accounts_run fun acc => effects_decoded

/-! ### DONE_IRQ -/

/- What takes DONE_IRQ down, be it latched before or by the tick of the access itself. -/
def acknowledges : Effect → Bool
  | .access acc => acc.ones kDmaIrq 0
  | .reset => true
  | .latency _ => false

def latches (d : Device) : Effect → Bool
  | .access _ => decide d.due
  | .reset => false
  | .latency _ => false

theorem effect_irq (hdec : ∀ acc, e = .access acc → decoded acc.address = true) :
    ((d.effect e).word kDmaIrq).getLsbD 0 =
      (((d.word kDmaIrq).getLsbD 0 || d.latches e) && !acknowledges e) := by
  cases e with
  | access acc =>
    change ((d.access acc).word kDmaIrq).getLsbD 0 = _
    rw [getLsbD_w1c (Or.inl rfl) (hdec acc rfl) (by omega), getLsbD_tick_w1c (Or.inl rfl) (by omega)]
    simp [latches, acknowledges]
  | reset =>
    change (d.reset.word kDmaIrq).getLsbD 0 = _
    rw [reset_word (p := ⟨0, _, _⟩) (policyFor_w1c (Or.inl rfl))]
    simp [acknowledges]
  | latency ticks =>
    change (d.word kDmaIrq).getLsbD 0 = _
    simp [latches, acknowledges]

/-- In every run DONE_IRQ reads 1 just when some transfer has completed and neither the
access of its last tick nor anything after it was a `Reset` or wrote a 1 to the bit. -/
theorem done_irq_iff (ops : List Op) :
    irqDONE_IRQ.getter ((fresh.run ops).word kDmaIrq) = 1 ↔
      ∃ pre acc post, ops.flatMap Op.effects = pre ++ .access acc :: post ∧
        (pre.foldl effect fresh).due ∧
        ∀ e ∈ .access acc :: post, acknowledges e = false := by
  have hbit : irqDONE_IRQ.getter ((fresh.run ops).word kDmaIrq) = 1 ↔
      ((fresh.run ops).word kDmaIrq).getLsbD 0 = true :=
    irqDONE_IRQ.getter_eq_one_iff _ rfl
  have hlatch := Trace.foldl_latch (ops.flatMap Op.effects) fresh effect
    (fun d => (d.word kDmaIrq).getLsbD 0) latches acknowledges (by decide) fun e he d =>
      effect_irq fun acc hacc => effects_decoded (hacc ▸ he)
  rw [hbit, run_effects, hlatch]
  constructor
  · rintro ⟨pre, e, post, hsplit, hraise, hkept⟩
    cases e with
    | access acc => exact ⟨pre, acc, post, hsplit, of_decide_eq_true hraise, hkept⟩
    | reset => cases hraise
    | latency ticks => cases hraise
  · rintro ⟨pre, acc, post, hsplit, hdue, hkept⟩
    exact ⟨pre, .access acc, post, hsplit, decide_eq_true hdue, hkept⟩

end SocValidation.Device
