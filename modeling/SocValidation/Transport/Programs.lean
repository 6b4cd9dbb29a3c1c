import SocValidation.Lib.Program
import SocValidation.Transport.Log

/-!
# Drivers that look at what they read (transport.hpp, transports.hpp, txn_log.cpp)

A driver decides by the replies which call it makes next. Over any stack of decorators
it makes the calls, and comes to the end, that it would on the device itself.
-/

namespace SocValidation.Transport
open Device (Reply)

variable {σ ε : Type} [ITransport σ] {view : σ → Device} {p : Program Call Reply ε}

/- A transport with what lives outside of it. -/
def Call.served (call : Call) (bus : σ × Host) : Reply × (σ × Host) := call.on bus.1 bus.2

def Call.onDevice (call : Call) (d : Device) : Reply × Device := d.apply call.toOp

theorem Transparent.program (hσ : Transparent view) (p : Program Call Reply ε) (s : σ) (h : Host) :
    (p.run Call.served (s, h)).1 = (p.run Call.onDevice (view s)).1 ∧
      view (p.run Call.served (s, h)).2.1 = (p.run Call.onDevice (view s)).2 ∧
      p.calls Call.served (s, h) = p.calls Call.onDevice (view s) :=
  Program.run_simulate (fun bus : σ × Host => view bus.1) fun call bus => hσ call bus.1 bus.2

theorem program_run (p : Program Call Reply ε) (s : σ) (h : Host) :
    (p.run Call.served (s, h)).2 = Call.run s h (p.calls Call.served (s, h)) :=
  Program.run_calls

/- The calls on the device decide how many records there are. -/
theorem Stack.size_program (layers : List Layer) (p : Program Call Reply ε) (s : Stack layers) (h : Host)
    (log : ℕ) : logs layers (p.run Call.served (s, h)).2.1 = logs layers s ∧
      (p.run Call.served (s, h)).2.2.size log = h.size log + (logs layers s).count log *
        (p.calls Call.onDevice (device layers s)).countP fun call => call.Decodes := by
  rw [program_run, ((transparent layers).program p s h).2.2]
  exact size_run layers s h _ log

/-- Whatever a driver does with the replies, over every stack of decorators it comes to
the same outcome by the same calls and leaves the same device, so it cannot tell the kinds
of `MakeTransport` apart; and a log gets, of each call that has come back, a record from
each logger of the stack that writes to it. -/
theorem programs_interchangeable (layers : List Layer) (s : Stack layers) (h : Host)
    (p : Program Call Reply ε) :
    ((p.run Call.served (s, h)).1 = (p.run Call.onDevice (Stack.device layers s)).1 ∧
      Stack.device layers (p.run Call.served (s, h)).2.1 =
        (p.run Call.onDevice (Stack.device layers s)).2 ∧
      p.calls Call.served (s, h) = p.calls Call.onDevice (Stack.device layers s)) ∧
    (∀ log, (p.run Call.served (s, h)).2.2.size log = h.size log + (Stack.logs layers s).count log *
      (p.calls Call.onDevice (Stack.device layers s)).countP fun call => call.Decodes) ∧
    ∀ kind kind' t t', makeTransport kind = .ok t → makeTransport kind' = .ok t' →
      (p.run Call.served (t.2, h)).1 = (p.run Call.served (t'.2, h)).1 ∧
        p.calls Call.served (t.2, h) = p.calls Call.served (t'.2, h) := by
  refine ⟨(Stack.transparent layers).program p s h, fun log => (Stack.size_program layers p s h log).2,
    fun kind kind' t t' ht ht' => ?_⟩
  obtain ⟨hout, -, hcalls⟩ := (Stack.transparent t.1).program p t.2 h
  obtain ⟨hout', -, hcalls'⟩ := (Stack.transparent t'.1).program p t'.2 h
  rw [makeTransport_device ht] at hout hcalls
  rw [makeTransport_device ht'] at hout' hcalls'
  exact ⟨hout.trans hout'.symm, hcalls.trans hcalls'.symm⟩

end SocValidation.Transport
