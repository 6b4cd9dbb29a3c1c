import SocValidation.Transport.Model
import SocValidation.Device.Equivalence

/-!
# Stacks of decorators over a device (transports.hpp, transports.cpp, txn_log.cpp)

A decorator forwards each call to one call of the same kind and gives back what that
one gives, so a stack of any height shows its caller the device at the bottom.
-/

namespace SocValidation.Transport
open Device (Reply Source)

variable {σ : Type} [ITransport σ] {call : Call} {calls : List Call}

/-! ### A call through a decorator -/

namespace Call

def op : Call → Op
  | .read32 _ => .read32
  | .write32 _ _ => .write32
  | .readBlock _ _ _ => .readBlock
  | .writeBlock _ _ => .writeBlock

def address : Call → BitVec 64
  | .read32 address => address
  | .write32 address _ => address
  | .readBlock address _ _ => address
  | .writeBlock address _ => address

def cost (cost : ProtocolCost) : Call → Float
  | .read32 _ => cost.nsPerAccess
  | .write32 _ _ => cost.nsPerAccess
  | .readBlock _ _ count => cost.nsPerBlock count
  | .writeBlock _ source => cost.nsPerBlock (blockCount source)

/- The value of the record that the call leaves when it comes back with the reply. -/
def recorded : Call → Reply → Option (BitVec 32)
  | .read32 _, reply => reply.words.head?
  | .write32 _ value, reply => if reply.error = none then some value else none
  | .readBlock _ _ count, reply => LoggedTransport.counted count reply
  | .writeBlock _ source, reply => LoggedTransport.counted (blockCount source) reply

theorem on_protocol (call : Call) (t : ProtocolTransport σ) (h : Host) :
    call.on t h = t.forward (call.cost t.cost) call.on h := by
  cases call with
  | read32 address => rfl
  | write32 address value => rfl
  | readBlock address out count => rfl
  | writeBlock address source => rfl

theorem on_logged (call : Call) (t : LoggedTransport σ) (h : Host) :
    call.on t h = LoggedTransport.forward call.op call.address call.recorded call.on t h := by
  cases call with
  | read32 address =>
    simp only [on, ITransport.read32, LoggedTransport.forward, op, Call.address, recorded]
    rcases ITransport.read32 address t.inner h with ⟨r, i, g⟩
    cases r <;> rfl
  | write32 address value =>
    have hrecorded : ∀ r : Except TransportError Unit, (r.toOption.map fun _ => value) =
        recorded (.write32 address value) (writeReply r) := by
      intro r
      cases r <;> rfl
    simp only [on, ITransport.write32, LoggedTransport.forward, op, Call.address, hrecorded]
  | readBlock address out count => rfl
  | writeBlock address source => rfl

end Call

/-! ### Transports that show the device -/

/- The caller gets what the device gives, and the device goes where it would go. -/
def Transparent (view : σ → Device) : Prop := ∀ (call : Call) (s : σ) (h : Host),
  (call.on s h).1 = ((view s).apply call.toOp).1 ∧
    view (call.on s h).2.1 = ((view s).apply call.toOp).2

variable {view : σ → Device}

theorem transparent_device : Transparent fun d : Device => d := by
  intro call d h
  rw [call.on_device]
  exact ⟨rfl, rfl⟩

theorem Transparent.protocol (hσ : Transparent view) :
    Transparent fun t : ProtocolTransport σ => view t.backing := by
  intro call t h
  rw [call.on_protocol]
  exact hσ call t.backing h

theorem Transparent.logged (hσ : Transparent view) :
    Transparent fun t : LoggedTransport σ => view t.inner := by
  intro call t h
  rw [call.on_logged]
  exact hσ call t.inner h

theorem Transparent.run (hσ : Transparent view) (s : σ) (h : Host) (calls : List Call) :
    view (Call.run s h calls).1 = (view s).run (calls.map Call.toOp) := by
  induction calls using List.reverseRecOn with
  | nil => rfl
  | append_singleton calls call ih =>
    rw [Call.run_concat, (hσ call _ _).2, ih, List.map_append, Device.run_append]
    rfl

theorem Transparent.replies (hσ : Transparent view) (s : σ) (h : Host) (calls : List Call) :
    Call.replies s h calls = (view s).replies (calls.map Call.toOp) := by
  induction calls generalizing s h with
  | nil => rfl
  | cons call calls ih =>
    rw [Call.replies, ih, (hσ call s h).1, (hσ call s h).2]
    rfl

/-! ### Stacks -/

inductive Layer where
  | protocol
  | logged
  deriving DecidableEq, Repr

def Stack : List Layer → Type
  | [] => Device
  | .protocol :: layers => ProtocolTransport (Stack layers)
  | .logged :: layers => LoggedTransport (Stack layers)

namespace Stack

instance methods : (layers : List Layer) → ITransport (Stack layers)
  | [] => inferInstanceAs (ITransport Device)
  | .protocol :: layers =>
    letI := methods layers
    inferInstanceAs (ITransport (ProtocolTransport (Stack layers)))
  | .logged :: layers =>
    letI := methods layers
    inferInstanceAs (ITransport (LoggedTransport (Stack layers)))

/- The `EmulatedDevice` at the bottom. -/
def device : (layers : List Layer) → Stack layers → Device
  | [], d => d
  | .protocol :: layers, t => device layers (ProtocolTransport.backing t)
  | .logged :: layers, t => device layers (LoggedTransport.inner t)

theorem transparent (layers : List Layer) : Transparent (device layers) := by
  induction layers with
  | nil => exact transparent_device
  | cons layer layers ih =>
    cases layer with
    | protocol => exact ih.protocol
    | logged => exact ih.logged

end Stack

/-! ### MakeTransport -/

/- IR shift + DR shift per access, 10 MHz TCK. -/
def jtagTransport (backing : Device) : ProtocolTransport Device :=
  { backing := backing, cost := ⟨40, 10e6⟩, label := "jtag" }

/- Address byte + 4 data bytes, 9 bits each with ACK, 400 kHz fast mode. -/
def i2cTransport (backing : Device) : ProtocolTransport Device :=
  { backing := backing, cost := ⟨45, 400e3⟩, label := "i2c" }

/- 8-bit command + 32-bit address + 32-bit data, 25 MHz SCLK. -/
def spiTransport (backing : Device) : ProtocolTransport Device :=
  { backing := backing, cost := ⟨72, 25e6⟩, label := "spi" }

/-- `MakeTransport`; the error is the text of the `std::invalid_argument`. -/
def makeTransport (kind : String) : Except String ((layers : List Layer) × Stack layers) :=
  let device := Device.fresh
  if kind = "emulated" then .ok ⟨[], device⟩
  else if kind = "jtag" then .ok ⟨[.protocol], jtagTransport device⟩
  else if kind = "i2c" then .ok ⟨[.protocol], i2cTransport device⟩
  else if kind = "spi" then .ok ⟨[.protocol], spiTransport device⟩
  else .error ("unknown transport: " ++ kind ++ " (expected emulated|jtag|i2c|spi)")

theorem makeTransport_device {kind : String} {t : (layers : List Layer) × Stack layers}
    (h : makeTransport kind = .ok t) : Stack.device t.1 t.2 = Device.fresh := by
  unfold makeTransport at h
  dsimp only at h
  by_cases hemulated : kind = "emulated"
  · rw [if_pos hemulated] at h
    cases h
    rfl
  rw [if_neg hemulated] at h
  by_cases hjtag : kind = "jtag"
  · rw [if_pos hjtag] at h
    cases h
    rfl
  rw [if_neg hjtag] at h
  by_cases hi2c : kind = "i2c"
  · rw [if_pos hi2c] at h
    cases h
    rfl
  rw [if_neg hi2c] at h
  by_cases hspi : kind = "spi"
  · rw [if_pos hspi] at h
    cases h
    rfl
  rw [if_neg hspi] at h
  cases h

/-- Every stack of decorators gives its caller the words and errors of the device
under it and takes it through the same states, so the kinds of `MakeTransport` cannot
be told apart. -/
theorem stacks_interchangeable (layers : List Layer) (s : Stack layers) (h : Host)
    (calls : List Call) :
    Call.replies s h calls = Call.replies (Stack.device layers s) h calls ∧
    (∀ n, Stack.device layers (Call.run s h (calls.take n)).1 =
      (Call.run (Stack.device layers s) h (calls.take n)).1) ∧
    ∀ kind kind' t t', makeTransport kind = .ok t → makeTransport kind' = .ok t' →
      Call.replies t.2 h calls = Call.replies t'.2 h calls := by
  have hstack := Stack.transparent layers
  refine ⟨?_, fun n => ?_, fun kind kind' t t' ht ht' => ?_⟩
  · rw [hstack.replies, transparent_device.replies]
  · rw [hstack.run]
    exact (transparent_device.run _ _ _).symm
  · rw [(Stack.transparent t.1).replies, (Stack.transparent t'.1).replies, makeTransport_device ht,
      makeTransport_device ht']

end SocValidation.Transport
