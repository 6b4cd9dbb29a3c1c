import SocValidation.Device.Model

/-!
# Transports (transport.hpp, transports.hpp, txn_log.hpp, txn_log.cpp)

The virtual functions of `ITransport` are the methods of a class, a transport is a
type with an instance, and a decorator is a structure around the transport that it
forwards to. A method is given the object and what lives outside of it, and returns
both as they are after the call, whether it throws or not.
-/

namespace SocValidation.Transport
open Device (Reply Source)

/-! ### TransactionLog -/

inductive Op where
  | read32
  | write32
  | readBlock
  | writeBlock
  deriving DecidableEq, Repr

structure Transaction where
  timestampNs : BitVec 64
  op : Op
  address : BitVec 64
  value : BitVec 32
  test : String
  deriving DecidableEq, Repr

/- The logs, which decorators refer to and may share, and the clock: `clock n` is
what its reading number `n` gives. -/
structure Host where
  clock : ℕ → BitVec 64
  readings : ℕ
  logs : ℕ → List Transaction

namespace Host

def size (h : Host) (log : ℕ) : ℕ := (h.logs log).length

def record (h : Host) (log : ℕ) (op : Op) (address : BitVec 64) (value : BitVec 32) (test : String) :
    Host :=
  { h with
    readings := h.readings + 1
    logs := Function.update h.logs log
      (h.logs log ++ [⟨h.clock h.readings, op, address, value, test⟩]) }

def clear (h : Host) (log : ℕ) : Host := { h with logs := Function.update h.logs log [] }

theorem record_logs (h : Host) (log : ℕ) (op : Op) (address : BitVec 64) (value : BitVec 32)
    (test : String) : (h.record log op address value test).logs log =
      h.logs log ++ [⟨h.clock h.readings, op, address, value, test⟩] := by
  rw [record]
  exact Function.update_self _ _ _

theorem record_logs_of_ne (h : Host) {log other : ℕ} (hne : other ≠ log) (op : Op) (address : BitVec 64)
    (value : BitVec 32) (test : String) :
    (h.record log op address value test).logs other = h.logs other := by
  rw [record]
  exact Function.update_of_ne hne _ _

end Host

/-! ### ITransport -/

class ITransport (σ : Type) where
  read32 : BitVec 64 → σ → Host → Except TransportError (BitVec 32) × σ × Host
  write32 : BitVec 64 → BitVec 32 → σ → Host → Except TransportError Unit × σ × Host
  readBlock : BitVec 64 → Bool → ℕ → σ → Host → Reply × σ × Host
  writeBlock : BitVec 64 → Source → σ → Host → Reply × σ × Host
  name : σ → String

instance : ITransport Device where
  read32 address d h := ((d.read32 address).1, (d.read32 address).2, h)
  write32 address value d h := ((d.write32 address value).1, (d.write32 address value).2, h)
  readBlock address out count d h :=
    ((d.readBlock address out count).1, (d.readBlock address out count).2, h)
  writeBlock address source d h := ((d.writeBlock address source).1, (d.writeBlock address source).2, h)
  name _ := "emulated"

def blockCount : Source → ℕ
  | .null count => count
  | .buffer words => words.length

/-! ### ProtocolTransport -/

structure ProtocolCost where
  bitsPerAccess : BitVec 32
  clockHz : Float

namespace ProtocolCost

def nsPerAccess (cost : ProtocolCost) : Float :=
  Float.ofNat cost.bitsPerAccess.toNat / cost.clockHz * 1e9

def nsPerBlock (cost : ProtocolCost) (count : ℕ) : Float :=
  cost.nsPerAccess + 0.25 * cost.nsPerAccess * Float.ofNat count

end ProtocolCost

structure ProtocolTransport (σ : Type) where
  backing : σ
  cost : ProtocolCost
  label : String
  simulatedNs : Float := 0.0
  accesses : BitVec 64 := 0

/- All four methods: the cost and the counter come before the call that may throw. -/
def ProtocolTransport.forward {σ ρ : Type} (ns : Float) (call : σ → Host → ρ × σ × Host)
    (t : ProtocolTransport σ) (h : Host) : ρ × ProtocolTransport σ × Host :=
  let r := call t.backing h
  (r.1, { t with backing := r.2.1, simulatedNs := t.simulatedNs + ns, accesses := t.accesses + 1 },
    r.2.2)

instance {σ : Type} [ITransport σ] : ITransport (ProtocolTransport σ) where
  read32 address t := t.forward t.cost.nsPerAccess (ITransport.read32 address)
  write32 address value t := t.forward t.cost.nsPerAccess (ITransport.write32 address value)
  readBlock address out count t :=
    t.forward (t.cost.nsPerBlock count) (ITransport.readBlock address out count)
  writeBlock address source t :=
    t.forward (t.cost.nsPerBlock (blockCount source)) (ITransport.writeBlock address source)
  name t := t.label

/-! ### LoggedTransport -/

structure LoggedTransport (σ : Type) where
  inner : σ
  log : ℕ
  test : String := "<none>"

namespace LoggedTransport
variable {σ ρ : Type}

def setTest (t : LoggedTransport σ) (test : String) : LoggedTransport σ := { t with test := test }

/- All four methods: the record comes after the call, so a call that throws makes
none. `recorded` is the recorded value where the call has returned. -/
def forward (op : Op) (address : BitVec 64) (recorded : ρ → Option (BitVec 32))
    (call : σ → Host → ρ × σ × Host) (t : LoggedTransport σ) (h : Host) :
    ρ × LoggedTransport σ × Host :=
  let r := call t.inner h
  (r.1, { t with inner := r.2.1 },
    match recorded r.1 with
    | some value => r.2.2.record t.log op address value t.test
    | none => r.2.2)

/- `static_cast<uint32_t>(count)` of a block that has come back. -/
def counted (count : ℕ) (reply : Reply) : Option (BitVec 32) :=
  if reply.error = none then some (BitVec.ofNat 32 count) else none

end LoggedTransport

instance {σ : Type} [ITransport σ] : ITransport (LoggedTransport σ) where
  read32 address := LoggedTransport.forward .read32 address Except.toOption (ITransport.read32 address)
  write32 address value :=
    LoggedTransport.forward .write32 address (fun r => r.toOption.map fun _ => value)
      (ITransport.write32 address value)
  readBlock address out count :=
    LoggedTransport.forward .readBlock address (LoggedTransport.counted count)
      (ITransport.readBlock address out count)
  writeBlock address source :=
    LoggedTransport.forward .writeBlock address (LoggedTransport.counted (blockCount source))
      (ITransport.writeBlock address source)
  name t := ITransport.name t.inner ++ "+log"

/-! ### Sequences of calls -/

inductive Call where
  | read32 (address : BitVec 64)
  | write32 (address : BitVec 64) (value : BitVec 32)
  | readBlock (address : BitVec 64) (out : Bool) (count : ℕ)
  | writeBlock (address : BitVec 64) (source : Source)
  deriving DecidableEq, Repr

namespace Call
variable {σ : Type} [ITransport σ]

def readReply : Except TransportError (BitVec 32) → Reply
  | .error e => { error := some e }
  | .ok w => { words := [w] }

def writeReply : Except TransportError Unit → Reply
  | .error e => { error := some e }
  | .ok _ => {}

def on : Call → σ → Host → Reply × σ × Host
  | .read32 address, s, h =>
    let r := ITransport.read32 address s h
    (readReply r.1, r.2)
  | .write32 address value, s, h =>
    let r := ITransport.write32 address value s h
    (writeReply r.1, r.2)
  | .readBlock address out count, s, h => ITransport.readBlock address out count s h
  | .writeBlock address source, s, h => ITransport.writeBlock address source s h

/- The caller catches what is thrown, and the calls go on. -/
def run (s : σ) (h : Host) (calls : List Call) : σ × Host :=
  calls.foldl (fun state call => (call.on state.1 state.2).2) (s, h)

def replies (s : σ) (h : Host) : List Call → List Reply
  | [] => []
  | call :: calls => (call.on s h).1 :: replies (call.on s h).2.1 (call.on s h).2.2 calls

theorem run_concat (s : σ) (h : Host) (calls : List Call) (call : Call) :
    run s h (calls ++ [call]) = (call.on (run s h calls).1 (run s h calls).2).2 := by
  rw [run, List.foldl_append]
  rfl

/- The same operation on the device itself. -/
def toOp : Call → Device.Op
  | .read32 address => .read32 address
  | .write32 address value => .write32 address value
  | .readBlock address out count => .readBlock address out count
  | .writeBlock address source => .writeBlock address source

theorem on_device (call : Call) (d : Device) (h : Host) :
    call.on d h = ((d.apply call.toOp).1, (d.apply call.toOp).2, h) := by
  cases call with
  | read32 address =>
    simp only [on, toOp, ITransport.read32, Device.apply]
    rcases hr : d.read32 address with ⟨r, d'⟩
    cases r <;> rfl
  | write32 address value =>
    simp only [on, toOp, ITransport.write32, Device.apply]
    rcases hr : d.write32 address value with ⟨r, d'⟩
    cases r <;> rfl
  | readBlock address out count => rfl
  | writeBlock address source => rfl

end Call
end SocValidation.Transport
