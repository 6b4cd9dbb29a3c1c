import Mathlib.Data.BitVec
import Mathlib.Logic.Function.Basic

/-!
# The emulated device (emulated_device.hpp, emulated_device.cpp)

Registers in a map from addresses to words, a policy for each decoded address,
and a DMA engine that a tick per access brings to completion. `operator[]` of the
map makes a missing key with the word 0.
-/

namespace SocValidation

structure TransportError where
  what : String
  address : BitVec 64
  deriving DecidableEq, Repr

structure RegPolicy where
  reset : BitVec 32
  roMask : BitVec 32
  w1cMask : BitVec 32
  deriving DecidableEq, Repr

structure Device where
  storage : BitVec 64 → Option (BitVec 32)
  ticks : BitVec 64
  latency : BitVec 64
  dmaDoneAt : BitVec 64
  dmaRunning : Bool

namespace Device

def kDmaBase : BitVec 64 := 0x40000000
def kDmaCtrl : BitVec 64 := kDmaBase + 0x00
def kDmaStatus : BitVec 64 := kDmaBase + 0x04
def kDmaIrq : BitVec 64 := kDmaBase + 0x08
def kDmaSrcAddr : BitVec 64 := kDmaBase + 0x0C
def kDmaDstAddr : BitVec 64 := kDmaBase + 0x10
def kDmaXferLen : BitVec 64 := kDmaBase + 0x14

def kPcieBase : BitVec 64 := 0x50000000
def kPcieLinkStatus : BitVec 64 := kPcieBase + 0x00
def kPcieLinkCtrl : BitVec 64 := kPcieBase + 0x04
def kPcieErrStatus : BitVec 64 := kPcieBase + 0x08

def kCtrlGo : BitVec 32 := 1#32 <<< 0
def kStatusIdle : BitVec 32 := 1#32 <<< 0
def kStatusBusy : BitVec 32 := 1#32 <<< 1
def kStatusDone : BitVec 32 := 1#32 <<< 2
def kIrqDone : BitVec 32 := 1#32 <<< 0

/- `policy_`, which the constructor fills and nothing changes. -/
def policy : List (BitVec 64 × RegPolicy) :=
  [(kDmaCtrl, ⟨0x00000000, 0x00000000, 0x00000000⟩),
    (kDmaStatus, ⟨0x00000001, 0xFFFFFFFF, 0x00000000⟩),
    (kDmaIrq, ⟨0x00000000, 0x00000000, 0x00000007⟩),
    (kDmaSrcAddr, ⟨0x00000000, 0x00000000, 0x00000000⟩),
    (kDmaDstAddr, ⟨0x00000000, 0x00000000, 0x00000000⟩),
    (kDmaXferLen, ⟨0x00000000, 0x00000000, 0x00000000⟩),
    (kPcieLinkStatus, ⟨0x00000000, 0xFFFFFFFF, 0x00000000⟩),
    (kPcieLinkCtrl, ⟨0x00000000, 0x00000000, 0x00000000⟩),
    (kPcieErrStatus, ⟨0x00000000, 0x00000000, 0x00000007⟩)]

def policyFor (address : BitVec 64) : Except TransportError RegPolicy :=
  match policy.find? fun entry => entry.1 = address with
  | some entry => .ok entry.2
  | none => .error ⟨"no register decoded at address", address⟩

/-! ### The map of words -/

def word (d : Device) (address : BitVec 64) : BitVec 32 := (d.storage address).getD 0

def store (d : Device) (address : BitVec 64) (value : BitVec 32) : Device :=
  { d with storage := Function.update d.storage address (some value) }

/- A read through `operator[]`. -/
def touch (d : Device) (address : BitVec 64) : Device :=
  if (d.storage address).isSome then d else d.store address 0

def reset (d : Device) : Device :=
  { d with
    storage := policy.foldl (fun m entry => Function.update m entry.1 (some entry.2.reset)) d.storage
    ticks := 0
    dmaRunning := false
    dmaDoneAt := 0 }

/- The constructor: the initial members, then `Reset`. -/
def fresh : Device := reset ⟨fun _ => none, 0, 8, 0, false⟩

/-! ### Single accesses -/

/- The transfer that is running completes on the next tick. -/
def due (d : Device) : Prop := d.dmaRunning = true ∧ d.dmaDoneAt ≤ d.ticks + 1

instance (d : Device) : Decidable d.due := inferInstanceAs (Decidable (_ ∧ _))

def tick (d : Device) : Device :=
  let ticked := { d with ticks := d.ticks + 1 }
  if d.due then
    let beats := (ticked.word kDmaXferLen &&& 0x00FFFFFF) / 4#32
    let reported := (ticked.touch kDmaXferLen).store kDmaStatus
      (kStatusIdle ||| kStatusDone ||| ((beats &&& 0xFFFF) <<< 8))
    { reported.store kDmaIrq (reported.word kDmaIrq ||| kIrqDone) with dmaRunning := false }
  else ticked

def read32 (d : Device) (address : BitVec 64) : Except TransportError (BitVec 32) × Device :=
  match policyFor address with
  | .error e => (.error e, d)
  | .ok _ => (.ok (d.tick.word address), d.tick.touch address)

def masked (policy : RegPolicy) (current value : BitVec 32) : BitVec 32 :=
  let cleared :=
    if policy.w1cMask ≠ 0 then current &&& ~~~(value &&& policy.w1cMask) else current
  let writable := ~~~(policy.roMask ||| policy.w1cMask)
  (cleared &&& ~~~writable) ||| (value &&& writable)

/- The side effect of GO. -/
def startDma (d : Device) (address : BitVec 64) (value : BitVec 32) : Device :=
  if address = kDmaCtrl ∧ value &&& kCtrlGo ≠ 0 ∧ d.dmaRunning = false then
    { d.store kDmaStatus kStatusBusy with dmaRunning := true, dmaDoneAt := d.ticks + d.latency }
  else d

/- The side effect of RETRAIN: LINK_UP, SPEED, WIDTH x16, LTSSM L0. -/
def trainLink (d : Device) (address : BitVec 64) (value : BitVec 32) : Device :=
  if address = kPcieLinkCtrl ∧ value &&& 0x1 ≠ 0 then
    let targetSpeed := (value >>> 1) &&& 0x7
    d.store kPcieLinkStatus (0x1 ||| (targetSpeed <<< 1) ||| (16#32 <<< 4) ||| (0x10#32 <<< 10))
  else d

def write32 (d : Device) (address : BitVec 64) (value : BitVec 32) :
    Except TransportError Unit × Device :=
  match policyFor address with
  | .error e => (.error e, d)
  | .ok policy =>
    let written := d.tick.store address (masked policy (d.tick.word address) value)
    (.ok (), (written.startDma address value).trainLink address value)

/-! ### Block accesses -/

/- What a call gives back: the words it has delivered and the exception, if any. -/
structure Reply where
  words : List (BitVec 32) := []
  error : Option TransportError := none
  deriving DecidableEq, Repr

def readFrom (address : BitVec 64) : ℕ → ℕ → Device → Reply × Device
  | 0, _, d => ({}, d)
  | count + 1, i, d =>
    match d.read32 (address + BitVec.ofNat 64 (i * 4)) with
    | (.error e, d) => ({ error := some e }, d)
    | (.ok w, d) =>
      let rest := readFrom address count (i + 1) d
      ({ rest.1 with words := w :: rest.1.words }, rest.2)

/-- `ReadBlock`; `out` says whether there is a buffer. -/
def readBlock (d : Device) (address : BitVec 64) (out : Bool) (count : ℕ) : Reply × Device :=
  if out = false ∧ count ≠ 0 then
    ({ error := some ⟨"ReadBlock called with a null buffer", address⟩ }, d)
  else readFrom address count 0 d

def writeFrom (address : BitVec 64) : List (BitVec 32) → ℕ → Device → Reply × Device
  | [], _, d => ({}, d)
  | w :: ws, i, d =>
    match d.write32 (address + BitVec.ofNat 64 (i * 4)) w with
    | (.error e, d) => ({ error := some e }, d)
    | (.ok _, d) => writeFrom address ws (i + 1) d

inductive Source where
  | null (count : ℕ)
  | buffer (words : List (BitVec 32))
  deriving DecidableEq, Repr

def writeBlock (d : Device) (address : BitVec 64) : Source → Reply × Device
  | .null count =>
    if count ≠ 0 then ({ error := some ⟨"WriteBlock called with a null buffer", address⟩ }, d)
    else ({}, d)
  | .buffer words => writeFrom address words 0 d

/-! ### Operations and runs -/

inductive Op where
  | read32 (address : BitVec 64)
  | write32 (address : BitVec 64) (value : BitVec 32)
  | readBlock (address : BitVec 64) (out : Bool) (count : ℕ)
  | writeBlock (address : BitVec 64) (source : Source)
  | reset
  | setTransferLatency (ticks : BitVec 64)
  deriving DecidableEq, Repr

def apply (d : Device) : Op → Reply × Device
  | .read32 address =>
    match d.read32 address with
    | (.error e, d) => ({ error := some e }, d)
    | (.ok w, d) => ({ words := [w] }, d)
  | .write32 address value =>
    match d.write32 address value with
    | (.error e, d) => ({ error := some e }, d)
    | (.ok _, d) => ({}, d)
  | .readBlock address out count => d.readBlock address out count
  | .writeBlock address source => d.writeBlock address source
  | .reset => ({}, d.reset)
  | .setTransferLatency ticks => ({}, { d with latency := ticks })

/- Whatever throws is caught, and the run goes on. -/
def run (d : Device) (ops : List Op) : Device := ops.foldl (fun d op => (d.apply op).2) d

def Reachable (d : Device) : Prop := ∃ ops, d = fresh.run ops

/-! ### An operation as a sequence of word accesses -/

inductive Access where
  | read (address : BitVec 64)
  | write (address : BitVec 64) (value : BitVec 32)
  deriving DecidableEq, Repr

def Access.address : Access → BitVec 64
  | .read address => address
  | .write address _ => address

def decoded (address : BitVec 64) : Bool := (policyFor address).toOption.isSome

inductive Effect where
  | access (a : Access)
  | reset
  | latency (ticks : BitVec 64)
  deriving DecidableEq, Repr

def access (d : Device) : Access → Device
  | .read address => (d.read32 address).2
  | .write address value => (d.write32 address value).2

def effect (d : Device) : Effect → Device
  | .access a => d.access a
  | .reset => d.reset
  | .latency ticks => { d with latency := ticks }

/- The word accesses an operation asks for, up to the first that throws. -/
def reads (address : BitVec 64) : ℕ → ℕ → List Access
  | 0, _ => []
  | count + 1, i =>
    let word := address + BitVec.ofNat 64 (i * 4)
    if decoded word then .read word :: reads address count (i + 1) else []

def writes (address : BitVec 64) : List (BitVec 32) → ℕ → List Access
  | [], _ => []
  | w :: ws, i =>
    let word := address + BitVec.ofNat 64 (i * 4)
    if decoded word then .write word w :: writes address ws (i + 1) else []

def Op.accesses : Op → List Access
  | .read32 address => if decoded address then [.read address] else []
  | .write32 address value => if decoded address then [.write address value] else []
  | .readBlock address out count => if out = false ∧ count ≠ 0 then [] else reads address count 0
  | .writeBlock _ (.null _) => []
  | .writeBlock address (.buffer words) => writes address words 0
  | .reset => []
  | .setTransferLatency _ => []

def Op.effects : Op → List Effect
  | .reset => [.reset]
  | .setTransferLatency ticks => [.latency ticks]
  | op => op.accesses.map .access

end Device
end SocValidation
