import Mathlib.Data.List.DropRight
import Mathlib.Tactic.Ring

/-!
# The register generator (generate_registers.py)

`generate` turns a loaded YAML description into code or raises. Of the code it
writes the model keeps what the lines interpolate: names, bit positions, masks,
access, addresses and reset values. The interpreter's limits on digits and
memory are not modelled.
-/

namespace SocValidation.Regmap

inductive PyError where
  | key (name : String)
  | type
  | attribute (name : String)
  | invalidLiteral (text : String)
  | unpack
  | negativeShift
  | overflow
  | badRange
  deriving DecidableEq, Repr

/- What `yaml.safe_load` builds from untagged nodes. A `scalar` is a float or a
timestamp, given by its truth value and by what `int()` makes of it. -/
inductive Yaml where
  | null
  | bool (b : Bool)
  | int (n : ℤ)
  | str (s : String)
  | scalar (truth : Bool) (asInt : Except PyError ℤ)
  | seq (items : List Yaml)
  | map (entries : List (Yaml × Yaml))

/-! ### int() of a text -/

/- The zeros of the decimal digits of Unicode; each is followed by its nine. -/
def decimalZeros : List ℕ :=
  [0x30, 0x660, 0x6F0, 0x7C0, 0x966, 0x9E6, 0xA66, 0xAE6, 0xB66, 0xBE6, 0xC66, 0xCE6, 0xD66, 0xDE6,
    0xE50, 0xED0, 0xF20, 0x1040, 0x1090, 0x17E0, 0x1810, 0x1946, 0x19D0, 0x1A80, 0x1A90, 0x1B50,
    0x1BB0, 0x1C40, 0x1C50, 0xA620, 0xA8D0, 0xA900, 0xA9D0, 0xA9F0, 0xAA50, 0xABF0, 0xFF10, 0x104A0,
    0x10D30, 0x11066, 0x110F0, 0x11136, 0x111D0, 0x112F0, 0x11450, 0x114D0, 0x11650, 0x116C0,
    0x11730, 0x118E0, 0x11950, 0x11C50, 0x11D50, 0x11DA0, 0x16A60, 0x16AC0, 0x16B50, 0x1D7CE,
    0x1D7D8, 0x1D7E2, 0x1D7EC, 0x1D7F6, 0x1E140, 0x1E2F0, 0x1E950, 0x1FBF0]

def digitOf (c : Char) : Option ℕ :=
  (decimalZeros.find? fun z => z ≤ c.toNat && c.toNat < z + 10).map fun z => c.toNat - z

/- The white space that `int()` skips: of the ASCII separators 0x1C to 0x1F none. -/
def isIntSpace (c : Char) : Bool :=
  let n := c.toNat
  (9 ≤ n && n ≤ 13) || n = 32 || n = 0x85 || n = 0xA0 || n = 0x1680 || (0x2000 ≤ n && n ≤ 0x200A) ||
    n = 0x2028 || n = 0x2029 || n = 0x202F || n = 0x205F || n = 0x3000

/- Digits with single underscores between them; `due` says that a digit must
follow. -/
def readDigits : Bool → ℕ → List Char → Option ℕ
  | due, acc, [] => if due then none else some acc
  | due, acc, c :: cs =>
    if c = '_' then (if due then none else readDigits true acc cs)
    else (digitOf c).bind fun d => readDigits false (acc * 10 + d) cs

def readInt (text : List Char) : Option ℤ :=
  match (text.dropWhile isIntSpace).rdropWhile isIntSpace with
  | '-' :: cs => (readDigits true 0 cs).map fun n => -(n : ℤ)
  | '+' :: cs => (readDigits true 0 cs).map fun n => (n : ℤ)
  | cs => (readDigits true 0 cs).map fun n => (n : ℤ)

/- `int(text)`. -/
def intOfText (text : List Char) : Except PyError ℤ :=
  match readInt text with
  | some n => .ok n
  | none => .error (.invalidLiteral (String.ofList text))

/-! ### What the script does with loaded values -/

namespace Yaml

def isKey (key : String) : Yaml → Bool
  | .str s => s == key
  | _ => false

/- `value[key]`. -/
def item (key : String) : Yaml → Except PyError Yaml
  | .map entries =>
    match entries.find? fun e => e.1.isKey key with
    | some e => .ok e.2
    | none => .error (.key key)
  | _ => .error .type

/- `value.get(key)`. -/
def get? (key : String) : Yaml → Except PyError (Option Yaml)
  | .map entries => .ok ((entries.find? fun e => e.1.isKey key).map Prod.snd)
  | _ => .error (.attribute "get")

/- `int(value)`. -/
def toInt : Yaml → Except PyError ℤ
  | .bool b => .ok (if b then 1 else 0)
  | .int n => .ok n
  | .str s => intOfText s.toList
  | .scalar _ asInt => asInt
  | _ => .error .type

def truthy : Yaml → Bool
  | .null => false
  | .bool b => b
  | .int n => n != 0
  | .str s => s != ""
  | .scalar truth _ => truth
  | .seq items => !items.isEmpty
  | .map entries => !entries.isEmpty

/- `value.upper()`. Only ASCII letters are changed: no other character has an
upper case among those of `RW` and `W1C`. -/
def upper : Yaml → Except PyError String
  | .str s => .ok (String.ofList (s.toList.map Char.toUpper))
  | _ => .error (.attribute "upper")

/- `for x in value`. -/
def iter : Yaml → Except PyError (List Yaml)
  | .str s => .ok (s.toList.map fun c => .str (String.ofList [c]))
  | .seq items => .ok items
  | .map entries => .ok (entries.map Prod.fst)
  | _ => .error .type

/- `value.items()`. -/
def items : Yaml → Except PyError (List (Yaml × Yaml))
  | .map entries => .ok entries
  | _ => .error (.attribute "items")

/- `str(value)` where it can be the text of a number; the text of any other value
is no such text, and none of its parts between colons is. -/
def text : Yaml → List Char
  | .int n => (toString n).toList
  | .str s => s.toList
  | .null => "None".toList
  | .bool b => (if b then "True" else "False").toList
  | _ => "?".toList

end Yaml

/-! ### parse_bits and mask -/

structure Bits where
  hi : ℤ
  lo : ℤ
  ordered : lo ≤ hi
  deriving DecidableEq

/-- `parse_bits`. The parts are converted one after another, a third one before
the unpacking fails. -/
def parseBits (spec : Yaml) : Except PyError Bits :=
  let parsed : Except PyError (ℤ × ℤ) :=
    if ':' ∈ spec.text then
      ((spec.text.splitOn ':').take 3).mapM intOfText >>= fun parts =>
        match parts with
        | [hi, lo] => .ok (hi, lo)
        | _ => .error .unpack
    else (intOfText spec.text).map fun n => (n, n)
  parsed >>= fun p => if h : p.1 < p.2 then .error .badRange else .ok ⟨p.1, p.2, Int.not_lt.mp h⟩

/- Python's `a << n`. -/
def shl (a n : ℤ) : Except PyError ℤ := if n < 0 then .error .negativeShift else .ok (a * 2 ^ n.toNat)

def mask (hi lo : ℤ) : Except PyError ℤ := shl 1 (hi - lo + 1) >>= fun top => shl (top - 1) lo

theorem mask_eq_ok {hi lo m : ℤ} (h : mask hi lo = .ok m) :
    0 ≤ lo ∧ m = (2 ^ (hi - lo + 1).toNat - 1) * 2 ^ lo.toNat := by
  unfold mask shl at h
  split at h
  · cases h
  · simp only [bind, Except.bind] at h
    split at h
    · cases h
    next hlo =>
      cases h
      exact ⟨by omega, by ring⟩

/-! ### emit_field, emit_register, generate -/

/-- What the lines of one field interpolate. The getter is always there, the
setter when `access` is `RW`, the clearer when it is `W1C`. -/
structure FieldCode where
  name : Yaml
  bits : Bits
  access : String
  m : ℤ
  description : Option Yaml
  enum : List (Yaml × Yaml)
  mask_eq : mask bits.hi bits.lo = .ok m

def accessOf (value : Yaml) : Except PyError String :=
  value.get? "access" >>= fun access => (access.getD (.str "RW")).upper

def emitField (field : Yaml) : Except PyError FieldCode :=
  field.item "name" >>= fun name =>
  field.item "bits" >>= fun spec =>
  parseBits spec >>= fun bits =>
  accessOf field >>= fun access =>
  match h : mask bits.hi bits.lo with
  | .error e => .error e
  | .ok m =>
    field.get? "description" >>= fun description =>
    field.get? "enum" >>= fun enum =>
    (match enum.filter Yaml.truthy with
      | some enum => enum.items
      | none => .ok []) >>= fun entries =>
    .ok ⟨name, bits, access, m, description.filter Yaml.truthy, entries, h⟩

structure RegisterCode where
  block : Yaml
  name : Yaml
  address : ℤ
  access : String
  description : Option Yaml
  reset : ℤ
  fields : List FieldCode

def emitRegister (block reg : Yaml) : Except PyError RegisterCode :=
  block.item "name" >>= fun blockName =>
  reg.item "name" >>= fun regName =>
  block.item "base" >>= fun base =>
  base.toInt >>= fun base =>
  reg.item "offset" >>= fun offset =>
  offset.toInt >>= fun offset =>
  accessOf reg >>= fun access =>
  reg.get? "description" >>= fun description =>
  reg.item "reset" >>= fun reset =>
  reset.toInt >>= fun reset =>
  reg.get? "fields" >>= fun fields =>
  (fields.getD (.seq [])).iter >>= fun fields =>
  fields.mapM emitField >>= fun fields =>
  .ok ⟨blockName, regName, base + offset, access, description.filter Yaml.truthy, reset, fields⟩

structure BlockCode where
  name : Yaml
  base : ℤ
  registers : List RegisterCode

def emitBlock (block : Yaml) : Except PyError BlockCode :=
  block.item "name" >>= fun name =>
  block.item "base" >>= fun base =>
  base.toInt >>= fun base =>
  block.item "registers" >>= fun registers =>
  registers.iter >>= fun registers =>
  registers.mapM (emitRegister block) >>= fun registers =>
  .ok ⟨name, base, registers⟩

/-- `generate`: the loop over the blocks. -/
def generate (spec : Yaml) : Except PyError (List BlockCode) :=
  spec.item "blocks" >>= fun blocks => blocks.iter >>= fun blocks => blocks.mapM emitBlock

end SocValidation.Regmap
