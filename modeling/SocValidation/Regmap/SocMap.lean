import SocValidation.Regmap.Fields

/-!
# The register map of the sample SoC (soc.yaml)

The map as the YAML loader gives it, and the code that `generate` makes of it.
All its registers have their fields inside the word and apart.
-/

namespace SocValidation.Regmap

/-! ### The map -/

def entry (key : String) (value : Yaml) : Yaml × Yaml := (.str key, value)

def fieldEntry (name bits access : String) (more : List (Yaml × Yaml)) : Yaml :=
  .map ([entry "name" (.str name), entry "bits" (.str bits), entry "access" (.str access)] ++ more)

def registerEntry (name : String) (offset reset : ℤ) (access : String) (fields : List Yaml) : Yaml :=
  .map [entry "name" (.str name), entry "offset" (.int offset), entry "width" (.int 32),
    entry "reset" (.int reset), entry "access" (.str access), entry "fields" (.seq fields)]

def describe (text : String) : List (Yaml × Yaml) := [entry "description" (.str text)]

def enumOf (values : List (String × ℤ)) : List (Yaml × Yaml) :=
  values.map fun v => entry v.1 (.int v.2)

def generations : List (Yaml × Yaml) := enumOf [("GEN1", 1), ("GEN2", 2), ("GEN3", 3), ("GEN4", 4)]

def modes : List (Yaml × Yaml) := enumOf [("SINGLE", 0), ("SCATTER", 1), ("GATHER", 2), ("RING", 3)]

def dmaBlock : Yaml :=
  .map [entry "name" (.str "DMA"), entry "base" (.int 0x40000000),
    entry "description" (.str "Scatter-gather DMA engine"),
    entry "registers" (.seq [
      registerEntry "CTRL" 0x00 0 "RW" [
        fieldEntry "GO" "0" "RW" (describe "1 starts a transfer"),
        fieldEntry "ABORT" "1" "RW" [],
        fieldEntry "IRQ_EN" "2" "RW" [],
        fieldEntry "BURST_LEN" "11:4" "RW" (describe "beats per burst"),
        fieldEntry "CHANNEL" "15:12" "RW" [],
        fieldEntry "MODE" "17:16" "RW" [entry "enum" (.map modes)]],
      registerEntry "STATUS" 0x04 1 "RO" [
        fieldEntry "IDLE" "0" "RO" [],
        fieldEntry "BUSY" "1" "RO" [],
        fieldEntry "DONE" "2" "RO" [],
        fieldEntry "BEATS" "23:8" "RO" (describe "beats transferred")],
      registerEntry "IRQ_STATUS" 0x08 0 "RW" [
        fieldEntry "DONE_IRQ" "0" "W1C" [],
        fieldEntry "ERR_IRQ" "1" "W1C" [],
        fieldEntry "OVERFLOW" "2" "W1C" []],
      registerEntry "SRC_ADDR" 0x0C 0 "RW" [fieldEntry "ADDR" "31:0" "RW" []],
      registerEntry "DST_ADDR" 0x10 0 "RW" [fieldEntry "ADDR" "31:0" "RW" []],
      registerEntry "XFER_LEN" 0x14 0 "RW" [fieldEntry "BYTES" "23:0" "RW" []]])]

def pcieBlock : Yaml :=
  .map [entry "name" (.str "PCIE"), entry "base" (.int 0x50000000),
    entry "description" (.str "PCIe-style link status block"),
    entry "registers" (.seq [
      registerEntry "LINK_STATUS" 0x00 0 "RO" [
        fieldEntry "LINK_UP" "0" "RO" [],
        fieldEntry "SPEED" "3:1" "RO" [entry "enum" (.map generations)],
        fieldEntry "WIDTH" "9:4" "RO" (describe "negotiated lanes"),
        fieldEntry "LTSSM" "15:10" "RO" (describe "link training state")],
      registerEntry "LINK_CTRL" 0x04 0 "RW" [
        fieldEntry "RETRAIN" "0" "RW" [],
        fieldEntry "TARGET_SPEED" "3:1" "RW" [entry "enum" (.map generations)]],
      registerEntry "ERR_STATUS" 0x08 0 "RW" [
        fieldEntry "CORRECTABLE" "0" "W1C" [],
        fieldEntry "FATAL" "1" "W1C" [],
        fieldEntry "REPLAY_TIMEOUT" "2" "W1C" []]])]

def socYaml : Yaml := .map [entry "blocks" (.seq [dmaBlock, pcieBlock])]

/-! ### The generated code -/

theorem mask_of_le {hi lo : ℕ} (h : lo ≤ hi) :
    mask hi lo = .ok ((2 ^ (hi - lo + 1) - 1) * 2 ^ lo) := by
  have htop : ¬(hi : ℤ) - lo + 1 < 0 := by omega
  have hexp : ((hi : ℤ) - lo + 1).toNat = hi - lo + 1 := by omega
  simp [mask, shl, htop, hexp, bind, Except.bind]

def makeField (name : String) (hi lo : ℕ) (access : String) (description : Option String)
    (enum : List (Yaml × Yaml)) (ordered : lo ≤ hi) (inWord : hi ≤ 31) : Field where
  name := .str name
  bits := ⟨hi, lo, Int.ofNat_le.mpr ordered⟩
  access := access
  m := (2 ^ (hi - lo + 1) - 1) * 2 ^ lo
  description := description.map .str
  enum := enum
  mask_eq := mask_of_le ordered
  inWord := Int.ofNat_le.mpr inWord

def makeRegister (block name : String) (address : ℤ) (access : String) (reset : ℤ)
    (fields : List Field) (apart : fields.Pairwise Field.Apart) : Layout where
  reg := ⟨.str block, .str name, address, access, none, reset, fields.map Field.toFieldCode⟩
  fields := fields
  fields_eq := rfl
  apart := apart

def ctrlGO : Field := makeField "GO" 0 0 "RW" (some "1 starts a transfer") [] (by decide) (by decide)
def ctrlABORT : Field := makeField "ABORT" 1 1 "RW" none [] (by decide) (by decide)
def ctrlIRQ_EN : Field := makeField "IRQ_EN" 2 2 "RW" none [] (by decide) (by decide)
def ctrlBURST_LEN : Field :=
  makeField "BURST_LEN" 11 4 "RW" (some "beats per burst") [] (by decide) (by decide)
def ctrlCHANNEL : Field := makeField "CHANNEL" 15 12 "RW" none [] (by decide) (by decide)
def ctrlMODE : Field := makeField "MODE" 17 16 "RW" none modes (by decide) (by decide)

def statusIDLE : Field := makeField "IDLE" 0 0 "RO" none [] (by decide) (by decide)
def statusBUSY : Field := makeField "BUSY" 1 1 "RO" none [] (by decide) (by decide)
def statusDONE : Field := makeField "DONE" 2 2 "RO" none [] (by decide) (by decide)
def statusBEATS : Field :=
  makeField "BEATS" 23 8 "RO" (some "beats transferred") [] (by decide) (by decide)

def irqDONE_IRQ : Field := makeField "DONE_IRQ" 0 0 "W1C" none [] (by decide) (by decide)
def irqERR_IRQ : Field := makeField "ERR_IRQ" 1 1 "W1C" none [] (by decide) (by decide)
def irqOVERFLOW : Field := makeField "OVERFLOW" 2 2 "W1C" none [] (by decide) (by decide)

def wordADDR : Field := makeField "ADDR" 31 0 "RW" none [] (by decide) (by decide)
def xferBYTES : Field := makeField "BYTES" 23 0 "RW" none [] (by decide) (by decide)

def linkLINK_UP : Field := makeField "LINK_UP" 0 0 "RO" none [] (by decide) (by decide)
def linkSPEED : Field := makeField "SPEED" 3 1 "RO" none generations (by decide) (by decide)
def linkWIDTH : Field := makeField "WIDTH" 9 4 "RO" (some "negotiated lanes") [] (by decide) (by decide)
def linkLTSSM : Field :=
  makeField "LTSSM" 15 10 "RO" (some "link training state") [] (by decide) (by decide)

def ctrlRETRAIN : Field := makeField "RETRAIN" 0 0 "RW" none [] (by decide) (by decide)
def ctrlTARGET_SPEED : Field :=
  makeField "TARGET_SPEED" 3 1 "RW" none generations (by decide) (by decide)

def errCORRECTABLE : Field := makeField "CORRECTABLE" 0 0 "W1C" none [] (by decide) (by decide)
def errFATAL : Field := makeField "FATAL" 1 1 "W1C" none [] (by decide) (by decide)
def errREPLAY_TIMEOUT : Field :=
  makeField "REPLAY_TIMEOUT" 2 2 "W1C" none [] (by decide) (by decide)

def dmaCTRL : Layout := makeRegister "DMA" "CTRL" 0x40000000 "RW" 0
  [ctrlGO, ctrlABORT, ctrlIRQ_EN, ctrlBURST_LEN, ctrlCHANNEL, ctrlMODE] (by decide)

def dmaSTATUS : Layout := makeRegister "DMA" "STATUS" 0x40000004 "RO" 1
  [statusIDLE, statusBUSY, statusDONE, statusBEATS] (by decide)

def dmaIRQ_STATUS : Layout := makeRegister "DMA" "IRQ_STATUS" 0x40000008 "RW" 0
  [irqDONE_IRQ, irqERR_IRQ, irqOVERFLOW] (by decide)

def dmaSRC_ADDR : Layout := makeRegister "DMA" "SRC_ADDR" 0x4000000C "RW" 0 [wordADDR] (by decide)

def dmaDST_ADDR : Layout := makeRegister "DMA" "DST_ADDR" 0x40000010 "RW" 0 [wordADDR] (by decide)

def dmaXFER_LEN : Layout := makeRegister "DMA" "XFER_LEN" 0x40000014 "RW" 0 [xferBYTES] (by decide)

def pcieLINK_STATUS : Layout := makeRegister "PCIE" "LINK_STATUS" 0x50000000 "RO" 0
  [linkLINK_UP, linkSPEED, linkWIDTH, linkLTSSM] (by decide)

def pcieLINK_CTRL : Layout := makeRegister "PCIE" "LINK_CTRL" 0x50000004 "RW" 0
  [ctrlRETRAIN, ctrlTARGET_SPEED] (by decide)

def pcieERR_STATUS : Layout := makeRegister "PCIE" "ERR_STATUS" 0x50000008 "RW" 0
  [errCORRECTABLE, errFATAL, errREPLAY_TIMEOUT] (by decide)

def socCode : List BlockCode :=
  [⟨.str "DMA", 0x40000000, [dmaCTRL.reg, dmaSTATUS.reg, dmaIRQ_STATUS.reg, dmaSRC_ADDR.reg,
      dmaDST_ADDR.reg, dmaXFER_LEN.reg]⟩,
    ⟨.str "PCIE", 0x50000000, [pcieLINK_STATUS.reg, pcieLINK_CTRL.reg, pcieERR_STATUS.reg]⟩]

theorem generate_socYaml : generate socYaml = .ok socCode := rfl

end SocValidation.Regmap
