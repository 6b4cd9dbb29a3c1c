import SocValidation.Lib.BitRange
import SocValidation.Lib.Trace
import SocValidation.Regmap.Generator

/-!
# The generated accessors (generate_registers.py:54-98)

A field inside bits 31:0 has 32-bit mask literals, and its accessors are the
operations of a bit range. The generator checks neither that a field is inside
the word nor that two fields of a register are apart, so what one mutator leaves
alone depends on the map.
-/

namespace SocValidation.Regmap
open BitRange

structure Field extends FieldCode where
  inWord : bits.hi ≤ 31

namespace Field
variable (f g : Field) (raw v u : BitVec 32)

/-- `0x{m:08X}u` -/
def literal : BitVec 32 := BitVec.ofInt 32 f.m

/-- `(raw & 0x{m:08X}u) >> {lo}` -/
def getter : BitVec 32 := (raw &&& f.literal) >>> f.bits.lo.toNat

/-- `(raw & ~0x{m:08X}u) | ((v << {lo}) & 0x{m:08X}u)` -/
def setter : BitVec 32 := (raw &&& ~~~f.literal) ||| ((v <<< f.bits.lo.toNat) &&& f.literal)

/-- `raw |= 0x{m:08X}u` -/
def clearer : BitVec 32 := raw ||| f.literal

theorem lo_nonneg : 0 ≤ f.bits.lo := (mask_eq_ok f.mask_eq).1

def range : Range 32 where
  hi := f.bits.hi.toNat
  lo := f.bits.lo.toNat
  lo_le := Int.toNat_le_toNat f.bits.ordered
  hi_lt := by
    have hlo := f.lo_nonneg
    have hin := f.inWord
    omega

theorem width_eq : f.range.width = (f.bits.hi - f.bits.lo + 1).toNat := by
  have hlo := f.lo_nonneg
  have hord := f.bits.ordered
  simp only [Range.width, range]
  omega

/-- Python's unbounded mask, cut to 32 bits, is the mask of the range. -/
theorem literal_eq : f.literal = f.range.mask := by
  have hm := (mask_eq_ok f.mask_eq).2
  have hw : (f.bits.hi - f.bits.lo + 1).toNat = f.range.hi - f.range.lo + 1 := f.width_eq.symm
  have hpos : 1 ≤ 2 ^ (f.range.hi - f.range.lo + 1) := Nat.one_le_two_pow
  have hcast : f.m = (((2 ^ (f.range.hi - f.range.lo + 1) - 1) * 2 ^ f.range.lo : ℕ) : ℤ) := by
    rw [hm, hw]
    push_cast [hpos]
    rfl
  rw [literal, hcast, BitVec.ofInt_natCast, Range.mask]

theorem getter_eq : f.getter raw = f.range.get raw := by rw [getter, literal_eq]; rfl

theorem setter_eq : f.setter raw v = f.range.put raw v := by rw [setter, literal_eq]; rfl

theorem clearer_eq : f.clearer raw = f.range.fill raw := by rw [clearer, literal_eq]; rfl

theorem has_range_iff (b : ℕ) : f.range.Has b ↔ f.bits.lo ≤ b ∧ b ≤ f.bits.hi := by
  have hlo := f.lo_nonneg
  have hord := f.bits.ordered
  simp only [Range.Has, range]
  constructor
  · intro h
    omega
  · intro h
    omega

/- At the low end of the word there is nothing to shift. -/
theorem getter_low (h : f.bits.lo = 0) : f.getter raw = raw &&& f.literal := by
  rw [getter, h]
  exact BitVec.ushiftRight_zero _

theorem getter_eq_zero_iff :
    f.getter raw = 0 ↔ ∀ b : ℕ, f.bits.lo ≤ b ∧ b ≤ f.bits.hi → raw.getLsbD b = false := by
  rw [getter_eq, Range.get_eq_zero_iff]
  simp only [has_range_iff]

theorem getter_eq_one_iff (h : f.bits.hi = f.bits.lo) :
    f.getter raw = 1 ↔ raw.getLsbD f.bits.lo.toNat = true := by
  rw [getter_eq]
  exact Range.get_eq_one_iff f.range raw (congrArg Int.toNat h)

theorem getter_bit (h : f.bits.hi = f.bits.lo) : f.getter raw = 0 ∨ f.getter raw = 1 := by
  have hlo := f.lo_nonneg
  cases hb : raw.getLsbD f.bits.lo.toNat with
  | true => exact Or.inr ((f.getter_eq_one_iff raw h).mpr hb)
  | false =>
    refine Or.inl ((f.getter_eq_zero_iff raw).mpr fun b hbits => ?_)
    rwa [show b = f.bits.lo.toNat by omega]

def Mutates (raw' : BitVec 32) : Prop :=
  f.access = "RW" ∧ (∃ v, raw' = f.setter raw v) ∨ f.access = "W1C" ∧ raw' = f.clearer raw

def Mutable : Prop := f.access = "RW" ∨ f.access = "W1C"

def Apart : Prop := f.bits.hi < g.bits.lo ∨ g.bits.hi < f.bits.lo

instance : Decidable (f.Apart g) := inferInstanceAs (Decidable (_ ∨ _))

theorem apart_iff : f.Apart g ↔ f.range.Disjoint g.range := by
  have hf := f.lo_nonneg
  have hg := g.lo_nonneg
  have hfo := f.bits.ordered
  have hgo := g.bits.ordered
  unfold Apart Range.Disjoint range
  constructor
  · intro h
    dsimp only
    omega
  · intro h
    dsimp only at h
    omega

/-- A field's mutator never shows in another field's getter just when the two are
apart, or there is no mutator. -/
theorem mutates_frame_iff :
    (∀ raw raw', f.Mutates raw raw' → g.getter raw' = g.getter raw) ↔ (f.Mutable → f.Apart g) := by
  constructor
  · intro h hm
    by_contra hn
    rw [apart_iff] at hn
    rcases hm with hrw | hw1c
    · have heq := h 0 (f.setter 0 (BitVec.allOnes 32)) (Or.inl ⟨hrw, _, rfl⟩)
      rw [getter_eq, getter_eq, setter_eq] at heq
      exact Range.get_put_ne hn heq
    · have heq := h 0 (f.clearer 0) (Or.inr ⟨hw1c, rfl⟩)
      rw [getter_eq, getter_eq, clearer_eq] at heq
      exact Range.get_fill_ne hn heq
  · intro h raw raw' hm
    rcases hm with ⟨hrw, v, rfl⟩ | ⟨hw1c, rfl⟩
    · rw [getter_eq, getter_eq, setter_eq]
      exact Range.get_put_of_disjoint raw v ((f.apart_iff g).mp (h (Or.inl hrw)))
    · rw [getter_eq, getter_eq, clearer_eq]
      exact Range.get_fill_of_disjoint raw ((f.apart_iff g).mp (h (Or.inr hw1c)))

end Field

/-! ### Maps that the generator accepts -/

/-- What acceptance gives: every field has an ordered range of bits that are not
negative, and of two fields in the word one disturbs the other exactly where
they share a bit. -/
theorem generate_fields (spec : Yaml) : ∀ code, generate spec = .ok code →
    ∀ block ∈ code, ∀ reg ∈ block.registers,
      (∀ f ∈ reg.fields, 0 ≤ f.bits.lo ∧ f.bits.lo ≤ f.bits.hi) ∧
      ∀ f g : Field, f.toFieldCode ∈ reg.fields → g.toFieldCode ∈ reg.fields →
        ((∀ raw raw', f.Mutates raw raw' → g.getter raw' = g.getter raw) ↔
          (f.Mutable → f.Apart g)) := by
  intro code _ block _ reg _
  refine ⟨fun f _ => ⟨(mask_eq_ok f.mask_eq).1, f.bits.ordered⟩, fun f g _ _ => ?_⟩
  exact f.mutates_frame_iff g

/- A register with one field inside another. -/
def overlappingMap : Yaml :=
  .map [(.str "blocks", .seq [.map [
    (.str "name", .str "DMA"), (.str "base", .int 0x40000000),
    (.str "registers", .seq [.map [
      (.str "name", .str "CTRL"), (.str "offset", .int 0), (.str "reset", .int 0),
      (.str "fields", .seq [
        .map [(.str "name", .str "MODE"), (.str "bits", .str "3:0")],
        .map [(.str "name", .str "GO"), (.str "bits", .str "0")]])]])]])]

def modeField : Field := ⟨⟨.str "MODE", ⟨3, 0, by decide⟩, "RW", 0xF, none, [], rfl⟩, by decide⟩

def goField : Field := ⟨⟨.str "GO", ⟨0, 0, by decide⟩, "RW", 0x1, none, [], rfl⟩, by decide⟩

def overlappingCode : List BlockCode :=
  [⟨.str "DMA", 0x40000000, [⟨.str "DMA", .str "CTRL", 0x40000000, "RW", none, 0,
    [modeField.toFieldCode, goField.toFieldCode]⟩]⟩]

theorem generate_overlappingMap : generate overlappingMap = .ok overlappingCode := rfl

theorem generate_fields_overlappingMap :
    (∀ raw raw', goField.Mutates raw raw' → modeField.getter raw' = modeField.getter raw) ↔
      (goField.Mutable → goField.Apart modeField) :=
  (generate_fields overlappingMap overlappingCode generate_overlappingMap _ (List.mem_singleton_self _) _
    (List.mem_singleton_self _)).2 goField modeField (by simp) (by simp)

/- A register with a field beyond its last bit. -/
def wideMap : Yaml :=
  .map [(.str "blocks", .seq [.map [
    (.str "name", .str "DMA"), (.str "base", .int 0x40000000),
    (.str "registers", .seq [.map [
      (.str "name", .str "CTRL"), (.str "offset", .int 0), (.str "reset", .int 0),
      (.str "fields", .seq [.map [(.str "name", .str "COUNT"), (.str "bits", .str "32:0")]])]])]])]

def wideCode : List BlockCode :=
  [⟨.str "DMA", 0x40000000, [⟨.str "DMA", .str "CTRL", 0x40000000, "RW", none, 0,
    [⟨.str "COUNT", ⟨32, 0, by decide⟩, "RW", 0x1FFFFFFFF, none, [], rfl⟩]⟩]⟩]

theorem generate_wideMap : generate wideMap = .ok wideCode := rfl

/- `GO` lies inside `MODE`: the map is accepted, and `set_GO(1)` changes what `MODE()`
returns. A field beyond bit 31 is accepted too. -/
theorem generate_accepts_overlap : (¬∀ (spec : Yaml) (code : List BlockCode),
    generate spec = .ok code → ∀ block ∈ code, ∀ reg ∈ block.registers,
      (∀ f ∈ reg.fields, 0 ≤ f.bits.lo ∧ f.bits.hi ≤ 31) ∧
      ∀ f g : Field, f.toFieldCode ∈ reg.fields → g.toFieldCode ∈ reg.fields → f.name ≠ g.name →
        f.Apart g ∧ ∀ raw raw', f.Mutates raw raw' → g.getter raw' = g.getter raw) ∧
    ∃ spec code, generate spec = .ok code ∧
      ∃ block ∈ code, ∃ reg ∈ block.registers, ∃ f ∈ reg.fields, 31 < f.bits.hi := by
  refine ⟨fun hall => ?_, wideMap, wideCode, generate_wideMap, _, List.mem_singleton_self _, _,
    List.mem_singleton_self _, _, List.mem_singleton_self _, by decide⟩
  have hreg := hall overlappingMap overlappingCode generate_overlappingMap _ (List.mem_singleton_self _) _
    (List.mem_singleton_self _)
  obtain ⟨-, hframe⟩ := hreg.2 goField modeField (by simp) (by simp) (by simp [goField, modeField])
  have heq := hframe 0 1 (Or.inl ⟨rfl, 1, by decide⟩)
  revert heq
  decide

/-! ### Chains of mutator calls -/

/- A register whose fields are inside the word and pairwise apart. -/
structure Layout where
  reg : RegisterCode
  fields : List Field
  fields_eq : fields.map Field.toFieldCode = reg.fields
  apart : fields.Pairwise Field.Apart

inductive Call (L : Layout) where
  | set (i : Fin L.fields.length) (h : L.fields[i].access = "RW") (v : BitVec 32)
  | clear (i : Fin L.fields.length) (h : L.fields[i].access = "W1C")

variable {L : Layout} {i j : Fin L.fields.length}

def Call.apply (raw : BitVec 32) : Call L → BitVec 32
  | .set i _ v => L.fields[i].setter raw v
  | .clear i _ => L.fields[i].clearer raw

/- The field and the argument, which a clearer does not have. -/
def Call.parts : Call L → Fin L.fields.length × Option (BitVec 32)
  | .set i _ v => (i, some v)
  | .clear i _ => (i, none)

def runCalls (raw : BitVec 32) (chain : List (Call L)) : BitVec 32 := chain.foldl Call.apply raw

def Call.setTo? (i : Fin L.fields.length) : Call L → Option (BitVec 32)
  | .set j _ v => if j = i then some v else none
  | .clear _ _ => none

def Call.clears (i : Fin L.fields.length) : Call L → Bool
  | .set _ _ _ => false
  | .clear j _ => j = i

def Call.reads? (i : Fin L.fields.length) : Call L → Option ℕ
  | .set j _ v => if j = i then some (v.toNat % 2 ^ L.fields[i].range.width) else none
  | .clear j _ => if j = i then some (2 ^ L.fields[i].range.width - 1) else none

theorem Layout.apart_of_ne (h : i ≠ j) : L.fields[i].range.Disjoint L.fields[j].range := by
  rw [← Field.apart_iff]
  have hpair := List.pairwise_iff_getElem.mp L.apart
  rcases Nat.lt_or_gt_of_ne (Fin.val_ne_of_ne h) with hlt | hgt
  · exact hpair i j i.isLt j.isLt hlt
  · exact Or.symm (hpair j i j.isLt i.isLt hgt)

theorem getter_apply (raw : BitVec 32) (c : Call L) :
    (L.fields[i].getter (c.apply raw)).toNat = (c.reads? i).getD (L.fields[i].getter raw).toNat := by
  cases c with
  | set j hj v =>
    simp only [Call.apply, Call.reads?, Field.getter_eq, Field.setter_eq]
    split
    next he =>
      subst he
      exact Range.toNat_get_put _ raw v
    next hne => rw [Range.get_put_of_disjoint raw v (Layout.apart_of_ne hne)]; rfl
  | clear j hj =>
    simp only [Call.apply, Call.reads?, Field.getter_eq, Field.clearer_eq]
    split
    next he =>
      subst he
      exact Range.toNat_get_fill _ raw
    next hne => rw [Range.get_fill_of_disjoint raw (Layout.apart_of_ne hne)]; rfl

theorem getter_runCalls (raw : BitVec 32) (chain : List (Call L)) (i : Fin L.fields.length) :
    (L.fields[i].getter (runCalls raw chain)).toNat =
      (chain.filterMap (Call.reads? i)).getLast?.getD (L.fields[i].getter raw).toNat :=
  Trace.foldl_observe Call.apply (fun raw => (L.fields[i].getter raw).toNat) (Call.reads? i)
    raw chain fun c _ raw => getter_apply raw c

/- A chain that never touches the field leaves what its getter returns. -/
theorem getter_untouched (raw : BitVec 32) {chain : List (Call L)}
    (h : ∀ c ∈ chain, c.reads? i = none) :
    L.fields[i].getter (runCalls raw chain) = L.fields[i].getter raw := by
  have hget := getter_runCalls raw chain i
  rw [List.filterMap_eq_nil_iff.mpr h] at hget
  exact BitVec.eq_of_toNat_eq hget

theorem reads?_of_rw (h : L.fields[i].access = "RW") (c : Call L) :
    c.reads? i = (c.setTo? i).map fun v => v.toNat % 2 ^ L.fields[i].range.width := by
  cases c with
  | set j hj v =>
    simp only [Call.reads?, Call.setTo?]
    split <;> rfl
  | clear j hj =>
    simp only [Call.reads?, Call.setTo?]
    split
    next he =>
      subst he
      rw [h] at hj
      exact absurd hj (by decide)
    · rfl

theorem reads?_of_w1c (h : L.fields[i].access = "W1C") (c : Call L) :
    c.reads? i = if c.clears i then some (2 ^ L.fields[i].range.width - 1) else none := by
  cases c with
  | set j hj v =>
    simp only [Call.reads?, Call.clears]
    split
    next he =>
      subst he
      rw [h] at hj
      exact absurd hj (by decide)
    · rfl
  | clear j hj => simp [Call.reads?, Call.clears]

theorem reads?_of_not_mutable (h : ¬L.fields[i].Mutable) (c : Call L) : c.reads? i = none := by
  cases c with
  | set j hj v => exact if_neg fun he : j = i => h (Or.inl (he ▸ hj))
  | clear j hj => exact if_neg fun he : j = i => h (Or.inr (he ▸ hj))

theorem getLast?_filterMap_const {β γ : Type*} (p : β → Bool) (k : γ) (l : List β) :
    (l.filterMap fun c => if p c then some k else none).getLast? = if l.any p then some k else none := by
  induction l using List.reverseRecOn with
  | nil => rfl
  | append_singleton l c ih =>
    rw [List.filterMap_append, List.any_append]
    cases hc : p c with
    | true => simp [hc]
    | false => simpa [hc] using ih

theorem runCalls_frame (raw : BitVec 32) (chain : List (Call L)) {b : ℕ}
    (hb : ∀ f ∈ L.fields, ¬f.range.Has b) : (runCalls raw chain).getLsbD b = raw.getLsbD b := by
  induction chain generalizing raw with
  | nil => rfl
  | cons c chain ih =>
    have hone : (c.apply raw).getLsbD b = raw.getLsbD b := by
      cases c with
      | set j hj v =>
        rw [Call.apply, Field.setter_eq]
        exact Range.put_frame _ raw v (hb _ (List.getElem_mem _))
      | clear j hj =>
        rw [Call.apply, Field.clearer_eq]
        exact Range.fill_frame _ raw (hb _ (List.getElem_mem _))
    exact (ih (c.apply raw)).trans hone

/-- Chains of generated mutators: the last write to a field counts, a cleared
field reads ones, and nothing else changes. -/
theorem mutator_chains (L : Layout) (raw : BitVec 32) (chain : List (Call L)) :
    (∀ i : Fin L.fields.length, L.fields[i].access = "RW" →
      (L.fields[i].getter (runCalls raw chain)).toNat =
        match (chain.filterMap (Call.setTo? i)).getLast? with
        | some v => v.toNat % 2 ^ (L.fields[i].bits.hi - L.fields[i].bits.lo + 1).toNat
        | none => (L.fields[i].getter raw).toNat) ∧
    (∀ i : Fin L.fields.length, L.fields[i].access = "W1C" →
      (L.fields[i].getter (runCalls raw chain)).toNat =
        if chain.any (Call.clears i) then
          2 ^ (L.fields[i].bits.hi - L.fields[i].bits.lo + 1).toNat - 1
        else (L.fields[i].getter raw).toNat) ∧
    (∀ i : Fin L.fields.length, ¬L.fields[i].Mutable →
      L.fields[i].getter (runCalls raw chain) = L.fields[i].getter raw) ∧
    (∀ b : ℕ, (∀ f ∈ L.fields, ¬(f.bits.lo ≤ b ∧ b ≤ f.bits.hi)) →
      (runCalls raw chain).getLsbD b = raw.getLsbD b) ∧
    (∀ i j : Fin L.fields.length, i ≠ j → ∀ u v,
      L.fields[i].setter (L.fields[j].setter raw v) u =
        L.fields[j].setter (L.fields[i].setter raw u) v) ∧
    ∀ i : Fin L.fields.length, L.fields[i].setter raw (L.fields[i].getter raw) = raw := by
  refine ⟨fun i h => ?_, fun i h => ?_, fun i h => ?_, fun b hb => ?_, fun i j hij u v => ?_,
    fun i => ?_⟩
  · rw [getter_runCalls, funext (reads?_of_rw h), ← List.map_filterMap, List.getLast?_map,
      ← Field.width_eq]
    cases (chain.filterMap (Call.setTo? i)).getLast? <;> rfl
  · rw [getter_runCalls, funext (reads?_of_w1c h), getLast?_filterMap_const, ← Field.width_eq]
    split <;> rfl
  · exact getter_untouched raw fun c _ => reads?_of_not_mutable h c
  · exact runCalls_frame raw chain fun f hf => (f.has_range_iff b).not.mpr (hb f hf)
  · simp only [Field.setter_eq]
    exact Range.put_comm raw u v (Layout.apart_of_ne hij)
  · rw [Field.setter_eq, Field.getter_eq]
    exact Range.put_get _ raw

/-! ### Calls on any register -/

section Mutations
variable {reg : RegisterCode}

/- A call of a setter or of a clearer that the struct of the register has, whether its
fields are apart or not. -/
inductive Mutation (reg : RegisterCode) where
  | set (f : Field) (hf : f.toFieldCode ∈ reg.fields) (h : f.access = "RW") (v : BitVec 32)
  | clear (f : Field) (hf : f.toFieldCode ∈ reg.fields) (h : f.access = "W1C")

def Mutation.argument : Mutation reg → Option (BitVec 32)
  | .set _ _ _ v => some v
  | .clear _ _ _ => none

def Mutation.apply (raw : BitVec 32) : Mutation reg → BitVec 32
  | .set f _ _ v => f.setter raw v
  | .clear f _ _ => f.clearer raw

theorem field_mem (i : Fin L.fields.length) : (L.fields.get i).toFieldCode ∈ L.reg.fields := by
  rw [← L.fields_eq]
  exact List.mem_map_of_mem (List.get_mem L.fields i)

/- Where the fields are apart. -/
def Call.mutation : Call L → Mutation L.reg
  | .set i h v => .set (L.fields.get i) (field_mem i) h v
  | .clear i h => .clear (L.fields.get i) (field_mem i) h

theorem mutation_apply (raw : BitVec 32) (c : Call L) : c.mutation.apply raw = c.apply raw := by
  cases c <;> rfl

end Mutations

end SocValidation.Regmap
