import SocValidation.Lib.Trace
import SocValidation.Lib.UniqueOwner
import SocValidation.Transport.Log

/-!
# Mapped regions (transport.hpp)

A `MappedRegion` refers to a buffer on the heap and frees it in its destructor. The
regions that are alive, at their addresses, and the heap are taken through any
sequence of constructions, moves and destructions, and each buffer keeps one owner.
-/

namespace SocValidation.Transport
open Device (Reply)
open UniqueOwner (Heap Owned)

/-! ### ITransport& -/

/- A reference to a transport of any kind, whose methods are the virtual ones. -/
abbrev TransportRef : Type := (layers : List Layer) × Stack layers

namespace TransportRef

def dispatch {ρ : Type} (t : TransportRef) (r : ρ × Stack t.1 × Host) : ρ × TransportRef × Host :=
  (r.1, ⟨t.1, r.2.1⟩, r.2.2)

instance : ITransport TransportRef where
  read32 address t h := dispatch t (ITransport.read32 address t.2 h)
  write32 address value t h := dispatch t (ITransport.write32 address value t.2 h)
  readBlock address out count t h := dispatch t (ITransport.readBlock address out count t.2 h)
  writeBlock address source t h := dispatch t (ITransport.writeBlock address source t.2 h)
  name t := ITransport.name t.2

end TransportRef

/-! ### MappedRegion -/

abbrev Buffers : Type := Heap (List (BitVec 32))

structure MappedRegion where
  data : Option ℕ := none
  words : ℕ := 0
  base : BitVec 64 := 0
  deriving DecidableEq, Repr

/- An exception, or an access that the language gives no meaning. -/
inductive AccessFault where
  | outOfRange (what : String)
  | undefined
  deriving DecidableEq, Repr

namespace MappedRegion
variable {σ : Type} [ITransport σ]

def size (r : MappedRegion) : ℕ := r.words

/- `at`, where the heap is as it is when the call is made. -/
def atIndex (r : MappedRegion) (m : Buffers) (index : ℕ) : Except AccessFault (BitVec 32) :=
  if index ≥ r.words then .error (.outOfRange "MappedRegion index out of range")
  else
    match (r.data.bind m.block).bind fun buffer => buffer[index]? with
    | some w => .ok w
    | none => .error .undefined

/- The words that a block read has delivered go to the front of the buffer. -/
def fill (words buffer : List (BitVec 32)) : List (BitVec 32) :=
  words.take buffer.length ++ buffer.drop words.length

/- The constructor that reads a block. `new uint32_t[0]()` gives a pointer too, and it is
not null. -/
def construct (transport : σ) (h : Host) (base : BitVec 64) (words : ℕ) (m : Buffers) :
    Except TransportError MappedRegion × Buffers × σ × Host :=
  let allocated := m.alloc (List.replicate words 0)
  let r := ITransport.readBlock base true words transport h
  let filled := allocated.2.modify allocated.1 (fill r.1.words)
  match r.1.error with
  | none => (.ok ⟨some allocated.1, words, base⟩, filled, r.2)
  | some e => (.error e, filled.free (some allocated.1), r.2)

/- `std::exchange` on the three members: what goes to the new owner, what is left. -/
def exchange (other : MappedRegion) : MappedRegion × MappedRegion :=
  (⟨other.data, other.words, other.base⟩, ⟨none, 0, 0⟩)

def destroy (r : MappedRegion) (m : Buffers) : Buffers := m.free r.data

end MappedRegion

/-! ### Operations on regions -/

/- The regions that are alive at their addresses, and the heap. -/
structure Regions (ι : Type) where
  object : ι → Option MappedRegion := fun _ => none
  heap : Buffers := {}

/- The transport of a construction is as the constructor finds it. -/
inductive RegionOp (ι σ : Type) where
  | defaultConstruct (this : ι)
  | construct (this : ι) (transport : σ) (host : Host) (base : BitVec 64) (words : ℕ)
  | moveConstruct (this other : ι)
  | moveAssign (this other : ι)
  | destroy (this : ι)

namespace Regions
variable {ι σ : Type}

def holds (p : Regions ι) (i : ι) : Option ℕ := (p.object i).bind MappedRegion.data

theorem holds_of_object {p : Regions ι} {i : ι} {r : Option MappedRegion} (h : p.object i = r) :
    p.holds i = r.bind MappedRegion.data := by
  rw [holds, h]

variable [DecidableEq ι] [ITransport σ]

def put (p : Regions ι) (this : ι) (r : Option MappedRegion) : Regions ι :=
  { p with object := Function.update p.object this r }

/- A constructor needs an address without a region, the other operations one with a
region. -/
def step (p : Regions ι) : RegionOp ι σ → Option (Regions ι)
  | .defaultConstruct this => if p.object this = none then some (p.put this (some {})) else none
  | .construct this transport host base words =>
    if p.object this = none then
      match MappedRegion.construct transport host base words p.heap with
      | (.ok r, m, _) => some { p.put this (some r) with heap := m }
      | (.error _, m, _) => some { p with heap := m }
    else none
  | .moveConstruct this other =>
    match p.object this, p.object other with
    | none, some s => some ((p.put this (some s.exchange.1)).put other (some s.exchange.2))
    | _, _ => none
  | .moveAssign this other =>
    match p.object this, p.object other with
    | some r, some s =>
      if this ≠ other then
        some { (p.put this (some s.exchange.1)).put other (some s.exchange.2) with
          heap := p.heap.free r.data }
      else some p
    | _, _ => none
  | .destroy this =>
    match p.object this with
    | some r => some { p.put this none with heap := r.destroy p.heap }
    | none => none

theorem holds_put (p : Regions ι) (this : ι) (r : Option MappedRegion) :
    (p.put this r).holds = Function.update p.holds this (r.bind MappedRegion.data) := by
  funext i
  by_cases hi : i = this
  · simp only [holds, put, hi, Function.update_self]
  · simp only [holds, put, Function.update_of_ne hi]

theorem object_put {p : Regions ι} {this i : ι} {r : Option MappedRegion} {s : MappedRegion}
    (h : (p.put this r).object i = some s) : i = this ∧ r = some s ∨ i ≠ this ∧ p.object i = some s := by
  change Function.update p.object this r i = some s at h
  by_cases hi : i = this
  · rw [hi, Function.update_self] at h
    exact .inl ⟨hi, h⟩
  · rw [Function.update_of_ne hi] at h
    exact .inr ⟨hi, h⟩

/-! ### Where the words of a region come from -/

/- The construction in the history that has allocated the buffer `b` and filled it. -/
def Filled (tr : List (RegionOp ι σ)) (b : ℕ) (base : BitVec 64) (size : ℕ)
    (buffer : List (BitVec 32)) : Prop :=
  ∃ pre this transport h post mid, tr = pre ++ .construct this transport h base size :: post ∧
    Trace.run step {} pre = some mid ∧ mid.heap.next = b ∧
    (ITransport.readBlock base true size transport h).1.error = none ∧
    buffer = MappedRegion.fill (ITransport.readBlock base true size transport h).1.words
      (List.replicate size 0)

/- A region is as the default constructor or a move leaves it, or it has its words. -/
def Holding (tr : List (RegionOp ι σ)) (m : Buffers) (r : MappedRegion) : Prop :=
  r = {} ∨ ∃ b buffer, r.data = some b ∧ m.block b = some buffer ∧ Filled tr b r.base r.words buffer

structure Sound (tr : List (RegionOp ι σ)) (p : Regions ι) : Prop where
  owned : Owned p.heap p.holds
  holding : ∀ i r, p.object i = some r → Holding tr p.heap r

variable {tr : List (RegionOp ι σ)} {p q : Regions ι} {this other : ι} {op : RegionOp ι σ}
  {m m' : Buffers} {r s : MappedRegion}

theorem Holding.concat (hr : Holding tr m r) (op : RegionOp ι σ) : Holding (tr ++ [op]) m r := by
  rcases hr with hempty | ⟨b, buffer, hb, hbuffer, pre, this, t, h, post, mid, htr, hfill⟩
  · exact .inl hempty
  · exact .inr ⟨b, buffer, hb, hbuffer, pre, this, t, h, post ++ [op], mid, by simp [htr], hfill⟩

theorem Holding.frame (hr : Holding tr m r) (h : ∀ b, r.data = some b → m'.block b = m.block b) :
    Holding tr m' r := by
  rcases hr with hempty | ⟨b, buffer, hb, hbuffer, hfilled⟩
  · exact .inl hempty
  · exact .inr ⟨b, buffer, hb, (h b hb).trans hbuffer, hfilled⟩

namespace Sound

theorem concat (hp : Sound tr p) (op : RegionOp ι σ) : Sound (tr ++ [op]) p :=
  ⟨hp.owned, fun i r hi => (hp.holding i r hi).concat op⟩

theorem defaultConstruct (hp : Sound tr p) (hnone : p.object this = none) :
    Sound tr (p.put this (some {})) := by
  refine ⟨?_, fun i r hi => ?_⟩
  · have hkeep : (p.put this (some {})).holds = p.holds := by
      rw [holds_put]
      exact (congrArg _ (holds_of_object hnone).symm).trans (Function.update_eq_self this p.holds)
    rw [hkeep]
    exact hp.owned
  · rcases object_put hi with ⟨-, hempty⟩ | ⟨-, hkept⟩
    · exact .inl (Option.some_inj.mp hempty).symm
    · exact hp.holding i r hkept

theorem destroy (hp : Sound tr p) (hr : p.object this = some r) :
    Sound tr { p.put this none with heap := r.destroy p.heap } := by
  have hheld : p.holds this = r.data := holds_of_object hr
  refine ⟨?_, fun i s hi => ?_⟩
  · have hfree := hp.owned.free this
    rw [hheld] at hfree
    change Owned (p.heap.free r.data) (p.put this none).holds
    rw [holds_put]
    exact hfree
  · rcases object_put hi with ⟨-, hgone⟩ | ⟨hthis, hkept⟩
    · cases hgone
    -- the other regions keep their words, since none of them shares the buffer
    refine (hp.holding i s hkept).frame fun b hb => Heap.free_block_of_ne fun hfreed => hthis ?_
    exact hp.owned.unique i this b ((holds_of_object hkept).trans hb) (hheld.trans hfreed)

theorem move (hp : Sound tr p) (hthis : p.holds this = none) (hother : p.object other = some s) :
    Sound tr ((p.put this (some s.exchange.1)).put other (some s.exchange.2)) := by
  refine ⟨?_, fun i r hi => ?_⟩
  · have hmoved := hp.owned.transfer (j := other) hthis
    rw [holds_of_object hother] at hmoved
    rw [holds_put, holds_put]
    exact hmoved
  · rcases object_put hi with ⟨-, hleft⟩ | ⟨-, hi⟩
    · exact .inl (Option.some_inj.mp hleft).symm
    rcases object_put hi with ⟨-, htaken⟩ | ⟨-, hkept⟩
    · rw [← Option.some_inj.mp htaken]
      exact hp.holding other s hother
    · exact hp.holding i r hkept

variable {transport : σ} {host : Host} {base : BitVec 64} {words : ℕ}

/- The constructor returns, and its region has the new buffer. -/
theorem constructed (hp : Sound tr p) (hrun : Trace.run step {} tr = some p)
    (hnone : p.object this = none)
    (he : (ITransport.readBlock base true words transport host).1.error = none) :
    Sound (tr ++ [.construct this transport host base words])
      { p.put this (some ⟨some p.heap.next, words, base⟩) with
        heap := (p.heap.alloc (List.replicate words 0)).2.modify
          (p.heap.alloc (List.replicate words 0)).1
          (MappedRegion.fill (ITransport.readBlock base true words transport host).1.words) } := by
  refine ⟨?_, fun i r hi => ?_⟩
  · have hnew := (hp.owned.alloc (holds_of_object hnone) (List.replicate words 0)).modify
      (p.heap.alloc (List.replicate words 0)).1
      (MappedRegion.fill (ITransport.readBlock base true words transport host).1.words)
    change Owned _ (p.put this (some ⟨some p.heap.next, words, base⟩)).holds
    rw [holds_put]
    exact hnew
  · rcases object_put hi with ⟨-, hr⟩ | ⟨-, hkept⟩
    · rw [← Option.some_inj.mp hr]
      exact .inr ⟨p.heap.next, _, rfl, Heap.alloc_modify_block, tr, this, transport, host, [], p, rfl,
        hrun, rfl, he, rfl⟩
    · refine ((hp.holding i r hkept).concat _).frame fun b hb => Heap.alloc_modify_block_of_ne ?_
      exact Nat.ne_of_lt (hp.owned.held_lt ((holds_of_object hkept).trans hb))

/- The fill throws, and the buffer is freed before the exception leaves the
constructor. -/
theorem thrown (hp : Sound tr p) (hnone : p.object this = none) (buffer : List (BitVec 32))
    (f : List (BitVec 32) → List (BitVec 32)) :
    Sound tr { p with
      heap := ((p.heap.alloc buffer).2.modify (p.heap.alloc buffer).1 f).free
        (some (p.heap.alloc buffer).1) } := by
  have hempty : p.holds this = none := holds_of_object hnone
  refine ⟨?_, fun i r hi => ?_⟩
  · have hfreed := ((hp.owned.alloc hempty buffer).modify (p.heap.alloc buffer).1 f).free this
    rw [Function.update_self, Function.update_idem, ← hempty, Function.update_eq_self] at hfreed
    exact hfreed
  · refine (hp.holding i r hi).frame fun b hb => ?_
    have hother := Nat.ne_of_lt (hp.owned.held_lt ((holds_of_object hi).trans hb))
    exact (Heap.free_block_of_ne fun h => hother (Option.some_inj.mp h).symm).trans
      (Heap.alloc_modify_block_of_ne hother)

theorem construct (hp : Sound tr p) (hrun : Trace.run step {} tr = some p)
    (hs : p.step (.construct this transport host base words) = some q) :
    Sound (tr ++ [.construct this transport host base words]) q := by
  have hnone : p.object this = none := by
    by_contra hthis
    simp [step, hthis] at hs
  simp only [step, if_pos hnone, MappedRegion.construct] at hs
  cases he : (ITransport.readBlock base true words transport host).1.error with
  | none =>
    rw [he] at hs
    cases hs
    exact hp.constructed hrun hnone he
  | some e =>
    rw [he] at hs
    cases hs
    exact (hp.thrown hnone _ _).concat _

end Sound

/-- One step keeps the regions and the heap sound, whichever operation it is. -/
theorem step_sound (hp : Sound tr p) (hrun : Trace.run step {} tr = some p)
    (hs : p.step op = some q) : Sound (tr ++ [op]) q := by
  cases op with
  | defaultConstruct this =>
    rw [step] at hs
    by_cases hthis : p.object this = none
    · rw [if_pos hthis] at hs
      cases hs
      exact (hp.defaultConstruct hthis).concat _
    · rw [if_neg hthis] at hs
      cases hs
  | construct this transport host base words => exact hp.construct hrun hs
  | moveConstruct this other =>
    rw [step] at hs
    split at hs
    next s hthis hother =>
      cases hs
      exact (hp.move (holds_of_object hthis) hother).concat _
    next => cases hs
  | moveAssign this other =>
    rw [step] at hs
    split at hs
    next r s hthis hother =>
      by_cases hself : this = other
      · rw [if_neg (not_not.mpr hself)] at hs
        cases hs
        exact hp.concat _
      rw [if_pos hself] at hs
      cases hs
      -- a destruction, and then a move to an address that holds nothing
      have hgone := hp.destroy hthis
      have hnone : (p.put this none).holds this = none := by
        rw [holds_put, Function.update_self]
        rfl
      have hkept : (p.put this none).object other = some s :=
        (Function.update_of_ne (Ne.symm hself) _ _).trans hother
      have hmoved := hgone.move hnone hkept
      simp only [put, Function.update_idem] at hmoved
      exact hmoved.concat _
    next => cases hs
  | destroy this =>
    rw [step] at hs
    split at hs
    next r hthis =>
      cases hs
      exact (hp.destroy hthis).concat _
    next => cases hs

theorem run_sound (h : Trace.run step {} tr = some p) : Sound tr p := by
  refine Trace.run_invariant Sound ⟨Owned.empty, fun i r hi => ?_⟩ ?_ h
  · cases hi
  · intro tr q op q' hrun hq hs
    exact step_sound hq hrun hs

end Regions

/-! ### The words of a block read -/

theorem readFrom_count {address : BitVec 64} {count n : ℕ} {d : Device}
    (h : (Device.readFrom address count n d).1.error = none) :
    (Device.readFrom address count n d).1.words.length = count := by
  induction count generalizing n d with
  | zero => rfl
  | succ count ih =>
    rw [Device.readFrom] at h ⊢
    rcases hread : d.read32 (address + BitVec.ofNat 64 (n * 4)) with ⟨e | w, d'⟩
    · simp [hread] at h
    · simp only [hread] at h ⊢
      exact congrArg (· + 1) (ih h)

/- Every transport of the source reads as many words as it was asked for, or throws. -/
theorem readBlock_count {t : TransportRef} {h : Host} {address : BitVec 64} {count : ℕ}
    (he : (ITransport.readBlock address true count t h).1.error = none) :
    (ITransport.readBlock address true count t h).1.words.length = count := by
  have hreply : (ITransport.readBlock address true count t h).1 =
      (Device.readFrom address count 0 (Stack.device t.1 t.2)).1 := by
    refine ((Stack.transparent t.1) (.readBlock address true count) t.2 h).1.trans ?_
    simp [Call.toOp, Device.apply, Device.readBlock]
  rw [hreply] at he ⊢
  exact readFrom_count he

theorem MappedRegion.fill_full {words : List (BitVec 32)} {buffer : List (BitVec 32)}
    (h : words.length = buffer.length) : fill words buffer = words := by
  rw [fill, ← h, List.take_length, h, List.drop_length, List.append_nil]

theorem MappedRegion.atIndex_iff {r : MappedRegion} {m : Buffers} {b k : ℕ}
    {words : List (BitVec 32)} {w : BitVec 32} (hdata : r.data = some b)
    (hblock : m.block b = some words) (hlen : words.length = r.words) :
    r.atIndex m k = .ok w ↔ words[k]? = some w := by
  unfold atIndex
  rw [hdata, Option.bind_some, hblock, Option.bind_some]
  by_cases hk : k ≥ r.words
  · rw [if_pos hk, List.getElem?_eq_none (by omega)]
    exact ⟨fun h => (by cases h), fun h => (by cases h)⟩
  · rw [if_neg hk, List.getElem?_eq_getElem (by omega)]
    simp

theorem MappedRegion.atIndex_empty {r : MappedRegion} {m : Buffers} {k : ℕ} {w : BitVec 32}
    (hsize : r.size = 0) : r.atIndex m k ≠ .ok w := by
  have hout : k ≥ r.words := (Nat.le_of_eq hsize).trans (Nat.zero_le k)
  rw [atIndex, if_pos hout]
  exact fun h => by cases h

/-! ### One owner for each buffer -/

/- A construction in the history has allocated the buffer `b` and read the words into
it, all of them. -/
def ReadInto {ι : Type} [DecidableEq ι] (tr : List (RegionOp ι TransportRef)) (b : ℕ)
    (base : BitVec 64) (words : List (BitVec 32)) : Prop :=
  ∃ pre this transport h post mid,
    tr = pre ++ .construct this transport h base words.length :: post ∧
    Trace.run Regions.step {} pre = some mid ∧ mid.heap.next = b ∧
    (ITransport.readBlock base true words.length transport h).1 = { words := words }

structure OneOwner {ι : Type} [DecidableEq ι] (tr : List (RegionOp ι TransportRef)) (p : Regions ι) :
    Prop where
  unshared : ∀ i j r s b, p.object i = some r → p.object j = some s →
    r.data = some b → s.data = some b → i = j
  owned : ∀ b, b < p.heap.next → b ∉ p.heap.freed → ∃! i, ∃ r, p.object i = some r ∧ r.data = some b
  freed_once : p.heap.freed.Nodup
  words : ∀ i r, p.object i = some r → 0 < r.size → ∃ b words, r.data = some b ∧
    p.heap.block b = some words ∧ words.length = r.size ∧ ReadInto tr b r.base words ∧
    ∀ k w, r.atIndex p.heap k = .ok w ↔ words[k]? = some w
  at_iff : ∀ i r k, p.object i = some r → ((∃ w, r.atIndex p.heap k = .ok w) ↔ k < r.size)

variable {ι : Type} [DecidableEq ι] {tr : List (RegionOp ι TransportRef)} {m : Buffers}
  {r : MappedRegion}

theorem holding_words (hr : Regions.Holding tr m r) (hsize : 0 < r.size) : ∃ b words,
    r.data = some b ∧ m.block b = some words ∧ words.length = r.size ∧ ReadInto tr b r.base words ∧
      ∀ k w, r.atIndex m k = .ok w ↔ words[k]? = some w := by
  rcases hr with hempty | ⟨b, buffer, hb, hblock, pre, this, t, h, post, mid, htr, hmid, hnext, he,
    hfill⟩
  · rw [hempty] at hsize
    exact absurd hsize (Nat.lt_irrefl 0)
  have hcount := readBlock_count he
  rw [MappedRegion.fill_full (by rw [hcount, List.length_replicate])] at hfill
  rw [← hfill] at hcount
  refine ⟨b, buffer, hb, hblock, hcount, ⟨pre, this, t, h, post, mid, ?_, hmid, hnext, ?_⟩,
    fun k w => MappedRegion.atIndex_iff hb hblock hcount⟩
  · rw [hcount, htr]
  · rw [hcount]
    rcases hreply : (ITransport.readBlock r.base true r.words t h).1 with ⟨words, error⟩
    rw [hreply] at he hfill
    dsimp only at he hfill
    rw [he, hfill]

theorem holding_at (hr : Regions.Holding tr m r) (k : ℕ) :
    (∃ w, r.atIndex m k = .ok w) ↔ k < r.size := by
  rcases Nat.eq_zero_or_pos r.size with hzero | hpos
  · rw [hzero]
    exact ⟨fun ⟨w, hw⟩ => absurd hw (MappedRegion.atIndex_empty hzero),
      fun hk => absurd hk (Nat.not_lt_zero k)⟩
  · obtain ⟨b, words, -, -, hlen, -, hat⟩ := holding_words hr hpos
    refine ⟨fun ⟨w, hw⟩ => ?_, fun hk => ?_⟩
    · obtain ⟨hk, -⟩ := List.getElem?_eq_some_iff.mp ((hat k w).mp hw)
      exact hlen ▸ hk
    · exact ⟨_, (hat k _).mpr (List.getElem?_eq_getElem (hlen.symm ▸ hk))⟩

/-- Whatever is constructed, moved, assigned and destroyed, each buffer that has not
been freed has one region that refers to it and to which it gives its words. -/
theorem one_owner (tr : List (RegionOp ι TransportRef)) (p : Regions ι)
    (h : Trace.run Regions.step {} tr = some p) : OneOwner tr p := by
  have hsound := Regions.run_sound h
  have hholds : ∀ i b, p.holds i = some b ↔ ∃ r, p.object i = some r ∧ r.data = some b := fun i b =>
    Option.bind_eq_some_iff
  refine ⟨fun i j r s b hi hj hr hs => ?_, fun b hlt hfreed => ?_, hsound.owned.nodup,
    fun i r hi => holding_words (hsound.holding i r hi),
    fun i r k hi => holding_at (hsound.holding i r hi) k⟩
  · exact hsound.owned.unique i j b ((hholds i b).mpr ⟨r, hi, hr⟩) ((hholds j b).mpr ⟨s, hj, hs⟩)
  · obtain ⟨i, hi, honly⟩ := hsound.owned.live_unique ⟨hlt, hfreed⟩
    exact ⟨i, (hholds i b).mp hi, fun j hj => honly j ((hholds j b).mpr hj)⟩

/- A map, one that throws on its second word, one that is assigned over, a region
assigned to itself, and moves from and to regions moved from. -/
def handOver : List (RegionOp ℕ TransportRef) :=
  let device : TransportRef := ⟨[], Device.fresh⟩
  [.construct 0 device freshHost Device.kDmaCtrl 4,
    .construct 1 device freshHost Device.kDmaXferLen 2,
    .construct 1 device freshHost Device.kPcieLinkStatus 1,
    .moveAssign 1 0, .moveAssign 1 1, .moveConstruct 2 1, .moveAssign 0 1, .destroy 1]

theorem one_owner_hand_over :
    ∃ p, Trace.run Regions.step {} handOver = some p ∧ p.heap.freed = [1, 2] ∧ OneOwner handOver p := by
  have hfreed : ((Trace.run Regions.step {} handOver).map fun p => p.heap.freed) = some [1, 2] := by
    decide
  obtain ⟨p, hp, hlog⟩ := Option.map_eq_some_iff.mp hfreed
  exact ⟨p, hp, hlog, one_owner handOver p hp⟩

end SocValidation.Transport
