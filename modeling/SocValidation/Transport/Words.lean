import SocValidation.Transport.Log
import SocValidation.Device.Memory

/-!
# A block access word by word (transport.hpp:41-46, transports.hpp, txn_log.cpp)

A caller can make the accesses of a block itself, one word after the other up to the
first that throws. It gets the same words and the same error and leaves the device in
the same state; what the block saves is in the counter and in the log.
-/

namespace SocValidation.Transport
open Device (Reply Source decoded)

variable {σ : Type} [ITransport σ] {call : Call} {calls : List Call} {address : BitVec 64}
variable {view : σ → Device}

/-! ### The caller's loop -/

namespace Call

/- One call after another, until one throws. -/
def each : List Call → σ → Host → Reply × σ × Host
  | [], s, h => ({}, s, h)
  | call :: calls, s, h =>
    let r := call.on s h
    match r.1.error with
    | some _ => r
    | none =>
      let rest := each calls r.2.1 r.2.2
      ({ rest.1 with words := r.1.words ++ rest.1.words }, rest.2)

def readWords (address : BitVec 64) : ℕ → ℕ → List Call
  | 0, _ => []
  | count + 1, i => .read32 (address + BitVec.ofNat 64 (i * 4)) :: readWords address count (i + 1)

def writeWords (address : BitVec 64) : List (BitVec 32) → ℕ → List Call
  | [], _ => []
  | w :: ws, i => .write32 (address + BitVec.ofNat 64 (i * 4)) w :: writeWords address ws (i + 1)

/- The accesses that a block asks for. A missing buffer stays a matter of the block. -/
def unrolled : Call → List Call
  | .readBlock address out count =>
    if out = false ∧ count ≠ 0 then [.readBlock address out count] else readWords address count 0
  | .writeBlock address (.null count) =>
    if count ≠ 0 then [.writeBlock address (.null count)] else []
  | .writeBlock address (.buffer words) => writeWords address words 0
  | call => [call]

/- The calls of a run, each block unrolled. -/
def runEach (s : σ) (h : Host) (calls : List Call) : σ × Host :=
  calls.foldl (fun state call => (each call.unrolled state.1 state.2).2) (s, h)

def repliesEach (s : σ) (h : Host) : List Call → List Reply
  | [] => []
  | call :: calls =>
    let r := each call.unrolled s h
    r.1 :: repliesEach r.2.1 r.2.2 calls

theorem each_cons_error {s : σ} {h : Host} (he : (call.on s h).1.error ≠ none) :
    each (call :: calls) s h = call.on s h := by
  obtain ⟨e, hsome⟩ := Option.ne_none_iff_exists'.mp he
  rw [each]
  simp only [hsome]

theorem each_cons_ok {s : σ} {h : Host} (he : (call.on s h).1.error = none) :
    each (call :: calls) s h =
      ({ (each calls (call.on s h).2.1 (call.on s h).2.2).1 with
          words := (call.on s h).1.words ++ (each calls (call.on s h).2.1 (call.on s h).2.2).1.words },
        (each calls (call.on s h).2.1 (call.on s h).2.2).2) := by
  rw [each]
  simp only [he]

theorem each_singleton (call : Call) (s : σ) (h : Host) : each [call] s h = call.on s h := by
  by_cases he : (call.on s h).1.error = none
  · rw [each_cons_ok he]
    rcases hr : call.on s h with ⟨⟨words, error⟩, rest⟩
    rw [hr] at he
    obtain rfl : error = none := he
    simp [each]
  · exact each_cons_error he

/-! ### On the device -/

theorem each_read {d : Device} {h : Host} {a : BitVec 64} (hdec : decoded a = true) :
    each (.read32 a :: calls) d h =
      ({ (each calls (d.read32 a).2 h).1 with
          words := d.tick.word a :: (each calls (d.read32 a).2 h).1.words },
        (each calls (d.read32 a).2 h).2) := by
  have hon : (Call.read32 a).on d h = ({ words := [d.tick.word a] }, (d.read32 a).2, h) := by
    rw [on_device]
    simp only [toOp, Device.apply, Device.read32_of_decoded hdec]
  rw [each_cons_ok (by rw [hon]), hon]
  rfl

theorem each_write {d : Device} {h : Host} {a : BitVec 64} (hdec : decoded a = true) (w : BitVec 32) :
    each (.write32 a w :: calls) d h = each calls (d.write32 a w).2 h := by
  obtain ⟨p, hp⟩ := Device.policyFor_of_decoded hdec
  have hon : (Call.write32 a w).on d h = ({}, (d.write32 a w).2, h) := by
    rw [on_device]
    simp only [toOp, Device.apply, Device.write32_of_ok hp]
  rw [each_cons_ok (by rw [hon]), hon]
  rfl

theorem each_throws {d : Device} {h : Host} (herror : (d.apply call.toOp).1.error ≠ none) :
    each (call :: calls) d h = ((d.apply call.toOp).1, (d.apply call.toOp).2, h) := by
  rw [each_cons_error (by rw [on_device]; exact herror), on_device]

theorem each_readWords (address : BitVec 64) (count i : ℕ) (d : Device) (h : Host) :
    each (readWords address count i) d h =
      ((Device.readFrom address count i d).1, (Device.readFrom address count i d).2, h) := by
  induction count generalizing i d with
  | zero => rfl
  | succ count ih =>
    rw [readWords, Device.readFrom]
    cases hdec : decoded (address + BitVec.ofNat 64 (i * 4)) with
    | true =>
      rw [each_read hdec, ih, Device.read32_of_decoded hdec]
    | false =>
      have hread := Device.read32_of_not_decoded (d := d) hdec
      rw [each_throws (by simp [toOp, Device.apply, hread]), hread]
      simp only [toOp, Device.apply, hread]

theorem each_writeWords (address : BitVec 64) (words : List (BitVec 32)) (i : ℕ) (d : Device) (h : Host) :
    each (writeWords address words i) d h =
      ((Device.writeFrom address words i d).1, (Device.writeFrom address words i d).2, h) := by
  induction words generalizing i d with
  | nil => rfl
  | cons w words ih =>
    rw [writeWords, Device.writeFrom]
    cases hdec : decoded (address + BitVec.ofNat 64 (i * 4)) with
    | true =>
      obtain ⟨p, hp⟩ := Device.policyFor_of_decoded hdec
      rw [each_write hdec, ih, Device.write32_of_ok hp]
    | false =>
      have hwrite : d.write32 _ w = (.error ⟨_, _⟩, d) := Device.write32_of_not_decoded hdec
      rw [each_throws (by simp [toOp, Device.apply, hwrite]), hwrite]
      simp only [toOp, Device.apply, hwrite]

theorem each_unrolled (call : Call) (d : Device) (h : Host) : each call.unrolled d h = call.on d h := by
  cases call with
  | read32 address => exact each_singleton _ d h
  | write32 address value => exact each_singleton _ d h
  | readBlock address out count =>
    rw [unrolled]
    split
    · exact each_singleton _ d h
    next hbuffer =>
      rw [each_readWords, on_device]
      simp only [toOp, Device.apply, Device.readBlock, if_neg hbuffer]
  | writeBlock address source =>
    cases source with
    | null count =>
      rw [unrolled]
      by_cases hcount : count ≠ 0
      · rw [if_pos hcount, each_singleton]
      · rw [if_neg hcount, on_device]
        simp only [toOp, Device.apply, Device.writeBlock, if_neg hcount]
        rfl
    | buffer words =>
      rw [unrolled, each_writeWords, on_device]
      rfl

end Call

/-! ### Over any stack -/

/- What the loop shows is decided by what each of its calls shows. -/
theorem Transparent.each (hσ : Transparent view) (calls : List Call) (s : σ) (h g : Host) :
    (Call.each calls s h).1 = (Call.each calls (view s) g).1 ∧
      view (Call.each calls s h).2.1 = (Call.each calls (view s) g).2.1 := by
  induction calls generalizing s h with
  | nil => exact ⟨rfl, rfl⟩
  | cons call calls ih =>
    obtain ⟨hreply, hview⟩ := hσ call s h
    have hon := call.on_device (view s) g
    by_cases he : (call.on s h).1.error = none
    · have he' : (call.on (view s) g).1.error = none := by
        rw [hon, ← hreply]
        exact he
      obtain ⟨hrest, hrestView⟩ := ih (call.on s h).2.1 (call.on s h).2.2
      rw [Call.each_cons_ok he, Call.each_cons_ok he', hon]
      rw [hview] at hrest hrestView
      dsimp only
      rw [hrest, hreply]
      exact ⟨rfl, hrestView⟩
    · have he' : (call.on (view s) g).1.error ≠ none := by
        rw [hon, ← hreply]
        exact he
      rw [Call.each_cons_error he, Call.each_cons_error he', hon]
      exact ⟨hreply, hview⟩

theorem Transparent.unrolled (hσ : Transparent view) (call : Call) (s : σ) (h : Host) :
    (Call.each call.unrolled s h).1 = ((view s).apply call.toOp).1 ∧
      view (Call.each call.unrolled s h).2.1 = ((view s).apply call.toOp).2 := by
  obtain ⟨hreply, hview⟩ := hσ.each call.unrolled s h h
  rw [Call.each_unrolled, call.on_device] at hreply hview
  exact ⟨hreply, hview⟩

theorem Transparent.runEach (hσ : Transparent view) (s : σ) (h : Host) (calls : List Call) :
    Call.repliesEach s h calls = (view s).replies (calls.map Call.toOp) ∧
      view (Call.runEach s h calls).1 = (view s).run (calls.map Call.toOp) := by
  induction calls generalizing s h with
  | nil => exact ⟨rfl, rfl⟩
  | cons call calls ih =>
    obtain ⟨hreply, hview⟩ := hσ.unrolled call s h
    obtain ⟨hreplies, hrun⟩ := ih (Call.each call.unrolled s h).2.1 (Call.each call.unrolled s h).2.2
    constructor
    · rw [Call.repliesEach, hreplies, hreply, hview]
      rfl
    · rw [hview] at hrun
      exact hrun

/-- Over every stack of decorators, a run whose blocks are accessed word by word gives
back for each block what the block access gives back, its error included, and takes the
device through the same states. -/
theorem blocks_as_words (layers : List Layer) (s : Stack layers) (h : Host) (calls : List Call) :
    Call.repliesEach s h calls = Call.replies s h calls ∧
      ∀ n, Stack.device layers (Call.runEach s h (calls.take n)).1 =
        Stack.device layers (Call.run s h (calls.take n)).1 := by
  have hstack := Stack.transparent layers
  refine ⟨?_, fun n => ?_⟩
  · rw [(hstack.runEach s h calls).1, hstack.replies]
  · rw [(hstack.runEach s h _).2, hstack.run]

/-! ### What the words cost -/

/- The words that come back, and the words that are asked for. -/
def Call.wordsBack (call : Call) : ℕ := (call.unrolled.takeWhile fun word => word.Decodes).length

def Call.wordsTried (call : Call) : ℕ :=
  call.wordsBack + if ∀ word ∈ call.unrolled, word.Decodes then 0 else 1

theorem each_link (t : LoggedLink) (h : Host) (calls : List Call) :
    (Call.each calls t h).2.1.log = t.log ∧
    (Call.each calls t h).2.2.size t.log =
      h.size t.log + (calls.takeWhile fun call => call.Decodes).length ∧
    (Call.each calls t h).2.1.inner.accesses =
      t.inner.accesses + BitVec.ofNat 64 ((calls.takeWhile fun call => call.Decodes).length +
        if ∀ call ∈ calls, call.Decodes then 0 else 1) := by
  induction calls generalizing t h with
  | nil => exact ⟨rfl, rfl, (BitVec.add_zero _).symm⟩
  | cons call calls ih =>
    have hsize := link_size call t h
    have haccesses := link_accesses call t h
    have hlog := (logged_kept call t h).1
    have herror : (call.on t h).1.error = none ↔ call.Decodes := by
      rw [← link_error call t h, call.on_logged]
      rfl
    by_cases hdec : call.Decodes
    · obtain ⟨hlog', hsize', haccesses'⟩ := ih (call.on t h).2.1 (call.on t h).2.2
      rw [hlog] at hlog' hsize'
      have hstate : (Call.each (call :: calls) t h).2 =
          (Call.each calls (call.on t h).2.1 (call.on t h).2.2).2 := by
        rw [Call.each_cons_ok (herror.mpr hdec)]
      have htake : (call :: calls).takeWhile (fun call => call.Decodes) =
          call :: calls.takeWhile fun call => call.Decodes :=
        List.takeWhile_cons_of_pos (by simpa using hdec)
      rw [hstate, htake, List.length_cons]
      refine ⟨hlog', ?_, ?_⟩
      · rw [hsize', hsize, if_pos hdec]
        omega
      · have hall : (∀ c ∈ call :: calls, c.Decodes) ↔ ∀ c ∈ calls, c.Decodes := by
          rw [List.forall_mem_cons]
          exact and_iff_right hdec
        rw [haccesses', haccesses, BitVec.add_assoc]
        congr 1
        rw [show (1 : BitVec 64) = BitVec.ofNat 64 1 from rfl, ← BitVec.ofNat_add]
        simp only [hall]
        congr 1
        omega
    · rw [if_neg hdec] at hsize
      have hall : ¬∀ c ∈ call :: calls, c.Decodes := fun hc => hdec (hc call List.mem_cons_self)
      rw [Call.each_cons_error (herror.not.mpr hdec),
        List.takeWhile_cons_of_neg (by simpa using hdec), if_neg hall]
      exact ⟨hlog, hsize, haccesses⟩

/-- Through a log over a bus, a run with blocks leaves one record for each call that
comes back and counts one access for each call; word by word it leaves one record for
each word that comes back and counts one access for each word that is asked for. -/
theorem block_costs (t : LoggedLink) (h : Host) (calls : List Call) :
    (Call.run t h calls).2.size t.log = h.size t.log + calls.countP (fun call => call.Decodes) ∧
    (Call.run t h calls).1.inner.accesses = t.inner.accesses + BitVec.ofNat 64 calls.length ∧
    (Call.runEach t h calls).2.size t.log = h.size t.log + (calls.map Call.wordsBack).sum ∧
    (Call.runEach t h calls).1.inner.accesses =
      t.inner.accesses + BitVec.ofNat 64 (calls.map Call.wordsTried).sum := by
  obtain ⟨-, hsize, haccesses⟩ := link_run t h calls
  refine ⟨hsize, haccesses, ?_⟩
  clear hsize haccesses
  induction calls generalizing t h with
  | nil => exact ⟨rfl, (BitVec.add_zero _).symm⟩
  | cons call calls ih =>
    obtain ⟨hlog, hsize, haccesses⟩ := each_link t h call.unrolled
    obtain ⟨hsizes, hcounts⟩ := ih (Call.each call.unrolled t h).2.1 (Call.each call.unrolled t h).2.2
    rw [hlog, hsize] at hsizes
    rw [haccesses] at hcounts
    constructor
    · rw [List.map_cons, List.sum_cons, ← Nat.add_assoc]
      exact hsizes
    · rw [List.map_cons, List.sum_cons, BitVec.ofNat_add, ← BitVec.add_assoc]
      exact hcounts

end SocValidation.Transport
