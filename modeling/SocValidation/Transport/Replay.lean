import SocValidation.Transport.Log

/-!
# Two runs with the same log (txn_log.cpp, emulated_device.cpp)

The record of a block holds the number of its words and not the words. Two runs with
equal logs make the same accesses at the same addresses, but the words of their
blocks may differ, and the devices part at the first such word that its register
does not ignore.
-/

namespace SocValidation.Transport
open Device (Reply Source Access decoded policyFor masked access reads writes)

variable {d : Device} {a address : BitVec 64} {v w : BitVec 32} {accs accs' : List Access}

/-! ### Two words that a register takes alike -/

/- They differ only in bits that the write leaves as they are: read-only ones, and
W1C bits that are not set when it is applied. -/
def Alike (d : Device) (a : BitVec 64) (v w : BitVec 32) : Prop :=
  ∀ p, policyFor a = .ok p → ∀ i < 32, v.getLsbD i ≠ w.getLsbD i →
    if p.w1cMask.getLsbD i then (d.tick.word a).getLsbD i = false else p.roMask.getLsbD i = true

theorem masked_alike {p : RegPolicy} (hp : policyFor a = .ok p) :
    masked p (d.tick.word a) v = masked p (d.tick.word a) w ↔ Alike d a v w := by
  have hbit : ∀ i < 32, (masked p (d.tick.word a) v).getLsbD i = (masked p (d.tick.word a) w).getLsbD i ↔
      (v.getLsbD i ≠ w.getLsbD i →
        if p.w1cMask.getLsbD i then (d.tick.word a).getLsbD i = false else p.roMask.getLsbD i = true) := by
    intro i hi
    rw [Device.getLsbD_masked _ _ _ hi, Device.getLsbD_masked _ _ _ hi]
    cases p.w1cMask.getLsbD i <;> cases p.roMask.getLsbD i <;> cases (d.tick.word a).getLsbD i <;>
      cases v.getLsbD i <;> cases w.getLsbD i <;> simp
  constructor
  · intro heq q hq i hi
    cases hp.symm.trans hq
    exact (hbit i hi).mp (congrArg (fun x => x.getLsbD i) heq)
  · intro halike
    apply BitVec.eq_of_getLsbD_eq
    intro i hi
    exact (hbit i hi).mpr (halike p hp i hi)

/- A register with a side effect keeps every bit that it is given. -/
theorem alike_plain (hp : policyFor a = .ok ⟨0, 0, 0⟩) (h : Alike d a v w) : v = w := by
  apply BitVec.eq_of_getLsbD_eq
  intro i hi
  by_contra hne
  have hbit := h _ hp i hi hne
  simp at hbit

theorem access_alike_iff (h : decoded a = true) :
    d.access (.write a v) = d.access (.write a w) ↔ Alike d a v w := by
  obtain ⟨p, hp⟩ := Device.policyFor_of_decoded h
  have hword : ∀ u, (d.access (.write a u)).word a = masked p (d.tick.word a) u := by
    intro u
    have hlink : ¬(a = Device.kPcieLinkStatus ∧ a = Device.kPcieLinkCtrl ∧ u &&& 0x1 ≠ 0) := by
      rintro ⟨h1, h2, -⟩
      exact absurd (h1.symm.trans h2) (by decide)
    have hctrl : ¬(a = Device.kDmaStatus ∧ (Access.write a u).go ∧ d.tick.dmaRunning = false) := by
      rintro ⟨h1, ⟨h2, -⟩, -⟩
      exact absurd (h1.symm.trans h2) (by decide)
    rw [Device.word_write hp, if_neg hlink, if_neg hctrl, if_pos rfl]
  constructor
  · intro heq
    rw [← masked_alike hp, ← hword, ← hword, heq]
  · intro halike
    rw [Device.access_write hp, Device.access_write hp, (masked_alike hp).mpr halike]
    by_cases hctrl : a = Device.kDmaCtrl
    · rw [alike_plain (by rw [hctrl]; decide) halike]
    by_cases hlink : a = Device.kPcieLinkCtrl
    · rw [alike_plain (by rw [hlink]; decide) halike]
    have hquiet : ∀ (x : Device) u, (x.startDma a u).trainLink a u = x := by
      intro x u
      unfold Device.trainLink Device.startDma
      rw [if_neg fun hc => hlink hc.1, if_neg fun hc => hctrl hc.1]
    rw [hquiet, hquiet]

theorem alike_readOnly (h : Device.ReadOnly a) : Alike d a v w := by
  rw [← access_alike_iff (Device.readOnly_decoded h), Device.access_readOnly h, Device.access_readOnly h]

/-! ### Accesses in step -/

/- The same access, but for the word that is written. -/
inductive Beside : Access → Access → Prop
  | read (a : BitVec 64) : Beside (.read a) (.read a)
  | write (a : BitVec 64) (v w : BitVec 32) : Beside (.write a v) (.write a w)

/- Each pair of written words is taken alike where it is written. -/
def TakenAlike (d : Device) (accs accs' : List Access) : Prop :=
  ∀ n a v w, accs[n]? = some (.write a v) → accs'[n]? = some (.write a w) →
    Alike ((accs.take n).foldl access d) a v w

/-- The two devices are in the same state after every access just when each pair of
words is taken alike. -/
theorem lockstep_iff (h : List.Forall₂ Beside accs accs')
    (hdec : ∀ acc ∈ accs, decoded acc.address = true) :
    (∀ n, (accs.take n).foldl access d = (accs'.take n).foldl access d) ↔ TakenAlike d accs accs' := by
  have hstep : ∀ (l : List Access) n acc, l[n]? = some acc →
      (l.take (n + 1)).foldl access d = ((l.take n).foldl access d).access acc := by
    intro l n acc hacc
    rw [List.take_add_one, hacc, Option.toList_some, List.foldl_append]
    rfl
  obtain ⟨hlen, hget⟩ := List.forall₂_iff_get.mp h
  constructor
  · intro hall n a v w hv hw
    have hsame := hall (n + 1)
    rw [hstep _ n _ hv, hstep _ n _ hw, ← hall n] at hsame
    exact (access_alike_iff (hdec _ (List.mem_of_getElem? hv))).mp hsame
  · intro halike n
    induction n with
    | zero => rfl
    | succ n ih =>
      by_cases hn : n < accs.length
      · have hn' : n < accs'.length := hlen ▸ hn
        have hacc := List.getElem?_eq_getElem hn
        have hacc' := List.getElem?_eq_getElem hn'
        have hdec' := hdec _ (List.getElem_mem hn)
        have hpair : Beside accs[n] accs'[n] := hget n hn hn'
        generalize accs[n] = acc at hacc hpair hdec'
        generalize accs'[n] = acc' at hacc' hpair
        rw [hstep _ n _ hacc, hstep _ n _ hacc', ← ih]
        cases hpair with
        | read a => rfl
        | write a v w => exact (access_alike_iff hdec').mpr (halike n a v w hacc hacc')
      · have hend : accs.length ≤ n := Nat.le_of_not_lt hn
        have hend' : accs'.length ≤ n := hlen ▸ hend
        rw [List.take_of_length_le hend, List.take_of_length_le hend'] at ih
        rw [List.take_of_length_le (Nat.le_succ_of_le hend),
          List.take_of_length_le (Nat.le_succ_of_le hend')]
        exact ih

/-! ### What the log says of a call -/

def Transaction.fields (r : Transaction) : Op × BitVec 64 × BitVec 32 := (r.op, r.address, r.value)

namespace Call

/- The recorded value, where it does not come from the device. -/
def told : Call → Option (BitVec 32)
  | .read32 _ => none
  | .write32 _ value => some value
  | .readBlock _ _ count => some (BitVec.ofNat 32 count)
  | .writeBlock _ source => some (BitVec.ofNat 32 (blockCount source))

def Recorded (call : Call) (r : Transaction) : Prop :=
  r.op = call.op ∧ r.address = call.address ∧ ∀ value, call.told = some value → r.value = value

def SameRecord (call call' : Call) : Prop :=
  call.op = call'.op ∧ call.address = call'.address ∧
    ∀ v w, call.told = some v → call'.told = some w → v = w

end Call

theorem recorded_told {call : Call} {reply : Reply} (hr : call.recorded reply = some v)
    (ht : call.told = some w) : v = w := by
  have hkept : ∀ {x : BitVec 32}, (if reply.error = none then some x else none) = some v →
      some x = some w → v = w := by
    intro x hx hw
    have hv := (Option.ite_none_right_eq_some.mp hx).2
    exact Option.some.inj (hv.symm.trans hw)
  cases call with
  | read32 address => cases ht
  | write32 address value => exact hkept hr ht
  | readBlock address out count => exact hkept hr ht
  | writeBlock address source => exact hkept hr ht

theorem logged_records {σ : Type} [ITransport σ] (t : LoggedTransport σ) (h : Host)
    (hσ : KeepsLog t.inner t.log) {calls : List Call}
    (hok : ∀ reply ∈ Call.replies t h calls, reply.error = none) :
    ∃ records, (Call.run t h calls).2.logs t.log = h.logs t.log ++ records ∧
      List.Forall₂ Call.Recorded calls records := by
  induction calls generalizing t h with
  | nil => exact ⟨[], (List.append_nil _).symm, .nil⟩
  | cons call calls ih =>
    have hfirst : (call.on t.inner h).1.error = none := by
      have hmem := hok (call.on t h).1 List.mem_cons_self
      rw [call.on_logged] at hmem
      exact hmem
    have hlog := (logged_kept call t h).1
    obtain ⟨r, hvalue, hop, haddress, -, hlogged⟩ := logged_ok t h hσ hfirst
    obtain ⟨records, hlogs, hrest⟩ := ih (call.on t h).2.1 (call.on t h).2.2 (logged_keeps call t h hσ)
      fun reply hreply => hok reply (List.mem_cons_of_mem _ hreply)
    rw [hlog, hlogged, List.append_assoc] at hlogs
    have htold : ∀ w, call.told = some w → r.value = w := fun w hw => recorded_told hvalue hw
    exact ⟨_, hlogs, .cons ⟨hop, haddress, htold⟩ hrest⟩

theorem same_records {calls calls' : List Call} {records records' : List Transaction}
    (h : List.Forall₂ Call.Recorded calls records) (h' : List.Forall₂ Call.Recorded calls' records')
    (hsame : records.map Transaction.fields = records'.map Transaction.fields) :
    List.Forall₂ Call.SameRecord calls calls' := by
  induction h generalizing calls' records' with
  | nil =>
    cases h' with
    | nil => exact .nil
    | cons _ _ => cases hsame
  | cons hr _ ih =>
    cases h' with
    | nil => cases hsame
    | cons hr' hrest' =>
      rw [List.map_cons, List.map_cons, List.cons.injEq] at hsame
      obtain ⟨hop, haddress, hvalue⟩ : _ ∧ _ ∧ _ := by simpa [Transaction.fields] using hsame.1
      refine .cons ⟨?_, ?_, fun v w hv hw => ?_⟩ (ih hrest' hsame.2)
      · rw [← hr.1, ← hr'.1, hop]
      · rw [← hr.2.1, ← hr'.2.1, haddress]
      · rw [← hr.2.2 v hv, ← hr'.2.2 w hw, hvalue]

theorem writes_beside {xs ys : List (BitVec 32)} (hlen : xs.length = ys.length) (n : ℕ) :
    List.Forall₂ Beside (writes address xs n) (writes address ys n) := by
  induction xs generalizing ys n with
  | nil =>
    cases ys with
    | nil => exact .nil
    | cons w ys => cases hlen
  | cons v xs ih =>
    cases ys with
    | nil => cases hlen
    | cons w ys =>
      simp only [writes]
      split
      · exact .cons (.write _ v w) (ih (Nat.succ.inj hlen) (n + 1))
      · exact .nil

theorem reads_beside (count n : ℕ) :
    List.Forall₂ Beside (reads address count n) (reads address count n) := by
  rw [List.forall₂_same]
  intro acc hacc
  obtain ⟨a, rfl, -⟩ := Device.mem_reads hacc
  exact .read a

/- The accesses of a block that comes back, one for each of its words. -/
theorem readBlock_accesses {out : Bool} {count : ℕ} (h : Call.Decodes (.readBlock address out count)) :
    count < 10 ∧ Device.Op.accesses (.readBlock address out count) = reads address count 0 := by
  have hbuffer : ¬(out = false ∧ count ≠ 0) := by
    rintro ⟨rfl, hne⟩
    exact hne (h.1.resolve_left (by decide))
  exact ⟨Device.block_short h.2, if_neg hbuffer⟩

theorem writeBlock_accesses {source : Source} (h : Call.Decodes (.writeBlock address source)) :
    blockCount source < 10 ∧ ∃ words, words.length = blockCount source ∧
      Device.Op.accesses (.writeBlock address source) = writes address words 0 := by
  cases source with
  | null count =>
    have hzero : count = 0 := h
    rw [hzero]
    exact ⟨by decide, [], rfl, rfl⟩
  | buffer words => exact ⟨Device.block_short h, words, rfl, rfl⟩

/- Short blocks with the same recorded count have the same number of words. -/
theorem count_of_recorded {n m : ℕ} (hn : n < 10) (hm : m < 10)
    (h : BitVec.ofNat 32 n = BitVec.ofNat 32 m) : n = m := by
  have hnat := congrArg BitVec.toNat h
  rw [BitVec.toNat_ofNat, BitVec.toNat_ofNat] at hnat
  omega

theorem same_accesses {call call' : Call} (h : call.SameRecord call') (hdec : call.Decodes)
    (hdec' : call'.Decodes) : List.Forall₂ Beside call.toOp.accesses call'.toOp.accesses := by
  obtain ⟨hop, haddress, htold⟩ := h
  cases call with
  | read32 address =>
    cases call' with
    | read32 address' =>
      cases haddress
      rw [List.forall₂_same]
      intro acc hacc
      simp only [Call.toOp, Device.Op.accesses] at hacc
      split at hacc
      · rw [List.mem_singleton.mp hacc]
        exact .read address
      · cases hacc
    | _ => cases hop
  | write32 address value =>
    cases call' with
    | write32 address' value' =>
      cases haddress
      simp only [Call.toOp, Device.Op.accesses]
      split
      · exact .cons (.write address value value') .nil
      · exact .nil
    | _ => cases hop
  | readBlock address out count =>
    cases call' with
    | readBlock address' out' count' =>
      cases haddress
      obtain ⟨hshort, haccesses⟩ := readBlock_accesses hdec
      obtain ⟨hshort', haccesses'⟩ := readBlock_accesses hdec'
      have heq := count_of_recorded hshort hshort' (htold _ _ rfl rfl)
      simp only [Call.toOp]
      rw [haccesses, haccesses', heq]
      exact reads_beside count' 0
    | _ => cases hop
  | writeBlock address source =>
    cases call' with
    | writeBlock address' source' =>
      cases haddress
      obtain ⟨hshort, words, hlen, haccesses⟩ := writeBlock_accesses hdec
      obtain ⟨hshort', words', hlen', haccesses'⟩ := writeBlock_accesses hdec'
      have heq := count_of_recorded hshort hshort' (htold _ _ rfl rfl)
      simp only [Call.toOp, haccesses, haccesses']
      exact writes_beside (by rw [hlen, hlen', heq]) 0
    | _ => cases hop

/-! ### The runs -/

/- The word accesses of a sequence of calls. -/
def wordAccesses (calls : List Call) : List Access := calls.flatMap fun call => call.toOp.accesses

theorem beside_accesses {calls calls' : List Call} (h : List.Forall₂ Call.SameRecord calls calls')
    (hdec : ∀ call ∈ calls, call.Decodes) (hdec' : ∀ call ∈ calls', call.Decodes) :
    List.Forall₂ Beside (wordAccesses calls) (wordAccesses calls') := by
  induction h with
  | nil => exact .nil
  | cons hcall _ ih =>
    have hfirst := same_accesses hcall (hdec _ List.mem_cons_self) (hdec' _ List.mem_cons_self)
    have hrest := ih (fun call hmem => hdec call (List.mem_cons_of_mem _ hmem))
      fun call hmem => hdec' call (List.mem_cons_of_mem _ hmem)
    exact List.rel_append hfirst hrest

theorem run_wordAccesses (d : Device) (calls : List Call) :
    d.run (calls.map Call.toOp) = (wordAccesses calls).foldl access d := by
  have heffects : ∀ call : Call, call.toOp.effects = call.toOp.accesses.map Device.Effect.access := by
    intro call
    cases call <;> rfl
  rw [Device.run_effects, List.flatMap_map, wordAccesses]
  simp only [heffects]
  rw [← List.map_flatMap, List.foldl_map]
  rfl

/- A new device of the given latency under a `LoggedTransport`. -/
def loggedDevice (ticks : BitVec 64) (log : ℕ) (test : String) : LoggedTransport Device :=
  { inner := { Device.fresh with latency := ticks }, log := log, test := test }

theorem logged_decodes {calls : List Call} {t : LoggedTransport Device} {h : Host}
    (hok : ∀ reply ∈ Call.replies t h calls, reply.error = none) : ∀ call ∈ calls, call.Decodes := by
  induction calls generalizing t h with
  | nil => simp
  | cons call calls ih =>
    intro other hother
    rcases List.mem_cons.mp hother with rfl | hother
    · have hfirst := hok (other.on t h).1 List.mem_cons_self
      rw [(transparent_device.logged other t h).1] at hfirst
      exact (error_iff other t.inner).mp hfirst
    · exact ih (fun reply hreply => hok reply (List.mem_cons_of_mem _ hreply)) other hother

/-- Two runs of successful calls with the same log leave their devices in the same
state if each pair of words is taken alike, and keep them in the same state all along
just then. -/
theorem log_replays_iff (ticks : BitVec 64) (log log' : ℕ) (test test' : String) (h h' : Host)
    (hempty : h.logs log = []) (hempty' : h'.logs log' = []) (calls calls' : List Call)
    (hok : ∀ reply ∈ Call.replies (loggedDevice ticks log test) h calls, reply.error = none)
    (hok' : ∀ reply ∈ Call.replies (loggedDevice ticks log' test') h' calls', reply.error = none)
    (hsame : ((Call.run (loggedDevice ticks log test) h calls).2.logs log).map Transaction.fields =
      ((Call.run (loggedDevice ticks log' test') h' calls').2.logs log').map Transaction.fields) :
    (TakenAlike { Device.fresh with latency := ticks } (wordAccesses calls) (wordAccesses calls') →
      (Call.run (loggedDevice ticks log test) h calls).1.inner =
        (Call.run (loggedDevice ticks log' test') h' calls').1.inner) ∧
    ((∀ n, ((wordAccesses calls).take n).foldl access { Device.fresh with latency := ticks } =
        ((wordAccesses calls').take n).foldl access { Device.fresh with latency := ticks }) ↔
      TakenAlike { Device.fresh with latency := ticks } (wordAccesses calls) (wordAccesses calls')) := by
  obtain ⟨records, hlogs, hrecords⟩ := logged_records _ _ (keepsLog_device _ _) hok
  obtain ⟨records', hlogs', hrecords'⟩ := logged_records _ _ (keepsLog_device _ _) hok'
  have hlog : (loggedDevice ticks log test).log = log := rfl
  have hlog' : (loggedDevice ticks log' test').log = log' := rfl
  rw [hlog, hempty, List.nil_append] at hlogs
  rw [hlog', hempty', List.nil_append] at hlogs'
  rw [hlogs, hlogs'] at hsame
  have hcalls := same_records hrecords hrecords' hsame
  have hdec := logged_decodes hok
  have hdec' := logged_decodes hok'
  have hbeside := beside_accesses hcalls hdec hdec'
  have haccess : ∀ acc ∈ wordAccesses calls, decoded acc.address = true := by
    intro acc hacc
    obtain ⟨call, -, hmem⟩ := List.mem_flatMap.mp hacc
    exact Device.accesses_decoded hmem
  have hlockstep := lockstep_iff (d := { Device.fresh with latency := ticks }) hbeside haccess
  refine ⟨fun halike => ?_, hlockstep⟩
  have hfinal := hlockstep.mpr halike (wordAccesses calls).length
  rw [List.take_length, hbeside.length_eq, List.take_length] at hfinal
  rw [transparent_device.logged.run, transparent_device.logged.run, run_wordAccesses, run_wordAccesses]
  exact hfinal

theorem log_replays_status :
    (Call.run (loggedDevice 8 0 "a") freshHost [.writeBlock Device.kDmaStatus (.buffer [5])]).1.inner =
      (Call.run (loggedDevice 8 0 "b") freshHost [.writeBlock Device.kDmaStatus (.buffer [6])]).1.inner := by
  apply (log_replays_iff 8 0 0 "a" "b" freshHost freshHost rfl rfl _ _ (by decide) (by decide)
    (by decide)).1
  intro n a v w hv _
  have hstatus : a = Device.kDmaStatus := by
    have hmem := List.mem_of_getElem? hv
    rw [show wordAccesses [.writeBlock Device.kDmaStatus (.buffer [5])] =
      [.write Device.kDmaStatus 5] by decide, List.mem_singleton] at hmem
    cases hmem
    rfl
  exact alike_readOnly (Or.inl hstatus)

/- To SRC_ADDR the same two blocks leave different words. -/
theorem log_omits_block_words : ¬∀ (ticks : BitVec 64) (log log' : ℕ) (test test' : String)
    (h h' : Host), h.logs log = [] → h'.logs log' = [] → ∀ calls calls' : List Call,
      (∀ reply ∈ Call.replies (loggedDevice ticks log test) h calls, reply.error = none) →
      (∀ reply ∈ Call.replies (loggedDevice ticks log' test') h' calls', reply.error = none) →
      ((Call.run (loggedDevice ticks log test) h calls).2.logs log).map Transaction.fields =
        ((Call.run (loggedDevice ticks log' test') h' calls').2.logs log').map Transaction.fields →
      (Call.run (loggedDevice ticks log test) h calls).1.inner =
        (Call.run (loggedDevice ticks log' test') h' calls').1.inner := by
  intro hall
  have hsame := hall 8 0 0 "a" "b" freshHost freshHost rfl rfl
    [.writeBlock Device.kDmaSrcAddr (.buffer [5])] [.writeBlock Device.kDmaSrcAddr (.buffer [6])]
    (by decide) (by decide) (by decide)
  have hword := congrArg (fun d : Device => d.word Device.kDmaSrcAddr) hsame
  revert hword
  decide

end SocValidation.Transport
