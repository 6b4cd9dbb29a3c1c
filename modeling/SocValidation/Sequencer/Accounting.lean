import SocValidation.Sequencer.Results

/-!
# What `register_accesses` counts (sequencer.cpp:92-143)

`RunOne` reads one process-wide counter when it starts and when it ends, and
takes the difference. So a result holds every bump between the two readings,
whichever test made it.
-/

namespace SocValidation.Sequencer

variable {α : Type} {s : Sequencer} {threads : ℕ} {counter : BitVec 64} {st st' : RunState}
variable {n m : String} {tr : List (Event α)} {t : TestCase} {k : ℕ} {c c' b : BitVec 64}
variable {pc pc' : RunOne} {a : Act α}

def Event.bumps : Event α → Bool
  | .act _ .bump => true
  | _ => false

def Event.foreign (n : String) : Event α → Bool
  | .act m .bump => m != n
  | _ => false

theorem bumped_eq (c : BitVec 64) (n : String) (a : Act α) :
    bumped c a = c + BitVec.ofNat 64 (Event.act n a).bumps.toNat := by
  cases a <;> simp [bumped, Event.bumps]

theorem move_counter (h : RunOneMove t k c pc a pc' c') : c' = bumped c a := by
  cases h with
  | run b l l' a hl => rfl
  | runLate b l l' a hl => rfl
  | _ => rfl

theorem step_counter {e : Event α} (h : s.step st e = some st') :
    st'.counter = st.counter + BitVec.ofNat 64 e.bumps.toNat := by
  cases e with
  | launch n =>
    obtain ⟨k, rest, t, -, -, rfl⟩ := step_launch h
    simp [Event.bumps]
  | collect n =>
    obtain ⟨rest, t, k, r, -, -, rfl⟩ := step_collect h
    simp [Event.bumps]
  | act n a =>
    obtain ⟨act, pc, c, -, hm, rfl⟩ := step_act h
    rw [← bumped_eq]
    exact move_counter (runOneStep_move hm)

theorem run_counter (h : Trace.run s.step st tr = some st') :
    st'.counter = st.counter + BitVec.ofNat 64 (tr.countP Event.bumps) := by
  induction tr generalizing st with
  | nil =>
    cases h
    simp
  | cons e tr ih =>
    obtain ⟨mid, hm, hr⟩ := Option.bind_eq_some_iff.mp h
    rw [ih hr, step_counter hm, List.countP_cons, BitVec.add_assoc, ← BitVec.ofNat_add]
    cases e.bumps <;> simp [Nat.add_comm]

/-! ### Between the two readings -/

/- `RunOne` has read the counter as `b` and has not read it again. -/
def OpenAt (b : BitVec 64) : RunOne → Prop
  | .entered => False
  | .waiting b' _ => b' = b
  | .draining b' _ => b' = b
  | .classified b' _ _ => b' = b
  | .returned _ => False

theorem move_openAt (h : RunOneMove t k c pc a pc' c') (hb : OpenAt b pc) (ha : a ≠ .readAfter) :
    OpenAt b pc' := by
  cases h with
  | enter => exact hb.elim
  | close b' status message => exact absurd rfl ha
  | _ => exact hb

theorem run_openAt {act : Activation} {mid : List (Event α)}
    (h : s.runTo threads counter tr = some st) (hact : st.active n = some act)
    (hb : OpenAt b act.pc) (hmid : .act n .readAfter ∉ mid)
    (hr : Trace.run s.step st mid = some st') :
    ∃ act', st'.active n = some act' ∧ act'.test = act.test ∧ OpenAt b act'.pc := by
  induction mid generalizing tr st act with
  | nil =>
    cases hr
    exact ⟨act, hact, rfl, hb⟩
  | cons e mid ih =>
    obtain ⟨st₁, hs, hr⟩ := Option.bind_eq_some_iff.mp hr
    rw [List.mem_cons, not_or] at hmid
    have hreach : s.runTo threads counter (tr ++ [e]) = some st₁ := by
      rw [runTo_append, h]
      simp [Trace.run, hs]
    have hone : ∃ act₁, st₁.active n = some act₁ ∧ act₁.test = act.test ∧ OpenAt b act₁.pc := by
      rcases step_active h hs hact with ⟨-, hleft⟩ | ⟨a, pc, c, rfl, hmove, hnext⟩
      · exact ⟨act, hleft, rfl, hb⟩
      · exact ⟨_, hnext, rfl, move_openAt hmove hb fun he => hmid.1 (by rw [he])⟩
    obtain ⟨act₁, hact₁, htest, hopen⟩ := hone
    obtain ⟨act', hact', htest', hopen'⟩ := ih hreach hact₁ hopen hmid.2 hr
    exact ⟨act', hact', htest'.trans htest, hopen'⟩

theorem move_readBefore (h : RunOneMove t k c pc (.readBefore : Act α) pc' c') :
    pc = .entered ∧ OpenAt c pc' ∧ c' = c := by
  cases h with
  | enter => exact ⟨rfl, rfl, rfl⟩
  | run b l l' a hl => cases l <;> cases hl
  | runLate b l l' a hl => cases l <;> cases hl

theorem move_readAfter (h : RunOneMove t k c pc (.readAfter : Act α) pc' c') :
    ∃ b status message, pc = .classified b status message ∧
      pc' = .returned ⟨t.name, status, message, c - b, k⟩ := by
  cases h with
  | close b status message => exact ⟨b, status, message, rfl, rfl⟩
  | run b l l' a hl => cases l <;> cases hl
  | runLate b l l' a hl => cases l <;> cases hl

theorem Course.readAfter_iff {as : List (Act α)} (h : Course t k as pc) :
    .readAfter ∈ as ↔ ∃ r, pc = .returned r := by
  induction h with
  | enter => simp
  | @move as a pc pc' c c' hc hm ih =>
    rw [List.mem_append, ih, List.mem_singleton]
    cases hm with
    | run b l l' a hl =>
      have hne : a ≠ .readAfter := fun he => by
        subst he
        cases l <;> cases hl
      simp [Ne.symm hne]
    | runLate b l l' a hl =>
      have hne : a ≠ .readAfter := fun he => by
        subst he
        cases l <;> cases hl
      simp [Ne.symm hne]
    | _ => simp

theorem finished_window [DecidableEq α] (h : s.runTo threads counter tr = some st)
    (hf : Finished st n) :
    ∃ pre mid post, tr = pre ++ .act n .readBefore :: (mid ++ .act n .readAfter :: post) := by
  obtain ⟨act, r, hact, hr⟩ := hf
  have hmem := ((runTo_course h n).2 act hact).2.readAfter_iff.mpr ⟨r, hr⟩
  obtain ⟨front, post, rfl⟩ := List.append_of_mem (mem_acts.mp hmem)
  rw [runTo_append] at h
  obtain ⟨st₁, h₁, hrun⟩ := Option.bind_eq_some_iff.mp h
  obtain ⟨st₂, hs, -⟩ := Option.bind_eq_some_iff.mp hrun
  obtain ⟨act₁, pc, c, hact₁, hm, -⟩ := step_act hs
  obtain ⟨b, status, message, hpc, -⟩ := move_readAfter (runOneStep_move hm)
  have hcount := ((runTo_course h₁ n).2 act₁ hact₁).2.entered_once
  rw [hpc, if_neg (by simp)] at hcount
  have hin : .act n .readBefore ∈ front := mem_acts.mp (List.count_pos_iff.mp (by omega))
  obtain ⟨pre, mid, rfl⟩ := List.append_of_mem hin
  exact ⟨pre, mid, post, by simp⟩

/-- The result holds all the bumps between the two readings; before the first and
after the second the test itself does nothing. -/
theorem window_result {pre mid post : List (Event α)}
    (h : s.runTo threads counter (pre ++ .act n .readBefore :: (mid ++ .act n .readAfter :: post)) =
      some st) :
    (∃ act r, st.active n = some act ∧ act.pc = .returned r ∧
      r.registerAccesses = BitVec.ofNat 64 (mid.countP Event.bumps)) ∧
    ∀ a, .act n a ∉ pre ∧ .act n a ∉ post := by
  rw [runTo_append] at h
  obtain ⟨st₀, h₀, hrun⟩ := Option.bind_eq_some_iff.mp h
  obtain ⟨st₁, hs₁, hrun⟩ := Option.bind_eq_some_iff.mp hrun
  rw [Trace.run_append] at hrun
  obtain ⟨st₂, hmid, hrun⟩ := Option.bind_eq_some_iff.mp hrun
  obtain ⟨st₃, hs₃, hpost⟩ := Option.bind_eq_some_iff.mp hrun
  have h₁ : s.runTo threads counter (pre ++ [.act n .readBefore]) = some st₁ := by
    rw [runTo_append, h₀]
    simp [Trace.run, hs₁]
  have h₂ : s.runTo threads counter (pre ++ [.act n .readBefore] ++ mid) = some st₂ := by
    rw [runTo_append, h₁]
    exact hmid
  have h₃ : s.runTo threads counter
      (pre ++ [.act n .readBefore] ++ mid ++ [.act n .readAfter]) = some st₃ := by
    rw [runTo_append, h₂]
    simp [Trace.run, hs₃]
  -- the first reading
  obtain ⟨act₀, pc₁, c₁, hact₀, hm₁, rfl⟩ := step_act hs₁
  obtain ⟨hentered, hopen, rfl⟩ := move_readBefore (runOneStep_move hm₁)
  have hpre := ((runTo_course h₀ n).2 act₀ hact₀).2.stands
  rw [hentered] at hpre
  -- the second reading
  obtain ⟨act₂, pc₃, c₃, hact₂, hm₃, rfl⟩ := step_act hs₃
  obtain ⟨b, status, message, hpc₂, rfl⟩ := move_readAfter (runOneStep_move hm₃)
  have hno : .act n .readAfter ∉ mid := fun hin => by
    have hmem : .readAfter ∈ acts n (pre ++ [.act n .readBefore] ++ mid) :=
      mem_acts.mpr (List.mem_append_right _ hin)
    obtain ⟨r, hr⟩ := ((runTo_course h₂ n).2 act₂ hact₂).2.readAfter_iff.mp hmem
    rw [hpc₂] at hr
    cases hr
  obtain ⟨act', hact', -, hb⟩ := run_openAt h₁ (Function.update_self ..) hopen hno hmid
  cases hact₂.symm.trans hact'
  rw [hpc₂] at hb
  obtain rfl : b = st₀.counter := hb
  obtain ⟨hnone, hact⟩ := finished_run h₃ (Function.update_self ..) rfl hpost
  refine ⟨⟨_, _, hact, rfl, ?_⟩, fun a => ⟨fun hin => ?_, hnone a⟩⟩
  · rw [run_counter hmid]
    dsimp only
    rw [BitVec.add_comm, BitVec.add_sub_cancel]
  · have hmem := mem_acts.mpr hin
    rw [show acts n pre = [] from hpre] at hmem
    cases hmem

theorem countP_bumps [DecidableEq α] (n : String) (mid : List (Event α)) :
    mid.countP Event.bumps = mid.count (.act n .bump) + mid.countP (Event.foreign n) := by
  induction mid with
  | nil => rfl
  | cons e mid ih =>
    rw [List.countP_cons, List.count_cons, List.countP_cons, ih]
    have hone : (if e.bumps = true then 1 else 0) =
        (if (e == .act n .bump) = true then 1 else 0) + if e.foreign n = true then 1 else 0 := by
      cases e with
      | act m a => cases a <;> by_cases hm : m = n <;> simp [Event.bumps, Event.foreign, hm]
      | _ => simp [Event.bumps, Event.foreign]
    omega

theorem window_serial {pre mid post : List (Event α)} (hth : threads ≤ 1)
    (h : s.runTo threads counter (pre ++ .act n .readBefore :: (mid ++ .act n .readAfter :: post)) =
      some st) : mid.countP (Event.foreign n) = 0 := by
  rw [List.countP_eq_zero]
  intro e he hf
  obtain ⟨m, rfl, hmn⟩ : ∃ m, e = .act m .bump ∧ m ≠ n := by
    unfold Event.foreign at hf
    split at hf
    next m => exact ⟨m, rfl, by simpa using hf⟩
    · cases hf
  obtain ⟨xs, ys, rfl⟩ := List.append_of_mem he
  have hsplit : pre ++ Event.act n .readBefore :: (xs ++ .act m .bump :: ys ++ .act n .readAfter :: post) =
      (pre ++ .act n .readBefore :: xs) ++ .act m .bump :: (ys ++ .act n .readAfter :: post) := by
    simp
  rw [hsplit] at h
  have hbefore : .act n .readBefore ∈ pre ++ .act n .readBefore :: xs := by simp
  have hafter : .act n .readAfter ∈ ys ++ .act n .readAfter :: post := by simp
  exact hmn (serial_alone hth h hbefore hafter)

/-- When `register_accesses` counts what the test itself did. -/
theorem accounting_exact_iff [DecidableEq α] (h : s.runTo threads counter tr = some st)
    (hr : st.Returned) {i : ℕ} {r : TestResult} (ht : s.tests[i]? = some t)
    (hres : (s.results st)[i]? = some r) :
    ∃ pre mid post, tr = pre ++ .act t.name .readBefore :: (mid ++ .act t.name .readAfter :: post) ∧
      (r.registerAccesses.toNat = tr.count (.act t.name .bump) ↔
        tr.count (.act t.name .bump) < 2 ^ 64 ∧ 2 ^ 64 ∣ mid.countP (Event.foreign t.name)) ∧
      (threads ≤ 1 → mid.countP (Event.foreign t.name) = 0) := by
  have hmem := List.mem_of_getElem? ht
  have hr' : st.byName.getD t.name {} = r := results_getElem? ht hres
  have hf := returned_finished h hr (List.mem_map_of_mem hmem)
  obtain ⟨pre, mid, post, rfl⟩ := finished_window h hf
  refine ⟨pre, mid, post, rfl, ?_, fun hth => window_serial hth h⟩
  obtain ⟨⟨act, r', hact, hpc, haccesses⟩, hnone⟩ := window_result h
  obtain ⟨act', hact', -, hpc'⟩ := returned_result h hr hmem
  cases hact.symm.trans hact'
  rw [hpc, hr'] at hpc'
  cases hpc'
  have hown : (pre ++ .act t.name .readBefore :: (mid ++ .act t.name .readAfter :: post)).count
      (.act t.name .bump) = mid.count (.act t.name .bump) := by
    simp [List.count_append, List.count_eq_zero.mpr (hnone .bump).1,
      List.count_eq_zero.mpr (hnone .bump).2]
  rw [hown, haccesses, countP_bumps t.name, BitVec.toNat_ofNat]
  omega

/- A run of the suite on two threads: the body of `dma` bumps once while `irq`,
which touches nothing, has read the counter once. -/
def crossedRun : List (Event Unit) :=
  [.launch "dma", .launch "irq", .act "dma" .readBefore, .act "irq" .readBefore,
    .act "dma" (.call .body), .act "dma" .bump, .act "dma" (.ret none),
    .act "dma" (.call .teardown), .act "dma" (.ret none), .act "dma" (.ready none),
    .act "dma" .join, .act "dma" .readAfter,
    .act "irq" (.call .body), .act "irq" (.ret none), .act "irq" (.ready none),
    .act "irq" .join, .act "irq" .readAfter, .collect "dma", .collect "irq",
    .launch "link_up", .act "link_up" .readBefore, .act "link_up" (.call .body),
    .act "link_up" (.ret none), .act "link_up" (.ready none), .act "link_up" .join,
    .act "link_up" .readAfter, .collect "link_up"]

theorem crossedRun_results : (linkSuite.runTo 2 0 crossedRun).map
      (fun st => (st.prog, linkSuite.results st)) =
    some ([], [⟨"link_up", .pass, "", 0, 1⟩, ⟨"irq", .pass, "", 1, 0⟩, ⟨"dma", .pass, "", 1, 0⟩]) := by
  decide

theorem crossedRun_returns : ∃ st, linkSuite.runTo 2 0 crossedRun = some st ∧ st.Returned ∧
    (linkSuite.results st)[1]? = some ⟨"irq", .pass, "", 1, 0⟩ ∧
    (linkSuite.results st)[2]? = some ⟨"dma", .pass, "", 1, 0⟩ := by
  obtain ⟨st, hrun, hret, hresults⟩ := returned_of_results crossedRun_results
  exact ⟨st, hrun, hret, by rw [hresults]; rfl, by rw [hresults]; rfl⟩

theorem accounting_exact_dma : ∃ pre mid post,
    crossedRun = pre ++ .act "dma" .readBefore :: (mid ++ .act "dma" .readAfter :: post) ∧
      ((1 : BitVec 64).toNat = crossedRun.count (.act "dma" .bump) ↔
        crossedRun.count (.act "dma" .bump) < 2 ^ 64 ∧
          2 ^ 64 ∣ mid.countP (Event.foreign "dma")) := by
  obtain ⟨st, hrun, hret, -, hdma⟩ := crossedRun_returns
  obtain ⟨pre, mid, post, hsplit, hiff, -⟩ := accounting_exact_iff hrun hret rfl hdma
  exact ⟨pre, mid, post, hsplit, hiff⟩

/- Two tests side by side: the one that made no access is charged with one. -/
theorem accounting_crossed : ¬∀ (s : Sequencer) (threads : ℕ) (counter : BitVec 64)
    (tr : List (Event Unit)) (st : RunState), s.runTo threads counter tr = some st → st.Returned →
    ∀ (i : ℕ) (t : TestCase) (r : TestResult), s.tests[i]? = some t →
      (s.results st)[i]? = some r → r.registerAccesses.toNat = tr.count (.act t.name .bump) := by
  intro hall
  obtain ⟨st, hrun, hret, hirq, -⟩ := crossedRun_returns
  have hcount := hall linkSuite 2 0 crossedRun st hrun hret 1 { name := "irq" } _ rfl hirq
  revert hcount
  decide

end SocValidation.Sequencer
