import SocValidation.Sequencer.History

/-!
# Scheduling safety of `Run` (sequencer.cpp:92-187)

The fork-join invariant, read back at the sequencer's own states: dependencies
have returned before a test starts, a batch bounds what executes at once, and a
returned `Run` has started every test once.
-/

namespace SocValidation.Sequencer
open Relation

variable {α : Type} {s : Sequencer} {threads : ℕ} {counter : BitVec 64} {st st' : RunState}
variable {n d : String} {tr : List (Event α)}

def Executing (st : RunState) (n : String) : Prop :=
  ∃ act, st.active n = some act ∧ ∀ r, act.pc ≠ .returned r

def Finished (st : RunState) (n : String) : Prop :=
  ∃ act r, st.active n = some act ∧ act.pc = .returned r

def RunState.Returned (st : RunState) : Prop := st.prog = []

theorem executing_iff : Executing st n ↔ st.status n = .active := by
  unfold Executing RunState.status
  cases st.active n with
  | none => simp
  | some act => cases hp : act.pc <;> simp [RunOne.status, hp]

theorem finished_iff : Finished st n ↔ st.status n = .finished := by
  unfold Finished RunState.status
  cases st.active n with
  | none => simp
  | some act => cases hp : act.pc <;> simp [RunOne.status, hp]

theorem runTo_append (tr rest : List (Event α)) :
    s.runTo threads counter (tr ++ rest) =
      (s.runTo threads counter tr).bind fun st => Trace.run s.step st rest := by
  unfold runTo
  cases s.start threads counter with
  | error e => rfl
  | ok st => exact Trace.run_append tr rest

theorem finished_step {act : Activation} {r : TestResult} {e : Event α}
    (h : s.runTo threads counter tr = some st) (hact : st.active d = some act)
    (hr : act.pc = .returned r) (hs : s.step st e = some st') :
    (∀ a, e ≠ .act d a) ∧ st'.active d = some act := by
  rcases step_active h hs hact with hleft | ⟨a, pc, c, -, hmove, -⟩
  · exact hleft
  · rw [hr] at hmove
    cases hmove

theorem finished_run {act : Activation} {r : TestResult} {rest : List (Event α)}
    (h : s.runTo threads counter tr = some st) (hact : st.active d = some act)
    (hr : act.pc = .returned r) (hrun : Trace.run s.step st rest = some st') :
    (∀ a, .act d a ∉ rest) ∧ st'.active d = some act := by
  induction rest generalizing tr st with
  | nil =>
    cases hrun
    exact ⟨by simp, hact⟩
  | cons e rest ih =>
    obtain ⟨m, hm, hrun⟩ := Option.bind_eq_some_iff.mp hrun
    obtain ⟨hne, hact'⟩ := finished_step h hact hr hm
    have hreach : s.runTo threads counter (tr ++ [e]) = some m := by
      rw [runTo_append, h]
      simp [Trace.run, hm]
    obtain ⟨hrest, hend⟩ := ih hreach hact' hrun
    refine ⟨fun a ha => ?_, hend⟩
    rcases List.mem_cons.mp ha with he | ha
    · exact hne a he.symm
    · exact hrest a ha

theorem finished_ready (h : s.runTo threads counter tr = some st) (hf : Finished st n) :
    ∃ out, .act n (.ready out) ∈ tr := by
  obtain ⟨act, r, hact, hr⟩ := hf
  have hstands := ((runTo_course h n).2 act hact).2.stands
  rw [hr] at hstands
  obtain ⟨-, -, out, hout, -⟩ := hstands
  exact ⟨out, mem_acts.mp hout⟩

theorem call_dependencies {f : Fn} (h : s.runTo threads counter tr = some st)
    (hs : s.step st (.act n (.call f) : Event α) = some st') (hd : TransGen s.DependsOn n d) :
    Finished st d := by
  obtain ⟨levels, hls, -⟩ := runTo_start h
  obtain ⟨act, pc, c, hact, -, -⟩ := step_act hs
  have hlaunched : st.status n ≠ .idle := by
    simp only [RunState.status, hact, RunOne.status]
    split <;> simp
  exact finished_iff.mpr ((runTo_inv h hls).deps_finished hlaunched hd)

theorem executing_le (h : s.runTo threads counter tr = some st) {l : List String}
    (hl : l.Nodup) (hex : ∀ n ∈ l, Executing st n) : l.length ≤ max 1 threads := by
  obtain ⟨levels, hls, -⟩ := runTo_start h
  exact (runTo_inv h hls).active_le hl fun n hn => executing_iff.mp (hex n hn)

/- On one thread no other test acts between two actions of a test. -/
theorem serial_alone {pre post : List (Event α)} {m : String} {a b c : Act α} (hth : threads ≤ 1)
    (h : s.runTo threads counter (pre ++ .act m a :: post) = some st) (hbefore : .act n b ∈ pre)
    (hafter : .act n c ∈ post) : m = n := by
  by_contra hmn
  rw [runTo_append] at h
  obtain ⟨st₁, h₁, hrun⟩ := Option.bind_eq_some_iff.mp h
  obtain ⟨st₂, hs, -⟩ := Option.bind_eq_some_iff.mp hrun
  -- both tests execute when the other one acts
  have hm : Executing st₁ m := by
    obtain ⟨act, pc, c, hact, hmove, -⟩ := step_act hs
    refine ⟨act, hact, fun r hr => ?_⟩
    have hmove := runOneStep_move hmove
    rw [hr] at hmove
    cases hmove
  have hn : Executing st₁ n := by
    cases hact : st₁.active n with
    | none =>
      have hnil := (runTo_course h₁ n).1 hact
      have hin : b ∈ acts n pre := mem_acts.mpr hbefore
      rw [hnil] at hin
      cases hin
    | some act =>
      refine ⟨act, hact, fun r hr => ?_⟩
      exact (finished_run h₁ hact hr hrun).1 c (List.mem_cons_of_mem _ hafter)
  have hle := executing_le h₁ (l := [m, n]) (by simp [hmn]) fun x hx => by
    rcases List.mem_cons.mp hx with rfl | hx
    · exact hm
    · rwa [List.mem_singleton.mp hx]
  rw [List.length_cons, List.length_singleton] at hle
  omega

theorem returned_finished (h : s.runTo threads counter tr = some st) (hr : st.Returned)
    (hn : n ∈ s.names) : Finished st n := by
  obtain ⟨levels, hls, -⟩ := runTo_start h
  rw [finished_iff]
  refine (runTo_inv h hls).done_finished ?_ ?_
  · simp only [RunState.forkJoin, show st.prog = [] from hr, List.map_nil]
  · rw [flatMap_chunks_flatten, mem_flatten_levels hls]
    exact hn

theorem executing_registered (h : s.runTo threads counter tr = some st) (hex : Executing st n) :
    n ∈ s.names := by
  obtain ⟨act, hact, -⟩ := hex
  obtain ⟨ht, -⟩ := (runTo_course h n).2 act hact
  obtain ⟨hmem, rfl⟩ := findTest_some ht
  exact List.mem_map_of_mem hmem

theorem count_label [DecidableEq α] (n : String) (tr : List (Event α)) :
    (tr.filterMap Event.label).count (.launch n) = tr.count (.launch n) := by
  induction tr with
  | nil => rfl
  | cons e tr ih =>
    cases hl : e.label with
    | none =>
      have hne : e ≠ .launch n := fun he => by
        rw [he] at hl
        cases hl
      simp [hl, ih, hne]
    | some l =>
      have hiff : l = .launch n ↔ e = .launch n := by
        unfold Event.label at hl
        split at hl <;> cases hl <;> simp
      simp [hl, ih, List.count_cons, hiff]

theorem launch_count [DecidableEq α] (h : s.runTo threads counter tr = some st) (n : String) :
    tr.count (.launch n) = if st.status n = .idle then 0 else 1 := by
  obtain ⟨levels, hls, -⟩ := runTo_start h
  rw [← count_label]
  exact ForkJoin.run_launch_count (levels_schedule hls threads) (runTo_forkJoin h hls) n

/- Once the test has finished it has been started once, and so has the first of
its functions. -/
theorem finished_started_once [DecidableEq α] (h : s.runTo threads counter tr = some st)
    (hf : Finished st n) : tr.count (.launch n) = 1 ∧ tr.count (.act n .readBefore) = 1 ∧
      ∀ t ∈ s.tests, t.name = n → tr.count (.act n (.call (firstFn t))) = 1 := by
  have hlaunch := launch_count h n
  rw [finished_iff.mp hf, if_neg (by decide)] at hlaunch
  obtain ⟨act, r, hact, hr⟩ := hf
  obtain ⟨ht, hcourse⟩ := (runTo_course h n).2 act hact
  have hentered := hcourse.entered_once
  have hcalls := hcourse.calls.1.2
  rw [hr] at hentered hcalls
  have hrank : (firstFn act.test).rank < 3 := by
    unfold firstFn
    split <;> decide
  rw [count_acts] at hentered hcalls
  refine ⟨hlaunch, hentered, fun t hmem hname => ?_⟩
  obtain ⟨hact, hactName⟩ := findTest_some ht
  have heq : t = act.test :=
    List.inj_on_of_nodup_map s.names_nodup hmem hact (hname.trans hactName.symm)
  rw [heq, hcalls]
  exact if_pos hrank

/-- Scheduling safety, for every interleaving of what the tests do. -/
theorem run_safe [DecidableEq α] (s : Sequencer) (threads : ℕ) (counter : BitVec 64) :
    (∀ e, s.levels = .error e → s.start threads counter = .error e ∧
      ∀ tr : List (Event α), s.runTo threads counter tr = none) ∧
    ∀ (tr : List (Event α)) (st : RunState), s.runTo threads counter tr = some st →
      (∀ n f st', s.step st (.act n (.call f) : Event α) = some st' →
        ∀ d, TransGen s.DependsOn n d → Finished st d ∧ (∃ out, .act d (.ready out) ∈ tr) ∧
          ∀ rest stop, Trace.run s.step st rest = some stop → ∀ a : Act α, .act d a ∉ rest) ∧
      (∀ l : List String, l.Nodup → (∀ n ∈ l, Executing st n) → l.length ≤ max 1 threads) ∧
      (st.Returned →
        (∀ t ∈ s.tests, Finished st t.name ∧ tr.count (.launch t.name) = 1 ∧
          tr.count (.act t.name .readBefore) = 1 ∧
          tr.count (.act t.name (.call (firstFn t))) = 1) ∧
        ∀ n, ¬Executing st n) := by
  refine ⟨fun e he => ?_, fun tr st h => ⟨?_, ?_, ?_⟩⟩
  · have hstart : s.start threads counter = .error e := by
      rw [start, he]
      rfl
    exact ⟨hstart, fun tr => by rw [runTo, hstart]⟩
  · intro n f st' hs d hd
    have hf := call_dependencies h hs hd
    refine ⟨hf, finished_ready h hf, fun rest stop hrun => ?_⟩
    obtain ⟨act, r, hact, hr⟩ := hf
    exact (finished_run h hact hr hrun).1
  · intro l hl hex
    exact executing_le h hl hex
  · intro hr
    refine ⟨fun t ht => ?_, fun n hex => ?_⟩
    · have hf := returned_finished h hr (List.mem_map_of_mem ht)
      obtain ⟨hlaunch, henter, hcall⟩ := finished_started_once h hf
      exact ⟨hf, hlaunch, henter, hcall t ht rfl⟩
    · have hf := finished_iff.mp (returned_finished h hr (executing_registered h hex))
      rw [executing_iff.mp hex] at hf
      cases hf

end SocValidation.Sequencer
