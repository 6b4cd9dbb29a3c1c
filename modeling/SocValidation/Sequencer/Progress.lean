import SocValidation.Sequencer.Safety

/-!
# `Run` comes to its end (sequencer.cpp:92-187)

Apart from what test functions do inside their own bodies a run has a bounded
number of steps, and until `Run` has returned one of them can be taken. The
measure is what each test and the main thread still have to do.
-/

namespace SocValidation.Sequencer
open Relation

variable {α : Type} {s : Sequencer} {threads : ℕ} {counter : BitVec 64} {st st' : RunState}
variable {n : String} {tr : List (Event α)} {t : TestCase} {k : ℕ} {c c' : BitVec 64}
variable {pc pc' : RunOne} {l l' : Lambda} {a : Act α}

/- A step of the sequencer itself, not one inside a test function. -/
def Act.work : Act α → Bool
  | .bump => false
  | .use _ => false
  | _ => true

def Event.work : Event α → Bool
  | .act _ a => a.work
  | _ => true

/-! ### What is left to do -/

/- A call and its return for each function to come, then `ready`. -/
def Lambda.left : Lambda → ℕ
  | .calling .setup _ => 7
  | .inside .setup _ => 6
  | .calling .body _ => 5
  | .inside .body _ => 4
  | .calling .teardown _ => 3
  | .inside .teardown _ => 2
  | .leaving _ => 1
  | .ready _ => 0

def RunOne.left : RunOne → ℕ
  | .entered => 11
  | .waiting _ l => l.left + 3
  | .draining _ l => l.left + 2
  | .classified _ _ _ => 1
  | .returned _ => 0

def workLeft : Option Activation → ℕ
  | none => 11
  | some act => act.pc.left

def RunState.left (s : Sequencer) (st : RunState) : ℕ :=
  st.prog.length + ∑ n ∈ s.names.toFinset, workLeft (st.active n)

theorem lambdaNext_left (t : TestCase) (f : Fn) (p q out : Option Thrown) :
    (lambdaNext t f p out).left < (Lambda.inside f q).left := by
  unfold lambdaNext
  split
  · simp [Lambda.left]
  · simp [Lambda.left]
  · split <;> simp [Lambda.left]
  · simp [Lambda.left]
  · simp [Lambda.left]

theorem lambdaStep_left (h : lambdaStep t l a = some l') :
    l'.left + a.work.toNat ≤ l.left := by
  unfold lambdaStep at h
  split at h
  next f p g =>
    split at h
    · cases h
      cases f <;> simp [Lambda.left, Act.work]
    · cases h
  next f p =>
    cases h
    simp [Act.work]
  next f p b =>
    cases h
    simp [Act.work]
  next f p out =>
    cases h
    exact lambdaNext_left t f p p out
  next out out' =>
    split at h
    · cases h
      simp [Lambda.left, Act.work]
    · cases h
  · cases h

theorem lambdaStart_left (t : TestCase) : (lambdaStart t).left ≤ 7 := by
  unfold lambdaStart
  split <;> decide

theorem move_left (h : RunOneMove t k c pc a pc' c') : pc'.left + a.work.toNat ≤ pc.left := by
  cases h with
  | enter =>
    have hstart := lambdaStart_left t
    simp only [RunOne.left, Act.work, Bool.toNat_true]
    omega
  | expire b l hl => simp [RunOne.left, Act.work]
  | get b out => simp [RunOne.left, Act.work, Lambda.left]
  | drained b out => simp [RunOne.left, Act.work, Lambda.left]
  | close b status message => simp [RunOne.left, Act.work]
  | run b l l' a hl =>
    have hstep := lambdaStep_left hl
    simp only [RunOne.left]
    omega
  | runLate b l l' a hl =>
    have hstep := lambdaStep_left hl
    simp only [RunOne.left]
    omega

theorem workLeft_update (active : String → Option Activation) (names : Finset String) {m : String}
    (hm : m ∈ names) (act : Option Activation) :
    ∑ n ∈ names, workLeft (Function.update active m act n) + workLeft (active m) =
      ∑ n ∈ names, workLeft (active n) + workLeft act := by
  have hview : workLeft ∘ Function.update active m act =
      Function.update (workLeft ∘ active) m (workLeft act) := Function.comp_update ..
  change ∑ n ∈ names, (workLeft ∘ Function.update active m act) n + _ = _
  have hsplit := Finset.sum_sdiff (f := workLeft ∘ active) (Finset.singleton_subset_iff.mpr hm)
  rw [hview, Finset.sum_update_of_mem hm]
  simp only [Finset.sum_singleton, Function.comp_apply] at hsplit ⊢
  omega

theorem step_left {e : Event α} (h : s.runTo threads counter tr = some st)
    (hs : s.step st e = some st') : st'.left s + e.work.toNat ≤ st.left s := by
  cases e with
  | launch m =>
    have hidle := launch_inactive h hs
    obtain ⟨k, rest, t, hp, ht, rfl⟩ := step_launch hs
    obtain ⟨hmem, rfl⟩ := findTest_some ht
    have hm : t.name ∈ s.names.toFinset := List.mem_toFinset.mpr (List.mem_map_of_mem hmem)
    have hsum := workLeft_update st.active s.names.toFinset hm (some ⟨t, k, .entered⟩)
    rw [hidle] at hsum
    simp only [RunState.left, hp, List.length_cons, workLeft, RunOne.left, Event.work,
      Bool.toNat_true] at hsum ⊢
    omega
  | collect m =>
    obtain ⟨rest, t, k, r, hp, -, rfl⟩ := step_collect hs
    simp only [RunState.left, hp, List.length_cons, Event.work, Bool.toNat_true]
    omega
  | act m a =>
    obtain ⟨act, pc, c, hact, hm, rfl⟩ := step_act hs
    obtain ⟨ht, -⟩ := (runTo_course h m).2 act hact
    obtain ⟨hmem, rfl⟩ := findTest_some ht
    have hin : act.test.name ∈ s.names.toFinset := List.mem_toFinset.mpr (List.mem_map_of_mem hmem)
    have hsum := workLeft_update st.active s.names.toFinset hin (some { act with pc := pc })
    have hmove := move_left (runOneStep_move hm)
    rw [hact] at hsum
    simp only [RunState.left, workLeft, Event.work] at hsum ⊢
    omega

/-- The steps of a run that are not inside a test function are bounded. -/
theorem run_work_le (h : s.runTo threads counter tr = some st) :
    tr.countP Event.work ≤ 13 * s.tests.length := by
  obtain ⟨levels, hls, -⟩ := runTo_start h
  have hle : tr.countP Event.work + st.left s ≤ 13 * s.tests.length := by
    refine runTo_invariant (fun tr st => tr.countP Event.work + st.left s ≤ 13 * s.tests.length)
      ?_ ?_ h
    · intro levels' hl
      have hnames : s.names.toFinset.card = s.tests.length := by
        exact (List.toFinset_card_of_nodup s.names_nodup).trans (List.length_map _)
      have hprog : (runProgram threads 0 levels').length = 2 * s.tests.length := by
        have hlen := congrArg List.length (runProgram_forkJoin threads 0 levels')
        rw [List.length_map, ForkJoin.program_length, flatMap_chunks_flatten,
          (flatten_levels_perm hl).length_eq, names, List.length_map] at hlen
        exact hlen
      simp only [List.countP_nil, RunState.left, workLeft, hprog, Finset.sum_const, hnames,
        smul_eq_mul]
      omega
    · intro tr st e st' hrun hp hs
      have hstep := step_left hrun hs
      rw [List.countP_append, List.countP_singleton]
      cases hw : e.work <;> simp only [hw, Bool.toNat_true, Bool.toNat_false] at hstep ⊢
      · simp only [Bool.false_eq_true, if_false]
        omega
      · simp only [if_true]
        omega
  omega

/-! ### A step can always be taken -/

theorem runOneStep_waiting (b : BitVec 64) (h : lambdaStep t l a = some l') :
    runOneStep t k c (.waiting b l) a = some (.waiting b l', bumped c a) := by
  cases a with
  | timeout => cases l <;> cases h
  | join => cases l <;> cases h
  | _ => simp only [runOneStep, h, Option.map_some]

theorem runOneStep_draining (b : BitVec 64) (h : lambdaStep t l a = some l') :
    runOneStep t k c (.draining b l) a = some (.draining b l', bumped c a) := by
  cases a with
  | timeout => cases l <;> cases h
  | join => cases l <;> cases h
  | _ => simp only [runOneStep, h, Option.map_some]

/- Setup and teardown return and the body ends as `v` says. -/
def Lambda.Planned (v : Option Thrown) : Lambda → Prop
  | .calling .teardown p => p = v
  | .inside .teardown p => p = v
  | .leaving out => out = v
  | .ready out => out = v
  | _ => True

def RunOne.Planned (v : Option Thrown) : RunOne → Prop
  | .waiting _ l => l.Planned v
  | .draining _ l => l.Planned v
  | _ => True

/- No timeout fires, and the lambda of each test comes to its verdict. -/
def Event.Follows (verdict : String → Option Thrown) : Event α → Prop
  | .act _ .timeout => False
  | .act n (.ready out) => out = verdict n
  | _ => True

theorem lambda_exists_step (t : TestCase) (v : Option Thrown) (hl : l.out? = none) :
    ∃ (a : Act α) (l' : Lambda), lambdaStep t l a = some l' ∧ a.work = true ∧
      (l.Planned v → l'.Planned v ∧ (Event.act n a).Follows fun _ => v) := by
  cases l with
  | calling f p =>
    exact ⟨.call f, .inside f p, by simp [lambdaStep], rfl, fun hp => ⟨by cases f <;> exact hp, trivial⟩⟩
  | inside f p =>
    refine ⟨.ret (if f = .body then v else none), _, rfl, rfl, fun hp => ⟨?_, trivial⟩⟩
    cases f with
    | setup => trivial
    | body =>
      simp only [lambdaNext, if_true]
      split <;> rfl
    | teardown => exact hp
  | leaving out => exact ⟨.ready out, .ready out, by simp [lambdaStep], rfl, fun hp => ⟨hp, hp⟩⟩
  | ready out => cases hl

theorem runOne_exists_step (t : TestCase) (k : ℕ) (c : BitVec 64) (v : Option Thrown)
    (hpc : ∀ r, pc ≠ .returned r) :
    ∃ (a : Act α) (pc' : RunOne) (c' : BitVec 64), runOneStep t k c pc a = some (pc', c') ∧
      a.work = true ∧ (pc.Planned v → pc'.Planned v ∧ (Event.act n a).Follows fun _ => v) := by
  cases pc with
  | entered =>
    refine ⟨.readBefore, _, _, rfl, rfl, fun _ => ⟨?_, trivial⟩⟩
    simp only [RunOne.Planned, lambdaStart]
    split <;> trivial
  | waiting b l =>
    cases hl : l.out? with
    | none =>
      obtain ⟨a, l', hstep, hw, hp⟩ := lambda_exists_step (n := n) (α := α) t v hl
      exact ⟨a, _, _, runOneStep_waiting b hstep, hw, hp⟩
    | some out =>
      exact ⟨.join, .classified b (classify out).1 (classify out).2, c,
        by rw [runOneStep, hl]; rfl, rfl, fun _ => ⟨trivial, trivial⟩⟩
  | draining b l =>
    cases hl : l.out? with
    | none =>
      obtain ⟨a, l', hstep, hw, hp⟩ := lambda_exists_step (n := n) (α := α) t v hl
      exact ⟨a, _, _, runOneStep_draining b hstep, hw, hp⟩
    | some out =>
      exact ⟨.join, .classified b (timedOut t).1 (timedOut t).2, c,
        by rw [runOneStep, hl]; rfl, rfl, fun _ => ⟨trivial, trivial⟩⟩
  | classified b status message => exact ⟨.readAfter, _, _, rfl, rfl, fun _ => ⟨trivial, trivial⟩⟩
  | returned r => exact absurd rfl (hpc r)

def OnPlan (verdict : String → Option Thrown) (st : RunState) : Prop :=
  ∀ n act, st.active n = some act → act.pc.Planned (verdict n)

/-- Until `Run` has returned one of its own steps can be taken, and where the
tests behave as the verdicts say, one that keeps to them. -/
theorem exists_step (verdict : String → Option Thrown) (h : s.runTo threads counter tr = some st)
    (hr : ¬st.Returned) : ∃ (e : Event α) (st' : RunState), s.step st e = some st' ∧
      e.work = true ∧ (OnPlan verdict st → OnPlan verdict st' ∧ e.Follows verdict) := by
  obtain ⟨levels, hls, -⟩ := runTo_start h
  obtain ⟨i, rest, hp⟩ := List.exists_cons_of_ne_nil hr
  cases i with
  | launch m k =>
    obtain ⟨level, hl, hm⟩ := (runTo_placed h hls).launch m k (by rw [hp]; exact List.mem_cons_self ..)
    have hmem := (mem_flatten_levels hls).mp
      (List.mem_flatten.mpr ⟨level, List.mem_of_getElem? hl, hm⟩)
    obtain ⟨t, ht⟩ := findTest_of_mem hmem
    refine ⟨.launch m, _, by simp only [step, hp, if_true, ht, Option.map_some]; rfl, rfl,
      fun hplan => ⟨fun n act ha => ?_, trivial⟩⟩
    dsimp only at ha
    by_cases hn : n = m
    · subst hn
      rw [Function.update_self] at ha
      cases ha
      trivial
    · rw [Function.update_of_ne hn] at ha
      exact hplan n act ha
  | collect m =>
    have hrun : st.status m ≠ .idle := (runTo_inv h hls).collect_running
      (by simp only [RunState.forkJoin, hp, List.map_cons]; rfl)
    obtain ⟨act, hact⟩ : ∃ act, st.active m = some act := by
      cases ha : st.active m with
      | none => simp [RunState.status, ha] at hrun
      | some act => exact ⟨act, rfl⟩
    obtain ⟨t, k, pc⟩ := act
    by_cases hpc : ∃ r, pc = .returned r
    · obtain ⟨r, rfl⟩ := hpc
      refine ⟨.collect m, _, by simp only [step, hp, hact, if_true]; rfl, rfl, fun hplan => ?_⟩
      exact ⟨hplan, trivial⟩
    · obtain ⟨a, pc', c', hstep, hw, hplan'⟩ := runOne_exists_step (α := α) (n := m) t k st.counter
        (verdict m) fun r hr => hpc ⟨r, hr⟩
      refine ⟨.act m a, _, by simp only [step, hact, hstep, Option.map_some]; rfl, hw, fun hplan => ?_⟩
      obtain ⟨hnext, hfollows⟩ := hplan' (hplan m _ hact)
      refine ⟨fun n act ha => ?_, by cases a <;> exact hfollows⟩
      dsimp only at ha
      by_cases hn : n = m
      · subst hn
        rw [Function.update_self] at ha
        cases ha
        exact hnext
      · rw [Function.update_of_ne hn] at ha
        exact hplan n act ha

theorem exists_return (verdict : String → Option Thrown) (h : s.runTo threads counter tr = some st)
    (hplan : OnPlan verdict st) : ∃ (rest : List (Event α)) (stop : RunState),
      s.runTo threads counter (tr ++ rest) = some stop ∧ stop.Returned ∧
      ∀ e ∈ rest, e.Follows verdict := by
  induction hk : st.left s using Nat.strong_induction_on generalizing tr st with
  | _ k ih =>
    by_cases hr : st.Returned
    · exact ⟨[], st, by rwa [List.append_nil], hr, by simp⟩
    · obtain ⟨e, st', hs, hw, hnext⟩ := exists_step verdict h hr
      obtain ⟨hplan', hfollows⟩ := hnext hplan
      have hleft := step_left h hs
      rw [hw, Bool.toNat_true] at hleft
      have hreach : s.runTo threads counter (tr ++ [e]) = some st' := by
        rw [runTo_append, h]
        simp [Trace.run, hs]
      obtain ⟨rest, stop, hrun, hret, hrest⟩ := ih _ (by omega) hreach hplan' rfl
      refine ⟨e :: rest, stop, by simpa using hrun, hret, fun x hx => ?_⟩
      rcases List.mem_cons.mp hx with rfl | hx
      · exact hfollows
      · exact hrest x hx

end SocValidation.Sequencer
