import SocValidation.Lib.Serial
import SocValidation.Sequencer.Results

/-!
# Suites whose tests share objects (sequencer.cpp:92-187)

The functions of the tests are programs now: what a function does next is decided by the
replies it has had from the objects that it calls. `Run` schedules them as before, and
whatever they find in the objects it can come to its end.
-/

namespace SocValidation.Sequencer
open Relation

variable {ι κ ρ τ : Type}

abbrev Body (ι κ ρ : Type) := Program (ι × κ) ρ (Option Thrown)

/- What the functions of each test do, and the objects that the test may call. -/
structure Bodies (ι κ ρ : Type) where
  script : String → Fn → Body ι κ ρ
  reach : String → Set ι
  within : ∀ n f, (script n f).Within (reach n)

/-! ### The lambda as one program (`sequencer.cpp:101-116`) -/

section Lambda
variable {t : TestCase} {script : Fn → Body ι κ ρ} {p rest : Body ι κ ρ} {pending out : Option Thrown}
variable {l l' : Lambda} {f : Fn}

def inTeardown (pending : Option Thrown) (p : Body ι κ ρ) : Body ι κ ρ :=
  p.bind fun out => .ret (out.or pending)

def inBody (t : TestCase) (script : Fn → Body ι κ ρ) (p : Body ι κ ρ) : Body ι κ ρ :=
  p.bind fun out => if t.teardown then inTeardown out (script .teardown) else .ret out

def inSetup (t : TestCase) (script : Fn → Body ι κ ρ) (p : Body ι κ ρ) : Body ι κ ρ :=
  p.bind fun out =>
    match out with
    | none => inBody t script (script .body)
    | some e => .ret (some e)

/- Inside `f`, which has `p` left to do. -/
def inFn (t : TestCase) (script : Fn → Body ι κ ρ) (f : Fn) (pending : Option Thrown)
    (p : Body ι κ ρ) : Body ι κ ρ :=
  match f with
  | .setup => inSetup t script p
  | .body => inBody t script p
  | .teardown => inTeardown pending p

def Lambda.ahead (t : TestCase) (script : Fn → Body ι κ ρ) (rest : Body ι κ ρ) :
    Lambda → Option (Body ι κ ρ)
  | .calling f pending => some (inFn t script f pending (script f))
  | .inside f pending => some (inFn t script f pending rest)
  | .leaving out => some (.ret out)
  | .ready _ => none

def testProgram (t : TestCase) (script : Fn → Body ι κ ρ) : Body ι κ ρ :=
  if t.setup then inSetup t script (script .setup) else inBody t script (script .body)

theorem ahead_start : (lambdaStart t).ahead t script rest = some (testProgram t script) := by
  unfold lambdaStart testProgram
  split <;> rfl

theorem ahead_next : (lambdaNext t f pending out).ahead t script rest =
    some (inFn t script f pending (.ret out)) := by
  cases f with
  | setup => cases out <;> rfl
  | body =>
    have hnext : lambdaNext t .body pending out =
        if t.teardown then .calling .teardown out else .leaving out := by
      cases out <;> rfl
    have hret : inFn t script .body pending (.ret out) =
        if t.teardown then inTeardown out (script .teardown) else .ret out := rfl
    rw [hnext, hret]
    split <;> rfl
  | teardown => cases out <;> rfl

theorem inFn_call (k : ι × κ) (next : ρ → Body ι κ ρ) :
    inFn t script f pending (.call k next) = .call k fun r => inFn t script f pending (next r) := by
  cases f <;> rfl

theorem within_inTeardown {O : Set ι} (h : p.Within O) : (inTeardown pending p).Within O :=
  h.bind fun _ => trivial

theorem within_inBody {O : Set ι} (hs : ∀ f, (script f).Within O) (h : p.Within O) :
    (inBody t script p).Within O := by
  refine h.bind fun out => ?_
  split
  · exact within_inTeardown (hs .teardown)
  · trivial

theorem within_testProgram {O : Set ι} (hs : ∀ f, (script f).Within O) :
    (testProgram t script).Within O := by
  unfold testProgram
  split
  · refine (hs .setup).bind fun out => ?_
    cases out with
    | none => exact within_inBody hs (hs .body)
    | some e => trivial
  · exact within_inBody hs (hs .body)

end Lambda

/- Whose program ends when its lambda does. -/
def clients (s : Sequencer) (b : Bodies ι κ ρ) : Program.Clients String ι κ ρ (Option Thrown) where
  program n :=
    match s.findTest n with
    | some t => testProgram t (b.script n)
    | none => .ret none
  reach := b.reach
  within n := by
    split
    · exact within_testProgram (b.within n)
    · trivial

/- A test with nothing but a body. -/
theorem clients_plain {s : Sequencer} {b : Bodies ι κ ρ} {n : String} {t : TestCase}
    (ht : s.findTest n = some t) (hsetup : t.setup = false) (hteardown : t.teardown = false) :
    (clients s b).program n = b.script n .body := by
  simp only [clients, ht, testProgram, hsetup, inBody, hteardown]
  exact Program.bind_ret _

/-! ### What is ahead of a test -/

structure SuiteState (ι κ ρ τ : Type) where
  run : RunState
  objects : ι → τ
  rest : String → Body ι κ ρ

variable {s : Sequencer} {threads : ℕ} {counter : BitVec 64}
variable {b : Bodies ι κ ρ} {obj : ι → κ → τ → ρ × τ} {init x x' : ι → τ}
variable {rest rest' : String → Body ι κ ρ} {st st' : SuiteState ι κ ρ τ} {tr : List (Event (ι × κ))}
variable {n m : String} {t : TestCase} {l l' : Lambda} {a : Act (ι × κ)} {e : Event (ι × κ)}

def RunOne.ahead (t : TestCase) (script : Fn → Body ι κ ρ) (rest : Body ι κ ρ) :
    RunOne → Option (Body ι κ ρ)
  | .entered => some (testProgram t script)
  | .waiting _ l => l.ahead t script rest
  | .draining _ l => l.ahead t script rest
  | .classified _ _ _ => none
  | .returned _ => none

def SuiteState.ahead (b : Bodies ι κ ρ) (st : SuiteState ι κ ρ τ) (n : String) :
    Option (Body ι κ ρ) :=
  (st.run.active n).bind fun act => act.pc.ahead act.test (b.script n) (st.rest n)

theorem status_of_ahead (h : (st.ahead b n).isSome) : st.run.status n = .active := by
  unfold SuiteState.ahead at h
  unfold RunState.status
  cases hact : st.run.active n with
  | none =>
    rw [hact] at h
    cases h
  | some act =>
    rw [hact, Option.bind_some] at h
    cases hpc : act.pc with
    | classified b status message =>
      rw [hpc] at h
      cases h
    | returned r =>
      rw [hpc] at h
      cases h
    | _ => simp [RunOne.status, hpc]

theorem active_of_ahead (h : (st.ahead b n).isSome) : st.run.active n ≠ none := fun hnone => by
  rw [SuiteState.ahead, hnone] at h
  cases h

/-! ### The steps of a suite -/

variable [DecidableEq ι] [DecidableEq κ]

/- A call is the next of the program, and a function ends as its program does. -/
def bodyStep (script : Fn → Body ι κ ρ) (obj : ι → κ → τ → ρ × τ) (x : ι → τ) (p : Body ι κ ρ) :
    Act (ι × κ) → Option ((ι → τ) × Body ι κ ρ)
  | .call f => some (x, script f)
  | .use k =>
    match p with
    | .call k' next =>
      if k = k' then some ((Program.serve obj k x).2, next (Program.serve obj k x).1) else none
    | .ret _ => none
  | .ret out =>
    match p with
    | .ret out' => if out = out' then some (x, p) else none
    | .call _ _ => none
  | _ => some (x, p)

def suiteStep (s : Sequencer) (b : Bodies ι κ ρ) (obj : ι → κ → τ → ρ × τ)
    (st : SuiteState ι κ ρ τ) (e : Event (ι × κ)) : Option (SuiteState ι κ ρ τ) :=
  (s.step st.run e).bind fun run =>
    match e with
    | .act n a =>
      (bodyStep (b.script n) obj st.objects (st.rest n) a).map fun next =>
        ⟨run, next.1, Function.update st.rest n next.2⟩
    | _ => some { st with run := run }

def suiteTo (s : Sequencer) (b : Bodies ι κ ρ) (obj : ι → κ → τ → ρ × τ) (threads : ℕ)
    (counter : BitVec 64) (init : ι → τ) (tr : List (Event (ι × κ))) :
    Option (SuiteState ι κ ρ τ) :=
  match s.start threads counter with
  | .ok run => Trace.run (suiteStep s b obj) ⟨run, init, fun _ => .ret none⟩ tr
  | .error _ => none

theorem suiteStep_step (h : suiteStep s b obj st e = some st') : s.step st.run e = some st'.run := by
  obtain ⟨run, hrun, hnext⟩ := Option.bind_eq_some_iff.mp h
  rw [hrun]
  cases e with
  | act n a =>
    obtain ⟨next, -, rfl⟩ := Option.map_eq_some_iff.mp hnext
    rfl
  | launch n =>
    cases hnext
    rfl
  | collect n =>
    cases hnext
    rfl

theorem suiteTo_start (h : suiteTo s b obj threads counter init tr = some st) :
    ∃ levels, s.levels = .ok levels ∧ Trace.run (suiteStep s b obj)
      ⟨⟨runProgram threads 0 levels, fun _ => none, counter, ∅⟩, init, fun _ => .ret none⟩ tr =
        some st := by
  unfold suiteTo start at h
  cases hl : s.levels with
  | error e =>
    rw [hl] at h
    cases h
  | ok levels =>
    rw [hl] at h
    exact ⟨levels, rfl, h⟩

theorem suiteTo_append (tr more : List (Event (ι × κ))) :
    suiteTo s b obj threads counter init (tr ++ more) =
      (suiteTo s b obj threads counter init tr).bind fun st =>
        Trace.run (suiteStep s b obj) st more := by
  unfold suiteTo
  cases s.start threads counter with
  | error e => rfl
  | ok st => exact Trace.run_append tr more

theorem suiteTo_concat (h : suiteTo s b obj threads counter init tr = some st)
    (hs : suiteStep s b obj st e = some st') :
    suiteTo s b obj threads counter init (tr ++ [e]) = some st' := by
  rw [suiteTo_append, h]
  simp [Trace.run, hs]

/-- A run of the suite is a run of `Run`. -/
theorem suiteTo_runTo (h : suiteTo s b obj threads counter init tr = some st) :
    s.runTo threads counter tr = some st.run := by
  obtain ⟨levels, hls, hrun⟩ := suiteTo_start h
  have hsim : Trace.run s.step _ (tr.filterMap some) = some st.run :=
    Trace.run_simulate SuiteState.run some
      (fun _ _ _ _ hs hl => Option.some.inj hl ▸ suiteStep_step hs) (fun _ _ _ _ hl => nomatch hl) hrun
  rw [List.filterMap_some] at hsim
  simpa [runTo, start, hls, Except.map] using hsim

/-! ### What a step does to what is ahead -/

/- An action makes the next call of what is ahead, or ends it, or leaves it alone. -/
inductive Advance (obj : ι → κ → τ → ρ × τ) (x : ι → τ) :
    Act (ι × κ) → Option (Body ι κ ρ) → (ι → τ) → Option (Body ι κ ρ) → Prop
  | call (k : ι × κ) (next : ρ → Body ι κ ρ) : Advance obj x (.use k) (some (.call k next))
      (Program.serve obj k x).2 (some (next (Program.serve obj k x).1))
  | finish (out : Option Thrown) : Advance obj x (.ready out) (some (.ret out)) x none
  | stay (a : Act (ι × κ)) (p : Option (Body ι κ ρ)) (ha : ∀ out, a ≠ .ready out)
      (hu : ∀ k, a ≠ .use k) : Advance obj x a p x p

variable {script : Fn → Body ι κ ρ} {p p' : Body ι κ ρ} {k : ℕ} {c c' : BitVec 64} {pc pc' : RunOne}

theorem lambda_advance (hl : lambdaStep t l a = some l')
    (hb : bodyStep script obj x p a = some (x', p')) :
    Advance obj x a (l.ahead t script p) x' (l'.ahead t script p') := by
  unfold lambdaStep at hl
  split at hl
  next f pending g =>
    split at hl
    next hf =>
      cases hl
      cases hb
      subst hf
      exact .stay _ _ (by simp) (by simp)
    · cases hl
  next f pending =>
    cases hl
    cases hb
    exact .stay _ _ (by simp) (by simp)
  next f pending k =>
    cases hl
    cases p with
    | ret out => cases hb
    | call k' next =>
      simp only [bodyStep] at hb
      split at hb
      next hk =>
        cases hb
        subst hk
        simp only [Lambda.ahead, inFn_call]
        exact .call k _
      · cases hb
  next f pending out =>
    cases hl
    cases p with
    | call k next => cases hb
    | ret out' =>
      simp only [bodyStep] at hb
      split at hb
      next ho =>
        cases hb
        subst ho
        rw [ahead_next]
        exact .stay _ _ (by simp) (by simp)
      · cases hb
  next out out' =>
    split at hl
    next ho =>
      cases hl
      cases hb
      subst ho
      exact .finish _
    · cases hl
  · cases hl

theorem move_advance (hm : RunOneMove t k c pc a pc' c')
    (hb : bodyStep script obj x p a = some (x', p')) :
    Advance obj x a (pc.ahead t script p) x' (pc'.ahead t script p') := by
  cases hm with
  | enter =>
    cases hb
    rw [RunOne.ahead, RunOne.ahead, ahead_start]
    exact .stay _ _ (by simp) (by simp)
  | run b l l' a hl => exact lambda_advance hl hb
  | runLate b l l' a hl => exact lambda_advance hl hb
  | _ =>
    cases hb
    exact .stay _ _ (by simp) (by simp)

theorem suiteStep_act (h : suiteStep s b obj st (.act n a) = some st') :
    Advance obj st.objects a (st.ahead b n) st'.objects (st'.ahead b n) ∧
      st'.ahead b = Function.update (st.ahead b) n (st'.ahead b n) ∧
      ∀ m, st'.run.active m = none ↔ st.run.active m = none := by
  obtain ⟨act, pc, c, hact, hmove, hst⟩ := step_act (suiteStep_step h)
  obtain ⟨run, hrun, hnext⟩ := Option.bind_eq_some_iff.mp h
  obtain ⟨⟨x, p⟩, hbody, rfl⟩ := Option.map_eq_some_iff.mp hnext
  obtain rfl := hst
  refine ⟨?_, funext fun m => ?_, fun m => ?_⟩
  · have hadvance := move_advance (runOneStep_move hmove) hbody
    simpa only [SuiteState.ahead, hact, Option.bind_some, Function.update_self] using hadvance
  · by_cases hm : m = n
    · rw [hm, Function.update_self]
    · simp only [SuiteState.ahead, Function.update_of_ne hm]
  · by_cases hm : m = n
    · simp [hm, hact]
    · simp only [Function.update_of_ne hm]

theorem suiteStep_launch (h : suiteTo s b obj threads counter init tr = some st)
    (hs : suiteStep s b obj st (.launch n) = some st') :
    st.ahead b n = none ∧ st'.objects = st.objects ∧
      st'.ahead b = Function.update (st.ahead b) n (some ((clients s b).program n)) ∧
      ∀ m, st'.run.active m = none ↔ m ≠ n ∧ st.run.active m = none := by
  have hstep := suiteStep_step hs
  have hidle := launch_inactive (suiteTo_runTo h) hstep
  obtain ⟨k, prog, t, -, ht, hst⟩ := step_launch hstep
  obtain ⟨run, -, hnext⟩ := Option.bind_eq_some_iff.mp hs
  cases hnext
  obtain rfl := hst
  refine ⟨?_, rfl, funext fun m => ?_, fun m => ?_⟩
  · rw [SuiteState.ahead, hidle]
    rfl
  · by_cases hm : m = n
    · subst hm
      simp only [SuiteState.ahead, Function.update_self, Option.bind_some, RunOne.ahead, clients, ht]
    · simp only [SuiteState.ahead, Function.update_of_ne hm]
  · by_cases hm : m = n
    · simp [hm]
    · simp [hm]

/-! ### Every run can be completed -/

def RunOne.Runs (pc : RunOne) (l : Lambda) : Prop :=
  ∃ before, pc = .waiting before l ∨ pc = .draining before l

omit [DecidableEq ι] [DecidableEq κ] in
theorem RunOne.Runs.step (h : pc.Runs l) (hl : lambdaStep t l a = some l') (k : ℕ) (c : BitVec 64) :
    ∃ pc', runOneStep t k c pc a = some (pc', bumped c a) ∧ pc'.Runs l' := by
  obtain ⟨before, rfl | rfl⟩ := h
  · exact ⟨_, runOneStep_waiting before hl, before, Or.inl rfl⟩
  · exact ⟨_, runOneStep_draining before hl, before, Or.inr rfl⟩

omit [DecidableEq ι] [DecidableEq κ] in
theorem step_runs {run : RunState} {act : Activation} (hact : run.active n = some act)
    (hpc : act.pc.Runs l) (hl : lambdaStep act.test l a = some l') :
    ∃ next act', s.step run (.act n a) = some next ∧ next.active n = some act' ∧ act'.pc.Runs l' := by
  obtain ⟨pc', hstep, hpc'⟩ := hpc.step hl act.level run.counter
  refine ⟨_, { act with pc := pc' },
    by simp only [Sequencer.step, hact, hstep, Option.map_some]; rfl, ?_, hpc'⟩
  exact Function.update_self ..

/- A function that has been entered can be run to its end. -/
theorem exists_leave {act : Activation} {f : Fn} {pending : Option Thrown}
    (h : suiteTo s b obj threads counter init tr = some st) (hact : st.run.active n = some act)
    (hpc : act.pc.Runs (.inside f pending)) :
    ∃ more st', suiteTo s b obj threads counter init (tr ++ more) = some st' ∧
      st'.run.left s < st.run.left s := by
  obtain ⟨p, hp⟩ : ∃ p, st.rest n = p := ⟨_, rfl⟩
  induction p generalizing tr st act with
  | ret out =>
    obtain ⟨next, -, hstep, -, -⟩ := step_runs (s := s) (a := (.ret out : Act (ι × κ))) hact hpc rfl
    have hs : suiteStep s b obj st (.act n (.ret out)) =
        some ⟨next, st.objects, Function.update st.rest n (.ret out)⟩ := by
      simp only [suiteStep, hstep, Option.bind_some, hp, bodyStep, if_true, Option.map_some]
    refine ⟨[.act n (.ret out)], _, suiteTo_concat h hs, ?_⟩
    have hleft := step_left (suiteTo_runTo h) hstep
    exact hleft
  | call k next ih =>
    obtain ⟨run, act', hstep, hact', hpc'⟩ := step_runs (s := s) (a := (.use k : Act (ι × κ))) hact hpc rfl
    have hs : suiteStep s b obj st (.act n (.use k)) =
        some ⟨run, (Program.serve obj k st.objects).2,
          Function.update st.rest n (next (Program.serve obj k st.objects).1)⟩ := by
      simp only [suiteStep, hstep, Option.bind_some, hp, bodyStep, if_true, Option.map_some]
    obtain ⟨more, st', hrun, hlt⟩ := ih _ (suiteTo_concat h hs) hact' hpc' (Function.update_self ..)
    have hleft := step_left (suiteTo_runTo h) hstep
    refine ⟨.act n (.use k) :: more, st', by simpa using hrun, ?_⟩
    exact Nat.lt_of_lt_of_le hlt hleft

theorem exists_work (h : suiteTo s b obj threads counter init tr = some st)
    (hr : ¬st.run.Returned) :
    ∃ more st', suiteTo s b obj threads counter init (tr ++ more) = some st' ∧
      st'.run.left s < st.run.left s := by
  have hrun := suiteTo_runTo h
  obtain ⟨e, run, hstep, hwork, -⟩ := exists_step (α := ι × κ) (fun _ => none) hrun hr
  have hleft := step_left hrun hstep
  rw [hwork, Bool.toNat_true] at hleft
  by_cases hret : ∃ n out, e = .act n (.ret out)
  · obtain ⟨n, out, rfl⟩ := hret
    obtain ⟨act, pc, c, hact, hmove, -⟩ := step_act hstep
    obtain ⟨f, pending, hpc⟩ : ∃ f pending, act.pc.Runs (.inside f pending) := by
      generalize hpc : act.pc = pc₀ at hmove
      cases runOneStep_move hmove with
      | run before l l' a hl =>
        cases l with
        | inside f pending => exact ⟨f, pending, before, Or.inl rfl⟩
        | _ => cases hl
      | runLate before l l' a hl =>
        cases l with
        | inside f pending => exact ⟨f, pending, before, Or.inr rfl⟩
        | _ => cases hl
    exact exists_leave h hact hpc
  · have hs : ∃ st', suiteStep s b obj st e = some st' ∧ st'.run = run := by
      simp only [suiteStep, hstep, Option.bind_some]
      cases e with
      | act n a =>
        cases a with
        | use k => cases hwork
        | ret out => exact absurd ⟨n, out, rfl⟩ hret
        | _ => exact ⟨_, rfl, rfl⟩
      | launch n => exact ⟨_, rfl, rfl⟩
      | collect n => exact ⟨_, rfl, rfl⟩
    obtain ⟨st', hs, rfl⟩ := hs
    exact ⟨[e], st', suiteTo_concat h hs, by omega⟩

/- One test takes a ticket from the first machine and one takes two from the second; the
test that needs both wants to be second at the first machine and third at the other. -/
def tickets : Bodies ℕ Unit ℕ where
  script n f :=
    if n = "dma" ∧ f = .body then .call (0, ()) fun _ => .ret none
    else if n = "irq" ∧ f = .body then .call (1, ()) fun _ => .call (1, ()) fun _ => .ret none
    else if n = "link_up" ∧ f = .body then
      .call (0, ()) fun first => .call (1, ()) fun second =>
        .ret (if first = 1 ∧ second = 2 then none else some .other)
    else .ret none
  reach n := if n = "dma" then {0} else if n = "irq" then {1} else {0, 1}
  within n f := by
    by_cases hdma : n = "dma"
    · subst hdma
      cases f <;> simp [Program.Within]
    by_cases hirq : n = "irq"
    · subst hirq
      cases f <;> simp [Program.Within]
    by_cases hlink : n = "link_up"
    · subst hlink
      cases f <;> simp [Program.Within]
    · simp [hdma, hirq, hlink, Program.Within]

def takeTicket (_ : ℕ) (_ : Unit) (n : ℕ) : ℕ × ℕ := (n, n + 1)

end SocValidation.Sequencer
