import SocValidation.Lib.Trace
import SocValidation.Sequencer.Model

/-!
# `Run` as a step relation (sequencer.cpp:92-187)

The main thread follows a program of launches and collections that the levels
and `threads` determine. Each launched `RunOne` starts the lambda of
`sequencer.cpp:101-116` on its own thread and waits for it. Test functions may do
anything at any time: what they do is chosen by the labels of the run.
-/

namespace SocValidation
open Std

inductive TestStatus where
  | pass
  | fail
  | skip
  | error
  | timeout
  deriving DecidableEq, Repr

/- `TestResult` with its default values; `duration_ms` is not modelled. -/
structure TestResult where
  name : String := ""
  status : TestStatus := .skip
  message : String := ""
  registerAccesses : BitVec 64 := 0
  level : ℕ := 0
  deriving DecidableEq, Repr

namespace Sequencer

/- What a function throws: a `std::exception` with its `what()`, or anything else. -/
inductive Thrown where
  | exception (what : String)
  | other
  deriving DecidableEq, Repr

inductive Fn where
  | setup
  | body
  | teardown
  deriving DecidableEq, Repr

/-- One action of a `RunOne` or of its lambda. `use` stands for whatever else a
test function does to objects it shares with other tests. -/
inductive Act (α : Type) where
  | readBefore
  | call (f : Fn)
  | bump
  | use (a : α)
  | ret (out : Option Thrown)
  | ready (out : Option Thrown)
  | timeout
  | join
  | readAfter
  deriving DecidableEq, Repr

inductive Event (α : Type) where
  | launch (name : String)
  | collect (name : String)
  | act (name : String) (a : Act α)
  deriving DecidableEq, Repr

/-! ### The lambda that runs the test functions -/

/- `pending` is the exception of the body while the teardown runs. -/
inductive Lambda where
  | calling (f : Fn) (pending : Option Thrown)
  | inside (f : Fn) (pending : Option Thrown)
  | leaving (out : Option Thrown)
  | ready (out : Option Thrown)
  deriving DecidableEq, Repr

def lambdaStart (t : TestCase) : Lambda := .calling (if t.setup then .setup else .body) none

def lambdaNext (t : TestCase) (f : Fn) (pending out : Option Thrown) : Lambda :=
  match f, out with
  | .setup, none => .calling .body none
  | .setup, some e => .leaving (some e)
  | .body, out => if t.teardown then .calling .teardown out else .leaving out
  | .teardown, none => .leaving pending
  -- thrown from the catch block as well, it takes the place of `pending`
  | .teardown, some e => .leaving (some e)

variable {α : Type}

def lambdaStep (t : TestCase) : Lambda → Act α → Option Lambda
  | .calling f pending, .call g => if f = g then some (.inside f pending) else none
  | .inside f pending, .bump => some (.inside f pending)
  | .inside f pending, .use _ => some (.inside f pending)
  | .inside f pending, .ret out => some (lambdaNext t f pending out)
  | .leaving out, .ready out' => if out = out' then some (.ready out) else none
  | _, _ => none

def Lambda.out? : Lambda → Option (Option Thrown)
  | .ready out => some out
  | _ => none

/-! ### RunOne (`sequencer.cpp:92-143`) -/

inductive RunOne where
  | entered
  | waiting (before : BitVec 64) (lambda : Lambda)
  | draining (before : BitVec 64) (lambda : Lambda)
  | classified (before : BitVec 64) (status : TestStatus) (message : String)
  | returned (result : TestResult)
  deriving DecidableEq, Repr

def classify : Option Thrown → TestStatus × String
  | none => (.pass, "")
  | some (.exception what) => (.fail, what)
  | some .other => (.error, "unknown exception")

def timedOut (t : TestCase) : TestStatus × String :=
  (.timeout, "exceeded " ++ toString t.timeout ++ " ms")

def bumped (counter : BitVec 64) : Act α → BitVec 64
  | .bump => counter + 1
  | _ => counter

/- `wait_for` can report a timeout only while the lambda is not ready; after one
`future.wait()` still waits for it. -/
def runOneStep (t : TestCase) (level : ℕ) (counter : BitVec 64) :
    RunOne → Act α → Option (RunOne × BitVec 64)
  | .entered, .readBefore => some (.waiting counter (lambdaStart t), counter)
  | .waiting before lam, .timeout =>
      if lam.out? = none then some (.draining before lam, counter) else none
  | .waiting before lam, .join =>
      lam.out?.map fun out => (.classified before (classify out).1 (classify out).2, counter)
  | .waiting before lam, a =>
      (lambdaStep t lam a).map fun lam' => (.waiting before lam', bumped counter a)
  | .draining before lam, .join =>
      lam.out?.map fun _ => (.classified before (timedOut t).1 (timedOut t).2, counter)
  | .draining before lam, a =>
      (lambdaStep t lam a).map fun lam' => (.draining before lam', bumped counter a)
  | .classified before status message, .readAfter =>
      some (.returned ⟨t.name, status, message, counter - before, level⟩, counter)
  | _, _ => none

/-! ### The main thread (`sequencer.cpp:147-187`) -/

inductive MainInstr where
  | launch (name : String) (level : ℕ)
  | collect (name : String)
  deriving DecidableEq, Repr

def serialLevel (levelIndex : ℕ) (level : List String) : List MainInstr :=
  level.flatMap fun name => [.launch name levelIndex, .collect name]

/- `for (start = 0; start < level.size(); start += threads)`; `fuel` bounds the
rounds. `start + threads` stays far below `SIZE_MAX`. -/
def batchesFrom (threads : ℕ) (level : List String) : ℕ → ℕ → List (List String)
  | 0, _ => []
  | fuel + 1, start =>
    if start < level.length then
      (level.take (min level.length (start + threads))).drop start ::
        batchesFrom threads level fuel (start + threads)
    else []

def batches (threads : ℕ) (level : List String) : List (List String) :=
  batchesFrom threads level level.length 0

def parallelLevel (threads levelIndex : ℕ) (level : List String) : List MainInstr :=
  (batches threads level).flatMap fun batch =>
    batch.map (fun name => .launch name levelIndex) ++ batch.map .collect

def levelProgram (threads levelIndex : ℕ) (level : List String) : List MainInstr :=
  if threads ≤ 1 then serialLevel levelIndex level else parallelLevel threads levelIndex level

/- The two nested loops of `Run`, flattened; `levelIndex` counts the levels. -/
def runProgram (threads : ℕ) : ℕ → List (List String) → List MainInstr
  | _, [] => []
  | levelIndex, level :: levels =>
      levelProgram threads levelIndex level ++ runProgram threads (levelIndex + 1) levels

structure Activation where
  test : TestCase
  level : ℕ
  pc : RunOne
  deriving DecidableEq, Repr

structure RunState where
  prog : List MainInstr
  active : String → Option Activation
  counter : BitVec 64
  byName : TreeMap String TestResult

/- The head of `Run`: it throws what `Levels` throws. -/
def start (s : Sequencer) (threads : ℕ) (counter : BitVec 64) : Except LevelsError RunState :=
  s.levels.map fun levels => ⟨runProgram threads 0 levels, fun _ => none, counter, ∅⟩

def findTest (s : Sequencer) (name : String) : Option TestCase :=
  s.tests.find? fun t => t.name == name

/- The serial loop stores under `name` and the parallel one under `result.name`;
`RunOne` has set `result.name` to the test's name. -/
def step (s : Sequencer) (st : RunState) : Event α → Option RunState
  | .launch name =>
    match st.prog with
    | .launch m level :: rest =>
      if m = name then
        (s.findTest name).map fun t =>
          { st with prog := rest, active := Function.update st.active name (some ⟨t, level, .entered⟩) }
      else none
    | _ => none
  | .collect name =>
    match st.prog, st.active name with
    | .collect m :: rest, some ⟨_, _, .returned result⟩ =>
      if m = name then some { st with prog := rest, byName := st.byName.insert result.name result }
      else none
    | _, _ => none
  | .act name a =>
    match st.active name with
    | some act =>
      (runOneStep act.test act.level st.counter act.pc a).map fun next =>
        { st with
          active := Function.update st.active name (some { act with pc := next.1 })
          counter := next.2 }
    | none => none

def runTo (s : Sequencer) (threads : ℕ) (counter : BitVec 64) (tr : List (Event α)) :
    Option RunState :=
  match s.start threads counter with
  | .ok st => Trace.run s.step st tr
  | .error _ => none

/- `ordered`: `by_name[test.name]` makes a default result of a missing one. -/
def results (s : Sequencer) (st : RunState) : List TestResult :=
  s.tests.map fun t => st.byName.getD t.name {}

/-! ### What a step can do -/

inductive RunOneMove (t : TestCase) (level : ℕ) (counter : BitVec 64) :
    RunOne → Act α → RunOne → BitVec 64 → Prop where
  | enter : RunOneMove t level counter .entered .readBefore
      (.waiting counter (lambdaStart t)) counter
  | expire (b : BitVec 64) (l : Lambda) (h : l.out? = none) :
      RunOneMove t level counter (.waiting b l) .timeout (.draining b l) counter
  | get (b : BitVec 64) (out : Option Thrown) :
      RunOneMove t level counter (.waiting b (.ready out)) .join
        (.classified b (classify out).1 (classify out).2) counter
  | drained (b : BitVec 64) (out : Option Thrown) :
      RunOneMove t level counter (.draining b (.ready out)) .join
        (.classified b (timedOut t).1 (timedOut t).2) counter
  | close (b : BitVec 64) (status : TestStatus) (message : String) :
      RunOneMove t level counter (.classified b status message) .readAfter
        (.returned ⟨t.name, status, message, counter - b, level⟩) counter
  | run (b : BitVec 64) (l l' : Lambda) (a : Act α) (h : lambdaStep t l a = some l') :
      RunOneMove t level counter (.waiting b l) a (.waiting b l') (bumped counter a)
  | runLate (b : BitVec 64) (l l' : Lambda) (a : Act α) (h : lambdaStep t l a = some l') :
      RunOneMove t level counter (.draining b l) a (.draining b l') (bumped counter a)

theorem out?_eq_some {l : Lambda} {out : Option Thrown} (h : l.out? = some out) :
    l = .ready out := by
  cases l with
  | ready o => exact congrArg Lambda.ready (Option.some.inj h)
  | _ => cases h

theorem runOneStep_move {t : TestCase} {level : ℕ} {counter c : BitVec 64} {pc pc' : RunOne}
    {a : Act α} (h : runOneStep t level counter pc a = some (pc', c)) :
    RunOneMove t level counter pc a pc' c := by
  unfold runOneStep at h
  split at h
  · cases h
    exact .enter
  next b l =>
    split at h
    next hl =>
      cases h
      exact .expire b l hl
    · cases h
  next b l =>
    obtain ⟨out, hl, he⟩ := Option.map_eq_some_iff.mp h
    cases he
    rw [out?_eq_some hl]
    exact .get b out
  next b l _ _ =>
    obtain ⟨l', hl, he⟩ := Option.map_eq_some_iff.mp h
    cases he
    exact .run b l l' a hl
  next b l =>
    obtain ⟨out, hl, he⟩ := Option.map_eq_some_iff.mp h
    cases he
    rw [out?_eq_some hl]
    exact .drained b out
  next b l _ =>
    obtain ⟨l', hl, he⟩ := Option.map_eq_some_iff.mp h
    cases he
    exact .runLate b l l' a hl
  next b status message =>
    cases h
    exact .close b status message
  · cases h

variable {s : Sequencer} {st st' : RunState} {n : String}

theorem step_launch (h : s.step st (.launch n : Event α) = some st') :
    ∃ level rest t, st.prog = .launch n level :: rest ∧ s.findTest n = some t ∧
      st' = { st with prog := rest,
                      active := Function.update st.active n (some ⟨t, level, .entered⟩) } := by
  simp only [step] at h
  split at h
  next m level rest hp =>
    split at h
    next hm =>
      obtain ⟨t, ht, rfl⟩ := Option.map_eq_some_iff.mp h
      exact ⟨level, rest, t, hm ▸ hp, ht, rfl⟩
    · cases h
  · cases h

theorem step_collect (h : s.step st (.collect n : Event α) = some st') :
    ∃ rest t level r, st.prog = .collect n :: rest ∧
      st.active n = some ⟨t, level, .returned r⟩ ∧
      st' = { st with prog := rest, byName := st.byName.insert r.name r } := by
  simp only [step] at h
  split at h
  next m rest t level r hp ha =>
    split at h
    next hm =>
      cases h
      exact ⟨rest, t, level, r, hm ▸ hp, ha, rfl⟩
    · cases h
  · cases h

theorem step_act {a : Act α} (h : s.step st (.act n a) = some st') :
    ∃ act pc c, st.active n = some act ∧
      runOneStep act.test act.level st.counter act.pc a = some (pc, c) ∧
      st' = { st with active := Function.update st.active n (some { act with pc := pc }),
                      counter := c } := by
  simp only [step] at h
  split at h
  next act ha =>
    obtain ⟨⟨pc, c⟩, hs, rfl⟩ := Option.map_eq_some_iff.mp h
    exact ⟨act, pc, c, ha, hs, rfl⟩
  · cases h

end Sequencer
end SocValidation
