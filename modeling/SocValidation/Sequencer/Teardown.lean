import SocValidation.Sequencer.Results

/-!
# The reason that a failing test reports (sequencer.cpp:100-136)

The lambda leaves with the exception of the body, unless the teardown it calls
from the catch block throws as well: that exception takes the other's place
before `throw;` is reached, and only it travels through the future. What the
three functions of a test did is read from the trace (`endings`).
-/

namespace SocValidation.Sequencer

variable {α : Type} {s : Sequencer} {threads : ℕ} {counter : BitVec 64} {st : RunState}
variable {tr : List (Event α)} {t : TestCase} {k : ℕ} {pc : RunOne} {as : List (Act α)}

/-! ### How the functions of a test ended -/

def record (d : Option Fn × List (Fn × Option Thrown)) :
    Act α → Option Fn × List (Fn × Option Thrown)
  | .call f => (some f, d.2)
  | .ret out => (none, d.2 ++ (d.1.map fun f => (f, out)).toList)
  | _ => d

/- The function that is running, and what each earlier one returned or threw. -/
def ledger (as : List (Act α)) : Option Fn × List (Fn × Option Thrown) := as.foldl record (none, [])

def endings (as : List (Act α)) : List (Fn × Option Thrown) := (ledger as).2

theorem ledger_concat (as : List (Act α)) (a : Act α) :
    ledger (as ++ [a]) = record (ledger as) a := by
  simp [ledger]

theorem called_of_ending (as : List (Act α)) :
    (∀ f, (ledger as).1 = some f → .call f ∈ as) ∧
      ∀ f out, (f, out) ∈ endings as → .call f ∈ as := by
  induction as using List.reverseRecOn with
  | nil => exact ⟨fun f h => by simp [ledger] at h, fun f out h => by simp [endings, ledger] at h⟩
  | append_singleton as a ih =>
    obtain ⟨hrunning, hended⟩ := ih
    rw [endings, ledger_concat]
    cases a with
    | call f =>
      refine ⟨fun g hg => ?_, fun g out hg => List.mem_append_left _ (hended g out hg)⟩
      cases hg
      simp
    | ret out =>
      refine ⟨fun g hg => by simp [record] at hg, fun g o hg => List.mem_append_left _ ?_⟩
      rcases List.mem_append.mp hg with hg | hg
      · exact hended g o hg
      · obtain ⟨f, hf, heq⟩ : ∃ f, (ledger as).1 = some f ∧ (f, out) = (g, o) := by simpa using hg
        cases heq
        exact hrunning _ hf
    | _ =>
      exact ⟨fun g hg => List.mem_append_left _ (hrunning g hg),
        fun g o hg => List.mem_append_left _ (hended g o hg)⟩

/-! ### The lambda's script -/

def setupEnding (t : TestCase) : List (Fn × Option Thrown) :=
  if t.setup then [(.setup, none)] else []

/- The ways through `sequencer.cpp:101-116`: what ended how, and with what the
lambda left. After the body a throw of the teardown is the last word. -/
inductive Script (t : TestCase) : List (Fn × Option Thrown) → Option Thrown → Prop
  | setupThrew (e : Thrown) (h : t.setup) : Script t [(.setup, some e)] (some e)
  | plain (p : Option Thrown) (h : ¬t.teardown) : Script t (setupEnding t ++ [(.body, p)]) p
  | tornDown (p out : Option Thrown) (h : t.teardown) :
      Script t (setupEnding t ++ [(.body, p), (.teardown, out)]) (out.or p)

def HasFn (t : TestCase) : Fn → Prop
  | .setup => t.setup
  | .body => True
  | .teardown => t.teardown

def endedBefore (t : TestCase) (p : Option Thrown) : Fn → List (Fn × Option Thrown)
  | .setup => []
  | .body => setupEnding t
  | .teardown => setupEnding t ++ [(.body, p)]

def Tells (t : TestCase) (as : List (Act α)) : Lambda → Prop
  | .calling f p => HasFn t f ∧ ledger as = (none, endedBefore t p f)
  | .inside f p => HasFn t f ∧ ledger as = (some f, endedBefore t p f)
  | .leaving out => Script t (endings as) out
  | .ready out => Script t (endings as) out

theorem tells_start (t : TestCase) (h : ledger as = (none, [])) : Tells t as (lambdaStart t) := by
  unfold lambdaStart
  split
  next hs => exact ⟨hs, h⟩
  next hs => exact ⟨trivial, by simp [h, endedBefore, setupEnding, hs]⟩

theorem tells_next {f : Fn} {p out : Option Thrown} (hf : HasFn t f)
    (h : ledger as = (some f, endedBefore t p f)) :
    Tells t (as ++ [.ret out]) (lambdaNext t f p out) := by
  have hret : ledger (as ++ [.ret out]) = (none, endedBefore t p f ++ [(f, out)]) := by
    simp [ledger_concat, h, record]
  cases f with
  | setup =>
    cases out with
    | none =>
      have hs : t.setup = true := hf
      exact ⟨trivial, by simp [hret, endedBefore, setupEnding, hs]⟩
    | some e =>
      have hscript := Script.setupThrew e hf
      simpa [Tells, lambdaNext, endings, hret, endedBefore] using hscript
  | body =>
    have hnext : lambdaNext t .body p out =
        if t.teardown then .calling .teardown out else .leaving out := by
      cases out <;> rfl
    rw [hnext]
    split
    next ht => exact ⟨ht, by simp [hret, endedBefore]⟩
    next ht =>
      have hscript := Script.plain out ht
      simpa [Tells, endings, hret, endedBefore] using hscript
  | teardown =>
    have hscript := Script.tornDown p out hf
    cases out <;> simpa [Tells, lambdaNext, endings, hret, endedBefore] using hscript

theorem tells_step {l l' : Lambda} {a : Act α} (h : lambdaStep t l a = some l')
    (hl : Tells t as l) : Tells t (as ++ [a]) l' := by
  unfold lambdaStep at h
  split at h
  next f p g =>
    split at h
    next hf =>
      cases h
      subst hf
      exact ⟨hl.1, by simp [ledger_concat, hl.2, record]⟩
    · cases h
  next f p =>
    cases h
    exact ⟨hl.1, by simp [ledger_concat, hl.2, record]⟩
  next f p b =>
    cases h
    exact ⟨hl.1, by simp [ledger_concat, hl.2, record]⟩
  next f p out =>
    cases h
    exact tells_next hl.1 hl.2
  next out out' =>
    split at h
    · cases h
      simpa [Tells, endings, ledger_concat, record] using hl
    · cases h
  · cases h

/-! ### The script of a course -/

/- Until the lambda is ready nothing is; from then on its script is complete. -/
def Told (t : TestCase) (as : List (Act α)) : RunOne → Prop
  | .entered => as = []
  | .waiting _ l => Tells t as l ∧ ∀ out, .ready out ∈ as → l = .ready out
  | .draining _ l => Tells t as l ∧ ∀ out, .ready out ∈ as → l = .ready out
  | .classified _ _ _ => ∀ out, .ready out ∈ as → Script t (endings as) out
  | .returned _ => ∀ out, .ready out ∈ as → Script t (endings as) out

theorem ready_step {l l' : Lambda} {a : Act α} (h : lambdaStep t l a = some l')
    (hl : ∀ out, .ready out ∈ as → l = .ready out) {out : Option Thrown}
    (hr : .ready out ∈ as ++ [a]) : l' = .ready out := by
  rcases List.mem_append.mp hr with hr | hr
  · -- a ready lambda takes no further step
    rw [hl out hr] at h
    cases h
  · rw [← List.mem_singleton.mp hr] at h
    cases l with
    | leaving o =>
      simp only [lambdaStep] at h
      split at h
      next ho => rw [← Option.some.inj h, ho]
      · cases h
    | _ => cases h

theorem script_other {a : Act α} (ha : record (ledger as) a = ledger as)
    (hne : ∀ out, a ≠ .ready out) (h : ∀ out, .ready out ∈ as → Script t (endings as) out)
    {out : Option Thrown} (hr : .ready out ∈ as ++ [a]) : Script t (endings (as ++ [a])) out := by
  rw [endings, ledger_concat, ha]
  rcases List.mem_append.mp hr with hr | hr
  · exact h out hr
  · exact absurd (List.mem_singleton.mp hr).symm (hne out)

theorem script_of_ready {out out' : Option Thrown} (h : Tells t as (.ready out))
    (hl : ∀ out', .ready out' ∈ as → Lambda.ready out = .ready out') (hr : .ready out' ∈ as) :
    Script t (endings as) out' := by
  cases hl out' hr
  exact h

theorem Course.told (h : Course t k as pc) : Told t as pc := by
  induction h with
  | enter => rfl
  | @move as a pc pc' c c' hc hm ih =>
    cases hm with
    | enter =>
      obtain rfl := ih
      exact ⟨tells_start t rfl, fun out hr => by simp at hr⟩
    | expire b l hl =>
      refine ⟨?_, fun out hr => ih.2 out (by simpa using hr)⟩
      have hsame : ledger (as ++ [Act.timeout]) = ledger as := by rw [ledger_concat]; rfl
      obtain ⟨htells, -⟩ := ih
      cases l <;> simpa [Tells, endings, hsame] using htells
    | get b out =>
      exact fun o => script_other rfl (by simp) fun o hr => script_of_ready ih.1 ih.2 hr
    | drained b out =>
      exact fun o => script_other rfl (by simp) fun o hr => script_of_ready ih.1 ih.2 hr
    | close b status message => exact fun o => script_other rfl (by simp) ih
    | run b l l' a hl => exact ⟨tells_step hl ih.1, fun out hr => ready_step hl ih.2 hr⟩
    | runLate b l l' a hl => exact ⟨tells_step hl ih.1, fun out hr => ready_step hl ih.2 hr⟩

theorem lambdaStep_call {l l' : Lambda} {f : Fn} (h : lambdaStep t l (.call f : Act α) = some l') :
    ∃ p, l = .calling f p := by
  cases l with
  | calling g p =>
    simp only [lambdaStep] at h
    split at h
    next hg => exact ⟨p, by rw [hg]⟩
    · cases h
  | _ => cases h

/- Only what the test case holds is called. -/
theorem Course.called_has (h : Course t k as pc) {f : Fn} (hf : .call f ∈ as) :
    HasFn t f := by
  induction h with
  | enter => cases hf
  | @move as a pc pc' c c' hc hm ih =>
    rcases List.mem_append.mp hf with hf | hf
    · exact ih hf
    · have htold := hc.told
      have ha := (List.mem_singleton.mp hf).symm
      cases hm with
      | run b l l' a hl =>
        subst ha
        obtain ⟨p, rfl⟩ := lambdaStep_call hl
        exact htold.1.1
      | runLate b l l' a hl =>
        subst ha
        obtain ⟨p, rfl⟩ := lambdaStep_call hl
        exact htold.1.1
      | _ => cases ha

/-! ### What the result says of the body -/

/- `result` gives `e` as the reason of the failure (`sequencer.cpp:126-136`). -/
def Reports (e : Thrown) (result : TestResult) : Prop :=
  match e with
  | .exception what => result.status = .fail ∧ result.message = what
  | .other => result.status = .error

theorem reports_iff {r : TestResult} {out : Option Thrown} {e : Thrown}
    (h : (r.status, r.message) = classify out) : Reports e r ↔ out = some e := by
  obtain ⟨hstatus, hmessage⟩ := Prod.mk.inj h
  cases out with
  | none => cases e <;> simp [Reports, hstatus]
  | some thrown => cases e <;> cases thrown <;> simp [Reports, hstatus, hmessage]

theorem Script.body_threw {os : List (Fn × Option Thrown)} {out : Option Thrown} {e : Thrown}
    (h : Script t os out) (hb : (.body, some e) ∈ os) :
    ((∃ o, (.teardown, o) ∈ os) ↔ t.teardown) ∧
      (out = some e ↔ ∀ o, (.teardown, o) ∈ os → o = none ∨ o = some e) := by
  have hsetup : ∀ f o, (f, o) ∈ setupEnding t → f = .setup := fun f o hm => by
    unfold setupEnding at hm
    split at hm
    · exact congrArg Prod.fst (List.mem_singleton.mp hm)
    · cases hm
  have hno : ∀ o, (Fn.teardown, o) ∉ setupEnding t := fun o hm => nomatch hsetup _ _ hm
  have hnb : ∀ o, (Fn.body, o) ∉ setupEnding t := fun o hm => nomatch hsetup _ _ hm
  cases h with
  | setupThrew e' ht => simp at hb
  | plain _ ht =>
    obtain rfl : some e = out := by simpa [hnb] using hb
    simp [hno, ht]
  | tornDown p o ht =>
    obtain rfl : some e = p := by simpa [hnb] using hb
    cases o <;> simp [hno, ht]

/-- When the result of a test whose body throws gives the body's exception as
the reason. Its teardown, if it has one, is called once in any case. -/
theorem reason_reported_iff [DecidableEq α] (h : s.runTo threads counter tr = some st)
    (hr : st.Returned) {i : ℕ} {r : TestResult} (ht : s.tests[i]? = some t)
    (hres : (s.results st)[i]? = some r) {e : Thrown}
    (hbody : (.body, some e) ∈ endings (acts t.name tr)) (hin : .act t.name .timeout ∉ tr) :
    tr.count (.act t.name (.call .teardown)) = (if t.teardown then 1 else 0) ∧
      (Reports e r ↔
        ∀ out, (.teardown, out) ∈ endings (acts t.name tr) → out = none ∨ out = some e) := by
  have hr' : st.byName.getD t.name {} = r := results_getElem? ht hres
  obtain ⟨act, hact, rfl, hpc⟩ := returned_result h hr (List.mem_of_getElem? ht)
  obtain ⟨-, hcourse⟩ := (runTo_course h _).2 act hact
  have hstands := hcourse.stands
  have htold := hcourse.told
  have hcalls := hcourse.calls.1.1 .teardown
  rw [hpc, hr'] at hstands htold
  obtain ⟨-, -, out, hready, hend⟩ := hstands
  have hscript := htold out hready
  obtain ⟨hended, hout⟩ := hscript.body_threw hbody
  constructor
  · rw [← count_acts]
    split
    next hteardown =>
      obtain ⟨o, ho⟩ := hended.mpr hteardown
      have hpos := List.count_pos_iff.mpr ((called_of_ending _).2 _ o ho)
      rw [hpc] at hcalls
      have hle : (acts act.test.name tr).count (Act.call .teardown) ≤ 1 := hcalls
      omega
    next hteardown =>
      exact List.count_eq_zero.mpr fun hcall => hteardown (hcourse.called_has hcall)
  · rcases hend with ⟨-, hclass⟩ | ⟨htimeout, -⟩
    · rw [reports_iff hclass]
      exact hout
    · exact absurd (mem_acts.mp htimeout) hin

def tornSuite : Sequencer where
  tests := [{ name := "boom", teardown := true }]
  name_ne_empty := by decide
  names_nodup := by decide

def mismatch : Thrown := .exception "register mismatch"

/- The body throws `mismatch`, then the teardown ends with `out`. -/
def tornRun (out : Option Thrown) : List (Event Unit) :=
  [.launch "boom", .act "boom" .readBefore, .act "boom" (.call .body),
    .act "boom" (.ret (some mismatch)), .act "boom" (.call .teardown), .act "boom" (.ret out),
    .act "boom" (.ready (out.or (some mismatch))), .act "boom" .join, .act "boom" .readAfter,
    .collect "boom"]

theorem tornRun_results :
    (tornSuite.runTo 1 0 (tornRun none)).map (fun st => (st.prog, tornSuite.results st)) =
      some ([], [⟨"boom", .fail, "register mismatch", 0, 0⟩]) ∧
    (tornSuite.runTo 1 0 (tornRun (some (.exception "link still up")))).map
        (fun st => (st.prog, tornSuite.results st)) =
      some ([], [⟨"boom", .fail, "link still up", 0, 0⟩]) := by
  decide

theorem reason_reported_boom :
    (tornRun none).count (.act "boom" (.call .teardown)) = 1 ∧
      Reports mismatch ⟨"boom", .fail, "register mismatch", 0, 0⟩ := by
  obtain ⟨st, hrun, hret, hresults⟩ := returned_of_results tornRun_results.1
  have hres : (tornSuite.results st)[0]? = some ⟨"boom", .fail, "register mismatch", 0, 0⟩ := by
    rw [hresults]
    rfl
  obtain ⟨hcount, hiff⟩ := reason_reported_iff hrun hret rfl hres (e := mismatch) (by decide)
    (by decide)
  refine ⟨hcount, hiff.mpr fun out hout => Or.inl ?_⟩
  have hended : endings (acts "boom" (tornRun none)) =
      [(.body, some mismatch), (.teardown, none)] := by
    decide
  have hmem : (Fn.teardown, out) ∈ endings (acts "boom" (tornRun none)) := hout
  simpa [hended] using hmem

/- The teardown throws too, and the result speaks of the teardown. -/
theorem reason_replaced : ¬∀ (s : Sequencer) (threads : ℕ) (counter : BitVec 64)
    (tr : List (Event Unit)) (st : RunState), s.runTo threads counter tr = some st → st.Returned →
    ∀ (i : ℕ) (t : TestCase) (r : TestResult) (e : Thrown), s.tests[i]? = some t →
      (s.results st)[i]? = some r → (.body, some e) ∈ endings (acts t.name tr) →
      .act t.name .timeout ∉ tr →
      tr.count (.act t.name (.call .teardown)) = (if t.teardown then 1 else 0) ∧ Reports e r := by
  intro hall
  obtain ⟨st, hrun, hret, hresults⟩ := returned_of_results tornRun_results.2
  have hres : (tornSuite.results st)[0]? = some ⟨"boom", .fail, "link still up", 0, 0⟩ := by
    rw [hresults]
    rfl
  obtain ⟨-, hreports⟩ := hall tornSuite 1 0 _ st hrun hret 0 _ _ mismatch rfl hres (by decide)
    (by decide)
  exact absurd hreports.2 (by decide)

end SocValidation.Sequencer
