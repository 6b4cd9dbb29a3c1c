import SocValidation.Sequencer.Teardown

/-!
# The result of every test of every run (sequencer.cpp:92-187)

Timeouts and exceptions of all three functions included: once `Run` has returned, what
it says of a test is decided by what the test's functions threw, and by whether the wait
for them has timed out.
-/

namespace SocValidation.Sequencer

variable {α : Type} {s : Sequencer} {threads : ℕ} {counter : BitVec 64}
variable {st : RunState} {tr : List (Event α)} {t : TestCase} {levels : List (List String)}
variable {os : List (Fn × Option Thrown)} {out : Option Thrown}

/- The exception that the last of the functions to throw has thrown. -/
def lastThrown (os : List (Fn × Option Thrown)) : Option Thrown := (os.filterMap Prod.snd).getLast?

theorem filterMap_setupEnding (t : TestCase) : (setupEnding t).filterMap Prod.snd = [] := by
  unfold setupEnding
  split <;> rfl

theorem Script.last (h : Script t os out) : out = lastThrown os := by
  cases h with
  | setupThrew e hs => rfl
  | plain p ht =>
    rw [lastThrown, List.filterMap_append, filterMap_setupEnding]
    cases out <;> rfl
  | tornDown p out ht =>
    rw [lastThrown, List.filterMap_append, filterMap_setupEnding]
    cases p <;> cases out <;> rfl

variable [DecidableEq α]

/- The status and the message of a test. -/
def ending (tr : List (Event α)) (t : TestCase) : TestStatus × String :=
  if .act t.name .timeout ∈ tr then timedOut t
  else classify (lastThrown (endings (acts t.name tr)))

def told (levels : List (List String)) (tr : List (Event α)) (t : TestCase) :
    String × TestStatus × String × ℕ :=
  (t.name, (ending tr t).1, (ending tr t).2, levelIndexOf levels t.name)

theorem returned_told (h : s.runTo threads counter tr = some st) (hls : s.levels = .ok levels)
    (hr : st.Returned) (ht : t ∈ s.tests) :
    .act t.name (.ready (lastThrown (endings (acts t.name tr)))) ∈ tr ∧
      TestResult.report (st.byName.getD t.name {}) = told levels tr t := by
  obtain ⟨act, hact, rfl, hpc⟩ := returned_result h hr ht
  obtain ⟨-, hcourse⟩ := (runTo_course h _).2 act hact
  obtain ⟨level, hl, hn⟩ := (runTo_placed h hls).active _ act hact
  have hindex := levelIndexOf_eq hls hl hn
  have hstands := hcourse.stands
  have htold := hcourse.told
  rw [hpc] at hstands htold
  obtain ⟨hname, hlevel, out, hready, hend⟩ := hstands
  obtain rfl := (htold out hready).last
  refine ⟨mem_acts.mp hready, ?_⟩
  have hending : ending tr act.test =
      ((st.byName.getD act.test.name {}).status, (st.byName.getD act.test.name {}).message) := by
    unfold ending
    rcases hend with ⟨hno, heq⟩ | ⟨hyes, heq⟩
    · rw [if_neg fun hin => hno (mem_acts.mpr hin), heq]
    · rw [if_pos (mem_acts.mp hyes), heq]
  simp only [TestResult.report, Sequencer.told, hending, hname, hlevel, hindex]

theorem ending_pass_iff : (ending tr t).1 = .pass ↔ .act t.name .timeout ∉ tr ∧
    ∀ f out, (f, out) ∈ endings (acts t.name tr) → out = none := by
  unfold ending
  have hclassify : ∀ out, (classify out).1 = .pass ↔ out = none := fun out => by
    cases out with
    | none => simp [classify]
    | some e => cases e <;> simp [classify]
  split
  next hin => simp [timedOut, hin]
  next hin =>
    rw [hclassify, lastThrown, List.getLast?_eq_none_iff, List.filterMap_eq_nil_iff]
    constructor
    · intro h
      exact ⟨hin, fun f out hmem => h (f, out) hmem⟩
    · rintro ⟨-, h⟩ ⟨f, out⟩ hmem
      exact h f out hmem

/-- In every run that has returned, the results are one for each test, in the order of
registration: the timeout if the wait has timed out, else what the last function to
throw has thrown. A test passes just when it has not timed out and none of its functions
has thrown. -/
theorem results_told (h : s.runTo threads counter tr = some st) (hls : s.levels = .ok levels)
    (hr : st.Returned) :
    (s.results st).map TestResult.report = s.tests.map (told levels tr) ∧
      ∀ (i : ℕ) (t : TestCase) (r : TestResult), s.tests[i]? = some t →
        (s.results st)[i]? = some r →
        r.status ≠ .skip ∧ (r.status = .pass ↔ .act t.name .timeout ∉ tr ∧
          ∀ f out, (f, out) ∈ endings (acts t.name tr) → out = none) := by
  have hreport : ∀ t ∈ s.tests, TestResult.report (st.byName.getD t.name {}) = told levels tr t :=
    fun t ht => (returned_told h hls hr ht).2
  refine ⟨?_, fun i t r ht hres => ?_⟩
  · rw [results, List.map_map]
    exact List.map_congr_left hreport
  · have hmem := hreport t (List.mem_of_getElem? ht)
    rw [results_getElem? ht hres] at hmem
    have hstatus : r.status = (ending tr t).1 := congrArg (fun report => report.2.1) hmem
    refine ⟨?_, ?_⟩
    · rw [hstatus, ending]
      split
      · simp [timedOut]
      · exact classify_ne_skip _
    · rw [hstatus]
      exact ending_pass_iff

def slowSuite : Sequencer where
  tests := [{ name := "link_up", setup := true }, { name := "dma", timeout := 20 }]
  name_ne_empty := by decide
  names_nodup := by decide

/- Setup of one test throws, and the other test ends after its time. -/
def slowRun : List (Event Unit) :=
  [.launch "dma", .launch "link_up", .act "dma" .readBefore, .act "link_up" .readBefore,
    .act "link_up" (.call .setup), .act "dma" (.call .body), .act "dma" .timeout,
    .act "link_up" (.ret (some .other)), .act "link_up" (.ready (some .other)),
    .act "link_up" .join, .act "dma" (.ret none), .act "dma" (.ready none), .act "dma" .join,
    .act "dma" .readAfter, .act "link_up" .readAfter, .collect "dma", .collect "link_up"]

theorem slowRun_returns : (slowSuite.runTo 2 0 slowRun).map
    (fun st => (st.prog, slowSuite.results st)) =
      some ([], [⟨"link_up", .error, "unknown exception", 0, 0⟩,
        ⟨"dma", .timeout, "exceeded 20 ms", 0, 0⟩]) := by decide

theorem results_told_slow : [("link_up", TestStatus.error, "unknown exception", 0),
    ("dma", TestStatus.timeout, "exceeded 20 ms", 0)] =
      slowSuite.tests.map (told [["dma", "link_up"]] slowRun) := by
  obtain ⟨st, hrun, hret, hresults⟩ := returned_of_results slowRun_returns
  have hls : slowSuite.levels = .ok [["dma", "link_up"]] := by decide
  have htold := (results_told hrun hls hret).1
  rw [hresults] at htold
  exact htold

end SocValidation.Sequencer
