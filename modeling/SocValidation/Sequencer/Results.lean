import SocValidation.Sequencer.Progress

/-!
# The results of a parallel run are those of a serial one (sequencer.cpp:147-187)

The results come out of a map keyed by name. Once `Run` has nothing left to
collect that map holds, for each registered test and for no other, what its own
`RunOne` returned.
-/

namespace SocValidation.Sequencer
open Std Chains

variable {α : Type} {s : Sequencer} {threads : ℕ} {counter : BitVec 64} {st st' : RunState}
variable {n : String} {tr : List (Event α)} {t : TestCase} {levels : List (List String)}

/- The map holds what returned, and lacks only what is still to be collected. -/
structure Stored (s : Sequencer) (st : RunState) : Prop where
  returned : ∀ n r, st.byName[n]? = some r →
    ∃ act, st.active n = some act ∧ act.pc = .returned r
  covered : ∀ n ∈ s.names, .collect n ∈ st.prog ∨ st.byName[n]?.isSome

theorem Stored.collect {rest : List MainInstr} {r : TestResult} {act : Activation}
    (hp : Stored s st) (hprog : st.prog = .collect n :: rest) (hact : st.active n = some act)
    (hret : act.pc = .returned r) (hname : r.name = n) :
    Stored s { st with prog := rest, byName := st.byName.insert r.name r } := by
  constructor
  case returned =>
    intro m r' hr'
    dsimp only at hr' ⊢
    rw [TreeMap.getElem?_insert] at hr'
    split at hr'
    next he =>
      have heq : n = m := hname ▸ LawfulEqCmp.compare_eq_iff_eq.mp he
      subst heq
      cases hr'
      exact ⟨act, hact, hret⟩
    · exact hp.returned m r' hr'
  case covered =>
    intro m hm
    dsimp only
    rw [TreeMap.getElem?_insert]
    by_cases hmn : m = n
    · subst hmn
      rw [hname, if_pos compare_self]
      exact Or.inr rfl
    · rcases hp.covered m hm with hc | hc
      · rw [hprog] at hc
        exact Or.inl (by simpa [hmn] using hc)
      · right
        split
        · rfl
        · exact hc

theorem runTo_stored (h : s.runTo threads counter tr = some st) : Stored s st := by
  refine runTo_invariant (fun _ st => Stored s st) ?_ ?_ h
  · intro levels hls
    refine ⟨fun n r hr => by simp at hr, fun n hn => Or.inl ?_⟩
    have hflat : n ∈ (levels.flatMap (chunks threads)).flatten := by
      rwa [flatMap_chunks_flatten, mem_flatten_levels hls]
    have hmem := ForkJoin.collect_mem_program.mpr hflat
    rw [← runProgram_forkJoin threads 0, List.mem_map] at hmem
    obtain ⟨i, hi, heq⟩ := hmem
    cases i with
    | launch m k => cases heq
    | collect m =>
      cases heq
      exact hi
  · intro tr st e st' hrun hp hs
    have hkept : ∀ n act r, st.active n = some act → act.pc = .returned r →
        st'.active n = some act := fun n act r ha hr => (finished_step hrun ha hr hs).2
    cases e with
    | launch m =>
      obtain ⟨k, rest, t, hprog, -, rfl⟩ := step_launch hs
      refine ⟨fun n r hr => ?_, fun n hn => ?_⟩
      · obtain ⟨act, hact, hret⟩ := hp.returned n r hr
        exact ⟨act, hkept n act r hact hret, hret⟩
      · rcases hp.covered n hn with hc | hc
        · rw [hprog] at hc
          exact Or.inl (by simpa using hc)
        · exact Or.inr hc
    | collect m =>
      obtain ⟨rest, t, k, r, hprog, hact, rfl⟩ := step_collect hs
      obtain ⟨hfind, hcourse⟩ := (runTo_course hrun m).2 _ hact
      exact hp.collect hprog hact rfl (hcourse.stands.1.trans (findTest_some hfind).2)
    | act m a =>
      obtain ⟨act, pc, c, -, -, rfl⟩ := step_act hs
      refine ⟨fun n r hr => ?_, hp.covered⟩
      obtain ⟨act', hact', hret⟩ := hp.returned n r hr
      exact ⟨act', hkept n act' r hact' hret, hret⟩

theorem findTest_name (ht : t ∈ s.tests) : s.findTest t.name = some t := by
  obtain ⟨u, hu⟩ := findTest_of_mem (List.mem_map_of_mem (f := TestCase.name) ht)
  obtain ⟨hmem, hname⟩ := findTest_some hu
  rw [hu, List.inj_on_of_nodup_map s.names_nodup hmem ht hname]

/-- When `Run` has returned, the result it gives for a test is the one that the
test's own `RunOne` came to. -/
theorem returned_result (h : s.runTo threads counter tr = some st) (hr : st.Returned)
    (ht : t ∈ s.tests) : ∃ act, st.active t.name = some act ∧ act.test = t ∧
      act.pc = .returned (st.byName.getD t.name {}) := by
  have hstored := runTo_stored h
  have hsome : st.byName[t.name]?.isSome := by
    rcases hstored.covered t.name (List.mem_map_of_mem ht) with hc | hc
    · rw [show st.prog = [] from hr] at hc
      cases hc
    · exact hc
  obtain ⟨r, hget⟩ := Option.isSome_iff_exists.mp hsome
  obtain ⟨act, hact, hret⟩ := hstored.returned t.name r hget
  obtain ⟨hfind, -⟩ := (runTo_course h t.name).2 act hact
  rw [findTest_name ht] at hfind
  rw [TreeMap.getD_eq_getD_getElem?, hget]
  exact ⟨act, hact, (Option.some.inj hfind).symm, hret⟩

/- The `i`-th result is what the map holds under the name of the `i`-th test. -/
theorem results_getElem? {i : ℕ} {r : TestResult} (ht : s.tests[i]? = some t)
    (hres : (s.results st)[i]? = some r) : st.byName.getD t.name {} = r := by
  rw [results, List.getElem?_map, ht] at hres
  exact Option.some.inj hres

/- A run that has been computed to its end. -/
theorem returned_of_results {rs : List TestResult}
    (h : (s.runTo threads counter tr).map (fun st => (st.prog, s.results st)) = some ([], rs)) :
    ∃ st, s.runTo threads counter tr = some st ∧ st.Returned ∧ s.results st = rs := by
  obtain ⟨st, hrun, heq⟩ := Option.map_eq_some_iff.mp h
  obtain ⟨hprog, hresults⟩ := Prod.mk.inj heq
  exact ⟨st, hrun, hprog, hresults⟩

/-! ### The report of a run -/

/- Everything in a result but the duration and the access count. -/
def TestResult.report (r : TestResult) : String × TestStatus × String × ℕ :=
  (r.name, r.status, r.message, r.level)

def levelIndexOf (levels : List (List String)) (name : String) : ℕ :=
  levels.findIdx fun level => level.contains name

def expected (levels : List (List String)) (verdict : String → Option Thrown) (t : TestCase) :
    String × TestStatus × String × ℕ :=
  (t.name, (classify (verdict t.name)).1, (classify (verdict t.name)).2,
    levelIndexOf levels t.name)

theorem levelIndexOf_eq (hls : s.levels = .ok levels) {k : ℕ} {level : List String}
    (hl : levels[k]? = some level) (hn : n ∈ level) : levelIndexOf levels n = k := by
  obtain ⟨hk, rfl⟩ := List.getElem?_eq_some_iff.mp hl
  refine (List.findIdx_eq hk).mpr ⟨by simpa using hn, fun j hj => ?_⟩
  by_contra hc
  have hjn : n ∈ levels[j] := by simpa using hc
  have hdk := ((mem_levels_iff hls).mp ⟨_, hl, hn⟩).2
  have hdj := ((mem_levels_iff hls).mp ⟨_, List.getElem?_eq_getElem (by omega), hjn⟩).2
  have := hdk.unique hdj
  omega

theorem returned_report (h : s.runTo threads counter tr = some st) (hls : s.levels = .ok levels)
    (hr : st.Returned) {verdict : String → Option Thrown} (hv : ∀ e ∈ tr, e.Follows verdict)
    (ht : t ∈ s.tests) :
    TestResult.report (st.byName.getD t.name {}) = expected levels verdict t := by
  obtain ⟨act, hact, rfl, hret⟩ := returned_result h hr ht
  obtain ⟨-, hcourse⟩ := (runTo_course h _).2 act hact
  obtain ⟨level, hl, hn⟩ := (runTo_placed h hls).active _ act hact
  have hstands := hcourse.stands
  rw [hret] at hstands
  obtain ⟨hname, hlevel, out, hready, hend⟩ := hstands
  have hverdict : out = verdict act.test.name := hv _ (mem_acts.mp hready)
  have hindex := levelIndexOf_eq hls hl hn
  rcases hend with ⟨-, heq⟩ | ⟨htimeout, -⟩
  · rw [hverdict] at heq
    simp only [TestResult.report, expected, hname, hlevel, hindex, ← heq]
  · exact absurd (hv _ (mem_acts.mp htimeout)) (by simp [Event.Follows])

theorem results_report (h : s.runTo threads counter tr = some st) (hls : s.levels = .ok levels)
    (hr : st.Returned) {verdict : String → Option Thrown} (hv : ∀ e ∈ tr, e.Follows verdict) :
    (s.results st).map TestResult.report = s.tests.map (expected levels verdict) := by
  rw [results, List.map_map]
  exact List.map_congr_left fun t ht => returned_report h hls hr hv ht

theorem classify_ne_skip (out : Option Thrown) : (classify out).1 ≠ .skip := by
  cases out with
  | none => decide
  | some e => cases e <;> simp [classify]

/-- Whatever `threads` is and however the tests of a batch interleave, `Run`
comes to its end and reports what each test did, as `Run(1)` does. -/
theorem run_results (s : Sequencer) (levels : List (List String)) (hls : s.levels = .ok levels)
    (verdict : String → Option Thrown) :
    (∀ threads counter, ∃ (tr : List (Event α)) (st : RunState),
      s.runTo threads counter tr = some st ∧ st.Returned ∧ ∀ e ∈ tr, e.Follows verdict) ∧
    (∀ threads counter (tr : List (Event α)) (st : RunState),
      s.runTo threads counter tr = some st → tr.countP Event.work ≤ 13 * s.tests.length ∧
        (st.Returned ∨ ∃ (e : Event α) (st' : RunState), s.step st e = some st' ∧ e.work = true)) ∧
    ∀ threads counter (tr : List (Event α)) (st : RunState),
      s.runTo threads counter tr = some st → st.Returned → (∀ e ∈ tr, e.Follows verdict) →
      (s.results st).map TestResult.report = s.tests.map (expected levels verdict) ∧
      (∀ r ∈ s.results st, r.name ≠ "" ∧ r.status ≠ .skip) ∧
      ∀ counter₁ (tr₁ : List (Event α)) (st₁ : RunState), s.runTo 1 counter₁ tr₁ = some st₁ →
        st₁.Returned → (∀ e ∈ tr₁, e.Follows verdict) →
        (s.results st).map TestResult.report = (s.results st₁).map TestResult.report := by
  refine ⟨fun threads counter => ?_, fun threads counter tr st h => ⟨run_work_le h, ?_⟩,
    fun threads counter tr st h hr hv => ⟨results_report h hls hr hv, fun r hres => ?_, ?_⟩⟩
  · have hstart : s.runTo threads counter ([] : List (Event α)) =
        some ⟨runProgram threads 0 levels, fun _ => none, counter, ∅⟩ := by
      rw [runTo, start, hls]
      rfl
    have hidle : OnPlan verdict ⟨runProgram threads 0 levels, fun _ => none, counter, ∅⟩ := by
      intro n act ha
      cases ha
    obtain ⟨rest, stop, hrun, hret, hrest⟩ := exists_return verdict hstart hidle
    exact ⟨rest, stop, hrun, hret, hrest⟩
  · by_cases hr : st.Returned
    · exact Or.inl hr
    · obtain ⟨e, st', hs, hw, -⟩ := exists_step verdict h hr
      exact Or.inr ⟨e, st', hs, hw⟩
  · obtain ⟨t, ht, rfl⟩ := List.mem_map.mp hres
    have hreport := returned_report h hls hr hv ht
    simp only [TestResult.report, expected, Prod.mk.injEq] at hreport
    refine ⟨?_, ?_⟩
    · rw [hreport.1]
      exact s.name_ne_empty t ht
    · rw [hreport.2.1]
      exact classify_ne_skip _
  · intro counter₁ tr₁ st₁ h₁ hr₁ hv₁
    rw [results_report h hls hr hv, results_report h₁ hls hr₁ hv₁]

/- Two tests of one level and one that needs both; the first fails. -/
def linkSuite : Sequencer where
  tests := [{ name := "link_up", dependsOn := ["dma", "irq"] }, { name := "irq" },
    { name := "dma", teardown := true }]
  name_ne_empty := by decide
  names_nodup := by decide

theorem run_results_linkSuite : ∃ (tr : List (Event Unit)) (st : RunState),
    linkSuite.runTo 2 0 tr = some st ∧ st.Returned ∧
      (linkSuite.results st).map TestResult.report =
        [("link_up", .pass, "", 1), ("irq", .fail, "lost", 0), ("dma", .pass, "", 0)] := by
  obtain ⟨hex, -, hreport⟩ := run_results (α := Unit) linkSuite [["dma", "irq"], ["link_up"]]
    (by decide) fun name => if name = "irq" then some (.exception "lost") else none
  obtain ⟨tr, st, hrun, hret, hv⟩ := hex 2 0
  exact ⟨tr, st, hrun, hret, (hreport 2 0 tr st hrun hret hv).1.trans (by decide)⟩

end SocValidation.Sequencer
