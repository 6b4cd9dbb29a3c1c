import SocValidation.Bringup.Session
import SocValidation.Lib.Numeral

/-!
# The benchmark's suite (bench_main.cpp:35-93)

Two tests that gate a fan-out of others. The body of each is the same workload on a
device of its own, so however many threads there are, the runs that are timed against
each other do the same. The sleep in the workload is not modelled.
-/

namespace SocValidation.Bench
open Sequencer Relation Chains
open Bringup (burst_lt)
open Regmap (dmaCTRL goIndex runCalls statusDONE)
open Device (Reply kDmaCtrl kDmaStatus)

/-! ### Workload -/

theorem go_rw : dmaCTRL.fields[goIndex].access = "RW" := rfl

theorem burst_rw : dmaCTRL.fields[(⟨3, burst_lt⟩ : Fin dmaCTRL.fields.length)].access = "RW" := rfl

/- `set_GO(1).set_BURST_LEN(8)` -/
def workloadFields : List (Regmap.Call dmaCTRL) :=
  [.set goIndex go_rw 1, .set ⟨3, burst_lt⟩ burst_rw 8]

def seenDone (reply : Reply) : Option (Option Thrown) :=
  match reply.error with
  | some e => some (some (.exception e.what))
  | none => if statusDONE.getter (reply.words.headD 0) ≠ 0 then some none else none

/- On the new device that is local to it. -/
def workload : Program Device.Op Reply (Option Thrown) :=
  .call (.setTransferLatency 4) fun _ =>
    .call (.write32 kDmaCtrl (runCalls dmaCTRL.kReset workloadFields)) fun reply =>
      match reply.error with
      | some e => .ret (some (.exception e.what))
      | none => .poll (.read32 kDmaStatus) seenDone none 200

/- The poll ends at its fourth read. -/
def workloadOps : List Device.Op :=
  [.setTransferLatency 4, .write32 kDmaCtrl 0x81] ++ List.replicate 4 (.read32 kDmaStatus)

theorem workload_calls : workload.calls (fun op (d : Device) => d.apply op) Device.fresh = workloadOps := by
  decide

theorem workload_device : workload.run (fun op (d : Device) => d.apply op) Device.fresh =
    (none, Device.fresh.run workloadOps) := by
  have hout : (workload.run (fun op (d : Device) => d.apply op) Device.fresh).1 = none := by decide
  refine Prod.ext hout ?_
  rw [Program.run_calls, workload_calls]
  rfl

/-! ### BuildSuite -/

def benchCase (i : ℕ) : String := "dma_case_" ++ toString i

def gates : List String := ["link_up", "dma_reset"]

def benchTests (cases : ℕ) : List TestCase :=
  (gates.map fun name => { name := name, timeout := 10000 }) ++
    (List.range cases).map fun i => { name := benchCase i, dependsOn := gates, timeout := 10000 }

def buildSuite (cases : ℕ) : Except AddError Sequencer := empty.addAll (benchTests cases)

variable {cases : ℕ} {n m : String}

theorem benchCase_toList (i : ℕ) : (benchCase i).toList = "dma_case_".toList ++ Nat.toDigits 10 i := by
  rw [benchCase, String.toList_append]
  simp [toString, Nat.repr]

theorem benchCase_injective : Function.Injective benchCase := by
  intro i j h
  have hdigits := congrArg String.toList h
  rw [benchCase_toList, benchCase_toList, List.append_cancel_left_eq] at hdigits
  have hread := congrArg (Numeral.read 10) hdigits
  rw [Numeral.read_toDigits (by decide) (by decide), Numeral.read_toDigits (by decide) (by decide)] at hread
  exact Option.some.inj hread

theorem benchCase_not_gate (i : ℕ) : benchCase i ∉ gates := by
  have hgates : ∀ name ∈ gates, name.toList.take 9 ≠ "dma_case_".toList := by decide
  intro h
  refine hgates _ h ?_
  rw [benchCase_toList]
  rfl

theorem bench_names (cases : ℕ) :
    (benchTests cases).map TestCase.name = gates ++ (List.range cases).map benchCase := by
  simp only [benchTests, List.map_append, List.map_map]
  rfl

def benchSuite (cases : ℕ) : Sequencer where
  tests := benchTests cases
  name_ne_empty := by
    have hgates : "" ∉ gates := by decide
    intro t ht hempty
    have hname : "" ∈ (benchTests cases).map TestCase.name := hempty ▸ List.mem_map_of_mem ht
    rw [bench_names, List.mem_append, List.mem_map] at hname
    rcases hname with hname | ⟨i, -, hname⟩
    · exact hgates hname
    · have htext := congrArg String.toList hname
      rw [benchCase_toList] at htext
      cases htext
  names_nodup := by
    rw [bench_names, List.nodup_append]
    refine ⟨by decide, List.nodup_range.map benchCase_injective, fun a ha b hb hab => ?_⟩
    obtain ⟨i, -, rfl⟩ := List.mem_map.mp hb
    exact benchCase_not_gate i (hab ▸ ha)

/- No `Add` throws. -/
theorem buildSuite_eq (cases : ℕ) : buildSuite cases = .ok (benchSuite cases) := addAll_self (benchSuite cases)

/-! ### Its levels -/

def benchLevel (n : String) : ℕ := if n ∈ gates then 0 else 1

theorem bench_dependsOn {d : String} : (benchSuite cases).DependsOn n d ↔
    (∃ i < cases, benchCase i = n) ∧ d ∈ gates := by
  constructor
  · rintro ⟨t, ht, rfl, hd⟩
    rcases List.mem_append.mp ht with ht | ht
    · obtain ⟨name, -, rfl⟩ := List.mem_map.mp ht
      cases hd
    · obtain ⟨i, hi, rfl⟩ := List.mem_map.mp ht
      exact ⟨⟨i, List.mem_range.mp hi, rfl⟩, hd⟩
  · rintro ⟨⟨i, hi, rfl⟩, hd⟩
    exact ⟨_, List.mem_append_right _ (List.mem_map_of_mem (List.mem_range.mpr hi)), rfl, hd⟩

theorem bench_rank (a b : String) (h : (benchSuite cases).DependsOn a b) : benchLevel b < benchLevel a := by
  obtain ⟨⟨i, -, rfl⟩, hb⟩ := bench_dependsOn.mp h
  rw [benchLevel, if_pos hb, benchLevel, if_neg (benchCase_not_gate i)]
  exact Nat.one_pos

theorem bench_depth (hn : n ∈ (benchSuite cases).names) :
    Depth (benchSuite cases).DependsOn n (benchLevel n) := by
  refine ⟨?_, fun k hk => hk.le_rank bench_rank⟩
  have hnames : n ∈ gates ++ (List.range cases).map benchCase := bench_names cases ▸ hn
  rcases List.mem_append.mp hnames with hgate | hcase
  · rw [benchLevel, if_pos hgate]
    exact .zero n
  · obtain ⟨i, hi, rfl⟩ := List.mem_map.mp hcase
    rw [benchLevel, if_neg (benchCase_not_gate i)]
    have hdep : (benchSuite cases).DependsOn (benchCase i) "link_up" :=
      bench_dependsOn.mpr ⟨⟨i, List.mem_range.mp hi, rfl⟩, by decide⟩
    exact .succ hdep (.zero _)

theorem bench_levels (cases : ℕ) : ∃ levels, (benchSuite cases).levels = .ok levels ∧
    ∀ n ∈ (benchSuite cases).names, levelIndexOf levels n = benchLevel n := by
  have hclosed : (benchSuite cases).Closed := fun a b hab => by
    have hb : b ∈ gates ++ (List.range cases).map benchCase :=
      List.mem_append_left _ (bench_dependsOn.mp hab).2
    rwa [← bench_names] at hb
  have hbelow : ∀ a b, TransGen (benchSuite cases).DependsOn a b → benchLevel b < benchLevel a := by
    intro a b hab
    induction hab with
    | single hd => exact bench_rank _ _ hd
    | tail _ hd ih => exact (bench_rank _ _ hd).trans ih
  obtain ⟨levels, hls⟩ := levels_eq_ok hclosed fun ⟨n, hn⟩ => Nat.lt_irrefl _ (hbelow n n hn)
  exact ⟨levels, hls, fun n hn => (levelIndexOf_depth hls hn).unique (bench_depth hn)⟩

/-! ### Its runs -/

/- Each test has the device of its name. -/
def benchBodies : Bodies String Device.Op Reply where
  script n f := if f = .body then workload.onObject n else .ret none
  reach n := {n}
  within n f := by
    split
    · exact Program.within_onObject _ _
    · trivial

def benchServe (_ : String) (op : Device.Op) (d : Device) : Reply × Device := d.apply op

theorem bench_program {t : TestCase} (ht : t ∈ (benchSuite cases).tests) :
    (clients (benchSuite cases) benchBodies).program t.name = workload.onObject t.name := by
  have hplain : t.setup = false ∧ t.teardown = false := by
    rcases List.mem_append.mp ht with ht | ht
    · obtain ⟨name, -, rfl⟩ := List.mem_map.mp ht
      exact ⟨rfl, rfl⟩
    · obtain ⟨i, -, rfl⟩ := List.mem_map.mp ht
      exact ⟨rfl, rfl⟩
  exact clients_plain (findTest_name ht) hplain.1 hplain.2

theorem bench_apart : ∀ m ∈ (benchSuite cases).names, ∀ n ∈ (benchSuite cases).names, m ≠ n →
    Disjoint (benchBodies.reach m) (benchBodies.reach n) :=
  fun _ _ _ _ hne => Set.disjoint_singleton.mpr hne

theorem bench_run {t : TestCase} (ht : t ∈ (benchSuite cases).tests) :
    (((clients (benchSuite cases) benchBodies).program t.name).run (Program.serve benchServe)
      (fun _ => Device.fresh)).1 = none ∧
    (((clients (benchSuite cases) benchBodies).program t.name).run (Program.serve benchServe)
      (fun _ => Device.fresh)).2 t.name = Device.fresh.run workloadOps := by
  have hrun : workload.run (benchServe t.name) Device.fresh = (none, Device.fresh.run workloadOps) :=
    workload_device
  rw [bench_program ht, Program.run_onObject, hrun]
  exact ⟨rfl, Function.update_self (f := fun _ => Device.fresh) t.name _⟩

/-- The benchmark compares like with like. No `Add` is rejected, the gates are the first
level and the cases the second; and a run on any number of threads, however its calls
interleave, makes for each test the calls of the workload and no others, in their order and
on the device of that test, leaves the device as they do, and reports that each test passes
unless the wait for it has timed out. -/
theorem benchmark_suite (cases threads : ℕ) (counter : BitVec 64)
    (tr : List (Event (String × Device.Op))) (st : SuiteState String Device.Op Reply Device)
    (h : suiteTo (benchSuite cases) benchBodies benchServe threads counter
      (fun _ => Device.fresh) tr = some st) (hr : st.run.Returned) :
    buildSuite cases = .ok (benchSuite cases) ∧
      (∃ levels, (benchSuite cases).levels = .ok levels ∧
        (∀ n ∈ (benchSuite cases).names, levelIndexOf levels n = benchLevel n) ∧
        ((benchSuite cases).results st.run).map TestResult.report =
          (benchSuite cases).tests.map (serialReport levels tr fun _ => some none)) ∧
      (∀ n ∈ (benchSuite cases).names, callsOf n tr = workloadOps.map (fun op => (n, op)) ∧
        st.objects n = Device.fresh.run workloadOps) ∧
      ((benchSuite cases).names.map fun n => (st.objects n).ticks.toNat).sum = 5 * (cases + 2) := by
  obtain ⟨levels, hls, hlevels⟩ := bench_levels cases
  have halone := returned_alone bench_apart hls h hr
  have hdevice : ∀ n ∈ (benchSuite cases).names, st.objects n = Device.fresh.run workloadOps := by
    intro n hn
    obtain ⟨t, ht, rfl⟩ := List.mem_map.mp hn
    exact ((halone t ht).2 (Set.mem_singleton t.name)).trans (bench_run ht).2
  have hcalls : ∀ n ∈ (benchSuite cases).names, callsOf n tr = workloadOps.map fun op => (n, op) := by
    intro n hn
    obtain ⟨t, ht, rfl⟩ := List.mem_map.mp hn
    rw [returned_calls bench_apart h hr hn, bench_program ht, Program.calls_onObject]
    exact congrArg _ workload_calls
  refine ⟨buildSuite_eq cases, ⟨levels, hls, hlevels, ?_⟩, fun n hn => ⟨hcalls n hn, hdevice n hn⟩, ?_⟩
  · rw [results, List.map_map]
    refine List.map_congr_left fun t ht => ?_
    refine (returned_told (suiteTo_runTo h) hls hr ht).2.trans (told_serialReport ?_)
    rw [(halone t ht).1, (bench_run ht).1]
  · have hticks : (Device.fresh.run workloadOps).ticks.toNat = 5 := by decide
    have hlength : (benchSuite cases).names.length = cases + 2 := by
      have hnames : (benchSuite cases).names = gates ++ (List.range cases).map benchCase :=
        bench_names cases
      rw [hnames, List.length_append, List.length_map, List.length_range, Nat.add_comm]
      rfl
    have hsum : ((benchSuite cases).names.map fun n => (st.objects n).ticks.toNat) =
        List.replicate (cases + 2) 5 := by
      rw [List.eq_replicate_iff, List.length_map]
      refine ⟨hlength, fun k hk => ?_⟩
      obtain ⟨n, hn, rfl⟩ := List.mem_map.mp hk
      rw [hdevice n hn, hticks]
    rw [hsum, List.sum_replicate, smul_eq_mul, Nat.mul_comm]

/- The gates at the same time, then a case. -/
def works (n : String) : List (Event (String × Device.Op)) :=
  [.act n .readBefore, .act n (.call .body)] ++ workloadOps.map (fun op => .act n (.use (n, op))) ++
    [.act n (.ret none), .act n (.ready none), .act n .join, .act n .readAfter]

def benchRun : List (Event (String × Device.Op)) :=
  [.launch "dma_reset", .launch "link_up"] ++ works "link_up" ++ works "dma_reset" ++
    [.collect "dma_reset", .collect "link_up", .launch "dma_case_0"] ++ works "dma_case_0" ++
    [.collect "dma_case_0"]

theorem benchRun_returns : (suiteTo (benchSuite 1) benchBodies benchServe 2 0 (fun _ => Device.fresh)
    benchRun).map (fun st => st.run.prog) = some [] := by
  decide

theorem benchmark_suite_run : ∃ st, suiteTo (benchSuite 1) benchBodies benchServe 2 0
    (fun _ => Device.fresh) benchRun = some st ∧
      ((benchSuite 1).names.map fun n => (st.objects n).ticks.toNat).sum = 15 := by
  obtain ⟨st, hrun, hprog⟩ := Option.map_eq_some_iff.mp benchRun_returns
  exact ⟨st, hrun, (benchmark_suite 1 2 0 benchRun st hrun hprog).2.2.2⟩

end SocValidation.Bench
