import SocValidation.Sequencer.Levels

/-!
# What `Levels` reports, and of what alone it depends (sequencer.cpp:44-88)

`pending` and each of its sets are walked in ascending order, so the unknown
dependency that is told is the least one of the least test that has one, and
the pending names of a stuck round come out sorted. With that the specification
of `Levels` has one solution (`levels_eq_iff`), and it speaks of the registered
names and of who depends on whom, not of how the suite was written down.
-/

namespace SocValidation.Sequencer
open Std Chains Relation

variable {s t : Sequencer} {name dep : String} {k : ℕ}
variable {names : List String} {ls ms : List (List String)}
variable {r : Except LevelsError (List (List String))}

/-! ### The names in the message -/

/- `cycle` is never empty again once a name is in it: every name is non-empty. -/
theorem joinCycle_from (cycle : String) (hc : cycle ≠ "") (names : List String) :
    names.foldl (fun cycle name => cycle ++ ((if cycle = "" then "" else ", ") ++ name)) cycle =
      String.intercalate ", " (cycle :: names) := by
  induction names generalizing cycle with
  | nil => simp
  | cons name names ih =>
    have hne : cycle ++ (", " ++ name) ≠ "" := by simp [String.append_eq_empty_iff]
    rw [List.foldl_cons, if_neg hc, ih _ hne, String.intercalate_cons_cons]
    cases names with
    | nil => simp [String.append_assoc]
    | cons next names => simp [String.intercalate_cons_cons, String.append_assoc]

theorem joinCycle_eq (hne : ∀ n ∈ names, n ≠ "") :
    joinCycle names = String.intercalate ", " names := by
  cases names with
  | nil => rfl
  | cons name names =>
    have hname : name ≠ "" := hne name (List.mem_cons_self ..)
    have hfirst : ("" : String) ++ ((if ("" : String) = "" then "" else ", ") ++ name) = name := by
      simp
    rw [joinCycle, List.foldl_cons, hfirst]
    exact joinCycle_from name hname names

theorem names_ne_empty (hn : name ∈ s.names) : name ≠ "" := by
  obtain ⟨test, ht, rfl⟩ := List.mem_map.mp hn
  exact s.name_ne_empty test ht

/-- With every dependency registered and a cycle among them, `Levels` throws
and its message lists, ascending, the tests from which a cycle can be reached. -/
theorem cycle_names (hreg : ∀ test ∈ s.tests, ∀ d ∈ test.dependsOn, d ∈ s.names)
    (hcyc : ∃ n, TransGen s.DependsOn n n) :
    ∃ names, s.levels = .error (.cycle names) ∧
      (LevelsError.cycle names).what =
        "dependency cycle among: " ++ String.intercalate ", " names ∧
      names.Pairwise (· < ·) ∧
      ∀ n, n ∈ names ↔ n ∈ s.names ∧ ReachesCycle s.DependsOn n := by
  obtain ⟨names, hnames⟩ := (levels_cycle_iff (closed_iff.mpr hreg)).mpr hcyc
  have hspec := levels_spec s
  rw [hnames] at hspec
  obtain ⟨-, -, hasc, hmem⟩ := hspec
  have hne : ∀ n ∈ names, n ≠ "" := fun n hn => names_ne_empty ((hmem n).mp hn).1
  have hw : (LevelsError.cycle names).what = "dependency cycle among: " ++ joinCycle names := rfl
  rw [joinCycle_eq hne] at hw
  exact ⟨names, hnames, hw, hasc, hmem⟩

/- Two tests that wait for each other, one that waits for them, one that is free. -/
def knottedSuite : Sequencer where
  tests := [{ name := "c", dependsOn := ["a"] }, { name := "b", dependsOn := ["a"] },
    { name := "a", dependsOn := ["b"] }, { name := "d" }]
  name_ne_empty := by simp
  names_nodup := by simp

theorem cycle_names_knotted :
    ∃ names, knottedSuite.levels = .error (.cycle names) ∧
      (LevelsError.cycle names).what =
        "dependency cycle among: " ++ String.intercalate ", " names ∧
      names.Pairwise (· < ·) ∧
      ∀ n, n ∈ names ↔ n ∈ knottedSuite.names ∧ ReachesCycle knottedSuite.DependsOn n := by
  have hab : knottedSuite.DependsOn "a" "b" :=
    ⟨{ name := "a", dependsOn := ["b"] }, by simp [knottedSuite], rfl, by simp⟩
  have hba : knottedSuite.DependsOn "b" "a" :=
    ⟨{ name := "b", dependsOn := ["a"] }, by simp [knottedSuite], rfl, by simp⟩
  exact cycle_names (by simp [knottedSuite, Sequencer.names])
    ⟨"a", .head hab (.single hba)⟩

/-! ### Which unknown dependency is told -/

/- The least test with an unknown dependency, and the least such dependency of it. -/
structure FirstUnknown (s : Sequencer) (name dep : String) : Prop where
  depends : s.DependsOn name dep
  unknown : dep ∉ s.names
  least_name : ∀ a b, s.DependsOn a b → b ∉ s.names → name ≤ a
  least_dep : ∀ b, s.DependsOn name b → b ∉ s.names → dep ≤ b

/- What stands before the first hit of an ascending list is smaller and no hit. -/
theorem le_of_before {α : Type*} {key : α → String} {before after : List α} {a b : α}
    (hasc : ((before ++ a :: after).map key).Pairwise (· < ·)) (hb : b ∈ before ++ a :: after)
    (hmiss : b ∉ before) : key a ≤ key b := by
  rw [List.pairwise_map, List.pairwise_append] at hasc
  have hafter := List.pairwise_cons.mp hasc.2.1
  rcases List.mem_append.mp hb with hb | hb
  · exact absurd hb hmiss
  · rcases List.mem_cons.mp hb with rfl | hb
    · rfl
    · exact (hafter.1 b hb).le

theorem deps_ascending (deps : TreeSet String) : deps.toList.Pairwise (· < ·) :=
  TreeSet.ordered_toList.imp fun h => compare_lt_iff_lt.mp h

theorem mem_pending_toList {a b : String} (hab : s.DependsOn a b) :
    ∃ deps, (a, deps) ∈ (pending s.tests).toList ∧ b ∈ deps.toList := by
  obtain ⟨test, ht, rfl, hb⟩ := hab
  refine ⟨_, TreeMap.mem_toList_iff_getElem?_eq_some.mpr (pending_getElem? ht), ?_⟩
  rw [TreeSet.mem_toList, TreeSet.mem_ofList]
  simpa using hb

theorem pending_contains_eq_false {b : String} (hb : b ∉ s.names) :
    (!(pending s.tests).contains b) = true := by
  cases hc : (pending s.tests).contains b with
  | false => rfl
  | true => exact absurd (mem_pending.mp (TreeMap.contains_iff_mem.mp hc)) hb

theorem unknownDependency_first (h : unknownDependency (pending s.tests) = some (name, dep)) :
    FirstUnknown s name dep := by
  obtain ⟨hdep, hunk⟩ := unknownDependency_some h
  obtain ⟨before, ⟨m, deps⟩, after, hsplit, hf, hbefore⟩ := List.findSome?_eq_some_iff.mp h
  obtain ⟨x, hx, heq⟩ := Option.map_eq_some_iff.mp hf
  obtain ⟨rfl, rfl⟩ := Prod.mk.inj heq
  obtain ⟨-, first, rest, hdeps, hfirst⟩ := List.find?_eq_some_iff_append.mp hx
  refine ⟨hdep, hunk, fun a b hab hb => ?_, fun b hab hb => ?_⟩
  · have hasc := keys_ascending (pending s.tests)
    rw [← TreeMap.map_fst_toList_eq_keys, hsplit] at hasc
    obtain ⟨ds, hmem, hbds⟩ := mem_pending_toList hab
    refine le_of_before hasc (b := (a, ds)) (hsplit ▸ hmem) fun hin => ?_
    have hnone := List.find?_eq_none.mp (Option.map_eq_none_iff.mp (hbefore _ hin)) b hbds
    exact hnone (pending_contains_eq_false hb)
  · have hasc := deps_ascending deps
    rw [hdeps, ← List.map_id (_ ++ _)] at hasc
    have hmem : b ∈ deps.toList := by
      have hget : (pending s.tests)[m]? = some deps :=
        TreeMap.mem_toList_iff_getElem?_eq_some.mp (hsplit ▸ by simp)
      exact TreeSet.mem_toList.mpr ((pending_deps hget).mpr hab)
    refine le_of_before hasc (hdeps ▸ hmem) fun hin => ?_
    have hknown := hfirst b hin
    simp [pending_contains_eq_false hb] at hknown

/-! ### The outcome is determined -/

/- `LevelsSpec`, and of the unknown dependencies the first. -/
def Outcome (s : Sequencer) (r : Except LevelsError (List (List String))) : Prop :=
  LevelsSpec s r ∧
    ∀ name dep, r = .error (.unknownDependency name dep) → FirstUnknown s name dep

theorem levels_outcome (s : Sequencer) : Outcome s s.levels := by
  refine ⟨levels_spec s, fun name dep he => ?_⟩
  have hspec := levels_spec s
  rw [he] at hspec
  cases hu : unknownDependency (pending s.tests) with
  | none => exact absurd (unknownDependency_none hu name dep hspec.1) hspec.2
  | some told =>
    have hw := levels_eq_some s
    rw [levelsWithin, hu, he] at hw
    obtain ⟨rfl, rfl⟩ : told.1 = name ∧ told.2 = dep := by simpa using hw
    exact unknownDependency_first hu

theorem FirstUnknown.unique {name' dep' : String} (h : FirstUnknown s name dep)
    (h' : FirstUnknown s name' dep') : name = name' ∧ dep = dep' := by
  have hname : name = name' :=
    (h.least_name _ _ h'.depends h'.unknown).antisymm (h'.least_name _ _ h.depends h.unknown)
  subst hname
  exact ⟨rfl, (h.least_dep _ h'.depends h'.unknown).antisymm (h'.least_dep _ h.depends h.unknown)⟩

/- The level at `ms.length` would hold a test that is already in an earlier one. -/
theorem length_le_of_levels (hls : ∀ j (hj : j < ls.length), LevelAt s j ls[j])
    (hms : ∀ n ∈ s.names, ∃ j < ms.length, Depth s.DependsOn n j) : ls.length ≤ ms.length := by
  by_contra hlt
  have hj : ms.length < ls.length := by omega
  have hlevel := hls ms.length hj
  obtain ⟨n, rest, hcons⟩ := List.exists_cons_of_ne_nil hlevel.ne_nil
  have hn := (hlevel.mem_iff n).mp (hcons ▸ List.mem_cons_self ..)
  obtain ⟨j, hjm, hd⟩ := hms n hn.1
  have := hn.2.unique hd
  omega

theorem levels_unique (hls : LevelsSpec s (.ok ls)) (hms : LevelsSpec s (.ok ms)) : ls = ms := by
  have hlen : ls.length = ms.length :=
    Nat.le_antisymm (length_le_of_levels hls.2.1 hms.2.2) (length_le_of_levels hms.2.1 hls.2.2)
  refine List.ext_getElem hlen fun j hj hj' => ?_
  have hl := hls.2.1 j hj
  have hm := hms.2.1 j hj'
  exact hl.ascending.eq_of_mem_iff hm.ascending fun n => (hl.mem_iff n).trans (hm.mem_iff n).symm

theorem cycle_unique {names' : List String} (h : LevelsSpec s (.error (.cycle names)))
    (h' : LevelsSpec s (.error (.cycle names'))) : names = names' := by
  obtain ⟨-, -, hasc, hmem⟩ := h
  obtain ⟨-, -, hasc', hmem'⟩ := h'
  exact hasc.eq_of_mem_iff hasc' fun n => (hmem n).trans (hmem' n).symm

theorem no_levels_of_cycle (hls : LevelsSpec s (.ok ls)) : ¬LevelsSpec s (.error (.cycle names)) := by
  rintro ⟨-, hne, -, hmem⟩
  obtain ⟨n, rest, rfl⟩ := List.exists_cons_of_ne_nil hne
  obtain ⟨hn, hreach⟩ := (hmem n).mp (List.mem_cons_self ..)
  obtain ⟨j, -, hd⟩ := hls.2.2 n hn
  exact (depth_iff.mp hd).2 (hreach.hasChain (j + 1))

theorem Outcome.unique {r' : Except LevelsError (List (List String))} (h : Outcome s r)
    (h' : Outcome s r') : r = r' := by
  rcases r with (⟨name, dep⟩ | names) | ls <;> rcases r' with (⟨name', dep'⟩ | names') | ms
  · obtain ⟨rfl, rfl⟩ := (h.2 name dep rfl).unique (h'.2 name' dep' rfl)
    rfl
  · exact absurd (h'.1.1 name dep h.1.1) h.1.2
  · exact absurd (h'.1.1 name dep h.1.1) h.1.2
  · exact absurd (h.1.1 name' dep' h'.1.1) h'.1.2
  · rw [cycle_unique h.1 h'.1]
  · exact absurd h.1 (no_levels_of_cycle h'.1)
  · exact absurd (h.1.1 name' dep' h'.1.1) h'.1.2
  · exact absurd h'.1 (no_levels_of_cycle h.1)
  · rw [levels_unique h.1 h'.1]

theorem levels_eq_iff : s.levels = r ↔ Outcome s r := by
  constructor
  · rintro rfl
    exact levels_outcome s
  · exact (levels_outcome s).unique

/-! ### Another way to write the suite down -/

section Congr
variable (hn : ∀ n, n ∈ s.names ↔ n ∈ t.names) (hd : s.DependsOn = t.DependsOn)
include hn hd

theorem LevelAt.congr {level : List String} (h : LevelAt s k level) : LevelAt t k level :=
  ⟨h.ne_nil, h.ascending, fun n => by rw [h.mem_iff, hn, hd]⟩

theorem FirstUnknown.congr (h : FirstUnknown s name dep) : FirstUnknown t name dep where
  depends := hd ▸ h.depends
  unknown := fun hm => h.unknown ((hn dep).mpr hm)
  least_name a b hab hb := h.least_name a b (hd ▸ hab) fun hm => hb ((hn b).mp hm)
  least_dep b hab hb := h.least_dep b (hd ▸ hab) fun hm => hb ((hn b).mp hm)

theorem LevelsSpec.congr (h : LevelsSpec s r) : LevelsSpec t r := by
  have hclosed : s.Closed → t.Closed := fun hc a b hab => (hn b).mp (hc a b (hd ▸ hab))
  rcases r with (⟨name, dep⟩ | names) | ls
  · exact ⟨hd ▸ h.1, fun hm => h.2 ((hn dep).mpr hm)⟩
  · obtain ⟨hc, hne, hasc, hmem⟩ := h
    exact ⟨hclosed hc, hne, hasc, fun n => by rw [hmem, hn, hd]⟩
  · obtain ⟨hc, hlevel, hall⟩ := h
    refine ⟨hclosed hc, fun j hj => (hlevel j hj).congr hn hd, fun n hm => ?_⟩
    obtain ⟨j, hj, hdepth⟩ := hall n ((hn n).mpr hm)
    exact ⟨j, hj, hd ▸ hdepth⟩

theorem levels_congr : s.levels = t.levels := by
  obtain ⟨hspec, hfirst⟩ := levels_outcome s
  have ht : Outcome t s.levels :=
    ⟨hspec.congr hn hd, fun name dep he => (hfirst name dep he).congr hn hd⟩
  exact (levels_eq_iff.mpr ht).symm

end Congr

/- One test, with its `depends_on` permuted or with entries repeated. -/
structure SameTest (a b : TestCase) : Prop where
  name : a.name = b.name
  dependsOn : ∀ d, d ∈ a.dependsOn ↔ d ∈ b.dependsOn
  timeout : a.timeout = b.timeout
  setup : a.setup = b.setup
  teardown : a.teardown = b.teardown

/- The same tests, registered in some other order. -/
def Rewritten (s t : Sequencer) : Prop :=
  ∃ tests, s.tests.Perm tests ∧ List.Forall₂ SameTest tests t.tests

theorem Rewritten.exists_left (h : Rewritten s t) {a : TestCase} (ha : a ∈ s.tests) :
    ∃ b ∈ t.tests, SameTest a b := by
  obtain ⟨tests, hperm, hsame⟩ := h
  obtain ⟨i, hi, rfl⟩ := List.getElem_of_mem (hperm.mem_iff.mp ha)
  have hi' : i < t.tests.length := hsame.length_eq ▸ hi
  exact ⟨t.tests[i], List.getElem_mem hi', hsame.get hi hi'⟩

theorem Rewritten.exists_right (h : Rewritten s t) {b : TestCase} (hb : b ∈ t.tests) :
    ∃ a ∈ s.tests, SameTest a b := by
  obtain ⟨tests, hperm, hsame⟩ := h
  obtain ⟨i, hi, rfl⟩ := List.getElem_of_mem hb
  have hi' : i < tests.length := hsame.length_eq ▸ hi
  exact ⟨tests[i], hperm.mem_iff.mpr (List.getElem_mem hi'), hsame.get hi' hi⟩

theorem Rewritten.mem_names (h : Rewritten s t) (n : String) : n ∈ s.names ↔ n ∈ t.names := by
  constructor
  · intro hn
    obtain ⟨a, ha, rfl⟩ := List.mem_map.mp hn
    obtain ⟨b, hb, hab⟩ := h.exists_left ha
    exact List.mem_map.mpr ⟨b, hb, hab.name.symm⟩
  · intro hn
    obtain ⟨b, hb, rfl⟩ := List.mem_map.mp hn
    obtain ⟨a, ha, hab⟩ := h.exists_right hb
    exact List.mem_map.mpr ⟨a, ha, hab.name⟩

theorem Rewritten.dependsOn (h : Rewritten s t) : s.DependsOn = t.DependsOn := by
  funext n d
  apply propext
  constructor
  · rintro ⟨a, ha, rfl, hd⟩
    obtain ⟨b, hb, hab⟩ := h.exists_left ha
    exact ⟨b, hb, hab.name.symm, (hab.dependsOn d).mp hd⟩
  · rintro ⟨b, hb, rfl, hd⟩
    obtain ⟨a, ha, hab⟩ := h.exists_right hb
    exact ⟨a, ha, hab.name, (hab.dependsOn d).mpr hd⟩

/-- Registering the tests in another order, with `depends_on` lists permuted or
repeating entries, changes nothing: the levels are the same, or the exception. -/
theorem levels_rewritten (h : Rewritten s t) :
    s.levels = t.levels ∧
      s.levels.mapError LevelsError.what = t.levels.mapError LevelsError.what := by
  have heq := levels_congr h.mem_names h.dependsOn
  exact ⟨heq, by rw [heq]⟩

def tidySuite : Sequencer where
  tests := [{ name := "a", dependsOn := ["b"] }, { name := "b", dependsOn := ["a"] },
    { name := "c", dependsOn := ["b", "a"] }]
  name_ne_empty := by simp
  names_nodup := by simp

def untidySuite : Sequencer where
  tests := [{ name := "c", dependsOn := ["a", "b", "a"] }, { name := "b", dependsOn := ["a", "a"] },
    { name := "a", dependsOn := ["b"] }]
  name_ne_empty := by simp
  names_nodup := by simp

theorem levels_rewritten_untidy : tidySuite.levels = untidySuite.levels ∧
    tidySuite.levels.mapError LevelsError.what = untidySuite.levels.mapError LevelsError.what := by
  refine levels_rewritten ⟨tidySuite.tests.reverse, (List.reverse_perm _).symm, ?_⟩
  refine .cons ⟨rfl, fun d => ?_, rfl, rfl, rfl⟩ (.cons ⟨rfl, fun d => ?_, rfl, rfl, rfl⟩
    (.cons ⟨rfl, fun d => ?_, rfl, rfl, rfl⟩ .nil))
  · simp
    tauto
  · simp
  · simp

end SocValidation.Sequencer
