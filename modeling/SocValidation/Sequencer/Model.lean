import Mathlib

/-!
# The sequencer's suite and its levels (sequencer.hpp, sequencer.cpp)

`Add` and `Levels`. `std::map` and `std::set` are ordered trees over the names;
UTF-8 bytes compare as code points do, so `String`'s order is `std::string`'s.
What a test function does when it runs belongs to `Sequencer.Run`.
-/

namespace SocValidation
open Std

/-- `TestCase` (`sequencer.hpp:36-43`). `timeout` counts milliseconds; `setup`
and `teardown` say whether the `std::function` holds a callable. -/
structure TestCase where
  name : String
  dependsOn : List String := []
  timeout : ℤ := 30000
  setup : Bool := false
  teardown : Bool := false
  deriving DecidableEq, Repr

inductive AddError where
  | emptyName
  | duplicateName (name : String)
  deriving DecidableEq, Repr

def AddError.what : AddError → String
  | .emptyName => "test name must not be empty"
  | .duplicateName name => "duplicate test name: " ++ name

/-- The registered tests. `Add` lets in only non-empty, fresh names. -/
structure Sequencer where
  tests : List TestCase
  name_ne_empty : ∀ t ∈ tests, t.name ≠ ""
  names_nodup : (tests.map TestCase.name).Nodup

namespace Sequencer

def empty : Sequencer := ⟨[], by simp, by simp⟩

def names (s : Sequencer) : List String := s.tests.map TestCase.name

/-- `Add` (`sequencer.cpp:32-42`): the empty name is rejected before a clash. -/
def add (s : Sequencer) (test : TestCase) : Except AddError Sequencer :=
  if he : test.name = "" then .error .emptyName
  else
    match hc : s.tests.find? fun t => t.name == test.name with
    | some _ => .error (.duplicateName test.name)
    | none => .ok
        { tests := s.tests ++ [test]
          name_ne_empty := by
            intro t ht
            rcases List.mem_append.mp ht with ht | ht
            · exact s.name_ne_empty t ht
            · rwa [List.mem_singleton.mp ht]
          names_nodup := by
            rw [List.map_append, List.nodup_append]
            refine ⟨s.names_nodup, by simp, fun a ha b hb => ?_⟩
            obtain ⟨t, ht, rfl⟩ := List.mem_map.mp ha
            have hb' : b = test.name := by simpa using hb
            have hne := List.find?_eq_none.mp hc t ht
            rw [hb']
            simpa using hne }

def addAll (s : Sequencer) : List TestCase → Except AddError Sequencer
  | [] => .ok s
  | t :: ts => (s.add t).bind fun s' => s'.addAll ts

theorem add_tests {s s' : Sequencer} {test : TestCase} (h : s.add test = .ok s') :
    s'.tests = s.tests ++ [test] := by
  unfold add at h
  split at h
  · cases h
  · split at h
    · cases h
    · cases h
      rfl

theorem addAll_tests {s s' : Sequencer} {ts : List TestCase} (h : s.addAll ts = .ok s') :
    s'.tests = s.tests ++ ts := by
  induction ts generalizing s with
  | nil =>
    cases h
    simp
  | cons t ts ih =>
    cases ha : s.add t with
    | error e => simp [addAll, ha, Except.bind] at h
    | ok m =>
      have hm : m.addAll ts = .ok s' := by simpa [addAll, ha, Except.bind] using h
      rw [ih hm, add_tests ha, List.append_assoc, List.singleton_append]

theorem add_fresh {s : Sequencer} {test : TestCase} (hne : test.name ≠ "")
    (hf : test.name ∉ s.names) : ∃ s', s.add test = .ok s' := by
  unfold add
  rw [dif_neg hne]
  split
  next t hc =>
    have hname : t.name = test.name := by simpa using List.find?_some hc
    exact absurd (hname ▸ List.mem_map_of_mem (List.mem_of_find?_eq_some hc)) hf
  · exact ⟨_, rfl⟩

theorem addAll_fresh {s : Sequencer} {ts : List TestCase} (hne : ∀ t ∈ ts, t.name ≠ "")
    (hd : (s.names ++ ts.map TestCase.name).Nodup) : ∃ s', s.addAll ts = .ok s' := by
  induction ts generalizing s with
  | nil => exact ⟨s, rfl⟩
  | cons t ts ih =>
    have hf : t.name ∉ s.names := fun hn =>
      (List.nodup_append.mp hd).2.2 _ hn _ (List.mem_cons_self ..) rfl
    obtain ⟨m, hm⟩ := add_fresh (hne t (List.mem_cons_self ..)) hf
    have hnames : m.names = s.names ++ [t.name] := by simp [names, add_tests hm]
    obtain ⟨s', hs'⟩ := ih (s := m) (fun u hu => hne u (List.mem_cons_of_mem _ hu))
      (by rw [hnames, List.append_assoc]; exact hd)
    exact ⟨s', by simp [addAll, hm, Except.bind, hs']⟩

/-- The values of `Sequencer` are exactly what accepted `Add` calls build. -/
theorem addAll_self (s : Sequencer) : empty.addAll s.tests = .ok s := by
  obtain ⟨s', hs'⟩ := addAll_fresh (s := empty) s.name_ne_empty (by simpa [names, empty] using s.names_nodup)
  have ht : s'.tests = s.tests := by simpa [empty] using addAll_tests hs'
  have heq : s' = s := by
    cases s
    cases s'
    cases ht
    rfl
  rw [hs', heq]

/-! ### Levels (`sequencer.cpp:44-88`) -/

inductive LevelsError where
  | unknownDependency (name dep : String)
  | cycle (names : List String)
  deriving DecidableEq, Repr

/- `cycle += (cycle.empty() ? "" : ", ") + name` over the pending names. -/
def joinCycle (names : List String) : String :=
  names.foldl (fun cycle name => cycle ++ ((if cycle = "" then "" else ", ") ++ name)) ""

def LevelsError.what : LevelsError → String
  | .unknownDependency name dep =>
      "test '" ++ name ++ "' depends on unknown test '" ++ dep ++ "'"
  | .cycle names => "dependency cycle among: " ++ joinCycle names

abbrev Pending := TreeMap String (TreeSet String)
abbrev Done := TreeSet String

def pending (tests : List TestCase) : Pending :=
  TreeMap.ofList (tests.map fun t => (t.name, TreeSet.ofList t.dependsOn))

def unknownDependency (p : Pending) : Option (String × String) :=
  p.toList.findSome? fun e =>
    (e.2.toList.find? fun dep => !p.contains dep).map fun dep => (e.1, dep)

def satisfied (done : Done) (deps : TreeSet String) : Bool :=
  deps.toList.all fun d => done.contains d

def ready (p : Pending) (done : Done) : List String :=
  (p.toList.filter fun e => satisfied done e.2).map Prod.fst

def retire (p : Pending) (done : Done) (names : List String) : Pending × Done :=
  names.foldl (fun s name => (s.1.erase name, s.2.insert name)) (p, done)

/-- The `while (!pending.empty())` loop; `fuel` bounds its rounds and `none`
means that they did not suffice. -/
def levelsLoop : ℕ → Pending → Done → List (List String) →
    Option (Except LevelsError (List (List String)))
  | fuel, p, done, levels =>
    if p.isEmpty then some (.ok levels)
    else match fuel with
      | 0 => none
      | fuel + 1 =>
        let rdy := ready p done
        if rdy.isEmpty then some (.error (.cycle p.keys))
        else
          let level := rdy.insertionSort (· ≤ ·)
          let next := retire p done level
          levelsLoop fuel next.1 next.2 (levels ++ [level])

def levelsWithin (fuel : ℕ) (tests : List TestCase) :
    Option (Except LevelsError (List (List String))) :=
  match unknownDependency (pending tests) with
  | some (name, dep) => some (.error (.unknownDependency name dep))
  | none => levelsLoop fuel (pending tests) ∅ []

/-! ### Each round retires a test, so the loop ends -/

section Maps
variable {p : Pending} {done : Done} {names : List String} {n : String}

theorem retire_cons (m : String) : retire p done (m :: names) =
    retire (p.erase m) (done.insert m) names := rfl

theorem retire_getElem? :
    (retire p done names).1[n]? = if n ∈ names then none else p[n]? := by
  induction names generalizing p done with
  | nil => simp [retire]
  | cons m names ih =>
    rw [retire_cons, ih, TreeMap.getElem?_erase]
    by_cases hn : n ∈ names
    · simp [hn]
    · by_cases hm : n = m
      · simp [hm]
      · have hm' : m ≠ n := Ne.symm hm
        simp [hn, hm, hm']

theorem mem_retire_done : n ∈ (retire p done names).2 ↔ n ∈ done ∨ n ∈ names := by
  induction names generalizing p done with
  | nil => simp [retire]
  | cons m names ih =>
    rw [retire_cons, ih, TreeSet.mem_insert]
    have hc : compare m n = .eq ↔ n = m := LawfulEqCmp.compare_eq_iff_eq.trans eq_comm
    rw [hc, List.mem_cons]
    tauto

theorem retire_size_le : (retire p done names).1.size ≤ p.size := by
  induction names generalizing p done with
  | nil => exact Nat.le_refl _
  | cons m names ih =>
    rw [retire_cons]
    exact ih.trans TreeMap.size_erase_le

theorem mem_ready : n ∈ ready p done ↔ ∃ deps, p[n]? = some deps ∧ satisfied done deps := by
  simp only [ready, List.mem_map, List.mem_filter, Prod.exists, exists_and_right, exists_eq_right]
  constructor
  · rintro ⟨deps, hm, hs⟩
    exact ⟨deps, TreeMap.mem_toList_iff_getElem?_eq_some.mp hm, hs⟩
  · rintro ⟨deps, hm, hs⟩
    exact ⟨deps, TreeMap.mem_toList_iff_getElem?_eq_some.mpr hm, hs⟩

theorem retire_ready_size {level : List String} (hl : ∀ m ∈ level, m ∈ ready p done)
    (hne : level ≠ []) : (retire p done level).1.size < p.size := by
  obtain ⟨m, rest, rfl⟩ := List.exists_cons_of_ne_nil hne
  obtain ⟨deps, hm, -⟩ := mem_ready.mp (hl m (List.mem_cons_self ..))
  have hc : p.contains m := by
    rw [TreeMap.contains_eq_isSome_getElem?, hm]
    rfl
  have hpos : 0 < p.size := by
    rw [Nat.pos_iff_ne_zero]
    intro h0
    have hempty : p.isEmpty := by simp [TreeMap.isEmpty_eq_size_eq_zero, h0]
    have := TreeMap.isEmpty_eq_false_of_contains hc
    simp [hempty] at this
  have he : (p.erase m).size = p.size - 1 := by rw [TreeMap.size_erase, if_pos hc]
  have hle : (retire (p.erase m) (done.insert m) rest).1.size ≤ (p.erase m).size := retire_size_le
  rw [retire_cons]
  omega

end Maps

theorem levelsLoop_isSome (fuel : ℕ) (p : Pending) (done : Done) (levels : List (List String))
    (hf : p.size ≤ fuel) : (levelsLoop fuel p done levels).isSome := by
  induction fuel generalizing p done levels with
  | zero =>
    have hempty : p.isEmpty := by
      rw [TreeMap.isEmpty_eq_size_eq_zero]
      simpa using hf
    simp [levelsLoop, hempty]
  | succ fuel ih =>
    rw [levelsLoop]
    split
    · rfl
    · dsimp only
      split
      · rfl
      next hr =>
        have hsub : ∀ m ∈ (ready p done).insertionSort (· ≤ ·), m ∈ ready p done :=
          fun m hm => (List.mem_insertionSort _).mp hm
        have hne : (ready p done).insertionSort (· ≤ ·) ≠ [] := by
          intro hnil
          have hlen := congrArg List.length hnil
          rw [List.length_insertionSort] at hlen
          exact hr (by simpa [List.isEmpty_iff] using List.eq_nil_of_length_eq_zero hlen)
        have hlt := retire_ready_size hsub hne
        exact ih _ _ _ (by omega)

theorem levelsWithin_isSome (tests : List TestCase) {fuel : ℕ} (hf : tests.length ≤ fuel) :
    (levelsWithin fuel tests).isSome := by
  unfold levelsWithin
  split
  · rfl
  · apply levelsLoop_isSome
    have hsize : (pending tests).size ≤ (tests.map fun t =>
        (t.name, TreeSet.ofList t.dependsOn)).length := TreeMap.size_ofList_le
    rw [List.length_map] at hsize
    omega

/-- `Levels`: one round per registered test suffices. -/
def levels (s : Sequencer) : Except LevelsError (List (List String)) :=
  (levelsWithin s.tests.length s.tests).get (levelsWithin_isSome s.tests (Nat.le_refl _))

end Sequencer
end SocValidation
