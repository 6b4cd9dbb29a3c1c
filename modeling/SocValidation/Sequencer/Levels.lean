import SocValidation.Lib.Chains
import SocValidation.Sequencer.Model

/-!
# `Levels` is a complete level-wise topological sort (sequencer.cpp:44-88)

After `k` rounds the pending tests are those with a dependency chain of `k`
edges and the done ones those without (`LoopInv`). So round `k` retires exactly
the tests whose longest chain has `k` edges, and a round that finds none ready
leaves a set in which every test still waits for another of the set.
-/

namespace SocValidation.Sequencer
open Std Chains Relation

def DependsOn (s : Sequencer) (a b : String) : Prop :=
  ∃ t ∈ s.tests, t.name = a ∧ b ∈ t.dependsOn

def Closed (s : Sequencer) : Prop := ∀ a b, s.DependsOn a b → b ∈ s.names

variable {s : Sequencer} {n d : String} {k fuel : ℕ}
variable {p : Pending} {done : Done} {levels : List (List String)}

theorem DependsOn.mem_names (h : s.DependsOn n d) : n ∈ s.names := by
  obtain ⟨t, ht, rfl, -⟩ := h
  exact List.mem_map_of_mem ht

/-! ### The pending map -/

theorem pending_getElem? {t : TestCase} (ht : t ∈ s.tests) :
    (pending s.tests)[t.name]? = some (TreeSet.ofList t.dependsOn) := by
  refine TreeMap.getElem?_ofList_of_mem (k := t.name) compare_self ?_ ?_
  · have hd : (s.tests.map TestCase.name).Pairwise (· ≠ ·) := s.names_nodup
    rw [List.pairwise_map] at hd ⊢
    exact hd.imp fun hab => by simpa using hab
  · exact List.mem_map_of_mem ht

theorem mem_pending : n ∈ pending s.tests ↔ n ∈ s.names := by
  simp [pending, TreeMap.mem_ofList, names, Function.comp_def]

theorem pending_deps {deps : TreeSet String} (h : (pending s.tests)[n]? = some deps) :
    d ∈ deps ↔ s.DependsOn n d := by
  have hn : n ∈ pending s.tests := by
    rw [TreeMap.mem_iff_isSome_getElem?, h]
    rfl
  obtain ⟨t, ht, rfl⟩ := List.mem_map.mp (mem_pending.mp hn)
  rw [pending_getElem? ht] at h
  obtain rfl := Option.some.inj h
  rw [TreeSet.mem_ofList, List.contains_iff_mem]
  constructor
  · exact fun hd => ⟨t, ht, rfl, hd⟩
  · rintro ⟨u, hu, hname, hd⟩
    have heq : u = t := List.inj_on_of_nodup_map s.names_nodup hu ht hname
    rwa [← heq]

/-! ### The check for unknown dependencies -/

theorem unknownDependency_some {name dep : String}
    (h : unknownDependency (pending s.tests) = some (name, dep)) :
    s.DependsOn name dep ∧ dep ∉ s.names := by
  obtain ⟨⟨m, deps⟩, hm, hf⟩ := List.exists_of_findSome?_eq_some h
  obtain ⟨x, hx, heq⟩ := Option.map_eq_some_iff.mp hf
  obtain ⟨rfl, rfl⟩ := Prod.mk.inj heq
  have hdep : x ∈ deps := TreeSet.mem_toList.mp (List.mem_of_find?_eq_some hx)
  have hunk := List.find?_some hx
  refine ⟨(pending_deps (TreeMap.mem_toList_iff_getElem?_eq_some.mp hm)).mp hdep, fun hn => ?_⟩
  rw [← mem_pending, ← TreeMap.contains_iff_mem] at hn
  simp [hn] at hunk

theorem unknownDependency_none (h : unknownDependency (pending s.tests) = none) : s.Closed := by
  intro a b hab
  obtain ⟨t, ht, rfl, hb⟩ := hab
  have hget := pending_getElem? ht
  have hfind := List.findSome?_eq_none_iff.mp h _ (TreeMap.mem_toList_iff_getElem?_eq_some.mpr hget)
  have hall := List.find?_eq_none.mp (Option.map_eq_none_iff.mp hfind) b
    (TreeSet.mem_toList.mpr (by simpa [TreeSet.mem_ofList] using hb))
  rw [← mem_pending, ← TreeMap.contains_iff_mem]
  simpa using hall

/-! ### The rounds -/

/- What a finished level holds: the tests of longest chain `k`, ascending. -/
structure LevelAt (s : Sequencer) (k : ℕ) (level : List String) : Prop where
  ne_nil : level ≠ []
  ascending : level.Pairwise (· < ·)
  mem_iff : ∀ n, n ∈ level ↔ n ∈ s.names ∧ Depth s.DependsOn n k

structure LoopInv (s : Sequencer) (k : ℕ) (p : Pending) (done : Done)
    (levels : List (List String)) : Prop where
  pending : ∀ n, n ∈ p ↔ n ∈ s.names ∧ HasChain s.DependsOn k n
  deps : ∀ n ds, p[n]? = some ds → ∀ d, d ∈ ds ↔ s.DependsOn n d
  done : ∀ n, n ∈ done ↔ n ∈ s.names ∧ ¬HasChain s.DependsOn k n
  length : levels.length = k
  level : ∀ j (hj : j < levels.length), LevelAt s j levels[j]

theorem loopInv_start (s : Sequencer) : LoopInv s 0 (pending s.tests) ∅ [] where
  pending n := by simp [mem_pending, HasChain.zero]
  deps n ds h d := pending_deps h
  done n := by simp [HasChain.zero]
  length := rfl
  level j hj := by simp at hj

theorem satisfied_iff (hc : s.Closed) (hinv : LoopInv s k p done levels)
    {deps : TreeSet String} (hn : p[n]? = some deps) :
    satisfied done deps ↔ ¬HasChain s.DependsOn (k + 1) n := by
  simp only [satisfied, List.all_eq_true, TreeSet.mem_toList, TreeSet.contains_iff_mem, hinv.done,
    hinv.deps n deps hn, hasChain_succ_iff, not_exists, not_and]
  constructor
  · exact fun h d hd => (h d hd).2
  · exact fun h d hd => ⟨hc n d hd, h d hd⟩

theorem mem_ready_iff (hc : s.Closed) (hinv : LoopInv s k p done levels) :
    n ∈ ready p done ↔ n ∈ s.names ∧ Depth s.DependsOn n k := by
  rw [mem_ready, depth_iff]
  constructor
  · rintro ⟨deps, hn, hs⟩
    have hp := (hinv.pending n).mp (by rw [TreeMap.mem_iff_isSome_getElem?, hn]; rfl)
    exact ⟨hp.1, hp.2, (satisfied_iff hc hinv hn).mp hs⟩
  · rintro ⟨hm, hk, hk1⟩
    have hp := (hinv.pending n).mpr ⟨hm, hk⟩
    rw [TreeMap.mem_iff_isSome_getElem?, Option.isSome_iff_exists] at hp
    obtain ⟨deps, hn⟩ := hp
    exact ⟨deps, hn, (satisfied_iff hc hinv hn).mpr hk1⟩

theorem keys_ascending (p : Pending) : p.keys.Pairwise (· < ·) :=
  TreeMap.ordered_keys.imp fun h => compare_lt_iff_lt.mp h

/- The ready list leaves the map in key order, so `std::sort` keeps it. -/
theorem ready_ascending (p : Pending) (done : Done) : (ready p done).Pairwise (· < ·) := by
  have hk : p.keys = p.toList.map Prod.fst := TreeMap.map_fst_toList_eq_keys.symm
  have hsub : (ready p done).Sublist p.keys := by
    rw [hk]
    exact (List.filter_sublist).map Prod.fst
  exact (keys_ascending p).sublist hsub

theorem sort_ready (p : Pending) (done : Done) :
    (ready p done).insertionSort (· ≤ ·) = ready p done :=
  List.Pairwise.insertionSort_eq ((ready_ascending p done).imp fun h => h.le)

theorem loopInv_round (hc : s.Closed) (hinv : LoopInv s k p done levels)
    (hne : ready p done ≠ []) :
    LoopInv s (k + 1) (retire p done (ready p done)).1 (retire p done (ready p done)).2
      (levels ++ [ready p done]) where
  pending n := by
    have hmem := mem_ready_iff hc hinv (n := n)
    rw [depth_iff] at hmem
    rw [TreeMap.mem_iff_isSome_getElem?, retire_getElem?]
    split
    next h => simp [(hmem.mp h).2.2]
    next h =>
      rw [hmem] at h
      rw [← TreeMap.mem_iff_isSome_getElem?, hinv.pending]
      constructor
      · rintro ⟨hm, hk⟩
        exact ⟨hm, by_contra fun hk1 => h ⟨hm, hk, hk1⟩⟩
      · rintro ⟨hm, hk1⟩
        exact ⟨hm, hk1.pred⟩
  deps n ds h := by
    rw [retire_getElem?] at h
    split at h
    · cases h
    · exact hinv.deps n ds h
  done n := by
    rw [mem_retire_done, hinv.done, mem_ready_iff hc hinv, depth_iff]
    constructor
    · rintro (⟨hm, hk⟩ | ⟨hm, -, hk1⟩)
      · exact ⟨hm, fun hk1 => hk hk1.pred⟩
      · exact ⟨hm, hk1⟩
    · rintro ⟨hm, hk1⟩
      by_cases hk : HasChain s.DependsOn k n
      · exact Or.inr ⟨hm, hk, hk1⟩
      · exact Or.inl ⟨hm, hk⟩
  length := by simp [hinv.length]
  level j hj := by
    rcases Nat.lt_or_ge j levels.length with hlt | hge
    · rw [List.getElem_append_left hlt]
      exact hinv.level j hlt
    · have hj' : j = k := by
        have hlen := hinv.length
        simp only [List.length_append, List.length_singleton] at hj
        omega
      subst hj'
      rw [List.getElem_append_right hge]
      simp only [hinv.length, Nat.sub_self, List.getElem_cons_zero]
      exact ⟨hne, ready_ascending p done, fun n => mem_ready_iff hc hinv⟩

/-! ### The outcome of a run of `Levels` -/

/- What each outcome of `Levels` says about the suite. -/
def LevelsSpec (s : Sequencer) : Except LevelsError (List (List String)) → Prop
  | .error (.unknownDependency name dep) => s.DependsOn name dep ∧ dep ∉ s.names
  | .error (.cycle names) => s.Closed ∧ names ≠ [] ∧ names.Pairwise (· < ·) ∧
      ∀ n, n ∈ names ↔ n ∈ s.names ∧ ReachesCycle s.DependsOn n
  | .ok levels => s.Closed ∧ (∀ j (hj : j < levels.length), LevelAt s j levels[j]) ∧
      ∀ n ∈ s.names, ∃ j < levels.length, Depth s.DependsOn n j

theorem loopInv_done (hc : s.Closed) (hinv : LoopInv s k p done levels) (he : p.isEmpty) :
    LevelsSpec s (.ok levels) := by
  refine ⟨hc, hinv.level, fun n hn => ?_⟩
  have hnone : ¬HasChain s.DependsOn k n := by
    intro hk
    have hp := (hinv.pending n).mpr ⟨hn, hk⟩
    rw [← TreeMap.contains_iff_mem] at hp
    simp [TreeMap.isEmpty_eq_false_of_contains hp] at he
  -- the depth is the last round that still saw n pending
  have hex : ∃ j, ¬HasChain s.DependsOn j n := ⟨k, hnone⟩
  classical
  obtain ⟨j, hj⟩ : ∃ j, Nat.find hex = j + 1 :=
    Nat.exists_eq_succ_of_ne_zero fun h0 => Nat.find_spec hex (h0 ▸ .zero n)
  have hle := Nat.find_min' hex hnone
  refine ⟨j, by have := hinv.length; omega, depth_iff.mpr ⟨?_, hj ▸ Nat.find_spec hex⟩⟩
  exact not_not.mp (Nat.find_min hex (by omega))

theorem loopInv_stuck (hc : s.Closed) (hinv : LoopInv s k p done levels) (hp : ¬p.isEmpty)
    (hr : ready p done = []) : LevelsSpec s (.error (.cycle p.keys)) := by
  have hmem : ∀ n, n ∈ p.keys ↔ n ∈ s.names ∧ HasChain s.DependsOn k n := fun n => by
    rw [TreeMap.mem_keys, hinv.pending]
  have hstuck : ∀ n ∈ {n | n ∈ p.keys}, ∃ m ∈ {n | n ∈ p.keys}, s.DependsOn n m := by
    intro n hn
    obtain ⟨hm, hk⟩ := (hmem n).mp hn
    have hk1 : HasChain s.DependsOn (k + 1) n := by
      by_contra hk1
      have hin := (mem_ready_iff hc hinv).mpr ⟨hm, depth_iff.mpr ⟨hk, hk1⟩⟩
      simp [hr] at hin
    obtain ⟨d, hd, hdk⟩ := hasChain_succ_iff.mp hk1
    exact ⟨d, (hmem d).mpr ⟨hc n d hd, hdk⟩, hd⟩
  refine ⟨hc, ?_, keys_ascending p, fun n => ?_⟩
  · intro hnil
    have hlen : p.keys.length = p.size := TreeMap.length_keys
    rw [hnil] at hlen
    exact hp (by simp [TreeMap.isEmpty_eq_size_eq_zero, ← hlen])
  · constructor
    · intro hn
      exact ⟨((hmem n).mp hn).1, stuck_reachesCycle _ (List.finite_toSet p.keys) hstuck hn⟩
    · rintro ⟨hm, hcyc⟩
      exact (hmem n).mpr ⟨hm, hcyc.hasChain k⟩

theorem levelsLoop_spec (hc : s.Closed) (hinv : LoopInv s k p done levels)
    {r : Except LevelsError (List (List String))}
    (h : levelsLoop fuel p done levels = some r) : LevelsSpec s r := by
  induction fuel generalizing k p done levels with
  | zero =>
    rw [levelsLoop] at h
    split at h
    next he =>
      cases h
      exact loopInv_done hc hinv he
    · cases h
  | succ fuel ih =>
    rw [levelsLoop] at h
    split at h
    next he =>
      cases h
      exact loopInv_done hc hinv he
    next he =>
      dsimp only at h
      rw [sort_ready] at h
      split at h
      next hr =>
        cases h
        exact loopInv_stuck hc hinv he (List.isEmpty_iff.mp hr)
      next hr => exact ih (loopInv_round hc hinv (fun hnil => hr (by simp [hnil]))) h

theorem levelsWithin_spec {r : Except LevelsError (List (List String))}
    (h : levelsWithin fuel s.tests = some r) : LevelsSpec s r := by
  unfold levelsWithin at h
  split at h
  next name dep hu =>
    cases h
    exact unknownDependency_some hu
  next hu => exact levelsLoop_spec (unknownDependency_none hu) (loopInv_start s) h

theorem levels_eq_some (s : Sequencer) :
    levelsWithin s.tests.length s.tests = some s.levels :=
  (Option.some_get _).symm

theorem levels_spec (s : Sequencer) : LevelsSpec s s.levels :=
  levelsWithin_spec (levels_eq_some s)

theorem levelsLoop_empty (he : p.isEmpty) : levelsLoop fuel p done levels = some (.ok levels) := by
  cases fuel <;> simp [levelsLoop, he]

theorem levelsLoop_mono {r : Except LevelsError (List (List String))} {more : ℕ}
    (h : levelsLoop fuel p done levels = some r) (hle : fuel ≤ more) :
    levelsLoop more p done levels = some r := by
  induction fuel generalizing more p done levels with
  | zero =>
    rw [levelsLoop] at h
    split at h
    next he =>
      rw [levelsLoop_empty he]
      exact h
    · cases h
  | succ fuel ih =>
    obtain ⟨more, rfl⟩ : ∃ m, more = m + 1 := ⟨more - 1, by omega⟩
    rw [levelsLoop] at h ⊢
    dsimp only at h ⊢
    split at h
    next he =>
      rw [if_pos he]
      exact h
    next he =>
      rw [if_neg he]
      split at h
      next hr =>
        rw [if_pos hr]
        exact h
      next hr =>
        rw [if_neg hr]
        exact ih h (by omega)

theorem levelsWithin_eq (s : Sequencer) (hle : s.tests.length ≤ fuel) :
    levelsWithin fuel s.tests = some s.levels := by
  have h := levels_eq_some s
  unfold levelsWithin at h ⊢
  split at h
  next hu => exact h
  next hu => exact levelsLoop_mono h hle

/-! ### The levels as a partition of the suite -/

section Partition
variable {ls : List (List String)} (hls : s.levels = .ok ls)
include hls

theorem levels_levelAt (j : ℕ) (hj : j < ls.length) : LevelAt s j ls[j] := by
  have h := levels_spec s
  rw [hls] at h
  exact h.2.1 j hj

theorem levels_closed : s.Closed := by
  have h := levels_spec s
  rw [hls] at h
  exact h.1

theorem mem_levels_iff : (∃ l, ls[k]? = some l ∧ n ∈ l) ↔ n ∈ s.names ∧ Depth s.DependsOn n k := by
  constructor
  · rintro ⟨l, hl, hn⟩
    obtain ⟨hk, rfl⟩ := List.getElem?_eq_some_iff.mp hl
    exact ((levels_levelAt hls k hk).mem_iff n).mp hn
  · rintro ⟨hn, hd⟩
    have h := levels_spec s
    rw [hls] at h
    obtain ⟨j, hj, hdj⟩ := h.2.2 n hn
    obtain rfl := hd.unique hdj
    exact ⟨ls[k], List.getElem?_eq_getElem hj, ((levels_levelAt hls k hj).mem_iff n).mpr ⟨hn, hd⟩⟩

theorem mem_flatten_levels : n ∈ ls.flatten ↔ n ∈ s.names := by
  constructor
  · intro hn
    obtain ⟨l, hl, hn⟩ := List.mem_flatten.mp hn
    obtain ⟨k, hk⟩ := List.mem_iff_getElem?.mp hl
    exact ((mem_levels_iff hls).mp ⟨l, hk, hn⟩).1
  · intro hn
    have h := levels_spec s
    rw [hls] at h
    obtain ⟨k, -, hd⟩ := h.2.2 n hn
    obtain ⟨l, hl, hnl⟩ := (mem_levels_iff hls).mpr ⟨hn, hd⟩
    exact List.mem_flatten.mpr ⟨l, List.mem_of_getElem? hl, hnl⟩

theorem nodup_flatten_levels : ls.flatten.Nodup := by
  rw [List.nodup_flatten]
  constructor
  · intro l hl
    obtain ⟨k, hk, rfl⟩ := List.getElem_of_mem hl
    exact (levels_levelAt hls k hk).ascending.imp fun h => h.ne
  · rw [List.pairwise_iff_getElem]
    intro i j hi hj hij n hni hnj
    have hdi := ((levels_levelAt hls i hi).mem_iff n).mp hni
    have hdj := ((levels_levelAt hls j hj).mem_iff n).mp hnj
    have := hdi.2.unique hdj.2
    omega

theorem flatten_levels_perm : ls.flatten.Perm s.names :=
  (List.perm_ext_iff_of_nodup (nodup_flatten_levels hls) s.names_nodup).mpr fun _ =>
    mem_flatten_levels hls

theorem dependency_earlier {k j : ℕ} {l m : List String} (hl : ls[k]? = some l) (hn : n ∈ l)
    (hd : s.DependsOn n d) (hm : ls[j]? = some m) (hdm : d ∈ m) : j < k :=
  Depth.lt hd ((mem_levels_iff hls).mp ⟨l, hl, hn⟩).2 ((mem_levels_iff hls).mp ⟨m, hm, hdm⟩).2

end Partition

/-! ### Which outcome -/

theorem closed_iff : s.Closed ↔ ∀ t ∈ s.tests, ∀ d ∈ t.dependsOn, d ∈ s.names := by
  constructor
  · intro h t ht d hd
    exact h t.name d ⟨t, ht, rfl, hd⟩
  · intro h a b hab
    obtain ⟨t, ht, -, hb⟩ := hab
    exact h t ht b hb

theorem levels_unknown_iff (s : Sequencer) :
    (∃ name dep, s.levels = .error (.unknownDependency name dep)) ↔ ¬s.Closed := by
  have hspec := levels_spec s
  constructor
  · intro h hc
    obtain ⟨name, dep, he⟩ := h
    rw [he] at hspec
    exact hspec.2 (hc name dep hspec.1)
  · intro hn
    cases hr : s.levels with
    | ok ls => exact absurd (levels_closed hr) hn
    | error e =>
      rw [hr] at hspec
      cases e with
      | unknownDependency name dep => exact ⟨name, dep, rfl⟩
      | cycle names => exact absurd hspec.1 hn

theorem levels_cycle_iff (hc : s.Closed) :
    (∃ names, s.levels = .error (.cycle names)) ↔ ∃ n, TransGen s.DependsOn n n := by
  constructor
  · intro h
    obtain ⟨names, he⟩ := h
    have hspec := levels_spec s
    rw [he] at hspec
    obtain ⟨-, hne, -, hmem⟩ := hspec
    obtain ⟨n, rest, rfl⟩ := List.exists_cons_of_ne_nil hne
    obtain ⟨c, -, hcyc⟩ := ((hmem n).mp (List.mem_cons_self ..)).2
    exact ⟨c, hcyc⟩
  · intro h
    obtain ⟨n, hcyc⟩ := h
    have hreach : ReachesCycle s.DependsOn n := ⟨n, .refl, hcyc⟩
    cases hr : s.levels with
    | ok ls =>
      -- a test on a cycle has chains of every length, so no level takes it
      obtain ⟨m, hm, -⟩ := TransGen.head'_iff.mp hcyc
      have hn := (mem_flatten_levels hr).mpr (DependsOn.mem_names hm)
      obtain ⟨l, hl, hn⟩ := List.mem_flatten.mp hn
      obtain ⟨k, hk⟩ := List.mem_iff_getElem?.mp hl
      have hd := ((mem_levels_iff hr).mp ⟨l, hk, hn⟩).2
      exact absurd (hreach.hasChain (k + 1)) (depth_iff.mp hd).2
    | error e =>
      cases e with
      | unknownDependency name dep => exact absurd hc ((levels_unknown_iff s).mp ⟨name, dep, hr⟩)
      | cycle names => exact ⟨names, rfl⟩

theorem levels_eq_ok (hc : s.Closed) (hacyc : ¬∃ n, TransGen s.DependsOn n n) :
    ∃ ls, s.levels = .ok ls := by
  cases hr : s.levels with
  | ok ls => exact ⟨ls, rfl⟩
  | error e =>
    cases e with
    | unknownDependency name dep => exact absurd hc ((levels_unknown_iff s).mp ⟨name, dep, hr⟩)
    | cycle names => exact absurd ((levels_cycle_iff hc).mp ⟨names, hr⟩) hacyc

/-- `Levels` ends, tells an unknown dependency before a cycle, tells a cycle
exactly when there is one, and otherwise returns the tests by longest chain. -/
theorem levels_correct (s : Sequencer) :
    (∀ fuel, s.tests.length ≤ fuel → levelsWithin fuel s.tests = some s.levels) ∧
    ((∃ name dep, s.levels = .error (.unknownDependency name dep)) ↔
      ∃ t ∈ s.tests, ∃ d ∈ t.dependsOn, d ∉ s.names) ∧
    ((∀ t ∈ s.tests, ∀ d ∈ t.dependsOn, d ∈ s.names) →
      ((∃ names, s.levels = .error (.cycle names)) ↔ ∃ n, TransGen s.DependsOn n n) ∧
      ((¬∃ n, TransGen s.DependsOn n n) →
        ∃ ls, s.levels = .ok ls ∧ ls.flatten.Perm s.names ∧
          (∀ l ∈ ls, l ≠ [] ∧ l.Pairwise (· < ·)) ∧
          (∀ n k, (∃ l, ls[k]? = some l ∧ n ∈ l) ↔ n ∈ s.names ∧ Depth s.DependsOn n k) ∧
          ∀ n d (k j : ℕ) l m, s.DependsOn n d → ls[k]? = some l → n ∈ l → ls[j]? = some m → d ∈ m →
            j < k)) := by
  refine ⟨fun fuel hle => levelsWithin_eq s hle, ?_, fun hreg => ?_⟩
  · rw [levels_unknown_iff, closed_iff]
    push Not
    rfl
  · have hc : s.Closed := closed_iff.mpr hreg
    refine ⟨levels_cycle_iff hc, fun hacyc => ?_⟩
    obtain ⟨ls, hls⟩ := levels_eq_ok hc hacyc
    refine ⟨ls, hls, flatten_levels_perm hls, fun l hl => ?_, fun n k => mem_levels_iff hls,
      fun n d k j l m hd hl hn hm hdm => dependency_earlier hls hl hn hd hm hdm⟩
    obtain ⟨k, hk, rfl⟩ := List.getElem_of_mem hl
    exact ⟨(levels_levelAt hls k hk).ne_nil, (levels_levelAt hls k hk).ascending⟩

end SocValidation.Sequencer
