import SocValidation.Sequencer.Results

/-!
# The levels among all plans (sequencer.cpp:44-88)

A plan puts the tests of a suite into rounds, each test into a later one than what it
depends on. `Levels` is such a plan, and no plan has a test earlier.
-/

namespace SocValidation.Sequencer
open Relation Chains

variable {s : Sequencer} {levels rounds : List (List String)} {n d : String}

structure Plan (s : Sequencer) (rounds : List (List String)) : Prop where
  covers : ∀ n ∈ s.names, n ∈ rounds.flatten
  later : ∀ n d, s.DependsOn n d → levelIndexOf rounds d < levelIndexOf rounds n

theorem levelIndexOf_lt (h : n ∈ rounds.flatten) : levelIndexOf rounds n < rounds.length := by
  obtain ⟨level, hlevel, hn⟩ := List.mem_flatten.mp h
  exact List.findIdx_lt_length.mpr ⟨level, hlevel, by simpa using hn⟩

theorem levelIndexOf_depth (hls : s.levels = .ok levels) (hn : n ∈ s.names) :
    Depth s.DependsOn n (levelIndexOf levels n) := by
  obtain ⟨level, hlevel, hin⟩ := List.mem_flatten.mp ((mem_flatten_levels hls).mpr hn)
  obtain ⟨k, hk⟩ := List.mem_iff_getElem?.mp hlevel
  rw [levelIndexOf_eq hls hk hin]
  exact ((mem_levels_iff hls).mp ⟨level, hk, hin⟩).2

theorem levels_plan (hls : s.levels = .ok levels) : Plan s levels where
  covers _ hn := (mem_flatten_levels hls).mpr hn
  later n d hd := Depth.lt hd (levelIndexOf_depth hls hd.mem_names)
    (levelIndexOf_depth hls (levels_closed hls n d hd))

/- Two tests of one level do not depend on each other at any distance. -/
theorem level_independent (hls : s.levels = .ok levels) : ∀ level ∈ levels, ∀ m ∈ level, ∀ n ∈ level,
    ¬TransGen s.DependsOn m n := by
  intro level hlevel m hm n hn hd
  obtain ⟨k, hk, rfl⟩ := List.getElem_of_mem hlevel
  have hdm := ((levels_levelAt hls k hk).mem_iff m).mp hm
  have hdn := ((levels_levelAt hls k hk).mem_iff n).mp hn
  exact Nat.lt_irrefl k (Depth.lt_of_transGen hd hdm.2 hdn.2)

/- The order of the levels keeps to what depends on each other at any distance. -/
theorem flatten_levels_order (hls : s.levels = .ok levels) :
    levels.flatten.Pairwise fun m n => ¬TransGen s.DependsOn m n := by
  rw [List.pairwise_flatten]
  constructor
  · intro level hlevel
    exact List.pairwise_of_forall_mem_list (level_independent hls level hlevel)
  · rw [List.pairwise_iff_getElem]
    intro i j hi hj hij m hm n hn hd
    have hdm := ((levels_levelAt hls i hi).mem_iff m).mp hm
    have hdn := ((levels_levelAt hls j hj).mem_iff n).mp hn
    have hlt := Depth.lt_of_transGen hd hdm.2 hdn.2
    omega

/-- `Levels` puts the tests into rounds so that each comes after what it depends on and no
two of a round depend on each other, directly or not, and no way of doing so needs fewer
rounds or has any test in an earlier one. -/
theorem levels_least (hls : s.levels = .ok levels) :
    Plan s levels ∧ (∀ level ∈ levels, ∀ m ∈ level, ∀ n ∈ level, ¬TransGen s.DependsOn m n) ∧
      ∀ rounds, Plan s rounds → levels.length ≤ rounds.length ∧
        ∀ n ∈ s.names, levelIndexOf levels n ≤ levelIndexOf rounds n := by
  refine ⟨levels_plan hls, level_independent hls, fun rounds hplan => ?_⟩
  have hearly : ∀ n ∈ s.names, levelIndexOf levels n ≤ levelIndexOf rounds n := fun n hn =>
    (levelIndexOf_depth hls hn).1.le_rank hplan.later
  refine ⟨?_, hearly⟩
  rcases Nat.eq_zero_or_pos levels.length with hzero | hpos
  · omega
  · -- a test of the last level needs that many rounds
    have hlast : levels.length - 1 < levels.length := by omega
    have hlevel := levels_levelAt hls _ hlast
    obtain ⟨n, hn⟩ := List.exists_mem_of_ne_nil _ hlevel.ne_nil
    have hnames := ((hlevel.mem_iff n).mp hn).1
    have hindex := levelIndexOf_eq hls (List.getElem?_eq_getElem hlast) hn
    have hle := hearly n hnames
    have hlt := levelIndexOf_lt (hplan.covers n hnames)
    omega

theorem levels_least_linkSuite : [["dma", "irq"], ["link_up"]].length ≤ 3 ∧
    levelIndexOf [["dma", "irq"], ["link_up"]] "dma" ≤
      levelIndexOf [["irq"], ["dma"], ["link_up"]] "dma" := by
  have hls : linkSuite.levels = .ok [["dma", "irq"], ["link_up"]] := by decide
  have hplan : Plan linkSuite [["irq"], ["dma"], ["link_up"]] := by
    refine ⟨by decide, fun n d ⟨t, ht, hn, hd⟩ => ?_⟩
    simp only [linkSuite, List.mem_cons, List.not_mem_nil, or_false] at ht
    rcases ht with rfl | rfl | rfl
    · obtain rfl := hn
      rcases List.mem_cons.mp hd with rfl | hd
      · decide
      · rw [List.mem_singleton.mp hd]
        decide
    · cases hd
    · cases hd
  obtain ⟨hlength, hearly⟩ := (levels_least hls).2.2 _ hplan
  exact ⟨hlength, hearly "dma" (by decide)⟩

end SocValidation.Sequencer
