import SocValidation.Sequencer.Bodies
import SocValidation.Sequencer.Report
import SocValidation.Sequencer.Shape

/-!
# A parallel run is as one test after another (sequencer.cpp:92-187)

Where tests that share an object depend on each other, tests that run at once share
nothing. So each test does to the objects what it would do as a whole at the moment of
its end, and the order of these ends can be made the order of the levels.
-/

namespace SocValidation.Sequencer
open Relation

variable {ι κ ρ τ : Type} {s : Sequencer} {threads : ℕ} {counter : BitVec 64}
variable {b : Bodies ι κ ρ} {obj : ι → κ → τ → ρ × τ} {init : ι → τ}
variable {st st' : SuiteState ι κ ρ τ} {tr : List (Event (ι × κ))}
variable {n m : String} {a : Act (ι × κ)} {e : Event (ι × κ)}

/- Tests that may call the same object depend on each other. -/
def Ordered (s : Sequencer) (b : Bodies ι κ ρ) : Prop := ∀ m ∈ s.names, ∀ n ∈ s.names, m ≠ n →
  Disjoint (b.reach m) (b.reach n) ∨ TransGen s.DependsOn m n ∨ TransGen s.DependsOn n m

def endOf : Event (ι × κ) → Option String
  | .act n (.ready _) => some n
  | _ => none

/- The tests in the order in which their lambdas have come to their end. -/
def ended (tr : List (Event (ι × κ))) : List String := tr.filterMap endOf

theorem ended_concat (tr : List (Event (ι × κ))) (e : Event (ι × κ)) :
    ended (tr ++ [e]) = ended tr ++ (endOf e).toList := by
  unfold ended
  rw [List.filterMap_append]
  cases he : endOf e <;> simp [he]

def Act.use? : Act (ι × κ) → Option (ι × κ)
  | .use k => some k
  | _ => none

/- The calls that the test makes, in order. -/
def callsOf (n : String) (tr : List (Event (ι × κ))) : List (ι × κ) := (acts n tr).filterMap Act.use?

variable [DecidableEq ι] [DecidableEq κ]

structure Consistent (s : Sequencer) (b : Bodies ι κ ρ) (obj : ι → κ → τ → ρ × τ) (init : ι → τ)
    (tr : List (Event (ι × κ))) (st : SuiteState ι κ ρ τ) : Prop where
  serial : (clients s b).Serial obj init (ended tr) st.objects (st.ahead b)
  mem_iff : ∀ n, n ∈ ended tr ↔ st.run.active n ≠ none ∧ st.ahead b n = none
  nodup : (ended tr).Nodup
  order : (ended tr).Pairwise fun m n => ¬TransGen s.DependsOn m n
  told : ∀ n out, .act n (.ready out) ∈ tr →
    ((clients s b).serial obj init (ended tr)).2 n = some out

/- What a launched test depends on has come to its end. -/
theorem not_depends_of_ahead (h : suiteTo s b obj threads counter init tr = some st)
    (hm : st.run.active m ≠ none) (hn : (st.ahead b n).isSome) : ¬TransGen s.DependsOn m n := by
  intro hdep
  obtain ⟨levels, hls, -⟩ := suiteTo_start h
  have hlaunched : st.run.status m ≠ .idle := by
    cases hact : st.run.active m with
    | none => exact absurd hact hm
    | some act => cases hpc : act.pc <;> simp [RunState.status, RunOne.status, hact, hpc]
  have hfinished : st.run.status n = .finished :=
    (runTo_inv (suiteTo_runTo h) hls).deps_finished hlaunched hdep
  rw [status_of_ahead hn] at hfinished
  cases hfinished

/- Tests that run at once do not depend on each other, so they share nothing. -/
theorem disjoint_of_ahead (hshare : Ordered s b)
    (h : suiteTo s b obj threads counter init tr = some st) (hne : m ≠ n)
    (hm : (st.ahead b m).isSome) (hn : (st.ahead b n).isSome) :
    Disjoint (b.reach m) (b.reach n) := by
  have hmem : ∀ a, (st.ahead b a).isSome → a ∈ s.names := fun a ha =>
    executing_registered (suiteTo_runTo h) (executing_iff.mpr (status_of_ahead ha))
  rcases hshare m (hmem m hm) n (hmem n hn) hne with hdisj | hdep | hdep
  · exact hdisj
  · exact absurd hdep (not_depends_of_ahead h (active_of_ahead hm) hn)
  · exact absurd hdep (not_depends_of_ahead h (active_of_ahead hn) hm)

omit [DecidableEq κ] in
theorem Consistent.stay (hc : Consistent s b obj init tr st) (hend : endOf e = none)
    (hobjects : st'.objects = st.objects) (hahead : st'.ahead b = st.ahead b)
    (hactive : ∀ n, st'.run.active n = none ↔ st.run.active n = none)
    (hready : ∀ n out, e ≠ .act n (.ready out)) : Consistent s b obj init (tr ++ [e]) st' := by
  have hended : ended (tr ++ [e]) = ended tr := by
    rw [ended_concat, hend, Option.toList_none, List.append_nil]
  refine ⟨?_, fun n => ?_, hended ▸ hc.nodup, hended ▸ hc.order, fun n out hin => ?_⟩
  · rw [hended, hobjects, hahead]
    exact hc.serial
  · rw [hended, hc.mem_iff n, hahead, ne_eq, ne_eq, hactive]
  · rw [hended]
    rcases List.mem_append.mp hin with hin | hin
    · exact hc.told n out hin
    · exact absurd (List.mem_singleton.mp hin).symm (hready n out)

theorem Consistent.launch (hshare : Ordered s b)
    (h : suiteTo s b obj threads counter init tr = some st) (hc : Consistent s b obj init tr st)
    (hs : suiteStep s b obj st (.launch n) = some st') :
    Consistent s b obj init (tr ++ [.launch n]) st' := by
  have hreach := suiteTo_concat h hs
  obtain ⟨hgone, hobjects, hahead, hactive⟩ := suiteStep_launch h hs
  have hended : ended (tr ++ [.launch n]) = ended tr := by
    rw [ended_concat]
    exact List.append_nil _
  have hdisj : ∀ m, m ≠ n → (st.ahead b m).isSome → Disjoint (b.reach n) (b.reach m) := by
    intro m hm hms
    refine disjoint_of_ahead hshare hreach hm.symm ?_ ?_
    · rw [hahead, Function.update_self]
      rfl
    · rwa [hahead, Function.update_of_ne hm]
  refine ⟨?_, fun m => ?_, hended ▸ hc.nodup, hended ▸ hc.order, fun m out hin => ?_⟩
  · rw [hended, hobjects, hahead]
    exact hc.serial.launch hdisj hgone
  · rw [hended, hc.mem_iff m, hahead, ne_eq, ne_eq, hactive m]
    by_cases hm : m = n
    · have hidle := launch_inactive (suiteTo_runTo h) (suiteStep_step hs)
      simp [hm, hidle]
    · simp [hm]
  · rw [hended]
    exact hc.told m out (by simpa using hin)

theorem Consistent.act (h : suiteTo s b obj threads counter init tr = some st) (hc : Consistent s b obj init tr st)
    (hs : suiteStep s b obj st (.act n a) = some st') :
    Consistent s b obj init (tr ++ [.act n a]) st' := by
  obtain ⟨hadvance, hahead, hactive⟩ := suiteStep_act hs
  generalize hnow : st.ahead b n = now at hadvance
  generalize hlater : st'.ahead b n = later at hadvance hahead
  generalize hx : st'.objects = x at hadvance
  cases hadvance with
  | call k next =>
    have hended : ended (tr ++ [.act n (.use k)]) = ended tr := by
      rw [ended_concat]
      exact List.append_nil _
    refine ⟨?_, fun m => ?_, hended ▸ hc.nodup, hended ▸ hc.order, fun m out hin => ?_⟩
    · rw [hended, hx, hahead]
      exact hc.serial.call hnow
    · rw [hended, hc.mem_iff m, hahead, ne_eq, ne_eq, hactive m]
      by_cases hm : m = n
      · simp [hm, hnow]
      · simp [hm]
    · rw [hended]
      exact hc.told m out (by simpa using hin)
  | finish out =>
    have hended : ended (tr ++ [.act n (.ready out)]) = ended tr ++ [n] := by
      rw [ended_concat]
      rfl
    have hsome : (st.ahead b n).isSome := by
      rw [hnow]
      rfl
    have hfresh : n ∉ ended tr := fun hin => by
      rw [((hc.mem_iff n).mp hin).2] at hnow
      cases hnow
    obtain ⟨htold, hserial⟩ := hc.serial.finish hnow
    refine ⟨?_, fun m => ?_, ?_, ?_, fun m out' hin => ?_⟩
    · rw [hended, hx, hahead]
      exact hserial
    · rw [hended, List.mem_append, hc.mem_iff m, hahead, ne_eq, ne_eq, hactive m]
      by_cases hm : m = n
      · simp [hm, active_of_ahead hsome]
      · simp [hm]
    · rw [hended, List.nodup_append]
      exact ⟨hc.nodup, by simp, fun m hm k hk hmk => hfresh (List.mem_singleton.mp hk ▸ hmk ▸ hm)⟩
    · rw [hended, List.pairwise_append]
      refine ⟨hc.order, by simp, fun m hm k hk => ?_⟩
      rw [List.mem_singleton.mp hk]
      exact not_depends_of_ahead h ((hc.mem_iff m).mp hm).1 hsome
    · rw [hended]
      rcases List.mem_append.mp hin with hin | hin
      · have hne : m ≠ n := fun he => hfresh (List.mem_filterMap.mpr ⟨_, he ▸ hin, rfl⟩)
        rw [Program.Clients.serial_concat]
        exact (Function.update_of_ne hne _ _).trans (hc.told m out' hin)
      · cases List.mem_singleton.mp hin
        exact htold
  | stay a p ha hu =>
    have hend : endOf (.act n a) = none := by
      cases a with
      | ready out => exact absurd rfl (ha out)
      | _ => rfl
    refine hc.stay hend hx ?_ hactive fun m out he => ?_
    · rw [hahead, ← hnow, Function.update_eq_self]
    · cases he
      exact ha out rfl

theorem suiteTo_consistent (hshare : Ordered s b)
    (h : suiteTo s b obj threads counter init tr = some st) : Consistent s b obj init tr st := by
  induction tr using List.reverseRecOn generalizing st with
  | nil =>
    obtain ⟨levels, hls, hrun⟩ := suiteTo_start h
    cases hrun
    exact ⟨(clients s b).serial_start obj init, fun n => by simp [ended], List.nodup_nil,
      List.Pairwise.nil, fun n out hin => nomatch hin⟩
  | append_singleton tr e ih =>
    rw [suiteTo_append] at h
    obtain ⟨mid, hmid, hlast⟩ := Option.bind_eq_some_iff.mp h
    obtain ⟨st', hs, hst⟩ := Option.bind_eq_some_iff.mp hlast
    cases hst
    cases e with
    | launch n => exact (ih hmid).launch hshare hmid hs
    | collect n =>
      obtain ⟨run, hrun, hnext⟩ := Option.bind_eq_some_iff.mp hs
      cases hnext
      obtain ⟨prog, t, k, r, -, -, rfl⟩ := step_collect hrun
      exact (ih hmid).stay rfl rfl rfl (fun _ => Iff.rfl) fun _ _ => nofun
    | act n a => exact (ih hmid).act hmid hs

/-! ### The calls of a test -/

omit [DecidableEq ι] [DecidableEq κ] in
theorem active_registered {run : RunState} (h : s.runTo threads counter tr = some run)
    (hn : run.active n ≠ none) : n ∈ s.names := by
  obtain ⟨act, hact⟩ := Option.ne_none_iff_exists'.mp hn
  obtain ⟨ht, rfl⟩ := findTest_some ((runTo_course h n).2 act hact).1
  exact List.mem_map_of_mem ht

omit [DecidableEq ι] [DecidableEq κ] in
theorem callsOf_concat (n : String) (tr : List (Event (ι × κ))) (e : Event (ι × κ)) :
    callsOf n (tr ++ [e]) = callsOf n tr ++ ((e.act? n).bind Act.use?).toList := by
  rw [callsOf, acts_concat, List.filterMap_append, ← callsOf]
  cases he : e.act? n with
  | none => rfl
  | some a => cases ha : a.use? <;> simp [ha]

/- What a test has called and has still to call is what it calls alone. -/
structure Alone (s : Sequencer) (b : Bodies ι κ ρ) (obj : ι → κ → τ → ρ × τ) (init : ι → τ) (n : String)
    (tr : List (Event (ι × κ))) (st : SuiteState ι κ ρ τ) : Prop where
  idle : st.run.active n = none → callsOf n tr = [] ∧ Set.EqOn st.objects init (b.reach n)
  ahead : ∀ p, st.ahead b n = some p → callsOf n tr ++ p.calls (Program.serve obj) st.objects =
    ((clients s b).program n).calls (Program.serve obj) init
  gone : st.run.active n ≠ none → st.ahead b n = none →
    callsOf n tr = ((clients s b).program n).calls (Program.serve obj) init

omit [DecidableEq κ] in
/- A step that does not call the objects of the test. -/
theorem Alone.stay (hc : Consistent s b obj init tr st) (hn : Alone s b obj init n tr st)
    (hcalls : (e.act? n).bind Act.use? = none) (hobjects : Set.EqOn st'.objects st.objects (b.reach n))
    (hahead : st'.ahead b n = st.ahead b n)
    (hactive : st'.run.active n = none ↔ st.run.active n = none) :
    Alone s b obj init n (tr ++ [e]) st' := by
  have hsame : callsOf n (tr ++ [e]) = callsOf n tr := by
    rw [callsOf_concat, hcalls, Option.toList_none, List.append_nil]
  refine ⟨fun hidle => ?_, fun p hp => ?_, fun hlive hgone => ?_⟩
  · obtain ⟨hnone, hinit⟩ := hn.idle (hactive.mp hidle)
    exact ⟨hsame.trans hnone, hobjects.trans hinit⟩
  · rw [hahead] at hp
    rw [hsame, ((hc.serial.within n p hp).calls_local obj hobjects)]
    exact hn.ahead p hp
  · rw [hsame]
    exact hn.gone (hactive.not.mp hlive) (hahead ▸ hgone)

theorem Alone.launch (hc : Consistent s b obj init tr st)
    (h : suiteTo s b obj threads counter init tr = some st) (hn : Alone s b obj init n tr st)
    (hs : suiteStep s b obj st (.launch m) = some st') : Alone s b obj init n (tr ++ [.launch m]) st' := by
  obtain ⟨-, hobjects, hahead, hactive⟩ := suiteStep_launch h hs
  by_cases hm : n = m
  · subst hm
    obtain ⟨hnone, hinit⟩ := hn.idle (launch_inactive (suiteTo_runTo h) (suiteStep_step hs))
    have hprogram : st'.ahead b n = some ((clients s b).program n) := by
      rw [hahead, Function.update_self]
    have hsame : callsOf n (tr ++ [.launch n]) = [] := by
      rw [callsOf_concat, hnone]
      rfl
    refine ⟨fun hidle => absurd rfl ((hactive n).mp hidle).1, fun p hp => ?_, fun _ hgone => ?_⟩
    · obtain rfl := Option.some.inj (hp.symm.trans hprogram)
      rw [hsame, hobjects, List.nil_append]
      exact ((clients s b).within n).calls_local obj hinit
    · rw [hprogram] at hgone
      cases hgone
  · refine hn.stay hc rfl (fun i _ => congrFun hobjects i) ?_ ?_
    · rw [hahead, Function.update_of_ne hm]
    · exact (hactive n).trans (and_iff_right hm)

theorem Alone.act (hc : Consistent s b obj init tr st) (hn : Alone s b obj init n tr st)
    (hapart : m ≠ n → (st.ahead b m).isSome → Disjoint (b.reach m) (b.reach n))
    (hs : suiteStep s b obj st (.act m a) = some st') : Alone s b obj init n (tr ++ [.act m a]) st' := by
  obtain ⟨hadvance, hahead, hactive⟩ := suiteStep_act hs
  by_cases hm : m = n
  · subst hm
    have hact : (Event.act m a).act? m = some a := if_pos rfl
    generalize hnow : st.ahead b m = now at hadvance
    generalize hlater : st'.ahead b m = later at hadvance
    generalize hx : st'.objects = x at hadvance
    cases hadvance with
    | call k next =>
      have hmore : callsOf m (tr ++ [.act m (.use k)]) = callsOf m tr ++ [k] := by
        rw [callsOf_concat, hact]
        rfl
      have hlive : st.run.active m ≠ none := active_of_ahead (b := b) (by rw [hnow]; rfl)
      refine ⟨fun hidle => absurd ((hactive m).mp hidle) hlive, fun p hp => ?_, fun _ hgone => ?_⟩
      · obtain rfl := Option.some.inj (hp.symm.trans hlater)
        rw [hmore, hx, ← hn.ahead _ hnow, List.append_assoc]
        rfl
      · rw [hlater] at hgone
        cases hgone
    | finish out =>
      have hsame : callsOf m (tr ++ [.act m (.ready out)]) = callsOf m tr := by
        rw [callsOf_concat, hact]
        exact List.append_nil _
      have hlive : st.run.active m ≠ none := active_of_ahead (b := b) (by rw [hnow]; rfl)
      refine ⟨fun hidle => absurd ((hactive m).mp hidle) hlive, fun p hp => ?_, fun _ _ => ?_⟩
      · rw [hlater] at hp
        cases hp
      · rw [hsame, ← hn.ahead _ hnow]
        exact (List.append_nil _).symm
    | stay a p ha hu =>
      have hcalls : ((Event.act m a).act? m).bind Act.use? = none := by
        rw [hact]
        cases a with
        | use k => exact absurd rfl (hu k)
        | _ => rfl
      exact hn.stay hc hcalls (hx ▸ Set.eqOn_refl _ _) (hlater.trans hnow.symm) (hactive m)
  · have hact : (Event.act m a).act? n = none := if_neg hm
    refine hn.stay hc (by rw [hact]; rfl) ?_ ?_ (hactive n)
    · intro i hi
      generalize hnow : st.ahead b m = now at hadvance
      generalize st'.ahead b m = later at hadvance
      generalize st'.objects = x at hadvance ⊢
      cases hadvance with
      | call k next =>
        have hk := (hc.serial.within m _ hnow).1
        have hne : i ≠ k.1 := fun he =>
          Set.disjoint_left.mp (hapart hm (by rw [hnow]; rfl)) hk (he ▸ hi)
        exact Function.update_of_ne hne _ _
      | finish out => rfl
      | stay a p ha hu => rfl
    · rw [hahead, Function.update_of_ne (Ne.symm hm)]

theorem suiteTo_alone (hn : n ∈ s.names)
    (hapart : ∀ m ∈ s.names, ∀ n ∈ s.names, m ≠ n → Disjoint (b.reach m) (b.reach n))
    (h : suiteTo s b obj threads counter init tr = some st) : Alone s b obj init n tr st := by
  have hshare : Ordered s b := fun m hm n hn hne => Or.inl (hapart m hm n hn hne)
  induction tr using List.reverseRecOn generalizing st with
  | nil =>
    obtain ⟨levels, hls, hrun⟩ := suiteTo_start h
    cases hrun
    exact ⟨fun _ => ⟨rfl, Set.eqOn_refl _ _⟩, nofun, fun hlive => absurd rfl hlive⟩
  | append_singleton tr e ih =>
    rw [suiteTo_append] at h
    obtain ⟨mid, hmid, hlast⟩ := Option.bind_eq_some_iff.mp h
    obtain ⟨st', hs, hst⟩ := Option.bind_eq_some_iff.mp hlast
    cases hst
    have hc := suiteTo_consistent hshare hmid
    cases e with
    | launch m => exact (ih hmid).launch hc hmid hs
    | collect m =>
      obtain ⟨run, hrun, hnext⟩ := Option.bind_eq_some_iff.mp hs
      cases hnext
      obtain ⟨prog, t, k, r, -, -, rfl⟩ := step_collect hrun
      exact (ih hmid).stay hc rfl (Set.eqOn_refl _ _) rfl Iff.rfl
    | act m a =>
      refine (ih hmid).act hc (fun hne hsome => ?_) hs
      have hm := active_registered (suiteTo_runTo hmid) (active_of_ahead hsome)
      exact hapart m hm n hn hne

/-! ### One after another -/

/- What the tests come to, and leave, one after another in the order of the levels. -/
def serialRun (s : Sequencer) (b : Bodies ι κ ρ) (obj : ι → κ → τ → ρ × τ) (init : ι → τ)
    (levels : List (List String)) : (ι → τ) × (String → Option (Option Thrown)) :=
  (clients s b).serial obj init levels.flatten

/- After the run no test has anything left to do. -/
theorem returned_ahead (h : suiteTo s b obj threads counter init tr = some st) (hr : st.run.Returned)
    (n : String) : st.ahead b n = none := by
  cases hahead : st.ahead b n with
  | none => rfl
  | some p =>
    have hsome : (st.ahead b n).isSome := by
      rw [hahead]
      rfl
    have hrun := suiteTo_runTo h
    have hnames := active_registered hrun (active_of_ahead hsome)
    have hfinished := finished_iff.mp (returned_finished hrun hr hnames)
    rw [status_of_ahead hsome] at hfinished
    cases hfinished

theorem returned_serial (hshare : Ordered s b) {levels : List (List String)}
    (hls : s.levels = .ok levels) (h : suiteTo s b obj threads counter init tr = some st)
    (hr : st.run.Returned) :
    st.objects = (serialRun s b obj init levels).1 ∧
      ∀ t ∈ s.tests, (serialRun s b obj init levels).2 t.name =
        some (lastThrown (endings (acts t.name tr))) := by
  have hrun := suiteTo_runTo h
  have hc := suiteTo_consistent hshare h
  have hgone := returned_ahead h hr
  have hperm : (ended tr).Perm s.names := by
    refine (List.perm_ext_iff_of_nodup hc.nodup s.names_nodup).mpr fun n => ?_
    rw [hc.mem_iff n]
    constructor
    · rintro ⟨hactive, -⟩
      exact active_registered hrun hactive
    · intro hn
      obtain ⟨act, r, hact, -⟩ := returned_finished hrun hr hn
      exact ⟨by simp [hact], hgone n⟩
  have hsame : (clients s b).serial obj init (ended tr) = serialRun s b obj init levels :=
    Program.Clients.serial_reorder (hperm.trans (flatten_levels_perm hls).symm) hc.nodup hc.order
      (flatten_levels_order hls) fun m hm n hn hne =>
        hshare m (hperm.subset hm) n (hperm.subset hn) hne
  rw [← hsame]
  refine ⟨funext fun i => hc.serial.free i fun n hn => ?_, fun t ht => ?_⟩
  · rw [hgone n] at hn
    cases hn
  · exact hc.told _ _ (returned_told hrun hls hr ht).1

/- Where no two tests share an object, each is as if it were alone. -/
theorem returned_alone
    (hapart : ∀ m ∈ s.names, ∀ n ∈ s.names, m ≠ n → Disjoint (b.reach m) (b.reach n))
    {levels : List (List String)} (hls : s.levels = .ok levels)
    (h : suiteTo s b obj threads counter init tr = some st) (hr : st.run.Returned) :
    ∀ t ∈ s.tests,
      lastThrown (endings (acts t.name tr)) =
          (((clients s b).program t.name).run (Program.serve obj) init).1 ∧
        Set.EqOn st.objects (((clients s b).program t.name).run (Program.serve obj) init).2
          (b.reach t.name) := by
  intro t ht
  obtain ⟨hobjects, houtcomes⟩ :=
    returned_serial (fun m hm n hn hne => Or.inl (hapart m hm n hn hne)) hls h hr
  have hmem : ∀ n, n ∈ levels.flatten → n ∈ s.names := fun n hn => (mem_flatten_levels hls).mp hn
  obtain ⟨hout, halone⟩ : _ ∧ Set.EqOn (serialRun s b obj init levels).1 _ (b.reach t.name) :=
    Program.Clients.serial_alone (nodup_flatten_levels hls)
      (fun m hm n hn hne => hapart m (hmem m hm) n (hmem n hn) hne)
      ((mem_flatten_levels hls).mpr (List.mem_map_of_mem ht))
  refine ⟨Option.some.inj ((houtcomes t ht).symm.trans hout), ?_⟩
  rw [hobjects]
  exact halone

/- And it has made the calls that it makes alone. -/
theorem returned_calls
    (hapart : ∀ m ∈ s.names, ∀ n ∈ s.names, m ≠ n → Disjoint (b.reach m) (b.reach n))
    (h : suiteTo s b obj threads counter init tr = some st) (hr : st.run.Returned) (hn : n ∈ s.names) :
    callsOf n tr = ((clients s b).program n).calls (Program.serve obj) init := by
  obtain ⟨act, r, hact, -⟩ := returned_finished (suiteTo_runTo h) hr hn
  exact (suiteTo_alone hn hapart h).gone (by simp [hact]) (returned_ahead h hr n)

/- What a test has come to one after another, unless its wait has timed out. -/
def serialReport (levels : List (List String)) (tr : List (Event (ι × κ)))
    (outcome : String → Option (Option Thrown)) (t : TestCase) : String × TestStatus × String × ℕ :=
  (t.name, (if .act t.name .timeout ∈ tr then timedOut t else classify (outcome t.name).join).1,
    (if .act t.name .timeout ∈ tr then timedOut t else classify (outcome t.name).join).2,
    levelIndexOf levels t.name)

theorem told_serialReport {levels : List (List String)} {t : TestCase}
    {outcome : String → Option (Option Thrown)}
    (h : outcome t.name = some (lastThrown (endings (acts t.name tr)))) :
    told levels tr t = serialReport levels tr outcome t := by
  simp only [told, ending, serialReport, h, Option.join_some]

/-- Where tests that share an object depend on each other, a run that has returned leaves
the objects as a run of whole tests one after another leaves them, and reports what each
test has come to there unless it has timed out: whatever `threads` is and however the
calls of a batch interleave. -/
theorem suite_serial (hshare : Ordered s b) {levels : List (List String)}
    (hls : s.levels = .ok levels) (h : suiteTo s b obj threads counter init tr = some st)
    (hr : st.run.Returned) :
    st.objects = (serialRun s b obj init levels).1 ∧
      (s.results st.run).map TestResult.report =
        s.tests.map (serialReport levels tr (serialRun s b obj init levels).2) ∧
      ∀ threads' counter' tr' st', suiteTo s b obj threads' counter' init tr' = some st' →
        st'.run.Returned → st'.objects = st.objects := by
  obtain ⟨hobjects, houtcomes⟩ := returned_serial hshare hls h hr
  refine ⟨hobjects, ?_, fun threads' counter' tr' st' h' hr' => ?_⟩
  · rw [results, List.map_map]
    refine List.map_congr_left fun t ht => ?_
    exact (returned_told (suiteTo_runTo h) hls hr ht).2.trans (told_serialReport (houtcomes t ht))
  · rw [hobjects, (returned_serial hshare hls h' hr').1]

def ticketRun : List (Event (ℕ × Unit)) :=
  [.launch "dma", .launch "irq", .act "irq" .readBefore, .act "dma" .readBefore,
    .act "irq" (.call .body), .act "irq" (.use (1, ())), .act "dma" (.call .body),
    .act "dma" (.use (0, ())), .act "irq" (.use (1, ())), .act "dma" (.ret none),
    .act "dma" (.call .teardown), .act "irq" (.ret none), .act "irq" (.ready none),
    .act "dma" (.ret none), .act "dma" (.ready none), .act "dma" .join, .act "irq" .join,
    .act "irq" .readAfter, .act "dma" .readAfter, .collect "dma", .collect "irq",
    .launch "link_up", .act "link_up" .readBefore, .act "link_up" (.call .body),
    .act "link_up" (.use (0, ())), .act "link_up" (.use (1, ())), .act "link_up" (.ret none),
    .act "link_up" (.ready none), .act "link_up" .join, .act "link_up" .readAfter,
    .collect "link_up"]

theorem ticketRun_returns : (suiteTo linkSuite tickets takeTicket 2 0 (fun _ => 0) ticketRun).map
    (fun st => (st.run.prog, st.objects 0, st.objects 1)) = some ([], 2, 3) := by
  decide

theorem tickets_ordered : Ordered linkSuite tickets := by
  have hlink : ∀ n, n = "dma" ∨ n = "irq" → TransGen linkSuite.DependsOn "link_up" n := fun n hn =>
    .single ⟨_, List.mem_cons_self, rfl, by rcases hn with rfl | rfl <;> decide⟩
  have hdisj : Disjoint (tickets.reach "dma") (tickets.reach "irq") := by
    simp [tickets]
  have hnames : ∀ n ∈ linkSuite.names, n = "link_up" ∨ n = "irq" ∨ n = "dma" := by decide
  intro m hm n hn hne
  rcases hnames m hm with rfl | rfl | rfl <;> rcases hnames n hn with rfl | rfl | rfl
  · exact absurd rfl hne
  · exact Or.inr (Or.inl (hlink _ (Or.inr rfl)))
  · exact Or.inr (Or.inl (hlink _ (Or.inl rfl)))
  · exact Or.inr (Or.inr (hlink _ (Or.inr rfl)))
  · exact absurd rfl hne
  · exact Or.inl hdisj.symm
  · exact Or.inr (Or.inr (hlink _ (Or.inl rfl)))
  · exact Or.inl hdisj
  · exact absurd rfl hne

theorem suite_serial_tickets :
    ∃ st, suiteTo linkSuite tickets takeTicket 2 0 (fun _ => 0) ticketRun = some st ∧
      st.objects = (serialRun linkSuite tickets takeTicket (fun _ => 0) [["dma", "irq"], ["link_up"]]).1 := by
  obtain ⟨st, hrun, heq⟩ := Option.map_eq_some_iff.mp ticketRun_returns
  have hls : linkSuite.levels = .ok [["dma", "irq"], ["link_up"]] := by decide
  exact ⟨st, hrun, (suite_serial tickets_ordered hls hrun (congrArg Prod.fst heq)).1⟩

end SocValidation.Sequencer
