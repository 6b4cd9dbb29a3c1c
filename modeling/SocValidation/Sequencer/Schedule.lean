import SocValidation.Lib.ForkJoin
import SocValidation.Sequencer.Levels
import SocValidation.Sequencer.Run

/-!
# `Run` as a fork-join machine (sequencer.cpp:147-187)

The main thread's program is the fork-join program of the levels cut into
batches of at most `max 1 threads` tests, and every step of a run is a step of
that fork-join machine or leaves it alone. What holds of every fork-join run
thus holds of `Run`, whatever the tests do.
-/

namespace SocValidation.Sequencer
open Relation

variable {α : Type} {s : Sequencer} {threads : ℕ} {counter : BitVec 64} {st st' : RunState}
variable {level : List String} {levels : List (List String)} {n : String} {tr : List (Event α)}

/-! ### Batches -/

theorem batchesFrom_flatten (ht : 1 ≤ threads) (fuel start : ℕ)
    (hf : level.length ≤ start + fuel) :
    (batchesFrom threads level fuel start).flatten = level.drop start := by
  induction fuel generalizing start with
  | zero => simp [batchesFrom, List.drop_eq_nil_of_le (show level.length ≤ start by omega)]
  | succ fuel ih =>
    rw [batchesFrom]
    split
    next hs =>
      rw [List.flatten_cons, ih (start + threads) (by omega)]
      rcases Nat.le_total level.length (start + threads) with hle | hle
      · rw [Nat.min_eq_left hle, List.take_length, List.drop_eq_nil_of_le hle, List.append_nil]
      · rw [Nat.min_eq_right hle]
        have hsplit := List.take_append_drop (start + threads) level
        have hdrop : (level.take (start + threads) ++ level.drop (start + threads)).drop start =
            (level.take (start + threads)).drop start ++ level.drop (start + threads) := by
          rw [List.drop_append_of_le_length (by rw [List.length_take]; omega)]
        rw [← hdrop, hsplit]
    next hs => simp [List.drop_eq_nil_of_le (show level.length ≤ start by omega)]

theorem mem_batchesFrom {fuel start : ℕ} {batch : List String} (ht : 1 ≤ threads)
    (h : batch ∈ batchesFrom threads level fuel start) : batch ≠ [] ∧ batch.length ≤ threads := by
  induction fuel generalizing start with
  | zero => simp [batchesFrom] at h
  | succ fuel ih =>
    rw [batchesFrom] at h
    split at h
    next hs =>
      rcases List.mem_cons.mp h with rfl | h
      · have hlen : ((level.take (min level.length (start + threads))).drop start).length =
            min level.length (start + threads) - start := by
          rw [List.length_drop, List.length_take]
          omega
        refine ⟨fun hnil => ?_, by omega⟩
        rw [hnil, List.length_nil] at hlen
        omega
      · exact ih h
    · simp at h

def chunks (threads : ℕ) (level : List String) : List (List String) :=
  if threads ≤ 1 then level.map fun name => [name] else batches threads level

theorem chunks_flatten (threads : ℕ) (level : List String) :
    (chunks threads level).flatten = level := by
  unfold chunks
  split
  · induction level with
    | nil => rfl
    | cons name level ih => simpa using ih
  next h => exact batchesFrom_flatten (by omega) level.length 0 (by omega)

theorem flatMap_chunks_flatten (threads : ℕ) (levels : List (List String)) :
    (levels.flatMap (chunks threads)).flatten = levels.flatten := by
  induction levels with
  | nil => rfl
  | cons level levels ih => simp [chunks_flatten, ih]

theorem mem_chunks {batch : List String} (h : batch ∈ chunks threads level) :
    batch ≠ [] ∧ batch.length ≤ max 1 threads := by
  unfold chunks at h
  split at h
  · obtain ⟨name, -, rfl⟩ := List.mem_map.mp h
    exact ⟨by simp, by simp⟩
  next ht =>
    obtain ⟨hne, hlen⟩ := mem_batchesFrom (by omega) h
    exact ⟨hne, by omega⟩

/-! ### The fork-join view of a run -/

def MainInstr.toInstr : MainInstr → ForkJoin.Instr String
  | .launch name _ => .launch name
  | .collect name => .collect name

def RunOne.status : RunOne → ForkJoin.Status
  | .returned _ => .finished
  | _ => .active

def RunState.status (st : RunState) (name : String) : ForkJoin.Status :=
  match st.active name with
  | some a => a.pc.status
  | none => .idle

def RunState.forkJoin (st : RunState) : ForkJoin.State String :=
  ⟨st.prog.map MainInstr.toInstr, st.status⟩

def Event.label : Event α → Option (ForkJoin.Label String)
  | .launch name => some (.launch name)
  | .collect name => some (.collect name)
  | .act name .readAfter => some (.finish name)
  | .act _ _ => none

theorem levelProgram_forkJoin (threads levelIndex : ℕ) (level : List String) :
    (levelProgram threads levelIndex level).map MainInstr.toInstr =
      ForkJoin.program (chunks threads level) := by
  unfold levelProgram chunks
  split
  · simp only [serialLevel, ForkJoin.program, List.flatMap_map, List.map_flatMap]
    rfl
  · simp only [parallelLevel, ForkJoin.program, List.map_flatMap, List.map_append, List.map_map]
    rfl

theorem runProgram_forkJoin (threads levelIndex : ℕ) (levels : List (List String)) :
    (runProgram threads levelIndex levels).map MainInstr.toInstr =
      ForkJoin.program (levels.flatMap (chunks threads)) := by
  induction levels generalizing levelIndex with
  | nil => rfl
  | cons level levels ih =>
    rw [runProgram, List.map_append, levelProgram_forkJoin, ih, List.flatMap_cons]
    simp [ForkJoin.program]

theorem status_update (st : RunState) (name : String) (a : Activation) (rest : List MainInstr)
    (c : BitVec 64) :
    RunState.status { st with prog := rest,
                              active := Function.update st.active name (some a),
                              counter := c } =
      Function.update st.status name a.pc.status := by
  funext m
  by_cases hm : m = name
  · subst hm
    simp [RunState.status]
  · simp [RunState.status, Function.update_of_ne hm]

theorem move_status {t : TestCase} {k : ℕ} {c c' : BitVec 64} {pc pc' : RunOne} {a : Act α}
    (h : RunOneMove t k c pc a pc' c') :
    pc.status = .active ∧ (pc'.status = .finished ∧ a = .readAfter ∨
      pc'.status = .active ∧ (Event.act n a).label = none) := by
  cases h with
  | enter => exact ⟨rfl, Or.inr ⟨rfl, rfl⟩⟩
  | expire b l hl => exact ⟨rfl, Or.inr ⟨rfl, rfl⟩⟩
  | get b out => exact ⟨rfl, Or.inr ⟨rfl, rfl⟩⟩
  | drained b out => exact ⟨rfl, Or.inr ⟨rfl, rfl⟩⟩
  | close b status message => exact ⟨rfl, Or.inl ⟨rfl, rfl⟩⟩
  | run b l l' a hl =>
    refine ⟨rfl, Or.inr ⟨rfl, ?_⟩⟩
    cases a <;> first | rfl | (cases l <;> cases hl)
  | runLate b l l' a hl =>
    refine ⟨rfl, Or.inr ⟨rfl, ?_⟩⟩
    cases a <;> first | rfl | (cases l <;> cases hl)

/- What an action of a test shows: its last one ends the test, the others nothing. -/
theorem act_forkJoin {name : String} {a : Act α} (h : s.step st (.act name a) = some st') :
    st.status name = .active ∧
      (a = .readAfter ∧
          st'.forkJoin = ⟨st.forkJoin.todo, Function.update st.status name .finished⟩ ∨
        (Event.act name a).label = none ∧ st'.forkJoin = st.forkJoin) := by
  obtain ⟨act, pc, c, ha, hm, rfl⟩ := step_act h
  have hstatus : st.status name = act.pc.status := by simp [RunState.status, ha]
  have hview := status_update st name { act with pc := pc } st.prog c
  obtain ⟨hact, hend | hgo⟩ := move_status (n := name) (runOneStep_move hm)
  · refine ⟨hstatus.trans hact, Or.inl ⟨hend.2, ?_⟩⟩
    simp only [RunState.forkJoin, hview, hend.1]
  · refine ⟨hstatus.trans hact, Or.inr ⟨hgo.2, ?_⟩⟩
    simp only [RunState.forkJoin, hview, hgo.1, ← hact, ← hstatus, Function.update_eq_self]

theorem step_label {e : Event α} {l : ForkJoin.Label String} (h : s.step st e = some st')
    (hl : e.label = some l) : ForkJoin.step st.forkJoin l = some st'.forkJoin := by
  cases e with
  | launch name =>
    cases hl
    obtain ⟨k, rest, t, hp, -, rfl⟩ := step_launch h
    simp only [RunState.forkJoin, hp, List.map_cons, MainInstr.toInstr, ForkJoin.step, if_true,
      status_update st name ⟨t, k, .entered⟩ rest st.counter]
    rfl
  | collect name =>
    cases hl
    obtain ⟨rest, t, k, r, hp, ha, rfl⟩ := step_collect h
    have hf : st.status name = .finished := by simp [RunState.status, ha, RunOne.status]
    simp only [RunState.forkJoin, hp, List.map_cons, MainInstr.toInstr, ForkJoin.step, hf, and_self,
      if_true]
    rfl
  | act name a =>
    obtain ⟨hactive, ⟨rfl, hview⟩ | ⟨hnone, -⟩⟩ := act_forkJoin h
    · cases hl
      rw [hview]
      exact if_pos hactive
    · rw [hnone] at hl
      cases hl

theorem step_silent {e : Event α} (h : s.step st e = some st') (hl : e.label = none) :
    st'.forkJoin = st.forkJoin := by
  cases e with
  | launch name => cases hl
  | collect name => cases hl
  | act name a =>
    obtain ⟨-, ⟨rfl, -⟩ | ⟨-, hview⟩⟩ := act_forkJoin h
    · cases hl
    · exact hview

/-! ### The schedule `Levels` gives -/

theorem levels_schedule (hls : s.levels = .ok levels) (threads : ℕ) :
    ForkJoin.Schedule s.DependsOn (max 1 threads) (levels.flatMap (chunks threads)) := by
  refine ⟨?_, ?_, ?_, ?_⟩
  · rw [flatMap_chunks_flatten]
    exact nodup_flatten_levels hls
  · intro batch hb
    obtain ⟨l, -, hl⟩ := List.mem_flatMap.mp hb
    exact (mem_chunks hl).1
  · intro batch hb
    obtain ⟨l, -, hl⟩ := List.mem_flatMap.mp hb
    exact (mem_chunks hl).2
  · apply ForkJoin.layered_flatMap _ (chunks_flatten threads)
    apply ForkJoin.layered_of_earlier
    intro k l hl a ha b hd
    have hb := levels_closed hls a b hd
    obtain ⟨m, hm, hbm⟩ := List.mem_flatten.mp ((mem_flatten_levels hls).mpr hb)
    obtain ⟨j, hj⟩ := List.mem_iff_getElem?.mp hm
    exact Or.inr ⟨j, m, dependency_earlier hls hl ha hd hj hbm, hj, hbm⟩

/-! ### Reached states -/

theorem runTo_start (h : s.runTo threads counter tr = some st) :
    ∃ levels, s.levels = .ok levels ∧
      Trace.run s.step ⟨runProgram threads 0 levels, fun _ => none, counter, ∅⟩ tr = some st := by
  unfold runTo at h
  split at h
  next st0 hst =>
    unfold start at hst
    cases hl : s.levels with
    | error e =>
      rw [hl] at hst
      cases hst
    | ok levels =>
      rw [hl] at hst
      cases hst
      exact ⟨levels, rfl, h⟩
  · cases h

/-- Run invariants of `Run` may mention the trace; a step may use that the state
it starts from has been reached. -/
theorem runTo_invariant (P : List (Event α) → RunState → Prop)
    (h0 : ∀ levels, s.levels = .ok levels →
      P [] ⟨runProgram threads 0 levels, fun _ => none, counter, ∅⟩)
    (hstep : ∀ tr st e st', s.runTo threads counter tr = some st → P tr st →
      s.step st e = some st' → P (tr ++ [e]) st')
    (h : s.runTo threads counter tr = some st) : P tr st := by
  obtain ⟨levels, hl, hrun⟩ := runTo_start h
  refine Trace.run_invariant P (h0 levels hl) (fun tr st e st' hr hp hs => ?_) hrun
  exact hstep tr st e st' (by simpa [runTo, start, hl, Except.map] using hr) hp hs

theorem runTo_forkJoin (h : s.runTo threads counter tr = some st)
    (hls : s.levels = .ok levels) :
    Trace.run ForkJoin.step (ForkJoin.start (levels.flatMap (chunks threads)))
      (tr.filterMap Event.label) = some st.forkJoin := by
  obtain ⟨levels', hl, hrun⟩ := runTo_start h
  cases hls.symm.trans hl
  have hsim : Trace.run ForkJoin.step _ _ = some st.forkJoin :=
    Trace.run_simulate RunState.forkJoin Event.label (fun _ _ _ _ => step_label)
      (fun _ _ _ => step_silent) hrun
  have hstart : RunState.forkJoin ⟨runProgram threads 0 levels, fun _ => none, counter, ∅⟩ =
      ForkJoin.start (levels.flatMap (chunks threads)) := by
    simp only [RunState.forkJoin, runProgram_forkJoin]
    rfl
  rw [← hstart]
  exact hsim

theorem runTo_inv (h : s.runTo threads counter tr = some st) (hls : s.levels = .ok levels) :
    ForkJoin.Inv s.DependsOn (max 1 threads) (levels.flatMap (chunks threads)) st.forkJoin :=
  ForkJoin.run_inv (levels_schedule hls threads) (runTo_forkJoin h hls)

theorem launch_inactive (h : s.runTo threads counter tr = some st)
    (hs : s.step st (.launch n : Event α) = some st') : st.active n = none := by
  obtain ⟨levels, hls, -⟩ := runTo_start h
  have hidle := (ForkJoin.launch_inv (levels_schedule hls threads) (runTo_inv h hls)
    (step_label hs rfl)).1
  cases ha : st.active n with
  | none => rfl
  | some a =>
    have hstatus : st.status n = .idle := hidle
    simp only [RunState.status, ha, RunOne.status] at hstatus
    split at hstatus <;> cases hstatus

/- A launched test is left alone by a step, or the step is its own next move. -/
theorem step_active {act : Activation} {e : Event α} (h : s.runTo threads counter tr = some st)
    (hs : s.step st e = some st') (hact : st.active n = some act) :
    ((∀ a, e ≠ .act n a) ∧ st'.active n = some act) ∨
    ∃ a pc c, e = .act n a ∧ RunOneMove act.test act.level st.counter act.pc a pc c ∧
      st'.active n = some { act with pc := pc } := by
  cases e with
  | launch m =>
    have hne : n ≠ m := fun he => by
      rw [he, launch_inactive h hs] at hact
      cases hact
    obtain ⟨k, rest, t, -, -, rfl⟩ := step_launch hs
    dsimp only
    rw [Function.update_of_ne hne]
    exact Or.inl ⟨by simp, hact⟩
  | collect m =>
    obtain ⟨rest, t, k, r, -, -, rfl⟩ := step_collect hs
    exact Or.inl ⟨by simp, hact⟩
  | act m a =>
    obtain ⟨act', pc, c, ha, hm, rfl⟩ := step_act hs
    dsimp only
    by_cases hn : n = m
    · subst hn
      cases hact.symm.trans ha
      exact Or.inr ⟨a, pc, c, rfl, runOneStep_move hm, Function.update_self ..⟩
    · rw [Function.update_of_ne hn]
      exact Or.inl ⟨fun b hb => hn (by cases hb; rfl), hact⟩

/-! ### Where a run places the tests -/

theorem mem_levelProgram {k levelIndex : ℕ} (h : .launch n k ∈ levelProgram threads levelIndex level) :
    k = levelIndex ∧ n ∈ level := by
  unfold levelProgram at h
  split at h
  · obtain ⟨name, hname, hm⟩ := List.mem_flatMap.mp h
    simp only [List.mem_cons, MainInstr.launch.injEq, reduceCtorEq, List.not_mem_nil, or_false] at hm
    exact ⟨hm.2, hm.1 ▸ hname⟩
  next ht =>
    obtain ⟨batch, hbatch, hm⟩ := List.mem_flatMap.mp h
    simp only [List.mem_append, List.mem_map, MainInstr.launch.injEq, reduceCtorEq, and_false,
      exists_false, or_false] at hm
    obtain ⟨name, hname, rfl, rfl⟩ := hm
    have hflat := chunks_flatten threads level
    simp only [chunks, if_neg ht] at hflat
    exact ⟨rfl, hflat ▸ List.mem_flatten.mpr ⟨batch, hbatch, hname⟩⟩

theorem mem_runProgram {k levelIndex : ℕ} (h : .launch n k ∈ runProgram threads levelIndex levels) :
    ∃ j l, k = levelIndex + j ∧ levels[j]? = some l ∧ n ∈ l := by
  induction levels generalizing levelIndex with
  | nil => cases h
  | cons level levels ih =>
    rcases List.mem_append.mp h with h | h
    · obtain ⟨rfl, hn⟩ := mem_levelProgram h
      exact ⟨0, level, rfl, rfl, hn⟩
    · obtain ⟨j, l, hk, hl, hn⟩ := ih h
      exact ⟨j + 1, l, by omega, hl, hn⟩

/- Every launch, done or still to come, is at the test's index in the levels. -/
structure Placed (levels : List (List String)) (st : RunState) : Prop where
  launch : ∀ n k, .launch n k ∈ st.prog → ∃ l, levels[k]? = some l ∧ n ∈ l
  active : ∀ n act, st.active n = some act → ∃ l, levels[act.level]? = some l ∧ n ∈ l

theorem runTo_placed (h : s.runTo threads counter tr = some st) (hls : s.levels = .ok levels) :
    Placed levels st := by
  refine runTo_invariant (fun _ st => Placed levels st) ?_ ?_ h
  · intro levels' hl
    cases hls.symm.trans hl
    refine ⟨fun n k hm => ?_, fun n act ha => nomatch ha⟩
    obtain ⟨j, l, rfl, hl, hn⟩ := mem_runProgram hm
    exact ⟨l, by rwa [Nat.zero_add], hn⟩
  · intro tr st e st' _ hp hs
    cases e with
    | launch m =>
      obtain ⟨k, rest, t, hprog, -, rfl⟩ := step_launch hs
      refine ⟨fun n j hm => hp.launch n j (by rw [hprog]; exact List.mem_cons_of_mem _ hm),
        fun n act ha => ?_⟩
      dsimp only at ha
      by_cases hn : n = m
      · subst hn
        rw [Function.update_self] at ha
        cases ha
        exact hp.launch n k (by rw [hprog]; exact List.mem_cons_self ..)
      · rw [Function.update_of_ne hn] at ha
        exact hp.active n act ha
    | collect m =>
      obtain ⟨rest, t, k, r, hprog, -, rfl⟩ := step_collect hs
      exact ⟨fun n j hm => hp.launch n j (by rw [hprog]; exact List.mem_cons_of_mem _ hm), hp.active⟩
    | act m a =>
      obtain ⟨act, pc, c, hact, -, rfl⟩ := step_act hs
      refine ⟨hp.launch, fun n act' ha => ?_⟩
      dsimp only at ha
      by_cases hn : n = m
      · subst hn
        rw [Function.update_self] at ha
        cases ha
        exact hp.active n act hact
      · rw [Function.update_of_ne hn] at ha
        exact hp.active n act' ha

end SocValidation.Sequencer
