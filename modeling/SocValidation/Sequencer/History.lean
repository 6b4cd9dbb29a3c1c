import SocValidation.Sequencer.Schedule

/-!
# The history of one test

Whatever the other tests do, the actions of one test are a course of `RunOne`
from its entry to where it now stands. What a trace says about a single test is
proved on its course, without the others.
-/

namespace SocValidation.Sequencer

variable {α : Type} {s : Sequencer} {threads : ℕ} {counter : BitVec 64} {st st' : RunState}
variable {n m : String} {tr : List (Event α)} {t : TestCase} {k : ℕ} {pc : RunOne}
variable {as : List (Act α)}

def Event.act? (n : String) : Event α → Option (Act α)
  | .act m a => if m = n then some a else none
  | _ => none

def acts (n : String) (tr : List (Event α)) : List (Act α) := tr.filterMap (Event.act? n)

inductive Course (t : TestCase) (k : ℕ) : List (Act α) → RunOne → Prop
  | enter : Course t k [] .entered
  | move {as : List (Act α)} {a : Act α} {pc pc' : RunOne} {c c' : BitVec 64} :
      Course t k as pc → RunOneMove t k c pc a pc' c' → Course t k (as ++ [a]) pc'

/-! ### From a run to the course of a test -/

theorem acts_concat (n : String) (tr : List (Event α)) (e : Event α) :
    acts n (tr ++ [e]) = acts n tr ++ (e.act? n).toList := by
  unfold acts
  rw [List.filterMap_append]
  cases he : e.act? n <;> simp [he]

theorem mem_acts {a : Act α} : a ∈ acts n tr ↔ .act n a ∈ tr := by
  unfold acts
  rw [List.mem_filterMap]
  constructor
  · intro h
    obtain ⟨e, he, ha⟩ := h
    cases e with
    | act m b =>
      simp only [Event.act?] at ha
      split at ha
      next hm =>
        cases ha
        exact hm ▸ he
      · cases ha
    | _ => cases ha
  · intro h
    exact ⟨_, h, by simp [Event.act?]⟩

theorem count_acts [DecidableEq α] (a : Act α) : (acts n tr).count a = tr.count (.act n a) := by
  induction tr with
  | nil => rfl
  | cons e tr ih =>
    have hcons : acts n (e :: tr) = (e.act? n).toList ++ acts n tr := by
      unfold acts
      cases he : e.act? n <;> simp [he]
    rw [hcons, List.count_append, List.count_cons, ih, Nat.add_comm]
    congr 1
    cases e with
    | act m b =>
      by_cases hm : m = n
      · subst hm
        simp [Event.act?, List.count_singleton]
      · simp [Event.act?, hm]
    | _ => simp [Event.act?]

/-- The course invariant: a test without an activation has done nothing, and any
other one has come by its own actions to where it stands. -/
theorem runTo_course (h : s.runTo threads counter tr = some st) (n : String) :
    (st.active n = none → acts n tr = []) ∧
    ∀ act, st.active n = some act →
      s.findTest n = some act.test ∧ Course act.test act.level (acts n tr) act.pc := by
  revert n
  refine runTo_invariant (fun tr st => ∀ n, (st.active n = none → acts n tr = []) ∧
    ∀ act, st.active n = some act →
      s.findTest n = some act.test ∧ Course act.test act.level (acts n tr) act.pc) ?_ ?_ h
  · intro levels _ n
    exact ⟨fun _ => rfl, nofun⟩
  · intro tr st e st' hrun hp hs n
    obtain ⟨hnone, hsome⟩ := hp n
    cases e with
    | launch m =>
      have hidle := launch_inactive hrun hs
      obtain ⟨k, rest, t, -, ht, rfl⟩ := step_launch hs
      simp only [acts_concat, Event.act?, Option.toList_none, List.append_nil]
      by_cases hm : n = m
      · subst hm
        rw [Function.update_self, hnone hidle]
        refine ⟨nofun, fun act ha => ?_⟩
        cases ha
        exact ⟨ht, .enter⟩
      · rw [Function.update_of_ne hm]
        exact ⟨hnone, hsome⟩
    | collect m =>
      obtain ⟨rest, t, k, r, -, -, rfl⟩ := step_collect hs
      simp only [acts_concat, Event.act?, Option.toList_none, List.append_nil]
      exact ⟨hnone, hsome⟩
    | act m a =>
      obtain ⟨act, pc, c, ha, hm, rfl⟩ := step_act hs
      dsimp only
      rw [acts_concat]
      by_cases hn : n = m
      · subst hn
        rw [Function.update_self]
        refine ⟨nofun, fun act' ha' => ?_⟩
        cases ha'
        obtain ⟨ht, hc⟩ := hsome act ha
        refine ⟨ht, ?_⟩
        simpa [Event.act?] using hc.move (runOneStep_move hm)
      · rw [Function.update_of_ne hn]
        simp only [Event.act?, if_neg (Ne.symm hn), Option.toList_none, List.append_nil]
        exact ⟨hnone, hsome⟩

theorem findTest_some (h : s.findTest n = some t) : t ∈ s.tests ∧ t.name = n :=
  ⟨List.mem_of_find?_eq_some h, by simpa using List.find?_some h⟩

theorem findTest_of_mem (h : n ∈ s.names) : ∃ t, s.findTest n = some t := by
  obtain ⟨t, ht, rfl⟩ := List.mem_map.mp h
  exact Option.isSome_iff_exists.mp (List.find?_isSome.mpr ⟨t, ht, by simp⟩)

/-! ### What the course of a test says -/

/- Of the lambda's states only the last has left its outcome behind. -/
def Inside (as : List (Act α)) (l : Lambda) : Prop := ∀ out, l = .ready out → .ready out ∈ as

/- How a test ended: its lambda came to `out`, and the result is what the
timeout or the handlers of `future.get()` make of it. -/
def EndedWith (t : TestCase) (as : List (Act α)) (p : TestStatus × String) : Prop :=
  ∃ out, .ready out ∈ as ∧
    (.timeout ∉ as ∧ p = classify out ∨ .timeout ∈ as ∧ p = timedOut t)

/- What the actions so far must be for `RunOne` to stand at a point. -/
def Stands (t : TestCase) (k : ℕ) (as : List (Act α)) : RunOne → Prop
  | .entered => as = []
  | .waiting _ l => .timeout ∉ as ∧ Inside as l
  | .draining _ l => .timeout ∈ as ∧ Inside as l
  | .classified _ status message => EndedWith t as (status, message)
  | .returned r => r.name = t.name ∧ r.level = k ∧ EndedWith t as (r.status, r.message)

theorem lambdaStep_ready {l l' : Lambda} {a : Act α} (h : lambdaStep t l a = some l') :
    a ≠ .timeout ∧ a ≠ .readBefore ∧ ∀ out, l' = .ready out → a = .ready out := by
  unfold lambdaStep at h
  split at h
  next f p g =>
    split at h
    · cases h
      exact ⟨by simp, by simp, by simp⟩
    · cases h
  next f p =>
    cases h
    exact ⟨by simp, by simp, by simp⟩
  next f p b =>
    cases h
    exact ⟨by simp, by simp, by simp⟩
  next f p out =>
    cases h
    refine ⟨by simp, by simp, fun o ho => ?_⟩
    unfold lambdaNext at ho
    split at ho <;> try split at ho
    all_goals cases ho
  next out out' =>
    split at h
    next he =>
      cases h
      refine ⟨by simp, by simp, fun o ho => ?_⟩
      cases ho
      rw [he]
    · cases h
  · cases h

theorem Inside.next {l l' : Lambda} {a : Act α} (h : lambdaStep t l a = some l') :
    Inside (as ++ [a]) l' := by
  intro out hl
  rw [(lambdaStep_ready h).2.2 out hl]
  simp

theorem Course.stands (h : Course t k as pc) : Stands t k as pc := by
  induction h with
  | enter => rfl
  | @move as a pc pc' c c' hc hm ih =>
    cases hm with
    | enter =>
      obtain rfl := ih
      refine ⟨by simp, fun out hl => ?_⟩
      unfold lambdaStart at hl
      cases hl
    | expire b l hl =>
      exact ⟨by simp, fun out ho => List.mem_append_left _ (ih.2 out ho)⟩
    | get b out =>
      refine ⟨out, List.mem_append_left _ (ih.2 out rfl), Or.inl ⟨?_, rfl⟩⟩
      simpa using ih.1
    | drained b out =>
      refine ⟨out, List.mem_append_left _ (ih.2 out rfl), Or.inr ⟨?_, rfl⟩⟩
      exact List.mem_append_left _ ih.1
    | close b status message =>
      obtain ⟨out, hr, hp⟩ := ih
      exact ⟨rfl, rfl, out, List.mem_append_left _ hr, by simpa using hp⟩
    | run b l l' a hl =>
      refine ⟨?_, Inside.next hl⟩
      have hne := (lambdaStep_ready hl).1
      simpa [Ne.symm hne] using ih.1
    | runLate b l l' a hl => exact ⟨List.mem_append_left _ ih.1, Inside.next hl⟩

theorem Course.entered_once [DecidableEq α] (h : Course t k as pc) :
    as.count .readBefore = if pc = .entered then 0 else 1 := by
  induction h with
  | enter => rfl
  | move hc hm ih =>
    rw [List.count_append, ih]
    cases hm with
    | run b l l' a hl => simp [(lambdaStep_ready hl).2.1]
    | runLate b l l' a hl => simp [(lambdaStep_ready hl).2.1]
    | _ => simp

/-! ### Which functions a test calls -/

def firstFn (t : TestCase) : Fn := if t.setup then .setup else .body

def Fn.rank : Fn → ℕ
  | .setup => 0
  | .body => 1
  | .teardown => 2

/- Functions of smaller rank may have been called, the others have not. -/
def Lambda.bound : Lambda → ℕ
  | .calling f _ => f.rank
  | .inside f _ => f.rank + 1
  | .leaving _ => 3
  | .ready _ => 3

def RunOne.bound : RunOne → ℕ
  | .entered => 0
  | .waiting _ l => l.bound
  | .draining _ l => l.bound
  | .classified _ _ _ => 3
  | .returned _ => 3

/- At most one call of each function below `b`, exactly one of the first. -/
def Calls [DecidableEq α] (t : TestCase) (as : List (Act α)) (b : ℕ) : Prop :=
  (∀ g, as.count (.call g) ≤ if g.rank < b then 1 else 0) ∧
    as.count (.call (firstFn t)) = if (firstFn t).rank < b then 1 else 0

theorem Calls.mono [DecidableEq α] {b c : ℕ} (h : Calls t as b) (hbc : b ≤ c)
    (hb : (firstFn t).rank < b) : Calls t as c := by
  refine ⟨fun g => (h.1 g).trans ?_, ?_⟩
  · split <;> split <;> omega
  · rw [h.2, if_pos hb, if_pos (by omega)]

theorem Calls.other [DecidableEq α] {a : Act α} {b : ℕ} (h : Calls t as b)
    (ha : ∀ g, a ≠ .call g) : Calls t (as ++ [a]) b := by
  have hcount : ∀ g, (as ++ [a]).count (Act.call g) = as.count (.call g) := fun g => by
    simp [ha g]
  exact ⟨fun g => hcount g ▸ h.1 g, hcount _ ▸ h.2⟩

theorem Calls.call [DecidableEq α] {f : Fn} (h : Calls t as f.rank)
    (hf : (firstFn t).rank ≤ f.rank) : Calls t (as ++ [.call f]) (f.rank + 1) := by
  have hrank : ∀ g : Fn, g.rank = f.rank → f = g := fun g hg => by
    cases f <;> cases g <;> first | rfl | cases hg
  have hcount : ∀ g, (as ++ [Act.call f]).count (Act.call g) =
      as.count (.call g) + if f = g then 1 else 0 := fun g => by
    rw [List.count_append, List.count_singleton]
    simp
  refine ⟨fun g => ?_, ?_⟩
  · have hg := h.1 g
    rw [hcount]
    by_cases hfg : f = g
    · subst hfg
      rw [if_neg (Nat.lt_irrefl _)] at hg
      simp [Nat.le_zero.mp hg]
    · have hne : g.rank ≠ f.rank := fun he => hfg (hrank g he)
      rw [if_neg hfg, Nat.add_zero]
      refine hg.trans ?_
      split <;> split <;> omega
  · rw [hcount, h.2, if_pos (show (firstFn t).rank < f.rank + 1 by omega)]
    by_cases hfg : f = firstFn t
    · simp [hfg]
    · have hne : (firstFn t).rank ≠ f.rank := fun he => hfg (hrank _ he)
      rw [if_pos (by omega), if_neg hfg]

/- The lambda is past its first function, or about to call or inside one that
is not earlier. -/
def Begun (t : TestCase) : Lambda → Prop
  | .calling f _ => (firstFn t).rank ≤ f.rank
  | .inside f _ => (firstFn t).rank ≤ f.rank
  | _ => True

theorem lambdaNext_begun (t : TestCase) (f : Fn) (p out : Option Thrown) :
    f.rank + 1 ≤ (lambdaNext t f p out).bound ∧ Begun t (lambdaNext t f p out) := by
  have hfirst : (firstFn t).rank ≤ 1 := by
    unfold firstFn
    split <;> decide
  unfold lambdaNext
  split
  · exact ⟨by decide, hfirst⟩
  · exact ⟨by simp [Lambda.bound, Fn.rank], trivial⟩
  · split
    · exact ⟨by simp [Lambda.bound, Fn.rank], Nat.le_trans hfirst (by decide)⟩
    · exact ⟨by simp [Lambda.bound, Fn.rank], trivial⟩
  · exact ⟨by simp [Lambda.bound, Fn.rank], trivial⟩
  · exact ⟨by simp [Lambda.bound, Fn.rank], trivial⟩

theorem lambdaStep_calls [DecidableEq α] {l l' : Lambda} {a : Act α}
    (h : lambdaStep t l a = some l') (hc : Calls t as l.bound) (hb : Begun t l) :
    Calls t (as ++ [a]) l'.bound ∧ Begun t l' := by
  unfold lambdaStep at h
  split at h
  next f p g =>
    split at h
    next hf =>
      cases h
      subst hf
      exact ⟨hc.call hb, hb⟩
    · cases h
  next f p =>
    cases h
    exact ⟨hc.other (by simp), hb⟩
  next f p b =>
    cases h
    exact ⟨hc.other (by simp), hb⟩
  next f p out =>
    cases h
    obtain ⟨hle, hnext⟩ := lambdaNext_begun t f p out
    have hlt : (firstFn t).rank < (Lambda.inside f p).bound := Nat.lt_succ_of_le hb
    exact ⟨(hc.mono hle hlt).other (by simp), hnext⟩
  next out out' =>
    split at h
    · cases h
      exact ⟨hc.other (by simp), trivial⟩
    · cases h
  · cases h

/-- No function of a test is called twice, and one whose `RunOne` has left the
lambda behind has called its first function. -/
theorem Course.calls [DecidableEq α] (h : Course t k as pc) :
    Calls t as pc.bound ∧ match pc with
      | .waiting _ l => Begun t l
      | .draining _ l => Begun t l
      | _ => True := by
  induction h with
  | enter => exact ⟨⟨fun g => by simp, by simp [RunOne.bound]⟩, trivial⟩
  | move hc hm ih =>
    have hrank : ∀ g : Fn, g.rank < 3 := fun g => by cases g <;> decide
    cases hm with
    | enter =>
      obtain rfl := hc.stands
      have hstart : (lambdaStart t).bound = (firstFn t).rank := rfl
      refine ⟨⟨fun g => by simp, ?_⟩, Nat.le_refl _⟩
      simp [RunOne.bound, hstart]
    | expire b l hl => exact ⟨ih.1.other (by simp), ih.2⟩
    | get b out => exact ⟨ih.1.other (by simp), trivial⟩
    | drained b out => exact ⟨ih.1.other (by simp), trivial⟩
    | close b status message => exact ⟨ih.1.other (by simp), trivial⟩
    | run b l l' a hl => exact lambdaStep_calls hl ih.1 ih.2
    | runLate b l l' a hl => exact lambdaStep_calls hl ih.1 ih.2

end SocValidation.Sequencer
