import SocValidation.Sequencer.Results
import SocValidation.Transport.Log

/-!
# Which test a record names (txn_log.hpp, txn_log.cpp, sequencer.cpp)

Test bodies that share a `LoggedTransport` share its `test_` too. A record names the
test that called `set_test` last, which is the test that makes the access as long as
no other test of the batch has called it in between.
-/

namespace SocValidation.Transport
open Sequencer (Act Event RunState)

/- What a test body does with the shared transport, one atomic call each. -/
inductive Use where
  | setTest (test : String)
  | access (call : Call)
  deriving DecidableEq, Repr

variable {σ : Type} [ITransport σ] {s : Sequencer} {threads : ℕ} {counter : BitVec 64} {st : RunState}
variable {tr pre : List (Event Use)} {n : String} {call : Call}

def useStep (shared : LoggedTransport σ × Host) : Event Use → LoggedTransport σ × Host
  | .act _ (.use (.setTest test)) => (shared.1.setTest test, shared.2)
  | .act _ (.use (.access call)) => (call.on shared.1 shared.2).2
  | _ => shared

/- The shared transport after the events of a run. -/
def uses (shared : LoggedTransport σ × Host) (tr : List (Event Use)) : LoggedTransport σ × Host :=
  tr.foldl useStep shared

/- The records that the event adds to the log, each with the test that acts. -/
def issue (shared : LoggedTransport σ × Host) : Event Use → List (String × Transaction)
  | .act n (.use (.access call)) =>
    (((call.on shared.1 shared.2).2.2.logs shared.1.log).drop (shared.2.size shared.1.log)).map fun r =>
      (n, r)
  | _ => []

def issued (shared : LoggedTransport σ × Host) : List (Event Use) → List (String × Transaction)
  | [] => []
  | e :: tr => issue shared e ++ issued (useStep shared e) tr

/- A test sets no name but its own, and sets it before its first access. -/
structure Disciplined (tr : List (Event Use)) : Prop where
  own : ∀ n test, .act n (.use (.setTest test)) ∈ tr → test = n
  first : ∀ pre n call post, tr = pre ++ .act n (.use (.access call)) :: post →
    .act n (.use (.setTest n)) ∈ pre

/- Since the test has set its name, no other test has set one. -/
def Undisturbed (n : String) (pre : List (Event Use)) : Prop :=
  ∃ xs ys, pre = xs ++ .act n (.use (.setTest n)) :: ys ∧
    ∀ m test, .act m (.use (.setTest test)) ∈ ys → m = n

/-! ### The shared name -/

def named : Event Use → Option String
  | .act _ (.use (.setTest test)) => some test
  | _ => none

theorem named_eq_some {e : Event Use} {test : String} (he : named e = some test) :
    ∃ m, e = .act m (.use (.setTest test)) := by
  cases e with
  | act m a =>
    cases a with
    | use u =>
      cases u with
      | setTest test' =>
        cases he
        exact ⟨m, rfl⟩
      | access call => cases he
    | _ => cases he
  | launch m => cases he
  | collect m => cases he

theorem useStep_fields (shared : LoggedTransport σ × Host) (e : Event Use) :
    (useStep shared e).1.log = shared.1.log ∧
      (useStep shared e).1.test = (named e).getD shared.1.test := by
  cases e with
  | act m a =>
    cases a with
    | use u =>
      cases u with
      | setTest test => exact ⟨rfl, rfl⟩
      | access call => exact logged_kept call shared.1 shared.2
    | _ => exact ⟨rfl, rfl⟩
  | launch m => exact ⟨rfl, rfl⟩
  | collect m => exact ⟨rfl, rfl⟩

theorem uses_test (shared : LoggedTransport σ × Host) (tr : List (Event Use)) :
    (uses shared tr).1.test = (tr.filterMap named).getLast?.getD shared.1.test :=
  Trace.foldl_observe useStep (fun shared => shared.1.test) named shared tr
    fun e _ shared => (useStep_fields shared e).2

/-- After a test's own call, the shared name is the test's just when no other has
called since. -/
theorem test_eq_iff (shared : LoggedTransport σ × Host)
    (hown : ∀ m test, .act m (.use (.setTest test)) ∈ pre → test = m)
    (hset : .act n (.use (.setTest n)) ∈ pre) : (uses shared pre).1.test = n ↔ Undisturbed n pre := by
  have hsome : ∃ test, (pre.filterMap named).getLast? = some test := by
    rw [← Option.isSome_iff_exists, List.getLast?_isSome]
    exact List.ne_nil_of_mem (List.mem_filterMap.mpr ⟨_, hset, rfl⟩)
  obtain ⟨test, htest⟩ := hsome
  rw [uses_test, htest, Option.getD_some]
  constructor
  · rintro rfl
    rw [List.getLast?_filterMap, List.findSome?_eq_some_iff] at htest
    obtain ⟨ys, e, xs, hsplit, he, hlast⟩ := htest
    obtain ⟨m, rfl⟩ := named_eq_some he
    have hpre : pre = xs.reverse ++ .act m (.use (.setTest test)) :: ys.reverse := by
      rw [← List.reverse_reverse pre, hsplit]
      simp
    obtain rfl := hown m test (by rw [hpre]; simp)
    refine ⟨xs.reverse, ys.reverse, hpre, fun m test hm => ?_⟩
    cases hlast _ (List.mem_reverse.mp hm)
  · rintro ⟨xs, ys, hpre, halone⟩
    have hmem : test ∈ (Event.act n (.use (.setTest n)) :: ys).filterMap named := by
      have hcons : (Event.act n (.use (.setTest n)) :: ys).filterMap named = n :: ys.filterMap named := rfl
      rw [hpre, List.filterMap_append, hcons, List.getLast?_append_cons, ← hcons] at htest
      exact List.mem_of_getLast? htest
    obtain ⟨e, he, hnamed⟩ := List.mem_filterMap.mp hmem
    obtain ⟨m, rfl⟩ := named_eq_some hnamed
    rcases List.mem_cons.mp he with heq | hin
    · cases heq
      rfl
    · rw [hown m test (by rw [hpre]; simp [hin])]
      exact halone m test hin

/-! ### The records -/

/- What an access adds: a record of the shared name, or nothing if it throws. -/
theorem issue_access (n : String) (call : Call) (t : LoggedTransport σ) (h : Host)
    (hσ : KeepsLog t.inner t.log) :
    (∃ r, r.test = t.test ∧ (call.on t h).2.2.logs t.log = h.logs t.log ++ [r] ∧
      issue (t, h) (.act n (.use (.access call))) = [(n, r)] ∧ (call.on t h).1.error = none) ∨
    (call.on t h).2.2.logs t.log = h.logs t.log ∧
      issue (t, h) (.act n (.use (.access call))) = [] ∧ (call.on t h).1.error ≠ none := by
  have hreply : (call.on t h).1 = (call.on t.inner h).1 := by rw [call.on_logged]; rfl
  by_cases hok : (call.on t.inner h).1.error = none
  · obtain ⟨r, -, -, -, htest, hlogs⟩ := logged_ok t h hσ hok
    refine Or.inl ⟨r, htest, hlogs, ?_, hreply ▸ hok⟩
    simp only [issue, hlogs, Host.size, List.drop_left, List.map_cons, List.map_nil]
  · have hlogs := logged_error t h hσ hok
    refine Or.inr ⟨hlogs, ?_, hreply ▸ hok⟩
    simp only [issue, hlogs, Host.size, List.drop_length, List.map_nil]

theorem useStep_keeps (shared : LoggedTransport σ × Host) (hσ : KeepsLog shared.1.inner shared.1.log)
    (e : Event Use) : KeepsLog (useStep shared e).1.inner (useStep shared e).1.log := by
  cases e with
  | act m a =>
    cases a with
    | use u =>
      cases u with
      | setTest test => exact hσ
      | access call => exact logged_keeps call shared.1 shared.2 hσ
    | _ => exact hσ
  | launch m => exact hσ
  | collect m => exact hσ

theorem uses_keeps (shared : LoggedTransport σ × Host) (hσ : KeepsLog shared.1.inner shared.1.log)
    (tr : List (Event Use)) : KeepsLog (uses shared tr).1.inner (uses shared tr).1.log := by
  induction tr using List.reverseRecOn with
  | nil => exact hσ
  | append_singleton tr e ih =>
    rw [uses, List.foldl_append]
    exact useStep_keeps _ ih e

theorem useStep_logs (shared : LoggedTransport σ × Host) (hσ : KeepsLog shared.1.inner shared.1.log)
    (e : Event Use) :
    (useStep shared e).2.logs shared.1.log =
      shared.2.logs shared.1.log ++ (issue shared e).map Prod.snd := by
  cases e with
  | act m a =>
    cases a with
    | use u =>
      cases u with
      | setTest test => simp [useStep, issue]
      | access call =>
        rcases issue_access m call shared.1 shared.2 hσ with
          ⟨r, -, hlogs, hissue, -⟩ | ⟨hlogs, hissue, -⟩
        · rw [hissue]
          exact hlogs
        · rw [hissue, List.map_nil, List.append_nil]
          exact hlogs
    | _ => simp [useStep, issue]
  | launch m => simp [useStep, issue]
  | collect m => simp [useStep, issue]

/- The records of a run are those that its accesses issue, in order. -/
theorem uses_logs (shared : LoggedTransport σ × Host) (hσ : KeepsLog shared.1.inner shared.1.log)
    (tr : List (Event Use)) : (uses shared tr).2.logs shared.1.log =
      shared.2.logs shared.1.log ++ (issued shared tr).map Prod.snd := by
  induction tr generalizing shared with
  | nil => simp [uses, issued]
  | cons e tr ih =>
    have hlog := (useStep_fields shared e).1
    have hrest := ih (useStep shared e) (useStep_keeps shared hσ e)
    rw [hlog, useStep_logs shared hσ e, List.append_assoc, ← List.map_append] at hrest
    exact hrest

theorem mem_issued (shared : LoggedTransport σ × Host) (p : String × Transaction) :
    p ∈ issued shared tr ↔ ∃ pre n call post, tr = pre ++ .act n (.use (.access call)) :: post ∧
      p ∈ issue (uses shared pre) (.act n (.use (.access call))) := by
  have haccess : ∀ (shared : LoggedTransport σ × Host) (e : Event Use), p ∈ issue shared e →
      ∃ n call, e = .act n (.use (.access call)) := by
    intro shared e hp
    cases e with
    | act m a =>
      cases a with
      | use u =>
        cases u with
        | setTest test => cases hp
        | access call => exact ⟨m, call, rfl⟩
      | _ => cases hp
    | launch m => cases hp
    | collect m => cases hp
  induction tr generalizing shared with
  | nil => simp [issued]
  | cons e tr ih =>
    rw [issued, List.mem_append]
    refine (or_congr Iff.rfl (ih (useStep shared e))).trans ?_
    constructor
    · rintro (hp | ⟨pre, n, call, post, rfl, hp⟩)
      · obtain ⟨n, call, rfl⟩ := haccess shared e hp
        exact ⟨[], n, call, tr, rfl, hp⟩
      · exact ⟨e :: pre, n, call, post, rfl, hp⟩
    · rintro ⟨pre, n, call, post, hsplit, hp⟩
      cases pre with
      | nil =>
        cases hsplit
        exact Or.inl hp
      | cons e' pre =>
        cases hsplit
        exact Or.inr ⟨pre, n, call, post, rfl, hp⟩

/-- On one thread nothing disturbs a test between its own call and its accesses. -/
theorem undisturbed_serial {post : List (Event Use)} (hth : threads ≤ 1)
    (hrun : s.runTo threads counter (pre ++ .act n (.use (.access call)) :: post) = some st)
    (hset : .act n (.use (.setTest n)) ∈ pre) : Undisturbed n pre := by
  obtain ⟨xs, ys, rfl⟩ := List.append_of_mem hset
  refine ⟨xs, ys, rfl, fun m test hm => ?_⟩
  obtain ⟨us, vs, rfl⟩ := List.append_of_mem hm
  have hsplit : xs ++ .act n (.use (.setTest n)) :: (us ++ .act m (.use (.setTest test)) :: vs) ++
        .act n (.use (.access call)) :: post =
      (xs ++ .act n (.use (.setTest n)) :: us) ++
        Event.act m (.use (.setTest test)) :: (vs ++ .act n (.use (.access call)) :: post) := by
    simp
  rw [hsplit] at hrun
  have hbefore : .act n (.use (.setTest n)) ∈ xs ++ .act n (.use (.setTest n)) :: us := by simp
  have hafter : .act n (.use (.access call)) ∈ vs ++ .act n (.use (.access call)) :: post := by simp
  exact Sequencer.serial_alone hth hrun hbefore hafter

/-- The log holds what the accesses of the run issue, and each record names the test
that made the access just when no other test has set its name between the test's own
call and an access that comes back; on one thread none ever does. -/
theorem attribution_iff (hrun : s.runTo threads counter tr = some st) (hd : Disciplined tr)
    (t : LoggedTransport σ) (h : Host) (hσ : KeepsLog t.inner t.log) :
    (uses (t, h) tr).2.logs t.log = h.logs t.log ++ (issued (t, h) tr).map Prod.snd ∧
    ((∀ p ∈ issued (t, h) tr, p.2.test = p.1) ↔
      ∀ pre n call post, tr = pre ++ .act n (.use (.access call)) :: post →
        (call.on (uses (t, h) pre).1 (uses (t, h) pre).2).1.error = none → Undisturbed n pre) ∧
    (threads ≤ 1 → ∀ pre n call post, tr = pre ++ .act n (.use (.access call)) :: post →
      Undisturbed n pre) := by
  have hown : ∀ {pre n call post}, tr = pre ++ .act n (.use (.access call)) :: post →
      ((uses (t, h) pre).1.test = n ↔ Undisturbed n pre) := by
    intro pre n call post hsplit
    apply test_eq_iff (t, h) _ (hd.first pre n call post hsplit)
    intro m test hm
    exact hd.own m test (by rw [hsplit]; exact List.mem_append_left _ hm)
  refine ⟨uses_logs (t, h) hσ tr, ⟨fun hall pre n call post hsplit hok => ?_, fun hall p hp => ?_⟩,
    fun hth pre n call post hsplit => ?_⟩
  · rcases issue_access n call _ (uses (t, h) pre).2 (uses_keeps (t, h) hσ pre) with
      ⟨r, htest, -, hissue, -⟩ | ⟨-, -, hthrows⟩
    · have hmem : (n, r) ∈ issued (t, h) tr :=
        (mem_issued _ _).mpr ⟨pre, n, call, post, hsplit, by rw [hissue]; exact List.mem_singleton_self _⟩
      exact (hown hsplit).mp (htest ▸ hall _ hmem)
    · exact absurd hok hthrows
  · obtain ⟨pre, n, call, post, hsplit, hin⟩ := (mem_issued _ _).mp hp
    rcases issue_access n call _ (uses (t, h) pre).2 (uses_keeps (t, h) hσ pre) with
      ⟨r, htest, -, hissue, hok⟩ | ⟨-, hissue, -⟩
    · rw [hissue, List.mem_singleton] at hin
      rw [hin, htest]
      exact (hown hsplit).mpr (hall pre n call post hsplit hok)
    · rw [hissue] at hin
      cases hin
  · exact undisturbed_serial hth (hsplit ▸ hrun) (hd.first pre n call post hsplit)

/- A run of the suite on two threads, in which `irq` sets its name before `dma` makes
its access. -/
def untilAccess : List (Event Use) :=
  [.launch "dma", .launch "irq", .act "dma" .readBefore, .act "irq" .readBefore,
    .act "dma" (.call .body), .act "irq" (.call .body), .act "dma" (.use (.setTest "dma")),
    .act "irq" (.use (.setTest "irq"))]

def afterAccess : List (Event Use) :=
  [.act "dma" (.ret none), .act "dma" (.call .teardown), .act "dma" (.ret none),
    .act "dma" (.ready none), .act "dma" .join, .act "dma" .readAfter,
    .act "irq" (.ret none), .act "irq" (.ready none), .act "irq" .join, .act "irq" .readAfter,
    .collect "dma", .collect "irq",
    .launch "link_up", .act "link_up" .readBefore, .act "link_up" (.call .body),
    .act "link_up" (.ret none), .act "link_up" (.ready none), .act "link_up" .join,
    .act "link_up" .readAfter, .collect "link_up"]

def interleavedRun : List (Event Use) :=
  untilAccess ++ .act "dma" (.use (.access (.read32 Device.kDmaStatus))) :: afterAccess

theorem interleavedRun_returns :
    ∃ st, Sequencer.linkSuite.runTo 2 0 interleavedRun = some st ∧ st.Returned := by
  have hprog : (Sequencer.linkSuite.runTo 2 0 interleavedRun).map (fun st => st.prog) = some [] := by
    decide
  obtain ⟨st, hrun, hnil⟩ := Option.map_eq_some_iff.mp hprog
  exact ⟨st, hrun, hnil⟩

theorem interleavedRun_disciplined : Disciplined interleavedRun where
  own := by
    intro n test hmem
    simp [interleavedRun, untilAccess, afterAccess] at hmem
    rcases hmem with ⟨rfl, rfl⟩ | ⟨rfl, rfl⟩ <;> rfl
  first := by
    intro pre n call post hsplit
    have hmem : .act n (.use (.access call)) ∈ interleavedRun := by simp [hsplit]
    obtain ⟨rfl, rfl⟩ : n = "dma" ∧ call = .read32 Device.kDmaStatus := by
      simpa [interleavedRun, untilAccess, afterAccess] using hmem
    have hpre := ((List.append_cons_inj_of_notMem (by decide) (by decide)).mp hsplit).1
    rw [← hpre]
    decide

def sharedDevice : LoggedTransport Device := { inner := Device.fresh, log := 0 }

theorem attribution_dma :
    (uses (sharedDevice, freshHost) interleavedRun).2.logs 0 =
      [] ++ (issued (sharedDevice, freshHost) interleavedRun).map Prod.snd := by
  obtain ⟨st, hrun, -⟩ := interleavedRun_returns
  exact (attribution_iff hrun interleavedRun_disciplined sharedDevice freshHost (keepsLog_device _ 0)).1

/- The record of the access of `dma` names `irq`. -/
theorem attribution_crossed : ¬∀ (s : Sequencer) (threads : ℕ) (counter : BitVec 64)
    (tr : List (Event Use)) (st : RunState), s.runTo threads counter tr = some st → st.Returned →
    Disciplined tr → ∀ (t : LoggedTransport Device) (h : Host), h.logs t.log = [] →
      ∀ p ∈ issued (t, h) tr, p.2.test = p.1 := by
  intro hall
  obtain ⟨st, hrun, hret⟩ := interleavedRun_returns
  have hnamed := hall _ _ _ _ st hrun hret interleavedRun_disciplined sharedDevice freshHost rfl
  revert hnamed
  decide

end SocValidation.Transport
