import Mathlib.Logic.Relation
import Mathlib.Logic.Function.Basic
import Mathlib.Data.List.Perm.Subperm
import SocValidation.Lib.Trace

/-!
# Fork and join, batch by batch

A coordinator launches the jobs of a batch one after another, then collects
them in the same order, waiting for each, and only then turns to the next batch.
Launched jobs finish when they like. If every job depends only on jobs of
earlier batches, no job is ever active before all it depends on has finished.
-/

namespace SocValidation.ForkJoin
open Relation

variable {α : Type*}

inductive Instr (α : Type*) where
  | launch (a : α)
  | collect (a : α)
  deriving DecidableEq

inductive Status where
  | idle
  | active
  | finished
  deriving DecidableEq

inductive Label (α : Type*) where
  | launch (a : α)
  | finish (a : α)
  | collect (a : α)
  deriving DecidableEq

structure State (α : Type*) where
  todo : List (Instr α)
  status : α → Status

def batchProgram (batch : List α) : List (Instr α) := batch.map .launch ++ batch.map .collect

def program (batches : List (List α)) : List (Instr α) := batches.flatMap batchProgram

def start (batches : List (List α)) : State α := ⟨program batches, fun _ => .idle⟩

variable {dep : α → α → Prop} {w : ℕ} {batches after : List (List α)} {s t : State α}
variable {past launched toLaunch seen : List α} {a b : α}

/-! ### Schedules -/

/- Each batch depends only on what has been seen before it. -/
def Layered (dep : α → α → Prop) : List α → List (List α) → Prop
  | _, [] => True
  | seen, batch :: rest => (∀ a ∈ batch, ∀ b, dep a b → b ∈ seen) ∧ Layered dep (seen ++ batch) rest

/- What the batches must satisfy before the coordinator starts. -/
structure Schedule (dep : α → α → Prop) (w : ℕ) (batches : List (List α)) : Prop where
  nodup : batches.flatten.Nodup
  ne_nil : ∀ batch ∈ batches, batch ≠ []
  width : ∀ batch ∈ batches, batch.length ≤ w
  layered : Layered dep [] batches

/- Where the coordinator stands: `past` is collected, `launched` is out,
`toLaunch` is the rest of the current batch and `after` the later batches. -/
structure Pos (dep : α → α → Prop) (w : ℕ) (batches : List (List α)) (s : State α)
    (past launched toLaunch : List α) (after : List (List α)) : Prop where
  todo : s.todo = toLaunch.map .launch ++ (launched ++ toLaunch).map .collect ++ program after
  order : past ++ launched ++ toLaunch ++ after.flatten = batches.flatten
  finished : ∀ a ∈ past, s.status a = .finished
  running : ∀ a ∈ launched, s.status a ≠ .idle
  idle : ∀ a, a ∉ past → a ∉ launched → s.status a = .idle
  past_deps : ∀ a ∈ past, ∀ b, dep a b → b ∈ past
  cur_deps : ∀ a ∈ launched ++ toLaunch, ∀ b, dep a b → b ∈ past
  layered : Layered dep (past ++ launched ++ toLaunch) after
  width : (launched ++ toLaunch).length ≤ w
  after_width : ∀ batch ∈ after, batch.length ≤ w
  after_ne_nil : ∀ batch ∈ after, batch ≠ []

def Inv (dep : α → α → Prop) (w : ℕ) (batches : List (List α)) (s : State α) : Prop :=
  ∃ past launched toLaunch after, Pos dep w batches s past launched toLaunch after

theorem start_inv (hs : Schedule dep w batches) : Inv dep w batches (start batches) := by
  refine ⟨[], [], [], batches, ?_⟩
  exact
    { todo := rfl
      order := rfl
      finished := by simp
      running := by simp
      idle := fun a _ _ => rfl
      past_deps := by simp
      cur_deps := by simp
      layered := hs.layered
      width := by simp
      after_width := hs.width
      after_ne_nil := hs.ne_nil }

theorem Pos.advance {batch : List α} (h : Pos dep w batches s past [] [] (batch :: after)) :
    Pos dep w batches s past [] batch after where
  todo := by simpa [program, batchProgram] using h.todo
  order := by simpa using h.order
  finished := h.finished
  running := h.running
  idle := h.idle
  past_deps := h.past_deps
  cur_deps := by simpa using h.layered.1
  layered := by simpa using h.layered.2
  width := by simpa using h.after_width batch (List.mem_cons_self ..)
  after_width := fun b hb => h.after_width b (List.mem_cons_of_mem _ hb)
  after_ne_nil := fun b hb => h.after_ne_nil b (List.mem_cons_of_mem _ hb)

/-- The coordinator is done, or its position can be given with a current batch
that is not empty. -/
theorem Inv.cases (h : Inv dep w batches s) :
    (∃ past, Pos dep w batches s past [] [] [] ∧ s.todo = []) ∨
    ∃ past launched toLaunch after, Pos dep w batches s past launched toLaunch after ∧
      launched ++ toLaunch ≠ [] := by
  obtain ⟨past, launched, toLaunch, after, hp⟩ := h
  by_cases hcur : launched ++ toLaunch = []
  · obtain ⟨rfl, rfl⟩ := List.append_eq_nil_iff.mp hcur
    cases after with
    | nil => exact Or.inl ⟨past, hp, by simpa [program] using hp.todo⟩
    | cons batch after =>
      have hne := hp.after_ne_nil batch (List.mem_cons_self ..)
      exact Or.inr ⟨past, [], batch, after, hp.advance, by simpa using hne⟩
  · exact Or.inr ⟨past, launched, toLaunch, after, hp, hcur⟩

theorem Inv.done_finished (h : Inv dep w batches s) (hdone : s.todo = [])
    (ha : a ∈ batches.flatten) : s.status a = .finished := by
  rcases h.cases with ⟨past, hp, -⟩ | ⟨past, launched, toLaunch, after, hp, hcur⟩
  · have ho := hp.order
    simp only [List.append_nil, List.flatten_nil] at ho
    exact hp.finished a (ho ▸ ha)
  · have htodo := hp.todo.symm.trans hdone
    simp only [List.append_eq_nil_iff, List.map_eq_nil_iff] at htodo
    exact absurd (List.append_eq_nil_iff.mpr htodo.1.2) hcur

theorem Inv.collect_running (h : Inv dep w batches s) {rest : List (Instr α)}
    (htodo : s.todo = .collect a :: rest) : s.status a ≠ .idle := by
  rcases h.cases with ⟨past, hp, hnil⟩ | ⟨past, launched, toLaunch, after, hp, hcur⟩
  · rw [hnil] at htodo
    cases htodo
  · have hhead := hp.todo.symm.trans htodo
    cases toLaunch with
    | cons x toLaunch => simp at hhead
    | nil =>
      obtain ⟨x, xs, rfl⟩ := List.exists_cons_of_ne_nil (List.append_nil launched ▸ hcur)
      simp only [List.map_nil, List.append_nil, List.nil_append, List.map_cons, List.cons_append,
        List.cons.injEq, Instr.collect.injEq] at hhead
      obtain ⟨rfl, -⟩ := hhead
      exact hp.running x (List.mem_cons_self ..)

theorem program_length (batches : List (List α)) :
    (program batches).length = 2 * batches.flatten.length := by
  induction batches with
  | nil => rfl
  | cons batch batches ih =>
    simp only [program, List.flatMap_cons, List.length_append, batchProgram, List.length_map,
      List.flatten_cons] at ih ⊢
    omega

theorem collect_mem_program : .collect a ∈ program batches ↔ a ∈ batches.flatten := by
  simp [program, batchProgram, List.mem_flatMap, List.mem_flatten]

theorem Pos.nodup (hs : Schedule dep w batches)
    (h : Pos dep w batches s past launched toLaunch after) :
    (past ++ launched ++ toLaunch ++ after.flatten).Nodup := by
  rw [h.order]
  exact hs.nodup

theorem Pos.collect (h : Pos dep w batches s past (a :: launched) [] after)
    (hf : s.status a = .finished) :
    Pos dep w batches ⟨launched.map .collect ++ program after, s.status⟩
      (past ++ [a]) launched [] after where
  todo := by simp
  order := by simpa using h.order
  finished := fun x hx => by
    rcases List.mem_append.mp hx with hx | hx
    · exact h.finished x hx
    · rw [List.mem_singleton.mp hx]
      exact hf
  running := fun x hx => h.running x (List.mem_cons_of_mem _ hx)
  idle := fun x hx hl => h.idle x (fun hm => hx (List.mem_append_left _ hm)) fun hm => by
    rcases List.mem_cons.mp hm with he | hm
    · exact hx (by simp [he])
    · exact hl hm
  past_deps := fun x hx y hd => by
    rcases List.mem_append.mp hx with hx | hx
    · exact List.mem_append_left _ (h.past_deps x hx y hd)
    · have hxa := List.mem_singleton.mp hx
      exact List.mem_append_left _ (h.cur_deps a (by simp) y (hxa ▸ hd))
  cur_deps := fun x hx y hd => by
    have hmem : x ∈ a :: launched ++ [] := by simpa using Or.inr (by simpa using hx)
    exact List.mem_append_left _ (h.cur_deps x hmem y hd)
  layered := by simpa using h.layered
  width := by
    have := h.width
    simp only [List.append_nil, List.length_cons] at this ⊢
    omega
  after_width := h.after_width
  after_ne_nil := h.after_ne_nil

/-! ### Layered batches -/

theorem layered_append {xs ys : List (List α)} :
    Layered dep seen (xs ++ ys) ↔ Layered dep seen xs ∧ Layered dep (seen ++ xs.flatten) ys := by
  induction xs generalizing seen with
  | nil => simp [Layered]
  | cons x xs ih => simp [Layered, ih, and_assoc]

theorem layered_of_seen {xs : List (List α)}
    (h : ∀ a ∈ xs.flatten, ∀ b, dep a b → b ∈ seen) : Layered dep seen xs := by
  induction xs generalizing seen with
  | nil => trivial
  | cons x xs ih =>
    refine ⟨fun a ha b hd => h a (by simp [ha]) b hd, ih fun a ha b hd => ?_⟩
    exact List.mem_append_left _ (h a (by simp [List.mem_flatten.mp ha]) b hd)

theorem layered_flatMap (f : List α → List (List α)) (hf : ∀ l, (f l).flatten = l)
    (h : Layered dep seen batches) : Layered dep seen (batches.flatMap f) := by
  induction batches generalizing seen with
  | nil => trivial
  | cons l batches ih =>
    rw [List.flatMap_cons, layered_append, hf]
    exact ⟨layered_of_seen (by rw [hf]; exact h.1), ih h.2⟩

theorem layered_of_earlier (h : ∀ (k : ℕ) l, batches[k]? = some l → ∀ a ∈ l, ∀ b, dep a b →
    b ∈ seen ∨ ∃ (j : ℕ) (m : List α), j < k ∧ batches[j]? = some m ∧ b ∈ m) : Layered dep seen batches := by
  induction batches generalizing seen with
  | nil => trivial
  | cons l batches ih =>
    refine ⟨fun a ha b hd => ?_, ih fun k m hm a ha b hd => ?_⟩
    · rcases h 0 l rfl a ha b hd with hb | ⟨j, m, hj, -⟩
      · exact hb
      · omega
    · rcases h (k + 1) m hm a ha b hd with hb | ⟨j, m', hj, hm', hb⟩
      · exact Or.inl (List.mem_append_left _ hb)
      · cases j with
        | zero =>
          cases hm'
          exact Or.inl (List.mem_append_right _ hb)
        | succ j => exact Or.inr ⟨j, m', by omega, hm', hb⟩

/-! ### Steps -/

variable [DecidableEq α]

def step (s : State α) : Label α → Option (State α)
  | .launch a =>
    match s.todo with
    | .launch b :: rest => if b = a then some ⟨rest, Function.update s.status a .active⟩ else none
    | _ => none
  | .finish a =>
    if s.status a = .active then some ⟨s.todo, Function.update s.status a .finished⟩ else none
  | .collect a =>
    match s.todo with
    | .collect b :: rest => if b = a ∧ s.status a = .finished then some ⟨rest, s.status⟩ else none
    | _ => none

theorem step_launch (h : step s (.launch a) = some t) :
    ∃ rest, s.todo = .launch a :: rest ∧ t = ⟨rest, Function.update s.status a .active⟩ := by
  simp only [step] at h
  split at h
  next b rest htodo =>
    split at h
    next hb =>
      cases h
      exact ⟨rest, hb ▸ htodo, rfl⟩
    · cases h
  · cases h

theorem step_finish (h : step s (.finish a) = some t) :
    s.status a = .active ∧ t = ⟨s.todo, Function.update s.status a .finished⟩ := by
  simp only [step] at h
  split at h
  next ha =>
    cases h
    exact ⟨ha, rfl⟩
  · cases h

theorem step_collect (h : step s (.collect a) = some t) :
    ∃ rest, s.todo = .collect a :: rest ∧ s.status a = .finished ∧ t = ⟨rest, s.status⟩ := by
  simp only [step] at h
  split at h
  next b rest htodo =>
    split at h
    next hb =>
      cases h
      exact ⟨rest, hb.1 ▸ htodo, hb.2, rfl⟩
    · cases h
  · cases h

theorem Pos.launch (hs : Schedule dep w batches)
    (h : Pos dep w batches s past launched (a :: toLaunch) after) :
    s.status a = .idle ∧
      Pos dep w batches ⟨toLaunch.map .launch ++ (launched ++ a :: toLaunch).map .collect ++
        program after, Function.update s.status a .active⟩ past (launched ++ [a]) toLaunch after := by
  have hnd := h.nodup hs
  have hpast : a ∉ past := fun hm => by
    simp only [List.append_assoc, List.nodup_append] at hnd
    exact hnd.2.2 a hm a (by simp) rfl
  have hlaunched : a ∉ launched := fun hm => by
    simp only [List.append_assoc, List.nodup_append] at hnd
    exact hnd.2.1.2.2 a hm a (by simp) rfl
  have hcur : launched ++ [a] ++ toLaunch = launched ++ a :: toLaunch := by simp
  refine ⟨h.idle a hpast hlaunched, ?_⟩
  exact
    { todo := by rw [hcur]
      order := by simpa using h.order
      finished := fun x hx => by
        have hne : x ≠ a := fun he => hpast (he ▸ hx)
        dsimp only
        rw [Function.update_of_ne hne]
        exact h.finished x hx
      running := fun x hx => by
        dsimp only
        by_cases he : x = a
        · rw [he, Function.update_self]
          decide
        · rw [Function.update_of_ne he]
          exact h.running x (by simpa [he] using hx)
      idle := fun x hx hl => by
        have hne : x ≠ a := fun he => hl (by simp [he])
        dsimp only
        rw [Function.update_of_ne hne]
        exact h.idle x hx fun hm => hl (List.mem_append_left _ hm)
      past_deps := h.past_deps
      cur_deps := hcur ▸ h.cur_deps
      layered := by simpa using h.layered
      width := hcur ▸ h.width
      after_width := h.after_width
      after_ne_nil := h.after_ne_nil }

theorem Pos.finish (h : Pos dep w batches s past launched toLaunch after)
    (ha : s.status a = .active) :
    Pos dep w batches ⟨s.todo, Function.update s.status a .finished⟩
      past launched toLaunch after where
  todo := h.todo
  order := h.order
  finished := fun x hx => by
    dsimp only
    by_cases he : x = a
    · rw [he, Function.update_self]
    · rw [Function.update_of_ne he]
      exact h.finished x hx
  running := fun x hx => by
    dsimp only
    by_cases he : x = a
    · rw [he, Function.update_self]
      decide
    · rw [Function.update_of_ne he]
      exact h.running x hx
  idle := fun x hx hl => by
    have hid := h.idle x hx hl
    have he : x ≠ a := fun he => by
      rw [he, ha] at hid
      cases hid
    dsimp only
    rw [Function.update_of_ne he]
    exact hid
  past_deps := h.past_deps
  cur_deps := h.cur_deps
  layered := h.layered
  width := h.width
  after_width := h.after_width
  after_ne_nil := h.after_ne_nil

theorem launch_inv (hs : Schedule dep w batches) (h : Inv dep w batches s)
    (ht : step s (.launch a) = some t) : s.status a = .idle ∧ Inv dep w batches t := by
  obtain ⟨rest, htodo, rfl⟩ := step_launch ht
  rcases h.cases with ⟨past, hp, hnil⟩ | ⟨past, launched, toLaunch, after, hp, hcur⟩
  · rw [hnil] at htodo
    cases htodo
  · cases toLaunch with
    | nil =>
      -- only collections are left in this batch, so the head cannot be a launch
      obtain ⟨x, xs, rfl⟩ := List.exists_cons_of_ne_nil (List.append_nil launched ▸ hcur)
      have hhead := hp.todo.symm.trans htodo
      simp at hhead
    | cons x toLaunch =>
      have hhead := hp.todo.symm.trans htodo
      simp only [List.map_cons, List.cons_append, List.cons.injEq, Instr.launch.injEq] at hhead
      obtain ⟨rfl, rfl⟩ := hhead
      obtain ⟨hidle, hpos⟩ := hp.launch hs
      exact ⟨hidle, past, launched ++ [x], toLaunch, after, by simpa using hpos⟩

theorem collect_inv (h : Inv dep w batches s) (ht : step s (.collect a) = some t) :
    Inv dep w batches t := by
  obtain ⟨rest, htodo, hf, rfl⟩ := step_collect ht
  rcases h.cases with ⟨past, hp, hnil⟩ | ⟨past, launched, toLaunch, after, hp, hcur⟩
  · rw [hnil] at htodo
    cases htodo
  · cases toLaunch with
    | cons x toLaunch =>
      have hhead := hp.todo.symm.trans htodo
      simp at hhead
    | nil =>
      obtain ⟨x, xs, rfl⟩ := List.exists_cons_of_ne_nil (List.append_nil launched ▸ hcur)
      have hhead := hp.todo.symm.trans htodo
      simp only [List.map_nil, List.append_nil, List.nil_append, List.map_cons, List.cons_append,
        List.cons.injEq, Instr.collect.injEq] at hhead
      obtain ⟨rfl, rfl⟩ := hhead
      exact ⟨past ++ [x], xs, [], after, hp.collect hf⟩

theorem finish_inv (h : Inv dep w batches s) (ht : step s (.finish a) = some t) :
    Inv dep w batches t := by
  obtain ⟨ha, rfl⟩ := step_finish ht
  obtain ⟨past, launched, toLaunch, after, hp⟩ := h
  exact ⟨past, launched, toLaunch, after, hp.finish ha⟩

theorem step_inv (hs : Schedule dep w batches) (h : Inv dep w batches s) {l : Label α}
    (ht : step s l = some t) : Inv dep w batches t := by
  cases l with
  | launch a => exact (launch_inv hs h ht).2
  | finish a => exact finish_inv h ht
  | collect a => exact collect_inv h ht

/-! ### What every run satisfies -/

theorem run_inv (hs : Schedule dep w batches) {tr : List (Label α)}
    (h : Trace.run step (start batches) tr = some s) : Inv dep w batches s :=
  Trace.run_invariant (fun _ s => Inv dep w batches s) (start_inv hs)
    (fun _ _ _ _ _ hi ht => step_inv hs hi ht) h

/-- What an active or finished job depends on, directly or not, has finished. -/
theorem Inv.deps_finished (h : Inv dep w batches s) (ha : s.status a ≠ .idle)
    (hd : TransGen dep a b) : s.status b = .finished := by
  obtain ⟨past, launched, toLaunch, after, hp⟩ := h
  have hclosed : ∀ x y, TransGen dep x y → x ∈ past → y ∈ past := by
    intro x y hxy hx
    induction hxy with
    | single hd => exact hp.past_deps x hx _ hd
    | tail _ hd ih => exact hp.past_deps _ ih _ hd
  have hmem : a ∈ past ∨ a ∈ launched := by
    by_contra hn
    exact ha (hp.idle a (fun hm => hn (Or.inl hm)) fun hm => hn (Or.inr hm))
  apply hp.finished b
  rcases hmem with hm | hm
  · exact hclosed a b hd hm
  · rcases TransGen.head'_iff.mp hd with ⟨c, hc, hcb⟩
    have hcp := hp.cur_deps a (List.mem_append_left _ hm) c hc
    rcases reflTransGen_iff_eq_or_transGen.mp hcb with rfl | hcb
    · exact hcp
    · exact hclosed c b hcb hcp

theorem Inv.active_le (h : Inv dep w batches s) {l : List α} (hl : l.Nodup)
    (hact : ∀ x ∈ l, s.status x = .active) : l.length ≤ w := by
  obtain ⟨past, launched, toLaunch, after, hp⟩ := h
  have hsub : l ⊆ launched := by
    intro x hx
    by_contra hn
    have hact := hact x hx
    by_cases hm : x ∈ past
    · rw [hp.finished x hm] at hact
      cases hact
    · rw [hp.idle x hm hn] at hact
      cases hact
  have hle := (List.subperm_of_subset hl hsub).length_le
  have hw := hp.width
  rw [List.length_append] at hw
  omega

/-- A job is launched at most once, and once it is not idle exactly once. -/
theorem run_launch_count (hs : Schedule dep w batches) {tr : List (Label α)}
    (h : Trace.run step (start batches) tr = some s) (a : α) :
    tr.count (.launch a) = if s.status a = .idle then 0 else 1 := by
  refine Trace.run_invariant
    (fun tr s => tr.count (.launch a) = if s.status a = .idle then 0 else 1) ?_ ?_ h
  · simp [start]
  · intro tr m l u hm hc ht
    rw [List.count_append, hc]
    cases l with
    | launch b =>
      obtain ⟨hidle, -⟩ := launch_inv hs (run_inv hs hm) ht
      obtain ⟨rest, -, rfl⟩ := step_launch ht
      by_cases he : a = b
      · subst he
        simp [hidle]
      · simp [Function.update_of_ne he, Ne.symm he]
    | finish b =>
      obtain ⟨hb, rfl⟩ := step_finish ht
      by_cases he : a = b
      · subst he
        simp [hb]
      · simp [Function.update_of_ne he]
    | collect b =>
      obtain ⟨rest, -, -, rfl⟩ := step_collect ht
      simp

end SocValidation.ForkJoin
