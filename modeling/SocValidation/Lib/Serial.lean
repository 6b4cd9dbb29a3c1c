import Mathlib
import SocValidation.Lib.Program

/-!
# Programs that run at the same time, and one after another

Clients run their programs over shared objects, call by call and in any order. If no
two that run at the same time may call the same object, everything is as if each of
them had run as a whole at the moment of its end. The order of the ends does not matter
either, as long as clients that share objects end in the same order.
-/

namespace SocValidation

/-! ### Folds over two orders of one list -/

section Reorder
variable {α σ : Type*} {step : σ → α → σ} {s : σ} {a : α} {xs ys l₁ l₂ : List α}

theorem foldl_cons_middle (h : ∀ x ∈ xs, ∀ t, step (step t x) a = step (step t a) x) :
    (xs ++ a :: ys).foldl step s = (a :: (xs ++ ys)).foldl step s := by
  induction xs generalizing s with
  | nil => rfl
  | cons x xs ih =>
    rw [List.cons_append, List.foldl_cons, ih fun y hy => h y (List.mem_cons_of_mem x hy)]
    simp only [List.foldl_cons, List.cons_append, h x List.mem_cons_self]

/-- Two orders in which nothing comes before what it depends on give the same fold if
elements of which none depends on the other commute. -/
theorem foldl_reorder {dep : α → α → Prop} (hperm : l₁.Perm l₂) (hnodup : l₁.Nodup)
    (h₁ : l₁.Pairwise fun a b => ¬dep a b) (h₂ : l₂.Pairwise fun a b => ¬dep a b)
    (hcomm : ∀ a ∈ l₁, ∀ b ∈ l₁, a ≠ b → ¬dep a b → ¬dep b a →
      ∀ t, step (step t a) b = step (step t b) a) :
    l₁.foldl step s = l₂.foldl step s := by
  induction l₁ generalizing l₂ s with
  | nil => rw [List.nil_perm.mp hperm]
  | cons a l ih =>
    obtain ⟨xs, ys, rfl⟩ := List.append_of_mem (hperm.subset List.mem_cons_self)
    obtain ⟨ha, hl⟩ := List.nodup_cons.mp hnodup
    obtain ⟨hafter, hl₁⟩ := List.pairwise_cons.mp h₁
    have hrest : l.Perm (xs ++ ys) := (List.perm_cons a).mp (hperm.trans List.perm_middle)
    -- what the second order has before `a` commutes with it
    have hpast : ∀ x ∈ xs, ∀ t, step (step t x) a = step (step t a) x := by
      intro x hx t
      have hxl : x ∈ l := hrest.symm.subset (List.mem_append_left ys hx)
      have hne : x ≠ a := fun he => ha (he ▸ hxl)
      have hxa : ¬dep x a := (List.pairwise_append.mp h₂).2.2 x hx a List.mem_cons_self
      exact hcomm x (List.mem_cons_of_mem a hxl) a List.mem_cons_self hne hxa (hafter x hxl) t
    have hl₂ : (xs ++ ys).Pairwise fun a b => ¬dep a b :=
      h₂.sublist (List.Sublist.append_left (List.sublist_cons_self a ys) xs)
    rw [foldl_cons_middle hpast, List.foldl_cons, List.foldl_cons]
    refine ih hrest hl hl₁ hl₂ fun b hb c hc => ?_
    exact hcomm b (List.mem_cons_of_mem a hb) c (List.mem_cons_of_mem a hc)

end Reorder

namespace Program

variable {ν ι κ ρ ε τ : Type*} [DecidableEq ι] [DecidableEq ν]

/- Who the clients are: what each runs and the objects that it may call. -/
structure Clients (ν ι κ ρ ε : Type*) where
  program : ν → Program (ι × κ) ρ ε
  reach : ν → Set ι
  within : ∀ n, (program n).Within (reach n)

variable (c : Clients ν ι κ ρ ε) (obj : ι → κ → τ → ρ × τ)

/-! ### One after another -/

/- The objects, and what each client that has run came to. -/
def Clients.whole (s : (ι → τ) × (ν → Option ε)) (n : ν) : (ι → τ) × (ν → Option ε) :=
  (((c.program n).run (serve obj) s.1).2,
    Function.update s.2 n (some ((c.program n).run (serve obj) s.1).1))

def Clients.serial (init : ι → τ) (order : List ν) : (ι → τ) × (ν → Option ε) :=
  order.foldl (c.whole obj) (init, fun _ => none)

variable {c obj} {init x : ι → τ} {order order' : List ν} {n a b : ν}
variable {running : ν → Option (Program (ι × κ) ρ ε)}

theorem Clients.serial_concat (n : ν) :
    c.serial obj init (order ++ [n]) = c.whole obj (c.serial obj init order) n := by
  rw [serial, List.foldl_append]
  rfl

theorem Clients.whole_comm (hne : a ≠ b) (hdisj : Disjoint (c.reach a) (c.reach b))
    (s : (ι → τ) × (ν → Option ε)) :
    c.whole obj (c.whole obj s a) b = c.whole obj (c.whole obj s b) a := by
  have hframe : ∀ n i x, i ∉ c.reach n → ((c.program n).run (serve obj) x).2 i = x i :=
    fun n i x hi => (c.within n).run_frame hi
  obtain ⟨houtb, hb⟩ := (c.within b).run_local obj fun i hi =>
    hframe a i s.1 fun ha => Set.disjoint_left.mp hdisj ha hi
  obtain ⟨houta, ha⟩ := (c.within a).run_local obj fun i hi =>
    hframe b i s.1 fun hb => Set.disjoint_left.mp hdisj hi hb
  refine Prod.ext (funext fun i => ?_) ?_
  · simp only [whole]
    by_cases hib : i ∈ c.reach b
    · rw [hb hib, hframe a i _ fun hia => Set.disjoint_left.mp hdisj hia hib]
    · rw [hframe b i _ hib]
      by_cases hia : i ∈ c.reach a
      · rw [ha hia]
      · rw [hframe a i _ hia, hframe a i _ hia, hframe b i _ hib]
  · simp only [whole, houtb, houta]
    exact Function.update_comm hne _ _ _

/-- Orders that keep to the dependencies are all the same, if clients that share an
object depend on each other. -/
theorem Clients.serial_reorder {dep : ν → ν → Prop} (hperm : order.Perm order')
    (hnodup : order.Nodup) (h : order.Pairwise fun a b => ¬dep a b)
    (h' : order'.Pairwise fun a b => ¬dep a b)
    (hshare : ∀ a ∈ order, ∀ b ∈ order, a ≠ b →
      Disjoint (c.reach a) (c.reach b) ∨ dep a b ∨ dep b a) :
    c.serial obj init order = c.serial obj init order' := by
  refine foldl_reorder hperm hnodup h h' fun a ha b hb hne hab hba s => ?_
  rcases hshare a ha b hb hne with hdisj | hdep | hdep
  · exact c.whole_comm hne hdisj s
  · exact absurd hdep hab
  · exact absurd hdep hba

/-- Where no two share an object, each client comes to what it comes to alone, and leaves
its objects so. -/
theorem Clients.serial_alone (hnodup : order.Nodup)
    (hapart : ∀ a ∈ order, ∀ b ∈ order, a ≠ b → Disjoint (c.reach a) (c.reach b)) (hn : n ∈ order) :
    (c.serial obj init order).2 n = some ((c.program n).run (serve obj) init).1 ∧
      Set.EqOn (c.serial obj init order).1 ((c.program n).run (serve obj) init).2 (c.reach n) := by
  have hframe : ∀ l : List ν, ∀ i, (∀ m ∈ l, i ∉ c.reach m) → (c.serial obj init l).1 i = init i := by
    intro l i hi
    induction l using List.reverseRecOn with
    | nil => rfl
    | append_singleton l m ih =>
      rw [serial_concat]
      refine ((c.within m).run_frame (hi m (by simp))).trans (ih fun k hk => hi k ?_)
      exact List.mem_append_left _ hk
  induction order using List.reverseRecOn with
  | nil => cases hn
  | append_singleton l m ih =>
    obtain ⟨hl, -, hlast⟩ := List.nodup_append.mp hnodup
    have hmem : ∀ k ∈ l, k ∈ l ++ [m] := fun k hk => List.mem_append_left _ hk
    have hne : ∀ k ∈ l, k ≠ m := fun k hk => hlast k hk m (List.mem_singleton_self m)
    have hm : m ∈ l ++ [m] := List.mem_append_right _ (List.mem_singleton_self m)
    rw [serial_concat]
    by_cases hnm : n = m
    · subst hnm
      -- the clients before leave its objects alone
      have hsame : Set.EqOn (c.serial obj init l).1 init (c.reach n) := fun i hi =>
        hframe l i fun k hk hik =>
          Set.disjoint_left.mp (hapart k (hmem k hk) n hm (hne k hk)) hik hi
      obtain ⟨hout, hobjects⟩ := (c.within n).run_local obj hsame
      exact ⟨(Function.update_self ..).trans (congrArg some hout), hobjects⟩
    · have hnl : n ∈ l := by
        rcases List.mem_append.mp hn with hnl | hnl
        · exact hnl
        · exact absurd (List.mem_singleton.mp hnl) hnm
      obtain ⟨hout, hobjects⟩ := ih hl (fun a ha b hb => hapart a (hmem a ha) b (hmem b hb)) hnl
      refine ⟨(Function.update_of_ne hnm _ _).trans hout, fun i hi => ?_⟩
      refine ((c.within m).run_frame fun him => ?_).trans (hobjects hi)
      exact Set.disjoint_left.mp (hapart n hn m hm hnm) hi him

/-! ### At the same time -/

/- `running` has what is left of the programs that run, `order` the clients whose
programs have ended. What a running program makes of the objects from here on is what it
makes of them as a whole after the ones of `order`. -/
structure Clients.Serial (c : Clients ν ι κ ρ ε) (obj : ι → κ → τ → ρ × τ) (init : ι → τ)
    (order : List ν) (x : ι → τ) (running : ν → Option (Program (ι × κ) ρ ε)) : Prop where
  apart : ∀ a b, a ≠ b → (running a).isSome → (running b).isSome →
    Disjoint (c.reach a) (c.reach b)
  within : ∀ n p, running n = some p → p.Within (c.reach n)
  free : ∀ i, (∀ n, (running n).isSome → i ∉ c.reach n) → x i = (c.serial obj init order).1 i
  ahead : ∀ n p, running n = some p →
    (p.run (serve obj) x).1 = ((c.program n).run (serve obj) (c.serial obj init order).1).1 ∧
      Set.EqOn (p.run (serve obj) x).2
        ((c.program n).run (serve obj) (c.serial obj init order).1).2 (c.reach n)

namespace Clients

theorem serial_start (c : Clients ν ι κ ρ ε) (obj : ι → κ → τ → ρ × τ) (init : ι → τ) :
    c.Serial obj init [] init fun _ => none where
  apart := fun _ _ _ h => nomatch h
  within := fun _ _ h => nomatch h
  free := fun _ _ => rfl
  ahead := fun _ _ h => nomatch h

theorem Serial.launch (h : c.Serial obj init order x running)
    (hdisj : ∀ m, m ≠ n → (running m).isSome → Disjoint (c.reach n) (c.reach m))
    (hidle : running n = none) :
    c.Serial obj init order x (Function.update running n (some (c.program n))) := by
  have hrun : ∀ m, m ≠ n → Function.update running n (some (c.program n)) m = running m :=
    fun m hm => Function.update_of_ne hm _ _
  refine ⟨fun a b hab ha hb => ?_, fun m p hp => ?_, fun i hi => ?_, fun m p hp => ?_⟩
  · by_cases han : a = n
    · subst han
      rw [hrun b hab.symm] at hb
      exact hdisj b hab.symm hb
    · rw [hrun a han] at ha
      by_cases hbn : b = n
      · subst hbn
        exact (hdisj a han ha).symm
      · rw [hrun b hbn] at hb
        exact h.apart a b hab ha hb
  · by_cases hm : m = n
    · subst hm
      rw [Function.update_self] at hp
      exact Option.some.inj hp ▸ c.within m
    · exact h.within m p (hrun m hm ▸ hp)
  · refine h.free i fun m hm => hi m ?_
    have hne : m ≠ n := fun he => by
      rw [he, hidle] at hm
      cases hm
    rwa [hrun m hne]
  · by_cases hm : m = n
    · subst hm
      rw [Function.update_self] at hp
      obtain rfl := Option.some.inj hp
      refine (c.within m).run_local obj fun i hi => h.free i fun b hb => ?_
      have hne : b ≠ m := fun he => by
        rw [he, hidle] at hb
        cases hb
      exact Set.disjoint_left.mp (hdisj b hne hb) hi
    · exact h.ahead m p (hrun m hm ▸ hp)

theorem Serial.call {k : ι × κ} {next : ρ → Program (ι × κ) ρ ε}
    (h : c.Serial obj init order x running) (hn : running n = some (.call k next)) :
    c.Serial obj init order (serve obj k x).2
      (Function.update running n (some (next (serve obj k x).1))) := by
  have hrun : ∀ m, m ≠ n →
      Function.update running n (some (next (serve obj k x).1)) m = running m :=
    fun m hm => Function.update_of_ne hm _ _
  have hsome : ∀ m, (Function.update running n (some (next (serve obj k x).1)) m).isSome =
      (running m).isSome := by
    intro m
    by_cases hm : m = n
    · rw [hm, Function.update_self, hn]
      rfl
    · rw [hrun m hm]
  have hk := (h.within n _ hn).1
  have hother : ∀ i, i ≠ k.1 → (serve obj k x).2 i = x i := fun i hi =>
    Function.update_of_ne hi _ _
  refine ⟨fun a b hab ha hb => ?_, fun m p hp => ?_, fun i hi => ?_, fun m p hp => ?_⟩
  · rw [hsome] at ha hb
    exact h.apart a b hab ha hb
  · by_cases hm : m = n
    · subst hm
      rw [Function.update_self] at hp
      exact Option.some.inj hp ▸ (h.within m _ hn).2 _
    · exact h.within m p (hrun m hm ▸ hp)
  · have hne : i ≠ k.1 := fun he => hi n (by rw [hsome, hn]; rfl) (he ▸ hk)
    rw [hother i hne]
    exact h.free i fun m hm => hi m (by rwa [hsome])
  · by_cases hm : m = n
    · subst hm
      rw [Function.update_self] at hp
      obtain rfl := Option.some.inj hp
      exact h.ahead m _ hn
    · rw [hrun m hm] at hp
      obtain ⟨hout, hobjects⟩ := h.ahead m p hp
      have hdisj := h.apart m n hm (by rw [hp]; rfl) (by rw [hn]; rfl)
      have hsame : Set.EqOn (serve obj k x).2 x (c.reach m) := fun i hi =>
        hother i fun he => Set.disjoint_left.mp hdisj hi (he ▸ hk)
      obtain ⟨hout', hobjects'⟩ := (h.within m p hp).run_local obj hsame
      exact ⟨hout'.trans hout, fun i hi => (hobjects' hi).trans (hobjects hi)⟩

/- The program that ends is the next of the order. -/
theorem Serial.finish {out : ε} (h : c.Serial obj init order x running)
    (hn : running n = some (.ret out)) :
    (c.serial obj init (order ++ [n])).2 n = some out ∧
      c.Serial obj init (order ++ [n]) x (Function.update running n none) := by
  have hrun : ∀ m, m ≠ n → Function.update running n none m = running m :=
    fun m hm => Function.update_of_ne hm _ _
  have hgone : ∀ m, (Function.update running n none m).isSome → m ≠ n := fun m hm he => by
    rw [he, Function.update_self] at hm
    cases hm
  obtain ⟨hout, hobjects⟩ := h.ahead n _ hn
  have hkeep : ∀ i, i ∉ c.reach n →
      (c.serial obj init (order ++ [n])).1 i = (c.serial obj init order).1 i := fun i hi => by
    rw [serial_concat]
    exact (c.within n).run_frame hi
  refine ⟨?_, fun a b hab ha hb => ?_, fun m p hp => ?_, fun i hi => ?_, fun m p hp => ?_⟩
  · rw [serial_concat]
    simp only [whole, Function.update_self, ← hout]
    rfl
  · have han := hgone a ha
    have hbn := hgone b hb
    rw [hrun a han] at ha
    rw [hrun b hbn] at hb
    exact h.apart a b hab ha hb
  · have hm := hgone m (by rw [hp]; rfl)
    exact h.within m p (hrun m hm ▸ hp)
  · by_cases hin : i ∈ c.reach n
    · rw [serial_concat]
      exact hobjects hin
    · rw [hkeep i hin]
      refine h.free i fun m hm => ?_
      by_cases hmn : m = n
      · rwa [hmn]
      · exact hi m (by rwa [hrun m hmn])
  · have hm := hgone m (by rw [hp]; rfl)
    rw [hrun m hm] at hp
    obtain ⟨hout', hobjects'⟩ := h.ahead m p hp
    have hdisj := h.apart m n hm (by rw [hp]; rfl) (by rw [hn]; rfl)
    have hsame : Set.EqOn (c.serial obj init order).1 (c.serial obj init (order ++ [n])).1
        (c.reach m) := fun i hi =>
      (hkeep i fun hin => Set.disjoint_left.mp hdisj hi hin).symm
    obtain ⟨hsameOut, hsameObjects⟩ := (c.within m).run_local obj hsame
    exact ⟨hout'.trans hsameOut, fun i hi => (hobjects' hi).trans (hsameObjects hi)⟩

end Clients
end Program
end SocValidation
