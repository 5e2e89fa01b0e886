import Mathlib

/-!
# Replacing what owners hold, one owner at a time

Every owner holds a value, and a value in an owner's hands takes up a set of
names. A batch gives owners new values one after the other; each is refused
where another owner takes up one of its names at that moment. A batch whose
new values are disjoint goes through if and only if every name it moves is
given up before it is taken.
-/

namespace Cograph.Owners

variable {ι V ν : Type} [DecidableEq ι] (names : ι → V → Set ν)

/-- No other owner takes up a name of `v`. -/
def Free (s : ι → V) (i : ι) (v : V) : Prop := ∀ j, j ≠ i → Disjoint (names j (s j)) (names i v)

open Classical in
noncomputable def step (s : ι → V) (x : ι × V) : ι → V :=
  if Free names s x.1 x.2 then Function.update s x.1 x.2 else s

noncomputable def run (s : ι → V) (jobs : List (ι × V)) : ι → V := jobs.foldl (step names) s

open Classical in
/-- The jobs that are refused, in their order. -/
noncomputable def refused : (ι → V) → List (ι × V) → List (ι × V)
  | _, [] => []
  | s, x :: jobs => (if Free names s x.1 x.2 then [] else [x]) ++ refused (step names s x) jobs

variable {names} {s : ι → V} {x : ι × V} {jobs : List (ι × V)}

theorem step_free (h : Free names s x.1 x.2) : step names s x = Function.update s x.1 x.2 := by
  simp [step, h]

theorem refused_cons_nil : refused names s (x :: jobs) = [] ↔
    Free names s x.1 x.2 ∧ refused names (Function.update s x.1 x.2) jobs = [] := by
  by_cases h : Free names s x.1 x.2
  · simp [refused, step_free h, h]
  · simp [refused, h]

theorem refused_append {jobs' : List (ι × V)} :
    refused names s (jobs ++ jobs') = refused names s jobs ++ refused names (run names s jobs) jobs' := by
  induction jobs generalizing s with
  | nil => simp [refused, run]
  | cons x jobs ih => simp [refused, run, ih]

theorem run_other (hnil : refused names s jobs = []) {i : ι} (hi : i ∉ jobs.map (·.1)) : run names s jobs i = s i := by
  induction jobs generalizing s with
  | nil => rfl
  | cons x jobs ih =>
    obtain ⟨hfree, hrest⟩ := refused_cons_nil.mp hnil
    simp only [List.map_cons, List.mem_cons, not_or] at hi
    rw [run, List.foldl_cons, step_free hfree]
    exact (ih hrest hi.2).trans (Function.update_of_ne hi.1 _ _)

theorem run_mem (hnil : refused names s jobs = []) (hnodup : (jobs.map (·.1)).Nodup) (hx : x ∈ jobs) :
    run names s jobs x.1 = x.2 := by
  induction jobs generalizing s with
  | nil => cases hx
  | cons y jobs ih =>
    obtain ⟨hfree, hrest⟩ := refused_cons_nil.mp hnil
    rw [List.map_cons, List.nodup_cons] at hnodup
    rw [run, List.foldl_cons, step_free hfree]
    rcases List.mem_cons.mp hx with rfl | hx
    · exact (run_other hrest hnodup.1).trans (Function.update_self ..)
    · exact ih hrest hnodup.2 hx

theorem step_cases (s : ι → V) (x : ι × V) (i : ι) : step names s x i = s i ∨ i = x.1 ∧ step names s x i = x.2 := by
  by_cases h : Free names s x.1 x.2
  · rw [step_free h]
    by_cases hi : i = x.1
    · right
      exact ⟨hi, by rw [hi, Function.update_self]⟩
    · left
      exact Function.update_of_ne hi _ _
  · left
    simp [step, h]

/-- **A batch goes through if and only if no job takes a name that an owner,
not yet replaced, still holds.** -/
theorem refused_nil_iff (hnodup : (jobs.map (·.1)).Nodup)
    (hnew : jobs.Pairwise fun x y => Disjoint (names x.1 x.2) (names y.1 y.2)) :
    refused names s jobs = [] ↔ ∀ pre x post, jobs = pre ++ x :: post →
      ∀ j, j ≠ x.1 → j ∉ pre.map (·.1) → Disjoint (names j (s j)) (names x.1 x.2) := by
  induction jobs generalizing s with
  | nil => simp [refused]
  | cons y jobs ih =>
    rw [List.map_cons, List.nodup_cons] at hnodup
    rw [List.pairwise_cons] at hnew
    rw [refused_cons_nil, ih hnodup.2 hnew.2]
    constructor
    · intro hboth pre x post he j hj hpre
      obtain ⟨hfree, hrest⟩ := hboth
      cases pre with
      | nil =>
        cases he
        exact hfree j hj
      | cons z pre =>
        cases he
        simp only [List.map_cons, List.mem_cons, not_or] at hpre
        have := hrest pre x post rfl j hj hpre.2
        rwa [Function.update_of_ne hpre.1] at this
    · intro hall
      refine ⟨fun j hj => hall [] y jobs rfl j hj (by simp), ?_⟩
      intro pre x post he j hj hpre
      by_cases hjy : j = y.1
      · -- what the first job gave its owner is disjoint from every later job
        subst hjy
        rw [Function.update_self]
        exact hnew.1 x (by simp [he])
      · rw [Function.update_of_ne hjy]
        refine hall (y :: pre) x post (by rw [he, List.cons_append]) j hj ?_
        simp only [List.map_cons, List.mem_cons, not_or]
        exact ⟨hjy, hpre⟩

end Cograph.Owners
