import Mathlib

/-!
# The first rows of a ranking

Rows sorted by a key and cut after the first of them. A row is kept when fewer
rows are ahead of it than the cut keeps, whatever order the rows came in.
-/

namespace Cograph.Ranked

section
variable {α : Type} [LinearOrder α]

def sorted (l : List α) : List α := l.insertionSort (· ≤ ·)

@[simp] theorem mem_sorted {a : α} {l : List α} : a ∈ sorted l ↔ a ∈ l := List.mem_insertionSort _

theorem sorted_perm {l l' : List α} (h : l.Perm l') : sorted l = sorted l' := by
  unfold sorted
  have hperm : (l.insertionSort (· ≤ ·)).Perm (l'.insertionSort (· ≤ ·)) :=
    (List.perm_insertionSort _ l).trans (h.trans (List.perm_insertionSort _ l').symm)
  exact hperm.eq_of_pairwise' (List.pairwise_insertionSort _ l) (List.pairwise_insertionSort _ l')

/-- Rows without repetition are sorted into the same list when they are the
same rows. -/
theorem sorted_same_iff {l l' : List α} (h : l.Nodup) (h' : l'.Nodup) :
    sorted l = sorted l' ↔ ∀ a, a ∈ l ↔ a ∈ l' := by
  constructor
  · intro he a
    rw [← mem_sorted, he, mem_sorted]
  · intro hmem
    exact sorted_perm ((List.perm_ext_iff_of_nodup h h').mpr hmem)

end

section
variable {α κ ν : Type} [LinearOrder κ] (key : α → κ)

def ranked (l : List α) : List α := l.insertionSort fun a b => key a ≤ key b

/-- The first `n` rows by their keys. -/
def top (n : Nat) (l : List α) : List α := (ranked key l).take n

/-- How many rows come before `a`. -/
def ahead (l : List α) (a : α) : Nat := (l.filter (key · < key a)).length

/-- A row of that name has fewer than `n` rows ahead. -/
def Kept (name : α → ν) (n : Nat) (l : List α) (p : ν) : Prop := ∃ a ∈ l, name a = p ∧ ahead key l a < n

variable {key}

theorem ranked_perm (l : List α) : (ranked key l).Perm l := List.perm_insertionSort _ l

theorem ahead_perm {l l' : List α} (h : l.Perm l') (a : α) : ahead key l a = ahead key l' a :=
  (h.filter _).length_eq

theorem ranked_pairwise {l : List α} (h : (l.map key).Nodup) : (ranked key l).Pairwise fun a b => key a < key b := by
  have hle : (ranked key l).Pairwise fun a b => key a ≤ key b := by
    have : Std.Total fun a b => key a ≤ key b := ⟨fun a b => le_total _ _⟩
    have : IsTrans α fun a b => key a ≤ key b := ⟨fun a b c => le_trans⟩
    exact List.pairwise_insertionSort _ l
  have hne : (ranked key l).Pairwise fun a b => key a ≠ key b :=
    List.pairwise_map.mp (((ranked_perm l).map key).nodup_iff.mpr h)
  exact (hle.and hne).imp fun hab => lt_of_le_of_ne hab.1 hab.2

theorem mem_take_iff {l : List α} (h : l.Pairwise fun a b => key a < key b) (n : Nat) (a : α) :
    a ∈ l.take n ↔ a ∈ l ∧ ahead key l a < n := by
  induction l generalizing n with
  | nil => simp
  | cons x l ih =>
    obtain ⟨hx, hl⟩ := List.pairwise_cons.mp h
    cases n with
    | zero => simp
    | succ n =>
      rw [List.take_succ_cons, List.mem_cons, ih hl, List.mem_cons]
      by_cases hax : a = x
      · have hnone : ahead key (x :: l) a = 0 := by
          subst hax
          unfold ahead
          rw [List.length_eq_zero_iff, List.filter_eq_nil_iff]
          intro b hb
          rcases List.mem_cons.mp hb with rfl | hb
          · simp
          · simpa using (hx b hb).le
        simp [hax, hax ▸ hnone]
      · by_cases hal : a ∈ l
        · have hmore : ahead key (x :: l) a = ahead key l a + 1 := by
            unfold ahead
            rw [List.filter_cons, if_pos (by simpa using hx a hal), List.length_cons]
          simp [hax, hal, hmore]
        · simp [hax, hal]

theorem mem_top_iff {l : List α} (h : (l.map key).Nodup) (n : Nat) (a : α) :
    a ∈ top key n l ↔ a ∈ l ∧ ahead key l a < n := by
  unfold top
  rw [mem_take_iff (ranked_pairwise h), (ranked_perm l).mem_iff, ahead_perm (ranked_perm l)]

theorem top_nodup {l : List α} {β : Type} {f : α → β} (h : (l.map f).Nodup) (n : Nat) : ((top key n l).map f).Nodup :=
  (((ranked_perm l).map f).nodup_iff.mpr h).sublist ((List.take_sublist n _).map f)

theorem kept_all {name : α → ν} {l : List α} {n : Nat} (h : l.length ≤ n) (p : ν) :
    Kept key name n l p ↔ p ∈ l.map name := by
  unfold Kept
  rw [List.mem_map]
  refine exists_congr fun a => and_congr_right fun ha => and_iff_left_of_imp fun _ => ?_
  have hlt : (l.filter (key · < key a)).length < l.length :=
    List.length_filter_lt_length_iff_exists.mpr ⟨a, ha, by simp⟩
  unfold ahead
  omega

end

section
variable {α κ ν β : Type} [LinearOrder κ] {key : α → κ} {view : α → β} {name : β → ν} {l : List α}

theorem mem_view_iff (hkey : (l.map key).Nodup) (hname : ((l.map view).map name).Nodup) (n : Nat) (v : β) :
    v ∈ (top key n l).map view ↔ v ∈ l.map view ∧ Kept key (fun a => name (view a)) n l (name v) := by
  rw [List.map_map] at hname
  simp only [List.mem_map, mem_top_iff hkey]
  constructor
  · rintro ⟨a, ⟨ha, hahead⟩, rfl⟩
    exact ⟨⟨a, ha, rfl⟩, a, ha, rfl, hahead⟩
  · rintro ⟨⟨a, ha, rfl⟩, b, hb, hab, hahead⟩
    obtain rfl : b = a := List.inj_on_of_nodup_map hname hb ha hab
    exact ⟨b, ⟨hb, hahead⟩, rfl⟩

end

section
variable {α α' κ κ' ν β : Type} [LinearOrder κ] [LinearOrder κ'] [LinearOrder β]
  {key : α → κ} {key' : α' → κ'} {view : α → β} {view' : α' → β} {name : β → ν} {l : List α} {l' : List α'}

/-- **Views of a cut.** Two lists of rows with the same views are cut to the
same views when the cuts keep the same names. -/
theorem cut_same_iff (hkey : (l.map key).Nodup) (hkey' : (l'.map key').Nodup)
    (hname : ((l.map view).map name).Nodup) (hname' : ((l'.map view').map name).Nodup)
    (hsame : ∀ v, v ∈ l.map view ↔ v ∈ l'.map view') (n : Nat) :
    sorted ((top key n l).map view) = sorted ((top key' n l').map view') ↔
      ∀ p, Kept key (fun a => name (view a)) n l p ↔ Kept key' (fun a => name (view' a)) n l' p := by
  have hl : ((top key n l).map view).Nodup := top_nodup hname.of_map n
  have hl' : ((top key' n l').map view').Nodup := top_nodup hname'.of_map n
  rw [sorted_same_iff hl hl']
  constructor
  · intro h p
    constructor
    · rintro ⟨a, ha, rfl, hahead⟩
      have hin : view a ∈ (top key n l).map view :=
        (mem_view_iff hkey hname n _).mpr ⟨List.mem_map_of_mem ha, a, ha, rfl, hahead⟩
      exact ((mem_view_iff hkey' hname' n _).mp ((h _).mp hin)).2
    · rintro ⟨a, ha, rfl, hahead⟩
      have hin : view' a ∈ (top key' n l').map view' :=
        (mem_view_iff hkey' hname' n _).mpr ⟨List.mem_map_of_mem ha, a, ha, rfl, hahead⟩
      exact ((mem_view_iff hkey hname n _).mp ((h _).mpr hin)).2
  · intro h v
    rw [mem_view_iff hkey hname, mem_view_iff hkey' hname', hsame v, h (name v)]

end

end Cograph.Ranked
