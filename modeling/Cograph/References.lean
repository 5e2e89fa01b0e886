import Mathlib.Data.List.Basic

/-!
# Rows that refer to rows

A row has a key, the parents it depends on and the links it merely holds. Who
deletes a key deletes the rows that depend on it with it, and the rows that
hold it as a link lose that link (the two actions `ON DELETE CASCADE` and
`ON DELETE SET NULL` of a database). `delete` does so with a worklist, and
`delete_eq` says what is left: the rows that no deleted key is reached from.
-/

namespace Cograph.References

variable {K : Type}

structure Row (K : Type) where
  key : K
  parents : List K
  links : List K
  deriving DecidableEq, Repr

/-- The key goes when the keys of `ks` go. -/
inductive Reach (db : List (Row K)) (ks : List K) : K → Prop
  | root {k : K} (hk : k ∈ ks) : Reach db ks k
  | child {q : Row K} {p : K} (hq : q ∈ db) (hp : p ∈ q.parents) (h : Reach db ks p) : Reach db ks q.key

/-- Parents and links point at rows. -/
def Integrity (db : List (Row K)) : Prop :=
  ∀ row ∈ db, ∀ k, k ∈ row.parents ∨ k ∈ row.links → k ∈ db.map Row.key

variable {db db' : List (Row K)} {ks js : List K} {x : K} {row : Row K}

/-! ## Reachability -/

theorem Reach.mono (h : Reach db ks x) (hks : ∀ k ∈ ks, Reach db js k) : Reach db js x := by
  induction h with
  | root hk => exact hks _ hk
  | child hrow hp _ ih => exact .child hrow hp ih

/-- Rows of the same keys and parents reach the same. -/
theorem Reach.transport (h : Reach db ks x) (hrows : ∀ row ∈ db, ∃ row' ∈ db', row'.key = row.key ∧
    ∀ p ∈ row.parents, p ∈ row'.parents) : Reach db' ks x := by
  induction h with
  | root hk => exact .root hk
  | @child row p hrow hp _ ih =>
    obtain ⟨row', hrow', hkey, hparents⟩ := hrows row hrow
    rw [← hkey]
    exact .child hrow' (hparents p hp) ih

theorem reach_append : Reach db (ks ++ js) x ↔ Reach db ks x ∨ Reach db js x := by
  constructor
  · intro h
    induction h with
    | root hk =>
      obtain hk | hk := List.mem_append.1 hk
      · exact .inl (.root hk)
      · exact .inr (.root hk)
    | child hrow hp _ ih =>
      obtain h | h := ih
      · exact .inl (.child hrow hp h)
      · exact .inr (.child hrow hp h)
  · rintro (h | h)
    · exact h.mono fun k hk => .root (List.mem_append_left _ hk)
    · exact h.mono fun k hk => .root (List.mem_append_right _ hk)

theorem reach_any : Reach db ks x ↔ ∃ k ∈ ks, Reach db [k] x := by
  constructor
  · intro h
    induction h with
    | @root k hk => exact ⟨k, hk, .root (List.mem_singleton_self k)⟩
    | child hrow hp _ ih =>
      obtain ⟨k, hk, h⟩ := ih
      exact ⟨k, hk, .child hrow hp h⟩
  · rintro ⟨k, hk, h⟩
    refine h.mono fun j hj => ?_
    rw [List.mem_singleton.1 hj]
    exact .root hk

/-- What is reached and is no root is the key of a row. -/
theorem Reach.mem_keys (h : Reach db ks x) : x ∈ ks ∨ x ∈ db.map Row.key := by
  cases h with
  | root hk => exact .inl hk
  | child hrow _ _ => exact .inr (List.mem_map_of_mem hrow)

/-- From keys that are gone nothing is reached. -/
theorem Integrity.not_reach (h : Integrity db) (hks : ∀ k ∈ ks, k ∉ db.map Row.key) (hx : x ∈ db.map Row.key) :
    ¬Reach db ks x := by
  intro hreach
  induction hreach with
  | root hk => exact hks _ hk hx
  | child hrow hp _ ih => exact ih (h _ hrow _ (.inl hp))

/-- A fresh row goes just when one of its parents does. -/
theorem reach_insert (h : Integrity db) (hks : row.key ∉ ks) (hfresh : row.key ∉ db.map Row.key)
    (hparents : ∀ p ∈ row.parents, p ∈ db.map Row.key) :
    Reach (row :: db) ks x ↔ Reach db ks x ∨ x = row.key ∧ ∃ p ∈ row.parents, Reach db ks p := by
  constructor
  · intro hreach
    induction hreach with
    | root hk => exact .inl (.root hk)
    | @child q p hq hp _ ih =>
      have hne : p ≠ row.key := by
        rintro rfl
        obtain rfl | hq := List.mem_cons.1 hq
        · exact hfresh (hparents _ hp)
        · exact hfresh (h q hq _ (.inl hp))
      have hreach : Reach db ks p := ih.resolve_right fun h => hne h.1
      obtain rfl | hq := List.mem_cons.1 hq
      · exact .inr ⟨rfl, p, hp, hreach⟩
      · exact .inl (.child hq hp hreach)
  · have hmono : ∀ {y}, Reach db ks y → Reach (row :: db) ks y := fun hy =>
      hy.transport fun q hq => ⟨q, List.mem_cons_of_mem _ hq, rfl, fun p hp => hp⟩
    rintro (hreach | ⟨rfl, p, hp, hreach⟩)
    · exact hmono hreach
    · exact .child (List.mem_cons_self ..) hp (hmono hreach)

theorem reach_insert_old (h : Integrity db) (hks : row.key ∉ ks) (hfresh : row.key ∉ db.map Row.key)
    (hparents : ∀ p ∈ row.parents, p ∈ db.map Row.key) (hx : x ∈ db.map Row.key) :
    Reach (row :: db) ks x ↔ Reach db ks x := by
  rw [reach_insert h hks hfresh hparents]
  constructor
  · rintro (hreach | ⟨rfl, -⟩)
    · exact hreach
    · exact absurd hx hfresh
  · exact .inl

section
open Classical

/-- The row without its links to what goes with `ks`. -/
noncomputable def cut (db : List (Row K)) (ks : List K) (row : Row K) : Row K :=
  { row with links := row.links.filter fun k => ¬Reach db ks k }

theorem mem_cut_links {k : K} : k ∈ (cut db ks row).links ↔ k ∈ row.links ∧ ¬Reach db ks k := by
  classical
  simp [cut]

end

/-! ## Deletion -/

variable [DecidableEq K]

def Row.unlink (row : Row K) (k : K) : Row K := { row with links := row.links.filter (· ≠ k) }

/-- The rows that stay when a key goes, and the keys that go with it. -/
def keep (db : List (Row K)) (k : K) : List (Row K) :=
  (db.filter fun row => row.key ≠ k ∧ k ∉ row.parents).map (·.unlink k)

def children (db : List (Row K)) (k : K) : List K :=
  (db.filter fun row => row.key ≠ k ∧ k ∈ row.parents).map Row.key

/-- The worklist holds the keys that have still to go. -/
def deleteN : ℕ → List (Row K) → List K → List (Row K)
  | 0, db, _ => db
  | _, db, [] => db
  | n + 1, db, k :: ks => deleteN n (keep db k) (children db k ++ ks)

def delete (db : List (Row K)) (ks : List K) : List (Row K) := deleteN (db.length + ks.length) db ks

@[simp] theorem delete_nil (db : List (Row K)) : delete db [] = db := by
  unfold delete
  cases db with
  | nil => rfl
  | cons row db => rfl

theorem length_keep_add (db : List (Row K)) (k : K) : (keep db k).length + (children db k).length ≤ db.length := by
  induction db with
  | nil => exact Nat.le_refl _
  | cons row db ih =>
    unfold keep children at ih ⊢
    by_cases hkey : row.key = k
    · simp [hkey] at ih ⊢
      omega
    · by_cases hp : k ∈ row.parents
      · simp [hkey, hp] at ih ⊢
        omega
      · simp [hkey, hp] at ih ⊢
        omega

theorem mem_keep {k : K} : row ∈ keep db k ↔ ∃ q ∈ db, q.key ≠ k ∧ k ∉ q.parents ∧ row = q.unlink k := by
  unfold keep
  simp only [List.mem_map, List.mem_filter, decide_eq_true_eq]
  constructor
  · rintro ⟨q, ⟨hq, hne, hp⟩, rfl⟩
    exact ⟨q, hq, hne, hp, rfl⟩
  · rintro ⟨q, hq, hne, hp, rfl⟩
    exact ⟨q, ⟨hq, hne, hp⟩, rfl⟩

theorem mem_children {k : K} : x ∈ children db k ↔ ∃ q ∈ db, q.key ≠ k ∧ k ∈ q.parents ∧ q.key = x := by
  unfold children
  simp only [List.mem_map, List.mem_filter, decide_eq_true_eq]
  constructor
  · rintro ⟨q, ⟨hq, hne, hp⟩, hx⟩
    exact ⟨q, hq, hne, hp, hx⟩
  · rintro ⟨q, hq, hne, hp, hx⟩
    exact ⟨q, ⟨hq, hne, hp⟩, hx⟩

/-- **Step lemma.** Taking one key off the worklist changes nothing about what
goes in the end. -/
theorem reach_cons {k : K} : Reach db (k :: ks) x ↔ x = k ∨ Reach (keep db k) (children db k ++ ks) x := by
  constructor
  · intro h
    induction h with
    | root hk =>
      obtain rfl | hk := List.mem_cons.1 hk
      · exact .inl rfl
      · exact .inr (.root (List.mem_append_right _ hk))
    | @child row p hrow hp _ ih =>
      by_cases hkey : row.key = k
      · exact .inl hkey
      · right
        by_cases hparent : k ∈ row.parents
        · exact .root (List.mem_append_left _ (mem_children.2 ⟨row, hrow, hkey, hparent, rfl⟩))
        · obtain rfl | ih := ih
          · exact absurd hp hparent
          · exact Reach.child (q := row.unlink k) (mem_keep.2 ⟨row, hrow, hkey, hparent, rfl⟩) hp ih
  · rintro (rfl | h)
    · exact .root (List.mem_cons_self ..)
    · induction h with
      | root hk =>
        obtain hk | hk := List.mem_append.1 hk
        · obtain ⟨q, hq, -, hparent, rfl⟩ := mem_children.1 hk
          exact .child hq hparent (.root (List.mem_cons_self ..))
        · exact .root (List.mem_cons_of_mem _ hk)
      | child hrow hp _ ih =>
        obtain ⟨q, hq, -, -, rfl⟩ := mem_keep.1 hrow
        exact .child (q := q) hq hp ih

section
open Classical

theorem deleteN_eq : ∀ {n : ℕ} {db : List (Row K)} {ks : List K}, db.length + ks.length ≤ n →
    deleteN n db ks = (db.filter fun row => ¬Reach db ks row.key).map (cut db ks)
  | 0, db, ks, hn => by
    obtain rfl : db = [] := List.length_eq_zero_iff.1 (by omega)
    rfl
  | n + 1, db, [], hn => by
    have hnone : ∀ x, ¬Reach db [] x := by
      intro x h
      induction h with
      | root hk => cases hk
      | child _ _ _ ih => exact ih
    have hcut : cut db [] = id := by
      funext row
      simp [cut, hnone]
    simp [deleteN, hnone, hcut]
  | n + 1, db, k :: ks, hn => by
    have hlength := length_keep_add db k
    have hle : (keep db k).length + (children db k ++ ks).length ≤ n := by
      rw [List.length_append]
      rw [List.length_cons] at hn
      omega
    have hfilter : ∀ row ∈ db, (¬Reach (keep db k) (children db k ++ ks) row.key ∧ row.key ≠ k ∧ k ∉ row.parents) ↔
        ¬Reach db (k :: ks) row.key := by
      intro row hrow
      rw [reach_cons, not_or]
      constructor
      · rintro ⟨h, hne, -⟩
        exact ⟨hne, h⟩
      · rintro ⟨hne, h⟩
        refine ⟨h, hne, fun hparent => h (.root (List.mem_append_left _ ?_))⟩
        exact mem_children.2 ⟨row, hrow, hne, hparent, rfl⟩
    have hcut : cut (keep db k) (children db k ++ ks) ∘ (·.unlink k) = cut db (k :: ks) := by
      funext row
      simp only [Function.comp, cut, Row.unlink, List.filter_filter, reach_cons, not_or, ← Bool.decide_and, and_comm]
    rw [deleteN, deleteN_eq hle]
    calc ((keep db k).filter fun row => ¬Reach (keep db k) (children db k ++ ks) row.key).map
          (cut (keep db k) (children db k ++ ks))
      _ = ((db.filter fun row => row.key ≠ k ∧ k ∉ row.parents).filter fun row =>
            ¬Reach (keep db k) (children db k ++ ks) row.key).map (cut db (k :: ks)) := by
          rw [← hcut, ← List.map_map]
          congr 1
          exact List.filter_map ..
      _ = (db.filter fun row => ¬Reach db (k :: ks) row.key).map (cut db (k :: ks)) := by
          rw [List.filter_filter]
          congr 1
          refine List.filter_congr fun row hrow => ?_
          rw [← Bool.decide_and]
          exact decide_eq_decide.2 (hfilter row hrow)

/-- **What is left** is what no deleted key is reached from, without its links
to what is gone. -/
theorem delete_eq (db : List (Row K)) (ks : List K) :
    delete db ks = (db.filter fun row => ¬Reach db ks row.key).map (cut db ks) :=
  deleteN_eq (Nat.le_refl _)

/-! ## Laws -/

theorem mem_delete : row ∈ delete db ks ↔ ∃ q ∈ db, ¬Reach db ks q.key ∧ row = cut db ks q := by
  rw [delete_eq]
  simp only [List.mem_map, List.mem_filter, decide_eq_true_eq]
  constructor
  · rintro ⟨q, ⟨hq, hkey⟩, rfl⟩
    exact ⟨q, hq, hkey, rfl⟩
  · rintro ⟨q, hq, hkey, rfl⟩
    exact ⟨q, ⟨hq, hkey⟩, rfl⟩

theorem delete_congr (h : ∀ x, Reach db ks x ↔ Reach db js x) : delete db ks = delete db js := by
  rw [delete_eq, delete_eq]
  unfold cut
  simp only [h]

/-- What goes with two lists of keys goes with the first or, from what that
leaves, with the second. -/
theorem reach_delete : Reach db (ks ++ js) x ↔ Reach db ks x ∨ Reach (delete db ks) js x := by
  constructor
  · intro h
    induction h with
    | root hk =>
      obtain hk | hk := List.mem_append.1 hk
      · exact .inl (.root hk)
      · exact .inr (.root hk)
    | @child row p hrow hp _ ih =>
      by_cases hkey : Reach db ks row.key
      · exact .inl hkey
      · obtain ih | ih := ih
        · exact absurd (.child hrow hp ih) hkey
        · exact .inr (.child (q := cut db ks row) (mem_delete.2 ⟨row, hrow, hkey, rfl⟩) hp ih)
  · rintro (h | h)
    · exact reach_append.2 (.inl h)
    · refine reach_append.2 (.inr (h.transport fun row hrow => ?_))
      obtain ⟨q, hq, -, rfl⟩ := mem_delete.1 hrow
      exact ⟨q, hq, rfl, fun p hp => hp⟩

/-- **Deleting twice.** -/
theorem delete_append (db : List (Row K)) (ks js : List K) : delete db (ks ++ js) = delete (delete db ks) js := by
  have hreach : ∀ x, ¬Reach db (ks ++ js) x ↔ ¬Reach db ks x ∧ ¬Reach (delete db ks) js x := by
    intro x
    rw [reach_delete, not_or]
  have hcut : cut (delete db ks) js ∘ cut db ks = cut db (ks ++ js) := by
    funext row
    simp only [Function.comp, cut, List.filter_filter, hreach, ← Bool.decide_and, and_comm]
  rw [delete_eq db (ks ++ js), delete_eq (delete db ks) js, ← hcut, ← List.map_map]
  congr 1
  rw [delete_eq db ks, List.filter_map, List.filter_filter]
  congr 1
  refine List.filter_congr fun row _ => ?_
  rw [← delete_eq, Bool.eq_iff_iff]
  simp [cut, hreach, and_comm]

end

/-- Keys that go anyway may go first. -/
theorem delete_absorb (h : ∀ k ∈ ks, Reach db js k) : delete (delete db ks) js = delete db js := by
  rw [← delete_append]
  refine delete_congr fun x => ?_
  rw [reach_append]
  constructor
  · rintro (hx | hx)
    · exact hx.mono h
    · exact hx
  · exact .inr

theorem delete_comm (db : List (Row K)) (ks js : List K) : delete (delete db ks) js = delete (delete db js) ks := by
  rw [← delete_append, ← delete_append]
  refine delete_congr fun x => ?_
  rw [reach_append, reach_append, or_comm]

/-! ## Integrity -/

theorem keys_delete : x ∈ (delete db ks).map Row.key ↔ x ∈ db.map Row.key ∧ ¬Reach db ks x := by
  simp only [List.mem_map]
  constructor
  · rintro ⟨row, hrow, rfl⟩
    obtain ⟨q, hq, hkey, rfl⟩ := mem_delete.1 hrow
    exact ⟨⟨q, hq, rfl⟩, hkey⟩
  · rintro ⟨⟨q, hq, rfl⟩, hkey⟩
    exact ⟨cut db ks q, mem_delete.2 ⟨q, hq, hkey, rfl⟩, rfl⟩

/-- What is left goes with a key just when it did before. -/
theorem reach_left (hx : x ∈ (delete db ks).map Row.key) : Reach (delete db ks) js x ↔ Reach db js x := by
  have hkeep := (keys_delete.1 hx).2
  have hsplit : Reach db (ks ++ js) x ↔ _ := reach_delete
  rw [reach_append] at hsplit
  constructor
  · intro h
    exact (hsplit.2 (.inr h)).resolve_left hkeep
  · intro h
    exact (hsplit.1 (.inr h)).resolve_left hkeep

/-- Nothing is left pointing at what is gone. -/
theorem Integrity.delete (h : Integrity db) (ks : List K) : Integrity (delete db ks) := by
  intro row hrow k hk
  obtain ⟨q, hq, hkey, rfl⟩ := mem_delete.1 hrow
  refine keys_delete.2 ?_
  obtain hk | hk := hk
  · exact ⟨h q hq k (.inl hk), fun hreach => hkey (.child hq hk hreach)⟩
  · obtain ⟨hk, hreach⟩ := mem_cut_links.1 hk
    exact ⟨h q hq k (.inr hk), hreach⟩

theorem Integrity.delete_gone (h : Integrity db) (hks : ∀ k ∈ ks, k ∉ db.map Row.key) :
    References.delete db ks = db := by
  classical
  rw [delete_eq]
  have hcut : ∀ row ∈ db, cut db ks row = row := by
    intro row hrow
    have hlinks : row.links.filter (fun k => ¬Reach db ks k) = row.links :=
      List.filter_eq_self.2 fun k hk => by simpa using h.not_reach hks (h row hrow k (.inr hk))
    unfold cut
    rw [hlinks]
  have hrows : db.filter (fun row => ¬Reach db ks row.key) = db :=
    List.filter_eq_self.2 fun row hrow => by simpa using h.not_reach hks (List.mem_map_of_mem hrow)
  rw [hrows]
  exact (List.map_congr_left hcut).trans (List.map_id db)

/-! ## Insertion and update -/

section
open Classical

variable (h : Integrity db) (hks : row.key ∉ ks) (hfresh : row.key ∉ db.map Row.key)
  (hparents : ∀ p ∈ row.parents, p ∈ db.map Row.key)
include h hks hfresh hparents

/-- The rows there are do not notice a fresh one. -/
theorem delete_insert_rest :
    (db.filter fun q => ¬Reach (row :: db) ks q.key).map (cut (row :: db) ks) = delete db ks := by
  have hcut : ∀ q ∈ db.filter (fun q => ¬Reach (row :: db) ks q.key), cut (row :: db) ks q = cut db ks q := by
    intro q hq
    unfold cut
    congr 1
    refine List.filter_congr fun k hk => ?_
    rw [reach_insert_old h hks hfresh hparents (h q (List.mem_of_mem_filter hq) k (.inr hk))]
  rw [delete_eq, List.map_congr_left hcut]
  congr 1
  refine List.filter_congr fun q hq => ?_
  rw [reach_insert_old h hks hfresh hparents (List.mem_map_of_mem hq)]

/-- A fresh row goes with its parents. -/
theorem delete_insert_gone (hgone : ∃ p ∈ row.parents, Reach db ks p) : delete (row :: db) ks = delete db ks := by
  have hkey : Reach (row :: db) ks row.key := (reach_insert h hks hfresh hparents).2 (.inr ⟨rfl, hgone⟩)
  rw [delete_eq (row :: db), List.filter_cons_of_neg (by simpa using hkey)]
  exact delete_insert_rest h hks hfresh hparents

/-- A fresh row whose parents stay stays, without its links to what goes. -/
theorem delete_insert (hlinks : ∀ k ∈ row.links, k ∈ db.map Row.key) (hstay : ¬∃ p ∈ row.parents, Reach db ks p) :
    delete (row :: db) ks = cut db ks row :: delete db ks := by
  have hkey : ¬Reach (row :: db) ks row.key := by
    rw [reach_insert h hks hfresh hparents]
    rintro (hreach | ⟨-, hgone⟩)
    · obtain hmem | hmem := hreach.mem_keys
      · exact hks hmem
      · exact hfresh hmem
    · exact hstay hgone
  have hcut : cut (row :: db) ks row = cut db ks row := by
    unfold cut
    congr 1
    refine List.filter_congr fun k hk => ?_
    rw [reach_insert_old h hks hfresh hparents (hlinks k hk)]
  rw [delete_eq (row :: db), List.filter_cons_of_pos (by simpa using hkey), List.map_cons, hcut,
    delete_insert_rest h hks hfresh hparents]

end

/-- The row of a key refers to other rows from now on. -/
def setRefs (db : List (Row K)) (key : K) (parents links : List K) : List (Row K) :=
  db.map fun row => if row.key = key then ⟨key, parents, links⟩ else row

theorem keys_setRefs (db : List (Row K)) (key : K) (parents links : List K) :
    (setRefs db key parents links).map Row.key = db.map Row.key := by
  unfold setRefs
  rw [List.map_map]
  refine List.map_congr_left fun row _ => ?_
  by_cases hkey : row.key = key
  · simp [hkey]
  · simp [hkey]

theorem mem_setRefs {key : K} {parents links : List K} :
    row ∈ setRefs db key parents links ↔ ∃ q ∈ db, row = if q.key = key then ⟨key, parents, links⟩ else q := by
  simp only [setRefs, List.mem_map, eq_comm]

theorem Integrity.setRefs (h : Integrity db) {key : K} {parents links : List K}
    (hrefs : ∀ k, k ∈ parents ∨ k ∈ links → k ∈ db.map Row.key) : Integrity (setRefs db key parents links) := by
  intro row hrow k hk
  rw [keys_setRefs]
  obtain ⟨q, hq, rfl⟩ := mem_setRefs.1 hrow
  split at hk
  · exact hrefs k hk
  · exact h q hq k hk

theorem setRefs_gone {key : K} {parents links : List K} (hkey : key ∉ db.map Row.key) :
    setRefs db key parents links = db := by
  unfold setRefs
  have hsame : ∀ row ∈ db, (if row.key = key then ⟨key, parents, links⟩ else row) = row := by
    intro row hrow
    refine if_neg fun h => hkey ?_
    rw [← h]
    exact List.mem_map_of_mem hrow
  exact (List.map_congr_left hsame).trans (List.map_id db)

/-- As long as the row itself goes or stays as before, so does everything. -/
theorem reach_setRefs {key : K} {parents links : List K}
    (hkey : Reach db ks key ↔ Reach (setRefs db key parents links) ks key) :
    Reach (setRefs db key parents links) ks x ↔ Reach db ks x := by
  constructor
  · intro h
    induction h with
    | root hk => exact .root hk
    | child hrow hp hreach ih =>
      obtain ⟨q, hq, rfl⟩ := mem_setRefs.1 hrow
      by_cases hq' : q.key = key
      · rw [if_pos hq'] at hp ⊢
        refine hkey.2 (.child (q := ⟨key, parents, links⟩) ?_ hp hreach)
        exact mem_setRefs.2 ⟨q, hq, (if_pos hq').symm⟩
      · rw [if_neg hq'] at hp ⊢
        exact .child hq hp ih
  · intro h
    induction h with
    | root hk => exact .root hk
    | @child q p hq hp hreach ih =>
      by_cases hq' : q.key = key
      · rw [hq']
        refine hkey.1 ?_
        rw [← hq']
        exact .child hq hp hreach
      · exact .child (q := q) (mem_setRefs.2 ⟨q, hq, (if_neg hq').symm⟩) hp ih

theorem delete_setRefs {key : K} {parents links : List K}
    (hkey : Reach db ks key ↔ Reach (setRefs db key parents links) ks key) {kept : List K}
    (hkept : (cut db ks ⟨key, parents, links⟩).links = kept) :
    delete (setRefs db key parents links) ks = setRefs (delete db ks) key parents kept := by
  classical
  have hcut : cut (setRefs db key parents links) ks = cut db ks := by
    funext row
    simp only [cut, reach_setRefs hkey]
  have hrows : (setRefs db key parents links).filter (fun row => ¬Reach (setRefs db key parents links) ks row.key) =
      (db.filter fun row => ¬Reach db ks row.key).map fun row => if row.key = key then ⟨key, parents, links⟩ else row := by
    simp only [reach_setRefs hkey]
    rw [setRefs, List.filter_map]
    congr 1
    refine List.filter_congr fun row _ => ?_
    by_cases hrow : row.key = key
    · simp [hrow]
    · simp [hrow]
  rw [delete_eq, delete_eq, hcut, hrows, setRefs, List.map_map, List.map_map]
  refine List.map_congr_left fun row _ => ?_
  by_cases hrow : row.key = key
  · have hkey : (cut db ks row).key = key := hrow
    simp only [Function.comp, if_pos hrow, if_pos hkey, ← hkept]
    rfl
  · have hkey : (cut db ks row).key ≠ key := hrow
    simp only [Function.comp, if_neg hrow, if_neg hkey]

end Cograph.References
