import Cograph.Machine
import Cograph.Purge
import Mathlib.Data.List.Nodup

/-!
# A purge is one deletion

However many workers drain a repository, whenever they die and whatever else
writes meanwhile: what is shown is what it would be had each deletion taken the
repository with all that belongs to it in one step. A worker that returns leaves
no trace of its repository.
-/

namespace Cograph.Purge

open References Machine

/-! ## Batches -/

section
variable {α : Type} {size : ℕ}

/-- The batches are the list, cut. -/
theorem flatten_chunkedFrom (batch values : List α) : (chunkedFrom size batch values).flatten = batch ++ values := by
  induction values generalizing batch with
  | nil =>
    unfold chunkedFrom
    cases batch with
    | nil => rfl
    | cons x xs => simp
  | cons item values ih =>
    unfold chunkedFrom
    split
    · rw [List.flatten_cons, ih, List.nil_append, List.append_assoc]
      rfl
    · rw [ih, List.append_assoc]
      rfl

theorem flatten_chunked (values : List α) : (chunked values).flatten = values := flatten_chunkedFrom [] values

end

/-! ## What a repository takes with it -/

section
variable {db : List (Row Key)} {table : Table} {keys ks : List Key} {k : Key}

theorem mem_idsWhere : k ∈ idsWhere db table keys ↔
    ∃ row ∈ db, row.key = k ∧ k.table = table ∧ ∃ p ∈ row.parents, p ∈ keys := by
  unfold idsWhere
  simp only [List.mem_map, List.mem_filter, decide_eq_true_eq, List.any_eq_true]
  constructor
  · rintro ⟨row, ⟨hrow, htable, hp⟩, rfl⟩
    exact ⟨row, hrow, rfl, htable, hp⟩
  · rintro ⟨row, hrow, rfl, htable, hp⟩
    exact ⟨row, ⟨hrow, htable, hp⟩, rfl⟩

/-- What a worker drains would go anyway. -/
theorem reach_idsWhere (h : Integrity db) (hkeys : ∀ p ∈ keys, p ∈ db.map Row.key → Reach db ks p)
    (hk : k ∈ idsWhere db table keys) : Reach db ks k := by
  obtain ⟨row, hrow, rfl, -, p, hp, hmem⟩ := mem_idsWhere.1 hk
  exact .child hrow hp (hkeys p hmem (h row hrow p (.inl hp)))

theorem mem_homes {r : ℕ} (h : Integrity db) (hk : k ∈ db.map Row.key) :
    repository r ∈ homes db k ↔ Reach db [repository r] k := by
  unfold homes
  simp only [List.mem_filter, decide_eq_true_eq, true_and, keys_delete, not_and, not_not]
  constructor
  · rintro ⟨-, hreach⟩
    exact hreach hk
  · intro hreach
    refine ⟨?_, fun _ => hreach⟩
    by_contra hgone
    exact h.not_reach (by simpa using hgone) hk hreach

end

/-! ## The invariant -/

namespace Worker

/-- The repository that a worker is at. -/
def repo? : Worker → Option ℕ
  | .idle => none
  | .codeEmbeddings r .. | .documents r _ | .repoDocumentChunks r .. | .returned r _ => some r

/-- The keys that a worker has read and not yet drained. -/
def keys : Worker → List Key
  | .codeEmbeddings _ batches _ | .repoDocumentChunks _ batches _ => batches.flatten
  | _ => []

end Worker

/-- What the worker has read belongs to a repository that is being deleted, and
goes with it unless it is gone. -/
def Sound (s : St) (w : Worker) : Prop :=
  ∀ r, w.repo? = some r → r ∈ s.deleting ∧
    (∀ k ∈ w.keys, k.id < s.nextId ∧ (k ∈ s.db.map Row.key → Reach s.db [repository r] k)) ∧
    ∀ c, w = .returned r c → repository r ∉ s.db.map Row.key

structure Inv (s : St) : Prop where
  integrity : Integrity s.db
  fresh : ∀ k ∈ s.db.map Row.key, k.id < s.nextId
  deleting : ∀ r ∈ s.deleting, r < s.nextId
  workers : ∀ i, Sound s (s.workers i)

/-- The tables of `s'` hold no old key that those of `s` do not hold, and what is
left goes with the repositories it went with. -/
structure Follows (s s' : St) : Prop where
  nextId : s.nextId ≤ s'.nextId
  deleting : ∀ r ∈ s.deleting, r ∈ s'.deleting
  keys : ∀ k ∈ s'.db.map Row.key, k.id < s.nextId → k ∈ s.db.map Row.key
  reach : ∀ r k, k ∈ s'.db.map Row.key → k.id < s.nextId → Reach s.db [repository r] k → Reach s'.db [repository r] k

section
variable {s s' : St} {w : Worker} {i : ℕ}

theorem Sound.follow (h : Sound s w) (hinv : Inv s) (hf : Follows s s') : Sound s' w := by
  intro r hr
  obtain ⟨hdeleting, hkeys, hreturned⟩ := h r hr
  refine ⟨hf.deleting r hdeleting, fun k hk => ?_, fun c hc hmem => ?_⟩
  · obtain ⟨hfresh, hreach⟩ := hkeys k hk
    exact ⟨Nat.lt_of_lt_of_le hfresh hf.nextId, fun hmem => hf.reach r k hmem hfresh (hreach (hf.keys k hmem hfresh))⟩
  · exact hreturned c hc (hf.keys _ hmem (hinv.deleting r hdeleting))

/-- A step that leaves the workers alone. -/
theorem Inv.follow (h : Inv s) (hf : Follows s s') (hintegrity : Integrity s'.db)
    (hfresh : ∀ k ∈ s'.db.map Row.key, k.id < s'.nextId) (hdeleting : ∀ r ∈ s'.deleting, r < s'.nextId)
    (hworkers : s'.workers = s.workers) : Inv s' where
  integrity := hintegrity
  fresh := hfresh
  deleting := hdeleting
  workers i := by
    rw [hworkers]
    exact (h.workers i).follow h hf

theorem Inv.goto (h : Inv s) (hw : Sound s w) : Inv (s.goto i w) where
  integrity := h.integrity
  fresh := h.fresh
  deleting := h.deleting
  workers j := by
    by_cases hj : j = i
    · subst hj
      have hself : (s.goto j w).workers j = w := Function.update_self ..
      rw [hself]
      exact hw
    · have hne : (s.goto i w).workers j = s.workers j := Function.update_of_ne hj ..
      rw [hne]
      exact h.workers j

theorem follows_delete (s : St) (ks : List Key) : Follows s { s with db := delete s.db ks } where
  nextId := Nat.le_refl _
  deleting _ hr := hr
  keys _ hk _ := (keys_delete.1 hk).1
  reach _ _ hk _ hreach := (reach_left hk).2 hreach

/-- Rows are deleted. -/
theorem Inv.deleteRows (h : Inv s) (ks : List Key) : Inv { s with db := delete s.db ks } :=
  h.follow (follows_delete s ks) (h.integrity.delete ks) (fun k hk => h.fresh k (keys_delete.1 hk).1) h.deleting rfl

/-- A repository is no key of what is yet to be inserted. -/
theorem Inv.deleting_fresh (h : Inv s) {table : Table} : ⟨table, s.nextId⟩ ∉ s.deleting.map repository := by
  intro hmem
  obtain ⟨r, hr, hkey⟩ := List.mem_map.1 hmem
  have hlt := h.deleting r hr
  have hid : r = s.nextId := congrArg Key.id hkey
  omega

theorem Inv.fresh_key (h : Inv s) {table : Table} : ⟨table, s.nextId⟩ ∉ s.db.map Row.key :=
  fun hmem => absurd (h.fresh _ hmem) (Nat.lt_irrefl _)

theorem insert_some {table : Table} {parents links : List Key} (hn : s.insert table parents links = some s') :
    (∀ k ∈ parents, k ∈ s.db.map Row.key) ∧ (∀ k ∈ links, k ∈ s.db.map Row.key) ∧
      s' = { s with nextId := s.nextId + 1, db := ⟨⟨table, s.nextId⟩, parents, links⟩ :: s.db } := by
  unfold St.insert at hn
  split at hn
  · rename_i hguard
    have hall := hguard.2
    simp only [List.all_append, Bool.and_eq_true, List.all_eq_true, St.has, decide_eq_true_eq] at hall
    exact ⟨hall.1, hall.2, (Option.some.inj hn).symm⟩
  · cases hn

theorem Inv.insert (h : Inv s) {table : Table} {parents links : List Key}
    (hn : s.insert table parents links = some s') : Inv s' := by
  obtain ⟨hparents, hlinks, rfl⟩ := insert_some hn
  have hmono : ∀ {x : Row Key}, ∀ k ∈ s.db.map Row.key, k ∈ (x :: s.db).map Row.key :=
    fun k hk => List.mem_cons_of_mem _ hk
  refine h.follow ⟨Nat.le_succ _, fun _ hr => hr, ?_, ?_⟩ ?_ ?_ ?_ rfl
  · intro k hk hlt
    obtain rfl | hk := List.mem_cons.1 hk
    · exact absurd hlt (Nat.lt_irrefl _)
    · exact hk
  · intro r k _ _ hreach
    exact hreach.transport fun row hrow => ⟨row, List.mem_cons_of_mem _ hrow, rfl, fun p hp => hp⟩
  · intro row hrow k hk
    obtain rfl | hrow := List.mem_cons.1 hrow
    · exact hmono k (hk.elim (hparents k) (hlinks k))
    · exact hmono k (h.integrity row hrow k hk)
  · intro k hk
    obtain rfl | hk := List.mem_cons.1 hk
    · exact Nat.lt_succ_self _
    · exact Nat.lt_succ_of_lt (h.fresh k hk)
  · exact fun r hr => Nat.lt_succ_of_lt (h.deleting r hr)

theorem update_some {key : Key} {parents links : List Key} (hn : s.update key parents links = some s') :
    key ∈ s.db.map Row.key ∧ (∀ k ∈ parents, k ∈ s.db.map Row.key) ∧ (∀ k ∈ links, k ∈ s.db.map Row.key) ∧
      homes s.db key = homes (setRefs s.db key parents links) key ∧
      s' = { s with db := setRefs s.db key parents links } := by
  unfold St.update at hn
  dsimp only at hn
  split at hn
  · rename_i hguard
    obtain ⟨hkey, -, hall, hhomes⟩ := hguard
    simp only [List.all_append, Bool.and_eq_true, List.all_eq_true, St.has, decide_eq_true_eq] at hkey hall
    exact ⟨hkey, hall.1, hall.2, hhomes, (Option.some.inj hn).symm⟩
  · cases hn

/-- An update takes nothing from a repository to another. -/
theorem Inv.reach_update (h : Inv s) {key : Key} {parents links : List Key}
    (hn : s.update key parents links = some s') (r : ℕ) (k : Key) :
    Reach s'.db [repository r] k ↔ Reach s.db [repository r] k := by
  obtain ⟨hkey, hparents, hlinks, hhomes, rfl⟩ := update_some hn
  refine reach_setRefs ?_
  have hintegrity : Integrity (setRefs s.db key parents links) :=
    h.integrity.setRefs fun k hk => hk.elim (hparents k) (hlinks k)
  rw [← mem_homes h.integrity hkey, hhomes]
  refine mem_homes hintegrity ?_
  rw [keys_setRefs]
  exact hkey

theorem Inv.update (h : Inv s) {key : Key} {parents links : List Key}
    (hn : s.update key parents links = some s') : Inv s' := by
  have hreach := h.reach_update hn
  obtain ⟨hkey, hparents, hlinks, -, rfl⟩ := update_some hn
  have hkeys : (setRefs s.db key parents links).map Row.key = s.db.map Row.key := keys_setRefs ..
  refine h.follow ⟨Nat.le_refl _, fun _ hr => hr, ?_, ?_⟩ ?_ ?_ h.deleting rfl
  · intro k hk _
    rwa [hkeys] at hk
  · exact fun r k _ _ hk => (hreach r k).2 hk
  · exact h.integrity.setRefs fun k hk => hk.elim (hparents k) (hlinks k)
  · intro k hk
    rw [hkeys] at hk
    exact h.fresh k hk

theorem Inv.deleteRepository (h : Inv s) {r : ℕ} (hn : s.deleteRepository r = some s') : Inv s' := by
  unfold St.deleteRepository at hn
  split at hn
  · rename_i hguard
    cases hn
    have hmem : repository r ∈ s.db.map Row.key := by simpa [St.has] using hguard.1
    refine h.follow ⟨Nat.le_refl _, fun _ hr => List.mem_cons_of_mem _ hr, fun _ hk _ => hk, fun _ _ _ _ hk => hk⟩
      h.integrity h.fresh ?_ rfl
    intro q hq
    obtain rfl | hq := List.mem_cons.1 hq
    · exact h.fresh _ hmem
    · exact h.deleting q hq
  · cases hn

/-- The rows of a repository, read at once. -/
theorem Inv.read (h : Inv s) {r : ℕ} {table : Table} {k : Key} (hk : k ∈ idsWhere s.db table [repository r]) :
    k.id < s.nextId ∧ (k ∈ s.db.map Row.key → Reach s.db [repository r] k) := by
  have hreach : Reach s.db [repository r] k :=
    reach_idsWhere h.integrity (fun p hp _ => .root hp) hk
  obtain ⟨row, hrow, rfl, -⟩ := mem_idsWhere.1 hk
  exact ⟨h.fresh _ (List.mem_map_of_mem hrow), fun _ => hreach⟩

theorem Inv.start (h : Inv s) {r : ℕ} (hn : s.start i r = some s') : Inv s' := by
  unfold St.start at hn
  split at hn
  · rename_i hguard
    cases hn
    refine h.goto fun q hq => ?_
    obtain rfl : r = q := Option.some.inj hq
    refine ⟨hguard.2, fun k hk => ?_, nofun⟩
    rw [Worker.keys, flatten_chunked] at hk
    exact h.read hk
  · cases hn

theorem Inv.die (h : Inv s) (hn : s.die i = some s') : Inv s' := by
  unfold St.die at hn
  split at hn
  · cases hn
  · cases hn
  · cases hn
    exact h.goto nofun

/-- What a step of a worker deletes goes with its repository. -/
theorem Sound.drained (h : Inv s) (hw : Sound s w) {r : ℕ} (hr : w.repo? = some r) {table : Table} {keys : List Key}
    (hkeys : ∀ k ∈ keys, k ∈ w.keys ∨ k = repository r) :
    ∀ k ∈ idsWhere s.db table keys, Reach s.db [repository r] k := by
  intro k hk
  refine reach_idsWhere h.integrity (fun p hp hmem => ?_) hk
  obtain hp | rfl := hkeys p hp
  · exact ((hw r hr).2.1 p hp).2 hmem
  · exact .root (List.mem_singleton_self _)

/-- A worker that has drained some of its keys. -/
theorem Sound.rest (hw : Sound s w) {w' : Worker} (hrepo : w'.repo? = w.repo?) (hkeys : ∀ k ∈ w'.keys, k ∈ w.keys)
    (hrunning : ∀ r c, w' ≠ .returned r c) : Sound s w' := by
  intro r hr
  rw [hrepo] at hr
  obtain ⟨hdeleting, hall, -⟩ := hw r hr
  exact ⟨hdeleting, fun k hk => hall k (hkeys k hk), fun c hc => absurd hc (hrunning r c)⟩

/-- **What a worker does** in a transaction: it deletes rows that go with its
repository. -/
theorem Inv.step_cases (h : Inv s) (hn : s.step i = some s') : ∃ r ks w, r ∈ s.deleting ∧
    (∀ k ∈ ks, Reach s.db [repository r] k) ∧ Sound { s with db := delete s.db ks } w ∧
    s' = { s with db := delete s.db ks }.goto i w := by
  have hw := h.workers i
  unfold St.step at hn
  split at hn
  · rename_i r batch batches c hworker
    cases hn
    rw [hworker] at hw
    refine ⟨r, _, _, (hw r rfl).1, hw.drained h rfl ?_, ?_, rfl⟩
    · exact fun k hk => .inl (List.mem_append_left _ hk)
    · refine (hw.follow h (follows_delete s _)).rest ?_ ?_ nofun
      · rfl
      · exact fun k hk => List.mem_append_right _ hk
  · rename_i r c hworker
    cases hn
    rw [hworker] at hw
    refine ⟨r, _, _, (hw r rfl).1, hw.drained h rfl ?_, ?_, rfl⟩
    · exact fun k hk => .inr (List.mem_singleton.1 hk)
    · refine (hw.follow h (follows_delete s _)).rest ?_ ?_ nofun
      · rfl
      · exact fun k hk => hk
  · rename_i r c hworker
    cases hn
    rw [hworker] at hw
    refine ⟨r, [], .repoDocumentChunks r _ c, (hw r rfl).1, nofun, ?_, by rw [delete_nil]⟩
    rw [delete_nil]
    intro q hq
    obtain rfl : r = q := Option.some.inj hq
    refine ⟨(hw r rfl).1, fun k hk => ?_, nofun⟩
    rw [Worker.keys, flatten_chunked] at hk
    exact h.read hk
  · rename_i r batch batches c hworker
    cases hn
    rw [hworker] at hw
    refine ⟨r, _, _, (hw r rfl).1, hw.drained h rfl ?_, ?_, rfl⟩
    · exact fun k hk => .inl (List.mem_append_left _ hk)
    · refine (hw.follow h (follows_delete s _)).rest ?_ ?_ nofun
      · rfl
      · exact fun k hk => List.mem_append_right _ hk
  · rename_i r c hworker
    cases hn
    rw [hworker] at hw
    refine ⟨r, [repository r], _, (hw r rfl).1, fun k hk => .root hk, ?_, rfl⟩
    intro q hq
    obtain rfl : r = q := Option.some.inj hq
    refine ⟨(hw r rfl).1, nofun, fun c' _ hmem => ?_⟩
    exact (keys_delete.1 hmem).2 (.root (List.mem_singleton_self _))
  · cases hn

theorem Inv.step (h : Inv s) (hn : s.step i = some s') : Inv s' := by
  obtain ⟨r, ks, w, -, -, hw, rfl⟩ := h.step_cases hn
  exact (h.deleteRows ks).goto hw

/-- **Step lemma.** -/
theorem Inv.next (h : Inv s) {a : Act} (hn : Purge.next s a = some s') : Inv s' := by
  cases a with
  | insert table parents links => exact h.insert hn
  | update key parents links => exact h.update hn
  | deleteRows keys =>
    simp only [Purge.next, St.deleteRows] at hn
    split at hn
    · cases hn
      exact h.deleteRows keys
    · cases hn
  | deleteRepository r => exact h.deleteRepository hn
  | start i r => exact h.start hn
  | step i => exact h.step hn
  | die i => exact h.die hn

theorem Init.inv (h : Init s) : Inv s where
  integrity := h.integrity
  fresh k hk := by
    obtain ⟨row, hrow, rfl⟩ := List.mem_map.1 hk
    exact h.fresh row hrow
  deleting r hr := by
    rw [h.deleting] at hr
    cases hr
  workers i := by
    rw [h.workers i]
    exact nofun

end

/-! ## The simulation -/

section
variable {s s' : St}

theorem has_shown {k : Key} : s.shown.has k = true ↔ k ∈ s.db.map Row.key ∧ ¬Reach s.db (s.deleting.map repository) k := by
  unfold Shown.has St.shown
  rw [decide_eq_true_eq, keys_delete]

theorem shown_eq (h : s'.nextId = s.nextId)
    (hdb : delete s'.db (s'.deleting.map repository) = delete s.db (s.deleting.map repository)) : s'.shown = s.shown := by
  unfold St.shown
  rw [h, hdb]

/-- The links that are shown are those that deletions leave. -/
theorem links_shown {key : Key} {parents links : List Key} (hlinks : ∀ k ∈ links, k ∈ s.db.map Row.key) :
    (cut s.db (s.deleting.map repository) ⟨key, parents, links⟩).links = links.filter s.shown.has := by
  classical
  unfold cut
  refine List.filter_congr fun k hk => ?_
  rw [Bool.eq_iff_iff, has_shown, decide_eq_true_eq]
  exact ⟨fun hreach => ⟨hlinks k hk, hreach⟩, And.right⟩

theorem Inv.shown_insert (h : Inv s) {table : Table} {parents links : List Key}
    (hn : s.insert table parents links = some s') : s'.shown = s.shown.next (.insert table parents links) := by
  obtain ⟨hparents, hlinks, rfl⟩ := insert_some hn
  have hgone := @delete_insert_gone Key s.db (s.deleting.map repository) ⟨⟨table, s.nextId⟩, parents, links⟩ _ h.integrity
    h.deleting_fresh h.fresh_key hparents
  have hstay := @delete_insert Key s.db (s.deleting.map repository) ⟨⟨table, s.nextId⟩, parents, links⟩ _ h.integrity
    h.deleting_fresh h.fresh_key hparents hlinks
  by_cases hparent : ∃ p ∈ parents, Reach s.db (s.deleting.map repository) p
  · have hall : ¬parents.all s.shown.has := by
      obtain ⟨p, hp, hreach⟩ := hparent
      rw [List.all_eq_true]
      exact fun hall => (has_shown.1 (hall p hp)).2 hreach
    simp only [Shown.next, if_neg hall]
    simp only [St.shown, hgone hparent]
  · have hall : parents.all s.shown.has := by
      rw [List.all_eq_true]
      exact fun p hp => has_shown.2 ⟨hparents p hp, fun hreach => hparent ⟨p, hp, hreach⟩⟩
    simp only [Shown.next, if_pos hall]
    rw [← links_shown hlinks]
    simp only [St.shown, hstay hparent]
    rfl

theorem Inv.shown_update (h : Inv s) {key : Key} {parents links : List Key}
    (hn : s.update key parents links = some s') : s'.shown = s.shown.next (.update key parents links) := by
  have hreach := h.reach_update hn
  obtain ⟨hkey, hparents, hlinks, -, rfl⟩ := update_some hn
  have hsame : Reach s.db (s.deleting.map repository) key ↔
      Reach (setRefs s.db key parents links) (s.deleting.map repository) key := by
    rw [reach_any, @reach_any _ (setRefs s.db key parents links)]
    refine exists_congr fun k => and_congr_right fun hk => ?_
    obtain ⟨r, -, rfl⟩ := List.mem_map.1 hk
    exact (hreach r key).symm
  have hdelete := delete_setRefs hsame (links_shown hlinks)
  by_cases hshown : s.shown.has key
  · simp only [Shown.next, if_pos hshown]
    simp only [St.shown, hdelete]
  · simp only [Shown.next, if_neg hshown]
    simp only [St.shown, hdelete]
    have hnone : key ∉ (delete s.db (s.deleting.map repository)).map Row.key := by
      intro hmem
      exact hshown (has_shown.2 (keys_delete.1 hmem))
    rw [setRefs_gone hnone]

/-- **Simulation.** A step of a worker changes nothing that is shown; any other
step does to what is shown what it should. -/
theorem Inv.shown_next (h : Inv s) {a : Act} (hn : Purge.next s a = some s') : s'.shown = s.shown.next a := by
  cases a with
  | insert table parents links => exact h.shown_insert hn
  | update key parents links => exact h.shown_update hn
  | deleteRows keys =>
    simp only [Purge.next, St.deleteRows] at hn
    split at hn
    · cases hn
      simp only [St.shown, Shown.next]
      rw [delete_comm]
    · cases hn
  | deleteRepository r =>
    simp only [Purge.next, St.deleteRepository] at hn
    split at hn
    · cases hn
      simp only [St.shown, Shown.next, List.map_cons]
      rw [← List.singleton_append, delete_append, delete_comm]
    · cases hn
  | start i r =>
    simp only [Purge.next, St.start] at hn
    split at hn
    · cases hn
      rfl
    · cases hn
  | step i =>
    obtain ⟨r, ks, w, hr, hks, -, rfl⟩ := h.step_cases hn
    refine shown_eq rfl (delete_absorb fun k hk => ?_)
    refine (hks k hk).mono fun j hj => .root ?_
    rw [List.mem_singleton.1 hj]
    exact List.mem_map_of_mem hr
  | die i =>
    simp only [Purge.next, St.die] at hn
    split at hn
    · cases hn
    · cases hn
    · cases hn
      rfl

theorem Inv.shown_run (h : Inv s) {as : List Act} (hr : run Purge.next s as = some s') :
    Inv s' ∧ s'.shown = as.foldl Shown.next s.shown := by
  induction as generalizing s with
  | nil =>
    cases hr
    exact ⟨h, rfl⟩
  | cons a as ih =>
    obtain ⟨s₁, hn, hrest⟩ := run_next Purge.next hr
    obtain ⟨hinv, hshown⟩ := ih (h.next hn) hrest
    refine ⟨hinv, ?_⟩
    rw [hshown, h.shown_next hn, List.foldl_cons]

/-- **A purge is one deletion.** Whatever workers, users and syncs do in whatever
order: what is shown, the tables without what belongs to a deleted repository,
is what the same requests make of it when a deletion takes the repository at
once and workers do nothing. Once each deleted repository has had a worker
return, the tables are what is shown. -/
theorem purge_atomic {s₀ : St} {as : List Act} (hinit : Init s₀) (hrun : run Purge.next s₀ as = some s) :
    s.shown = as.foldl Shown.next ⟨s₀.nextId, s₀.db⟩ ∧
      ((∀ r ∈ s.deleting, ∃ i c, s.workers i = .returned r c) → s.db = s.shown.db) := by
  obtain ⟨hinv, hshown⟩ := hinit.inv.shown_run hrun
  constructor
  · rw [hshown]
    simp only [St.shown, hinit.deleting, List.map_nil, delete_nil]
  · intro hreturned
    refine (hinv.integrity.delete_gone ?_).symm
    intro k hk
    obtain ⟨r, hr, rfl⟩ := List.mem_map.1 hk
    obtain ⟨i, c, hi⟩ := hreturned r hr
    have hw := hinv.workers i
    rw [hi] at hw
    exact (hw r rfl).2.2 c rfl

end

/-! A worker dies over a repository that is still written to, and another one
finishes. -/

namespace Sample

def node : Key := ⟨.codeNodes, 1⟩

def start : St :=
  ⟨4, [⟨⟨.codeEmbeddings, 3⟩, [node], []⟩, ⟨node, [repository 0], []⟩, ⟨repository 2, [], []⟩, ⟨repository 0, [], []⟩],
    [], fun _ => .idle⟩

theorem start_integrity : Integrity start.db := by
  have hall : ∀ row ∈ start.db, ∀ k ∈ row.parents ++ row.links, k ∈ start.db.map Row.key := by decide
  exact fun row hrow k hk => hall row hrow k (List.mem_append.2 hk)

theorem start_init : Init start := ⟨start_integrity, by decide, by decide, by decide, rfl, fun _ => rfl⟩

def crash : List Act :=
  [.deleteRepository 0, .start 0 0, .insert .codeEmbeddings [node] [], .step 0, .die 0, .start 1 0,
    .insert .codeNodes [repository 2] [], .insert .queryLogs [] [repository 0], .step 1, .step 1, .step 1, .step 1]

end Sample

theorem purge_atomic_crash : ∃ s, run next Sample.start Sample.crash = some s ∧
    s.shown = Sample.crash.foldl Shown.next ⟨4, Sample.start.db⟩ ∧ s.db = s.shown.db := by
  have h := @purge_atomic _ _ Sample.crash Sample.start_init rfl
  exact ⟨_, rfl, h.1, h.2 fun r hr => ⟨1, _, by cases List.mem_singleton.1 hr; rfl⟩⟩

/-! ## A worker on its own -/

/-- The columns that cascade refer to the tables they should, and no key is
given twice. -/
structure Tidy (db : List (Row Key)) : Prop where
  keys : (db.map Row.key).Nodup
  parents : ∀ row ∈ db, ∀ p ∈ row.parents, p.table ∈ row.key.table.cascades.1 ++ row.key.table.cascades.2

theorem parents_of_fits {table : Table} {parents links : List Key} (h : fits table parents links) :
    ∀ p ∈ parents, p.table ∈ table.cascades.1 ++ table.cascades.2 := by
  unfold fits at h
  simp only [decide_eq_true_eq, List.all_eq_true, List.mem_map] at h
  exact fun p hp => h.2.2.1 _ ⟨p, hp, rfl⟩

section
variable {db : List (Row Key)} {table : Table} {ks bs : List Key} {k : Key}

theorem Tidy.delete (h : Tidy db) (ks : List Key) : Tidy (delete db ks) where
  keys := by
    classical
    have hkeys : (References.delete db ks).map Row.key =
        (db.filter fun row => ¬Reach db ks row.key).map Row.key := by
      rw [delete_eq, List.map_map]
      rfl
    rw [hkeys]
    exact h.keys.sublist (List.filter_sublist.map _)
  parents row hrow p hp := by
    obtain ⟨q, hq, -, rfl⟩ := mem_delete.1 hrow
    exact h.parents q hq p hp

/-- The tables with vector indexes, and what depends on them. -/
def Leaf (table : Table) : Prop :=
  table = .codeEmbeddings ∨ table = .moduleEmbeddings ∨ table = .repoDocumentChunks

/-- Only mentions depend on a leaf, and nothing on a mention. -/
theorem cascades_leaf {child parent : Table} (h : parent ∈ child.cascades.1 ++ child.cascades.2)
    (hleaf : Leaf parent ∨ parent = .repoDocumentChunkMentions) : child = .repoDocumentChunkMentions := by
  cases child with
  | repoDocumentChunkMentions => rfl
  | _ =>
    unfold Leaf at hleaf
    obtain (rfl | rfl | rfl) | rfl := hleaf <;> simp [Table.cascades] at h

theorem Tidy.reach_leaf (h : Tidy db) (hleaf : Leaf table) (hks : ∀ k ∈ ks, k.table = table)
    (hreach : Reach db ks k) : k ∈ ks ∨ k.table = .repoDocumentChunkMentions := by
  induction hreach with
  | root hk => exact .inl hk
  | @child row p hrow hp _ ih =>
    refine .inr (cascades_leaf (h.parents row hrow p hp) ?_)
    obtain hp | hp := ih
    · rw [hks p hp]
      exact .inl hleaf
    · exact .inr hp

theorem leaf_ne_mentions (hleaf : Leaf table) : table ≠ .repoDocumentChunkMentions := by
  obtain rfl | rfl | rfl := hleaf <;> decide

theorem table_idsWhere (hk : k ∈ idsWhere db table ks) : k.table = table := by
  obtain ⟨row, -, rfl, htable, -⟩ := mem_idsWhere.1 hk
  exact htable

/-- What is read after a deletion is what was read before and is left. -/
theorem idsWhere_delete (js : List Key) [DecidablePred (Reach db js)] :
    idsWhere (delete db js) table ks = (idsWhere db table ks).filter fun k => ¬Reach db js k := by
  unfold idsWhere
  rw [delete_eq, List.filter_map, List.map_map, List.filter_map, List.filter_filter, List.filter_filter]
  refine congrArg (List.map Row.key) (List.filter_congr fun row _ => ?_)
  rw [Bool.eq_iff_iff]
  simp [cut, and_comm]

/-- Draining a leaf leaves alone what is read of another table. -/
theorem Tidy.idsWhere_drained (h : Tidy db) (hleaf : Leaf table) {other : Table} (hne : other ≠ table)
    (hmentions : other ≠ .repoDocumentChunkMentions) (js : List Key) :
    idsWhere (References.delete db (idsWhere db table js)) other ks = idsWhere db other ks := by
  classical
  rw [idsWhere_delete, List.filter_eq_self]
  intro k hk
  rw [decide_eq_true_eq]
  intro hreach
  obtain hmem | htable := h.reach_leaf hleaf (fun k => table_idsWhere) hreach
  · exact hne ((table_idsWhere hk).symm.trans (table_idsWhere hmem))
  · exact hmentions ((table_idsWhere hk).symm.trans htable)

end

/-- A row is read by its parents. -/
theorem Tidy.mem_idsWhere_iff {db : List (Row Key)} (h : Tidy db) {table : Table} {ks : List Key} {row : Row Key}
    (hrow : row ∈ db) : row.key ∈ idsWhere db table ks ↔ row.key.table = table ∧ row.parents.any (· ∈ ks) := by
  rw [mem_idsWhere]
  constructor
  · rintro ⟨q, hq, hkey, htable, hp⟩
    obtain rfl : q = row := List.inj_on_of_nodup_map h.keys hq hrow hkey
    exact ⟨htable, by simpa using hp⟩
  · rintro ⟨htable, hp⟩
    exact ⟨row, hrow, rfl, htable, by simpa using hp⟩

/-- No row is counted for two batches. -/
theorem Tidy.length_idsWhere {db : List (Row Key)} (h : Tidy db) {table : Table} (hleaf : Leaf table) (ks bs : List Key) :
    (idsWhere db table (ks ++ bs)).length =
      (idsWhere db table ks).length + (idsWhere (References.delete db (idsWhere db table ks)) table bs).length := by
  classical
  have hreach : ∀ row ∈ db, row.key.table = table →
      (Reach db (idsWhere db table ks) row.key ↔ row.parents.any (· ∈ ks)) := by
    intro row hrow htable
    constructor
    · intro hreach
      obtain hmem | hmentions := h.reach_leaf hleaf (fun k => table_idsWhere) hreach
      · exact ((h.mem_idsWhere_iff hrow).1 hmem).2
      · exact absurd (htable.symm.trans hmentions) (leaf_ne_mentions hleaf)
    · exact fun hp => .root ((h.mem_idsWhere_iff hrow).2 ⟨htable, hp⟩)
  have hlength : (idsWhere db table ks).length =
      (db.filter fun row => row.key.table = table ∧ row.parents.any (· ∈ ks)).length := List.length_map ..
  rw [idsWhere_delete, hlength]
  generalize idsWhere db table ks = ids at hreach ⊢
  unfold idsWhere
  rw [List.filter_map, List.length_map, List.length_map, List.filter_filter,
    List.length_eq_length_filter_add (l := db.filter _) fun row => row.parents.any (· ∈ ks), List.filter_filter,
    List.filter_filter]
  congr 2
  · refine List.filter_congr fun row _ => ?_
    rw [Bool.eq_iff_iff]
    simp
    constructor
    · exact fun h => ⟨h.2.1, h.1⟩
    · rintro ⟨htable, p, hp, hmem⟩
      exact ⟨⟨p, hp, hmem⟩, htable, p, hp, .inl hmem⟩
  · refine List.filter_congr fun row hrow => ?_
    have hrow := hreach row hrow
    rw [Bool.eq_iff_iff]
    simp at hrow ⊢
    constructor
    · rintro ⟨hnone, htable, p, hp, hmem⟩
      refine ⟨fun h => ?_, htable, p, hp, hmem.resolve_left (hnone p hp)⟩
      obtain ⟨q, hq, hks⟩ := (hrow htable).1 h
      exact hnone q hq hks
    · rintro ⟨hkeep, htable, p, hp, hmem⟩
      exact ⟨fun q hq hks => hkeep ((hrow htable).2 ⟨q, hq, hks⟩), htable, p, hp, .inr hmem⟩

/-- The batches one after the other: what they leave and how many rows they
delete. -/
def drainAll (table : Table) : List (Row Key) → List (List Key) → List (Row Key) × ℕ
  | db, [] => (db, 0)
  | db, batch :: batches =>
    let rest := drainAll table (delete db (idsWhere db table batch)) batches
    (rest.1, (idsWhere db table batch).length + rest.2)

theorem idsWhere_append {db : List (Row Key)} {table : Table} {ks bs : List Key} {k : Key} :
    k ∈ idsWhere db table (ks ++ bs) ↔ k ∈ idsWhere db table ks ∨ k ∈ idsWhere db table bs := by
  simp only [mem_idsWhere, List.mem_append]
  constructor
  · rintro ⟨row, hrow, hkey, htable, p, hp, hmem | hmem⟩
    · exact .inl ⟨row, hrow, hkey, htable, p, hp, hmem⟩
    · exact .inr ⟨row, hrow, hkey, htable, p, hp, hmem⟩
  · rintro (⟨row, hrow, hkey, htable, p, hp, hmem⟩ | ⟨row, hrow, hkey, htable, p, hp, hmem⟩)
    · exact ⟨row, hrow, hkey, htable, p, hp, .inl hmem⟩
    · exact ⟨row, hrow, hkey, htable, p, hp, .inr hmem⟩

/-- **The batches are one statement.** -/
theorem Tidy.drainAll_eq {table : Table} (hleaf : Leaf table) : ∀ {db : List (Row Key)} {batches : List (List Key)},
    Tidy db → drainAll table db batches =
      (References.delete db (idsWhere db table batches.flatten), (idsWhere db table batches.flatten).length)
  | db, [], _ => by
    have hnone : idsWhere db table [] = [] := by simp [idsWhere]
    rw [List.flatten_nil, hnone, delete_nil]
    rfl
  | db, batch :: batches, h => by
    classical
    have hrest : drainAll table (References.delete db (idsWhere db table batch)) batches = _ :=
      Tidy.drainAll_eq hleaf (h.delete (idsWhere db table batch))
    rw [drainAll, hrest, List.flatten_cons, h.length_idsWhere hleaf]
    congr 1
    rw [← delete_append]
    refine delete_congr fun x => ⟨fun hx => hx.mono fun k hk => ?_, fun hx => hx.mono fun k hk => ?_⟩
    · obtain hk | hk := List.mem_append.1 hk
      · exact .root (idsWhere_append.2 (.inl hk))
      · rw [idsWhere_delete] at hk
        exact .root (idsWhere_append.2 (.inr (List.mem_of_mem_filter hk)))
    · obtain hk | hk := idsWhere_append.1 hk
      · exact .root (List.mem_append_left _ hk)
      · by_cases hgone : Reach db (idsWhere db table batch) k
        · exact reach_append.2 (.inl hgone)
        · refine .root (List.mem_append_right _ ?_)
          rw [idsWhere_delete]
          exact List.mem_filter.2 ⟨hk, by simpa using hgone⟩

section
variable {s s' : St} {i r : ℕ} {c : Counts}

/-- The state after worker `i` has written. -/
def wrote (s : St) (i : ℕ) (db : List (Row Key)) (w : Worker) : St :=
  { s with db := db, workers := Function.update s.workers i w }

@[simp] theorem wrote_workers (db : List (Row Key)) (w : Worker) : (wrote s i db w).workers i = w :=
  Function.update_self ..

@[simp] theorem wrote_db (db : List (Row Key)) (w : Worker) : (wrote s i db w).db = db := rfl

@[simp] theorem wrote_wrote (db db' : List (Row Key)) (w w' : Worker) :
    wrote (wrote s i db w) i db' w' = wrote s i db' w' := by
  simp [wrote]

theorem wrote_self {w : Worker} (hw : s.workers i = w) : wrote s i s.db w = s := by
  simp [wrote, ← hw]

theorem run_codeEmbeddings : ∀ {s : St} {batches : List (List Key)} {c : Counts},
    s.workers i = .codeEmbeddings r batches c →
    run next s (List.replicate batches.length (.step i)) = some (wrote s i (drainAll .codeEmbeddings s.db batches).1
      (.codeEmbeddings r [] { c with
        codeEmbeddingsDeleted := c.codeEmbeddingsDeleted + (drainAll .codeEmbeddings s.db batches).2 }))
  | s, [], c, hw => by
    rw [drainAll, Nat.add_zero, wrote_self hw]
    rfl
  | s, batch :: batches, c, hw => by
    have hn : next s (.step i) = some (wrote s i (delete s.db (idsWhere s.db .codeEmbeddings batch))
        (.codeEmbeddings r batches { c with
          codeEmbeddingsDeleted := c.codeEmbeddingsDeleted + (idsWhere s.db .codeEmbeddings batch).length })) := by
      simp only [next, St.step, hw]
      rfl
    rw [List.length_cons, List.replicate_succ, run_cons next hn, run_codeEmbeddings (wrote_workers _ _), wrote_wrote]
    simp only [drainAll, wrote, Nat.add_assoc]

theorem run_repoDocumentChunks : ∀ {s : St} {batches : List (List Key)} {c : Counts},
    s.workers i = .repoDocumentChunks r batches c →
    run next s (List.replicate batches.length (.step i)) =
      some (wrote s i (drainAll .repoDocumentChunks s.db batches).1 (.repoDocumentChunks r [] { c with
        repoDocumentChunksDeleted := c.repoDocumentChunksDeleted + (drainAll .repoDocumentChunks s.db batches).2 }))
  | s, [], c, hw => by
    rw [drainAll, Nat.add_zero, wrote_self hw]
    rfl
  | s, batch :: batches, c, hw => by
    have hn : next s (.step i) = some (wrote s i (delete s.db (idsWhere s.db .repoDocumentChunks batch))
        (.repoDocumentChunks r batches { c with
          repoDocumentChunksDeleted :=
            c.repoDocumentChunksDeleted + (idsWhere s.db .repoDocumentChunks batch).length })) := by
      simp only [next, St.step, hw]
      rfl
    rw [List.length_cons, List.replicate_succ, run_cons next hn, run_repoDocumentChunks (wrote_workers _ _), wrote_wrote]
    simp only [drainAll, wrote, Nat.add_assoc]

theorem step_modules (hw : s.workers i = .codeEmbeddings r [] c) : next s (.step i) =
    some (wrote s i (delete s.db (idsWhere s.db .moduleEmbeddings [repository r])) (.documents r
      { c with moduleEmbeddingsDeleted := (idsWhere s.db .moduleEmbeddings [repository r]).length })) := by
  simp only [next, St.step, hw]
  rfl

theorem step_documents (hw : s.workers i = .documents r c) : next s (.step i) =
    some (wrote s i s.db
      (.repoDocumentChunks r (chunked (idsWhere s.db .repoDocuments [repository r])) c)) := by
  simp only [next, St.step, hw]
  rfl

theorem step_repository (hw : s.workers i = .repoDocumentChunks r [] c) : next s (.step i) =
    some (wrote s i (delete s.db [repository r])
      (.returned r { c with repositoriesDeleted := if s.has (repository r) then 1 else 0 })) := by
  simp only [next, St.step, hw]
  rfl

/-! The rows are tidy throughout. -/

theorem Init.tidy (h : Init s) : Tidy s.db := ⟨h.keys, fun row hrow => parents_of_fits (h.fits row hrow)⟩

theorem Tidy.next (h : Tidy s.db) (hinv : Inv s) {a : Act} (hn : Purge.next s a = some s') : Tidy s'.db := by
  cases a with
  | insert table parents links =>
    have hfits : fits table parents links := by
      simp only [Purge.next, St.insert] at hn
      split at hn
      · rename_i hguard
        exact hguard.1
      · cases hn
    obtain ⟨-, -, rfl⟩ := insert_some hn
    refine ⟨List.nodup_cons.2 ⟨hinv.fresh_key, h.keys⟩, fun row hrow => ?_⟩
    obtain rfl | hrow := List.mem_cons.1 hrow
    · exact parents_of_fits hfits
    · exact h.parents row hrow
  | update key parents links =>
    have hfits : fits key.table parents links := by
      simp only [Purge.next, St.update] at hn
      split at hn
      · rename_i hguard
        exact hguard.2.1
      · cases hn
    obtain ⟨-, -, -, -, rfl⟩ := update_some hn
    refine ⟨?_, fun row hrow => ?_⟩
    · rw [keys_setRefs]
      exact h.keys
    · obtain ⟨q, hq, rfl⟩ := mem_setRefs.1 hrow
      split
      · exact parents_of_fits hfits
      · exact h.parents q hq
  | deleteRows keys =>
    simp only [Purge.next, St.deleteRows] at hn
    split at hn
    · cases hn
      exact h.delete keys
    · cases hn
  | deleteRepository r =>
    simp only [Purge.next, St.deleteRepository] at hn
    split at hn
    · cases hn
      exact h
    · cases hn
  | start i r =>
    simp only [Purge.next, St.start] at hn
    split at hn
    · cases hn
      exact h
    · cases hn
  | step i =>
    obtain ⟨r, ks, w, -, -, -, rfl⟩ := hinv.step_cases hn
    exact h.delete ks
  | die i =>
    simp only [Purge.next, St.die] at hn
    split at hn
    · cases hn
    · cases hn
    · cases hn
      exact h

theorem Init.reachable {s₀ : St} {as : List Act} (hinit : Init s₀) (hrun : run Purge.next s₀ as = some s) :
    Inv s ∧ Tidy s.db :=
  @run_inv _ _ Purge.next (fun s => Inv s ∧ Tidy s.db) (fun _ => True)
    (fun _ _ _ h _ hn => ⟨h.1.next hn, h.2.next h.1 hn⟩) _ _ _ ⟨hinit.inv, hinit.tidy⟩ (fun _ _ => trivial) hrun

/-- A repository depends on no row. -/
theorem Tidy.not_reach_repository {db : List (Row Key)} (h : Tidy db) {ks : List Key} (hks : repository r ∉ ks) :
    ¬Reach db ks (repository r) := by
  intro hreach
  generalize hkey : repository r = k at hreach
  cases hreach with
  | root hk => exact hks (hkey ▸ hk)
  | @child row p hrow hp _ =>
    have hparent := h.parents row hrow p hp
    rw [← hkey] at hparent
    cases hparent

/-- **A worker that runs through** does in its batches what one deletion of the
repository does, and counts each embedding and chunk that belongs to it once. -/
theorem purge_alone {s₀ : St} {as : List Act} (hinit : Init s₀) (hrun : run Purge.next s₀ as = some s)
    (hidle : s.workers i = .idle) (hr : r ∈ s.deleting) :
    ∃ n s', run Purge.next s (.start i r :: List.replicate n (.step i)) = some s' ∧
      s'.db = delete s.db [repository r] ∧ s'.workers i = .returned r
        ⟨(idsWhere s.db .codeEmbeddings (idsWhere s.db .codeNodes [repository r])).length,
          (idsWhere s.db .moduleEmbeddings [repository r]).length,
          (idsWhere s.db .repoDocumentChunks (idsWhere s.db .repoDocuments [repository r])).length,
          if s.has (repository r) then 1 else 0⟩ := by
  obtain ⟨hinv, htidy⟩ := hinit.reachable hrun
  have hcode : Leaf .codeEmbeddings := .inl rfl
  have hmodule : Leaf .moduleEmbeddings := .inr (.inl rfl)
  have hchunk : Leaf .repoDocumentChunks := .inr (.inr rfl)
  let nodes := idsWhere s.db .codeNodes [repository r]
  let docs := idsWhere s.db .repoDocuments [repository r]
  let as := idsWhere s.db .codeEmbeddings nodes
  let bs := idsWhere s.db .moduleEmbeddings [repository r]
  let cs := idsWhere s.db .repoDocumentChunks docs
  let db₁ := delete s.db as
  let db₂ := delete db₁ bs
  let db₃ := delete db₂ cs
  -- what is read later is what could be read at the start
  have hbs : idsWhere db₁ .moduleEmbeddings [repository r] = bs :=
    htidy.idsWhere_drained hcode (by decide) (by decide) nodes
  have hread : ∀ other ks, other ≠ .codeEmbeddings → other ≠ .moduleEmbeddings → other ≠ .repoDocumentChunkMentions →
      idsWhere db₂ other ks = idsWhere s.db other ks := by
    intro other ks hne₁ hne₂ hmentions
    have htidy₁ : Tidy db₁ := htidy.delete as
    have hdb₂ : db₂ = delete db₁ (idsWhere db₁ .moduleEmbeddings [repository r]) := by rw [hbs]
    rw [hdb₂, htidy₁.idsWhere_drained hmodule hne₂ hmentions, htidy.idsWhere_drained hcode hne₁ hmentions]
  have hdocs : idsWhere db₂ .repoDocuments [repository r] = docs := hread _ _ (by decide) (by decide) (by decide)
  have hcs : idsWhere db₂ .repoDocumentChunks docs = cs := hread _ _ (by decide) (by decide) (by decide)
  have hgoes : ∀ k ∈ as ++ bs ++ cs, Reach s.db [repository r] k := by
    have hroot : ∀ {table k}, k ∈ idsWhere s.db table [repository r] → Reach s.db [repository r] k :=
      fun hk => reach_idsWhere hinv.integrity (fun p hp _ => .root hp) hk
    intro k hk
    obtain hk | hk := List.mem_append.1 hk
    · obtain hk | hk := List.mem_append.1 hk
      · exact reach_idsWhere hinv.integrity (fun p hp _ => hroot hp) hk
      · exact hroot hk
    · exact reach_idsWhere hinv.integrity (fun p hp _ => hroot hp) hk
  have hdb₃ : db₃ = delete s.db (as ++ bs ++ cs) := by
    rw [delete_append, delete_append]
  have hlast : delete db₃ [repository r] = delete s.db [repository r] := by
    rw [hdb₃, delete_absorb hgoes]
  have hhas : repository r ∈ db₃.map Row.key ↔ repository r ∈ s.db.map Row.key := by
    rw [hdb₃, keys_delete]
    have hother : ∀ k ∈ as ++ bs ++ cs, k ≠ repository r := by
      intro k hk hkey
      have htable : k.table = .repositories := congrArg Key.table hkey
      obtain hk | hk := List.mem_append.1 hk
      · obtain hk | hk := List.mem_append.1 hk
        · cases htable.symm.trans (table_idsWhere hk)
        · cases htable.symm.trans (table_idsWhere hk)
      · cases htable.symm.trans (table_idsWhere hk)
    exact and_iff_left (htidy.not_reach_repository fun hk => hother _ hk rfl)
  have hdb₂ : Tidy db₂ := (htidy.delete as).delete bs
  have hdrain₁ : drainAll .codeEmbeddings s.db (chunked nodes) = (db₁, as.length) := by
    rw [htidy.drainAll_eq hcode, flatten_chunked]
  have hdrain₂ : drainAll .repoDocumentChunks db₂ (chunked docs) = (db₃, cs.length) := by
    rw [hdb₂.drainAll_eq hchunk, flatten_chunked, hcs]
  -- the transactions of the worker, one after the other
  have hstart : next s (.start i r) = some (wrote s i s.db (.codeEmbeddings r (chunked nodes) ⟨0, 0, 0, 0⟩)) := by
    simp only [Purge.next, St.start, hidle, hr, and_self, if_true]
    rfl
  have hrun₁ : run next (wrote s i s.db (.codeEmbeddings r (chunked nodes) ⟨0, 0, 0, 0⟩))
      (List.replicate (chunked nodes).length (.step i)) =
        some (wrote s i db₁ (.codeEmbeddings r [] ⟨as.length, 0, 0, 0⟩)) := by
    rw [run_codeEmbeddings (wrote_workers _ _), wrote_wrote, wrote_db, hdrain₁, Nat.zero_add]
  have hstep₂ : next (wrote s i db₁ (.codeEmbeddings r [] ⟨as.length, 0, 0, 0⟩)) (.step i) =
      some (wrote s i db₂ (.documents r ⟨as.length, bs.length, 0, 0⟩)) := by
    rw [step_modules (wrote_workers _ _), wrote_wrote, wrote_db, hbs]
  have hstep₃ : next (wrote s i db₂ (.documents r ⟨as.length, bs.length, 0, 0⟩)) (.step i) =
      some (wrote s i db₂ (.repoDocumentChunks r (chunked docs) ⟨as.length, bs.length, 0, 0⟩)) := by
    rw [step_documents (wrote_workers _ _), wrote_wrote, wrote_db, hdocs]
  have hrun₄ : run next (wrote s i db₂ (.repoDocumentChunks r (chunked docs) ⟨as.length, bs.length, 0, 0⟩))
      (List.replicate (chunked docs).length (.step i)) =
        some (wrote s i db₃ (.repoDocumentChunks r [] ⟨as.length, bs.length, cs.length, 0⟩)) := by
    rw [run_repoDocumentChunks (wrote_workers _ _), wrote_wrote, wrote_db, hdrain₂, Nat.zero_add]
  have hstep₅ : next (wrote s i db₃ (.repoDocumentChunks r [] ⟨as.length, bs.length, cs.length, 0⟩)) (.step i) =
      some (wrote s i (delete s.db [repository r]) (.returned r
        ⟨as.length, bs.length, cs.length, if s.has (repository r) then 1 else 0⟩)) := by
    have hcount : (wrote s i db₃ (.repoDocumentChunks r [] ⟨as.length, bs.length, cs.length, 0⟩)).has (repository r) =
        s.has (repository r) := by
      unfold St.has
      rw [wrote_db]
      exact decide_eq_decide.2 hhas
    rw [step_repository (wrote_workers _ _), wrote_wrote, wrote_db, hlast, hcount]
  refine ⟨(chunked nodes).length + ((chunked docs).length + 1 + 1 + 1), wrote s i (delete s.db [repository r])
    (.returned r ⟨as.length, bs.length, cs.length, if s.has (repository r) then 1 else 0⟩), ?_, rfl, wrote_workers _ _⟩
  rw [run_cons next hstart, List.replicate_add, run_append, hrun₁, Option.bind_some, List.replicate_succ,
    run_cons next hstep₂, List.replicate_succ, run_cons next hstep₃, List.replicate_succ', run_append, hrun₄,
    Option.bind_some, run_cons next hstep₅, run_nil]

end

theorem purge_alone_first : ∃ s n s', run next Sample.start [.deleteRepository 0] = some s ∧
    run next s (.start 0 0 :: List.replicate n (.step 0)) = some s' ∧
      s'.db = delete Sample.start.db [repository 0] ∧ s'.workers 0 = .returned 0 ⟨1, 0, 0, 1⟩ := by
  obtain ⟨n, s', hrun, hdb, hworker⟩ := @purge_alone _ 0 0 _ [.deleteRepository 0] Sample.start_init rfl rfl
    (List.mem_singleton_self _)
  exact ⟨_, n, s', rfl, hrun, hdb, hworker⟩

end Cograph.Purge
