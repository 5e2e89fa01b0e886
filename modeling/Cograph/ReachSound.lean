import Cograph.MovesSound

/-!
# Incremental runs and discovery

The paths stored after an incremental run are those discovery selects on the
new tree, unless a path that is not selected any more lingers: a Go file whose
suffix is not spelled `.go`, or a file of another language in a noise directory
that the diff renames to a pruned JS/TS path.
-/

namespace Cograph

variable {T : Tools} {O N : Checkout} {db : Db} {G : Path → Option String} {c c' : GitFileChange}
  {cs : List GitFileChange}

/-! ## Graphs that ingests leave -/

/-- Every text that `G'` shows is one `G` showed, or a file of `N`. -/
def From (N : Checkout) (G G' : Path → Option String) : Prop :=
  ∀ p text, G' p = some text → G p = some text ∨ (p, text) ∈ N.files

theorem From.clear (doomed : Path → Bool) : From N G (clear doomed G) := by
  intro p text h
  by_cases hd : doomed p = true
  · simp [Cograph.clear, hd] at h
  · exact Or.inl (by simpa [Cograph.clear, hd] using h)

theorem From.step {G' : Path → Option String} (h : From N G G') {f : Path × String} (hf : f ∈ N.files) :
    From N G (Owners.step (shownNames T) G' (job f)) := by
  intro p text hp
  have hcases : Owners.step (shownNames T) G' (job f) p = G' p ∨
      p = f.1 ∧ Owners.step (shownNames T) G' (job f) p = some f.2 := Owners.step_cases G' (job f) p
  rcases hcases with he | ⟨rfl, he⟩
  · exact h p text (he ▸ hp)
  · rw [he] at hp
    cases hp
    exact Or.inr hf

/-- A graph that shows texts of `G` and of files of `N`. -/
def ShowsFrom (T : Tools) (N : Checkout) (G : Path → Option String) (db : Db) : Prop :=
  ∃ G', Shows T db G' ∧ From N G G'

theorem Shows.self (hG : Shows T db G) : ShowsFrom T N G db := ⟨G, hG, fun _ _ h => Or.inl h⟩

section
variable (hT : T.Ok) (hG : Shows T db G)
include hG

theorem prune_shows (present : List Path) : ShowsFrom T N G (pruneMissing db present) := by
  unfold pruneMissing
  dsimp only
  split
  · exact ⟨_, (hG.delete _).rebuild, From.clear _⟩
  · exact ⟨_, hG.delete _, From.clear _⟩

include hT

theorem walk_shows {packages : List GoPackage}
    (hpack : selectGoPackages T N (sortKeys ((goFiles T N).map (·.1.packageKey))) = some packages)
    {jobs : List (Path × String)} (hjobs : ∀ f ∈ jobs, f ∈ (fullJobs T N (loadModuleState db) packages).1) :
    let pruned := pruneMissing db ((presentFiles T N packages).map (·.1))
    let walk := jobs.foldl (walkFile T N) (Walk.start pruned (some (Cache.fromNodes pruned.nodes)))
    ShowsFrom T N G walk.db ∧ ShowsFrom T N G walk.committed := by
  intro pruned walk
  obtain ⟨G', hpruned, hfrom⟩ := prune_shows (N := N) hG ((presentFiles T N packages).map (·.1))
  have hindexed : ∀ f ∈ jobs, Indexed T N f := by
    intro f hf
    apply (mem_present hpack).mp
    rcases List.mem_append.mp (hjobs f hf) with hf | hf
    · exact List.mem_append_left _ (List.mem_of_mem_filter hf)
    · exact List.mem_append_right _ (goJobs_subset hf)
  have hwalk := walkFiles_shows (C := N) (P := From N G) hT jobs (fun f hf => (hindexed f hf).indexable)
    (fun _ f hf h => h.step (hindexed f hf).1) (start_shows hpruned) hfrom ⟨G', hpruned, hfrom⟩
  exact ⟨⟨_, hwalk.1.graph, hwalk.2.1⟩, hwalk.2.2.2⟩

theorem fullWalk_shows : ShowsFrom T N G (ingestFullWalk T N db).walk.db := by
  unfold ingestFullWalk
  split
  · exact hG.self
  · rename_i packages hpack
    exact (walk_shows hT hG hpack fun f hf => hf).1

theorem incremental_shows (hdiff : GitDiff O N cs) : ShowsFrom T N G (ingestIncremental T N db cs).walk.db := by
  unfold ingestIncremental
  split
  · exact hG.self
  · rename_i packages hpack
    dsimp only
    have hjobs : ∀ f ∈ (incrementalJobs T N db cs packages).1, Indexed T N f := by
      intro f hf
      apply mem_incrementalFiles hdiff hpack
      unfold incrementalJobs at hf
      dsimp only at hf
      split at hf
      · exact List.mem_append_left _ (goJobs_subset hf)
      · rcases List.mem_append.mp hf with hf | hf
        · exact List.mem_append_left _ (goJobs_subset hf)
        · exact List.mem_append_right _ hf
    have hstart : ({ Walk.start db none with
        db := ((deletedPaths T N db cs packages).foldl deleteSourceFile (db, [])).1 } : Walk).Shows T
        (clear (fun p => decide (p ∈ deletedPaths T N db cs packages)) G) :=
      ⟨hG.deleteAll _ _, fun c hc => by cases hc⟩
    have hwalk := persistFiles_shows (C := N) hT _ (fun f hf => (hjobs f hf).indexable) hstart
    have hfrom : From N G (Owners.run (shownNames T) (clear (fun p => decide (p ∈ deletedPaths T N db cs packages)) G)
        ((incrementalJobs T N db cs packages).1.map job)) := by
      have hfold : ∀ (jobs : List (Path × String)) (G' : Path → Option String), (∀ f ∈ jobs, f ∈ N.files) →
          From N G G' → From N G (Owners.run (shownNames T) G' (jobs.map job)) := by
        intro jobs
        induction jobs with
        | nil => intro G' _ h; exact h
        | cons f jobs ih =>
          intro G' hmem h
          exact ih _ (fun g hg => hmem g (List.mem_cons_of_mem _ hg)) (h.step (hmem f (List.mem_cons_self ..)))
      exact hfold _ _ (fun f hf => (hjobs f hf).1) (From.clear _)
    split
    · exact ⟨_, hwalk.1.graph, hfrom⟩
    · exact ⟨_, hwalk.1.graph.rebuildScoped _, hfrom⟩

theorem ingest_shows {gitChanges : Option (List GitFileChange)}
    (hdiff : ∀ cs, gitChanges = some cs → ∃ O, GitDiff O N cs) :
    ShowsFrom T N G (ingestCheckout T N db gitChanges).walk.db := by
  cases gitChanges with
  | none => exact fullWalk_shows hT hG
  | some cs =>
    obtain ⟨O, hdiff⟩ := hdiff cs rfl
    simp only [ingestCheckout, ingestIncrementalFromGit]
    split
    · exact fullWalk_shows hT hG
    · exact incremental_shows hT hG hdiff

theorem interrupted_shows (gitChanges : Option (List GitFileChange)) (k : Nat) :
    ShowsFrom T N G (ingestInterrupted T N db gitChanges k) := by
  cases hpack : selectGoPackages T N (sortKeys ((goFiles T N).map (·.1.packageKey))) with
  | none =>
    simp only [ingestInterrupted, hpack]
    exact hG.self
  | some packages =>
    have hjobs : ∀ f ∈ (fullJobs T N (loadModuleState db) packages).1.take k,
        f ∈ (fullJobs T N (loadModuleState db) packages).1 := fun _ hf => List.mem_of_mem_take hf
    have hwalk := (walk_shows hT hG hpack hjobs).2
    cases gitChanges with
    | none => simpa only [ingestInterrupted, hpack, if_true] using hwalk
    | some changes =>
      simp only [ingestInterrupted, hpack]
      by_cases hfull : (changes.any touchesRootGoMod || hasStaleStamp T N db) = true
      · simpa only [if_pos hfull] using hwalk
      · simpa only [if_neg hfull] using hG.self

end

/-- The graphs that ingests leave: of a whole ingest, or of one that was broken
off after some files. -/
inductive Reached (T : Tools) : Db → Prop where
  | empty : Reached T emptyDb
  | ingested {db : Db} (h : Reached T db) (N : Checkout) (gitChanges : Option (List GitFileChange))
      (hdiff : ∀ cs, gitChanges = some cs → ∃ O, GitDiff O N cs) : Reached T (ingestCheckout T N db gitChanges).walk.db
  | brokenOff {db : Db} (h : Reached T db) (N : Checkout) (gitChanges : Option (List GitFileChange)) (k : Nat) :
      Reached T (ingestInterrupted T N db gitChanges k)

theorem Reached.shows (hT : T.Ok) (h : Reached T db) : ∃ G, Shows T db G := by
  induction h with
  | empty => exact ⟨_, emptyDb_shows⟩
  | ingested _ N gitChanges hdiff ih =>
    obtain ⟨G, hG⟩ := ih
    obtain ⟨G', hG', -⟩ := ingest_shows hT hG hdiff
    exact ⟨G', hG'⟩
  | brokenOff _ N gitChanges k ih =>
    obtain ⟨G, hG⟩ := ih
    obtain ⟨G', hG', -⟩ := interrupted_shows (N := N) hT hG gitChanges k
    exact ⟨G', hG'⟩

/-! ## Paths that are not deleted -/

/-- Why a path that is no longer selected keeps its rows. -/
def Lingers (T : Tools) (N : Checkout) (cs : List GitFileChange) (p : Path) : Prop :=
  isGo p = true ∧ p.suffix ≠ ".go" ∨
    isGo p = false ∧ p.isJsTsNoise = true ∧
      ∃ c ∈ cs, c.kind = .renamed ∧ c.oldFilePath = some p ∧ Pruned T N c.filePath

theorem pruned_not_go {p : Path} (h : Pruned T N p) : isGo p = false := by
  obtain ⟨l, hl, hjs, -⟩ := h
  rw [Bool.eq_false_iff]
  intro hgo
  rw [isGo_language, hl, Option.some.injEq] at hgo
  subst hgo
  cases hjs

theorem nonGoChanges_lingering {p : Path} (hk : c.kind = .renamed) (hold : c.oldFilePath = some p)
    (hgo : isGo p = false) (hnoise : p.isJsTsNoise = true) (hpruned : Pruned T N c.filePath) :
    nonGoChanges T N c = [] := by
  have htouch : changeTouchesGoPackage c = false := by
    simp [changeTouchesGoPackage, pruned_not_go hpruned, hold, hgo]
  obtain ⟨l, hl, hjs, hp⟩ := hpruned
  rw [← changePruned_eq (by simp [hk])] at hp
  simp [nonGoChanges, htouch, hl, hjs, hp, hk, hold, hnoise]

theorem GitDiff.line (h : GitDiff O N cs) (hc : c ∈ cs) (hc' : c' ∈ cs) {p : Path} (hp : p ∈ c.paths)
    (hp' : p ∈ c'.paths) : c = c' := by
  by_contra hne
  have hpair := (List.nodup_flatMap.mp h.once).2
  have hsymm : Std.Symm (Function.onFun List.Disjoint GitFileChange.paths) := ⟨fun _ _ hd => List.Disjoint.symm hd⟩
  have hdisjoint : List.Disjoint c.paths c'.paths := hpair.forall hc hc' hne
  exact List.disjoint_left.mp hdisjoint hp hp'

/-- A path the non-Go work deletes: it is on the line the work comes from, and
is no Go file. -/
theorem doomed_line (h : GitDiff O N cs) {p : Path} (hp : p ∈ (allNonGoChanges T N cs).filterMap doomedPath) :
    isGo p = false ∧ ∃ c ∈ cs, p ∈ c.paths ∧ nonGoChanges T N c ≠ [] := by
  obtain ⟨c', hc', hdoom⟩ := List.mem_filterMap.mp hp
  obtain ⟨c, hc, hmem⟩ := List.mem_flatMap.mp hc'
  have hne : nonGoChanges T N c ≠ [] := List.ne_nil_of_mem hmem
  rcases nonGoChanges_cases (h.describes c hc) hmem with hdrop | htake
  · rw [doomed_of_drops hdrop, Option.some.injEq] at hdoom
    subst hdoom
    refine ⟨hdrop.2.1, c, hc, ?_, hne⟩
    rcases hdrop.2.2 with ⟨-, hold⟩ | ⟨-, he, -⟩
    · simp [GitFileChange.paths, hold]
    · simp [GitFileChange.paths, he]
  · obtain ⟨hold, hgo⟩ := doomed_of_takes htake hdoom
    exact ⟨hgo, c, hc, by simp [GitFileChange.paths, hold], hne⟩

theorem lingers_kept (h : GitDiff O N cs) {packages : List GoPackage} {p : Path} (hp : Lingers T N cs p) :
    p ∉ deletedPaths T N db cs packages := by
  intro hmem
  rcases List.mem_append.mp hmem with hdoom | hstale
  · obtain ⟨hgo, c, hc, hpc, hne⟩ := doomed_line h hdoom
    rcases hp with ⟨hgo', -⟩ | ⟨-, hnoise, c', hc', hk, hold, hpruned⟩
    · rw [hgo] at hgo'
      cases hgo'
    · have hsame := h.line hc hc' hpc (by simp [GitFileChange.paths, hold])
      subst hsame
      exact hne (nonGoChanges_lingering hk hold hgo hnoise hpruned)
  · obtain ⟨package, -, hp'⟩ := List.mem_flatMap.mp hstale
    simp only [staleGoPaths, List.mem_insertionSort, List.mem_filter, decide_eq_true_eq] at hp'
    have hgo : isGo p = true := by
      rw [isGo_language, Path.detectGraphLanguage, hp'.2.1]
      decide
    rcases hp with ⟨-, hsuffix⟩ | ⟨hgo', -⟩
    · exact hsuffix hp'.2.1
    · rw [hgo] at hgo'
      cases hgo'

/-- A line that says a path is gone or not selected makes the run delete it. -/
theorem nonGoChanges_drops (hd : c.Describes O N) {p : Path} (hp : p ∈ c.paths) (hindex : p.Indexable)
    (hgo : isGo p = false) (hthere : O.text? p ≠ none) (hgone : wanted T N p = none)
    (hstay : ¬ (p.isJsTsNoise = true ∧ c.kind = .renamed ∧ c.oldFilePath = some p ∧ Pruned T N c.filePath)) :
    ∃ c' ∈ nonGoChanges T N c, doomedPath c' = some p := by
  obtain ⟨l, hl, hclean⟩ := hindex
  have hlang : p.detectGraphLanguage ≠ none := by simp [hl]
  simp only [GitFileChange.paths, List.mem_cons, Option.mem_toList] at hp
  rcases hp with rfl | hold
  · -- the path itself: modified out of the index, or deleted
    have hkind : c.kind = .modified ∨ c.kind = .deleted := by
      unfold GitFileChange.Describes at hd
      cases hk : c.kind <;> cases ho : c.oldFilePath <;> simp only [hk, ho] at hd <;>
        first
          | exact Or.inl rfl
          | exact Or.inr rfl
          | exact absurd hd.1 hthere
          | exact absurd hd.2.2.1 hthere
    have hnone : c.oldFilePath = none := by
      cases ho : c.oldFilePath with
      | none => rfl
      | some q =>
        have hr := hd.renamed ho
        rcases hkind with hk | hk <;> rw [hr] at hk <;> cases hk
    have htouch : changeTouchesGoPackage c = false := by simp [changeTouchesGoPackage, hgo, hnone]
    by_cases hpruned : Path.isJsTs l = true ∧ jsTsChangePruned T N c = true
    · have hnoise := hclean hpruned.1
      refine ⟨⟨.deleted, c.filePath, none⟩, ?_, rfl⟩
      rcases hkind with hk | hk <;> simp [nonGoChanges, htouch, hl, hpruned, hk, hnoise]
    · rcases hkind with hk | hk
      · -- a modified file that stays selected
        exfalso
        obtain ⟨text, htext⟩ := Option.ne_none_iff_exists'.mp (hd.there (by simp [hk]))
        have hkeep : ¬ Pruned T N c.filePath := by
          rintro ⟨l', hl', hjs, hp⟩
          rw [hl, Option.some.injEq] at hl'
          subst hl'
          rw [changePruned_eq (by simp [hk])] at hpruned
          exact hpruned ⟨hjs, hp⟩
        refine wanted_none.mp hgone text ⟨text_some.mp htext, source_of_not_pruned hlang hkeep htext, ?_⟩
        intro hgo'
        rw [hgo] at hgo'
        cases hgo'
      · refine ⟨c, ?_, by simp [doomedPath, hk]⟩
        simp [nonGoChanges, htouch, hl, hpruned]
  · have hk := hd.renamed hold
    by_cases htouch : changeTouchesGoPackage c = true
    · refine ⟨⟨.deleted, p, none⟩, ?_, rfl⟩
      simp [nonGoChanges, htouch, hk, hold, hlang, hgo]
    · rw [Bool.not_eq_true] at htouch
      cases hnew : c.filePath.detectGraphLanguage with
      | none =>
        refine ⟨⟨.deleted, p, none⟩, ?_, rfl⟩
        simp [nonGoChanges, htouch, hnew, hk, hold, hlang]
      | some l' =>
        by_cases hpruned : Path.isJsTs l' = true ∧ jsTsChangePruned T N c = true
        · have hnoise : p.isJsTsNoise = false := by
            rw [Bool.eq_false_iff]
            intro hnoise
            refine hstay ⟨hnoise, hk, hold, l', hnew, hpruned.1, ?_⟩
            rw [← changePruned_eq (by simp [hk])]
            exact hpruned.2
          refine ⟨⟨.deleted, p, none⟩, ?_, rfl⟩
          simp [nonGoChanges, htouch, hnew, hpruned, hk, hold, hlang, hnoise]
        · refine ⟨c, ?_, by simp [doomedPath, hk, hold]⟩
          simp [nonGoChanges, htouch, hnew, hpruned]

/-- **Every other path that is no longer selected is deleted.** -/
theorem deleted_covered (h : GitDiff O N cs) {packages : List GoPackage}
    (hpack : selectGoPackages T N (goPackageKeys cs) = some packages) {p : Path} (hindex : p.Indexable)
    (hknown : p ∈ (loadModuleState db).map (·.1)) (hdiff : Differs O N p) (hthere : isGo p = false → O.text? p ≠ none)
    (hgone : wanted T N p = none) (hstay : ¬ Lingers T N cs p) : p ∈ deletedPaths T N db cs packages := by
  rw [deletedPaths, List.mem_append]
  by_cases hgo : isGo p = true
  · right
    obtain ⟨q, hq, hkey, hqdiff⟩ := hdiff.1 hgo
    obtain ⟨hkeys, hall⟩ := selectGoPackages_some hpack
    have hk : p.packageKey ∈ packages.map (·.key) := by
      rw [hkeys, goPackageKeys, mem_sortKeys, ← hkey]
      exact go_covered h hq hqdiff
    obtain ⟨package, hp, hpk⟩ := List.mem_map.mp hk
    refine List.mem_flatMap.mpr ⟨package, hp, ?_⟩
    simp only [staleGoPaths, List.mem_insertionSort, List.mem_filter, decide_eq_true_eq]
    refine ⟨hknown, ?_, hpk.symm, ?_⟩
    · by_contra hsuffix
      exact hstay (Or.inl ⟨hgo, hsuffix⟩)
    · intro hmem
      obtain ⟨f, hf, rfl⟩ := List.mem_map.mp hmem
      exact wanted_none.mp hgone f.2 ((mem_selected (hall package hp)).mp hf).1
  · left
    rw [Bool.not_eq_true] at hgo
    obtain ⟨c, hc, hmem⟩ := List.mem_flatMap.mp (h.all p (hdiff.2 hgo))
    obtain ⟨c', hc', hdoom⟩ := nonGoChanges_drops (T := T) (h.describes c hc) hmem hindex hgo (hthere hgo) hgone
      fun hl => hstay (Or.inr ⟨hgo, hl.1, c, hc, hl.2⟩)
    exact List.mem_filterMap.mpr ⟨c', List.mem_flatMap.mpr ⟨c, hc, hc'⟩, hdoom⟩

/-! ## The stored paths -/

def storedPaths (db : Db) : List Path := (db.nodes.filter (·.nodeType = .module)).map (·.filePath)

theorem Shows.stored (hT : T.Ok) (hG : Shows T db G) {p : Path} : p ∈ storedPaths db ↔ (G p).isSome := by
  rw [← hG.known hT, loadModuleState, Dict.mem_keys_ofItems, List.map_map]
  rfl

/-- **When an incremental run stores what discovery selects.** On a graph that
stores the paths of the old tree, without a full walk and with no file skipped,
the run leaves the paths of the new tree if and only if none that is no longer
selected lingers. -/
theorem incremental_paths_iff (hT : T.Ok) (hdb : Reached T db) (hdiff : GitDiff O N cs)
    (hstored : ∀ p, p ∈ storedPaths db ↔ wanted T O p ≠ none) (hfull : takesFullWalk T N db cs = false)
    (hr : (ingestIncrementalFromGit T N db cs).raised = false)
    (hw : (ingestIncrementalFromGit T N db cs).walk.warnings = []) :
    (∀ p, p ∈ storedPaths (ingestIncrementalFromGit T N db cs).walk.db ↔ wanted T N p ≠ none) ↔
      ∀ p, wanted T O p ≠ none → wanted T N p = none → ¬ Lingers T N cs p := by
  obtain ⟨G, hG⟩ := hdb.shows hT
  have hrun : ingestIncrementalFromGit T N db cs = ingestIncremental T N db cs := by
    rw [takesFullWalk] at hfull
    simp [ingestIncrementalFromGit, hfull]
  rw [hrun] at hr hw ⊢
  obtain ⟨s, hs, hbatch⟩ := incremental_batch hT hG hdiff hr
  have hnil : Owners.refused (shownNames T) (clear s.drops G) (s.jobs (isDue T db)) = [] := by
    rw [hbatch.warnings] at hw
    exact List.map_eq_nil_iff.mp hw
  have hselects : T.selects O = T.selects N := by
    rw [takesFullWalk, Bool.or_eq_false_iff] at hfull
    exact selects_same hT hdiff hfull.1
  -- with the same text a path is selected in both trees or in none
  have htext : ∀ p, O.text? p = N.text? p → wanted T O p = wanted T N p := by
    intro p hp
    have hmem : ∀ text, (p, text) ∈ O.files ↔ (p, text) ∈ N.files := by
      intro text
      rw [← text_some, ← text_some, hp]
    simp only [wanted, hp, Indexed, hmem, hselects]
  have hshown : ∀ p, (G p).isSome ↔ wanted T O p ≠ none := fun p => (hG.stored hT).symm.trans (hstored p)
  have hkept : ∀ p, wanted T N p ≠ none → ((Owners.run (shownNames T) (clear s.drops G) (s.jobs (isDue T db))) p).isSome := by
    intro p hp
    obtain ⟨text, ht⟩ := Option.ne_none_iff_exists'.mp hp
    have hi := wanted_some.mp ht
    by_cases hmem : p ∈ (s.jobs (isDue T db)).map (·.1)
    · obtain ⟨x, hx, rfl⟩ := List.mem_map.mp hmem
      rw [Owners.run_mem hnil (jobs_nodup hbatch.fits) hx]
      obtain ⟨f, -, rfl⟩ := List.mem_map.mp hx
      rfl
    · rw [Owners.run_other hnil hmem]
      have hdrop : s.drops p = false := by
        rw [Bool.eq_false_iff]
        intro hd
        exact hp (hbatch.fits.drops p hd)
      simp only [clear, hdrop, Bool.false_eq_true, if_false]
      rw [hshown]
      by_contra hold
      -- new, or its text differs: it is a job
      apply hmem
      have hne : O.text? p ≠ N.text? p := fun he => hp (by rw [← htext p he]; exact hold)
      rw [incrementalSchedule, Option.map_eq_some_iff] at hs
      obtain ⟨packages, hpack, rfl⟩ := hs
      have hfile := incremental_covered hdiff hpack hi (differs_of_text hne)
      have hnone : G p = none := by
        by_contra hg
        exact (hshown p).mp (Option.isSome_iff_ne_none.mpr hg) hold
      have hdue : isDue T db (p, text) = true := by
        simp [isDue, isChanged, hG.state hT, hnone]
      exact List.mem_map.mpr ⟨job (p, text), List.mem_map_of_mem (List.mem_filter.mpr ⟨hfile, hdue⟩), rfl⟩
  constructor
  · intro hall p hold hgone hlinger
    have hp := (not_congr (hall p)).mpr (by simpa using hgone)
    apply hp
    rw [hbatch.shows.stored hT, batch_other hbatch.fits hnil hgone]
    rw [incrementalSchedule, Option.map_eq_some_iff] at hs
    obtain ⟨packages, hpack, rfl⟩ := hs
    have hstay : p ∉ deletedPaths T N db cs packages := lingers_kept hdiff hlinger
    simp only [clear, hstay, decide_false, Bool.false_eq_true, if_false]
    exact (hshown p).mpr hold
  · intro hno p
    rw [hbatch.shows.stored hT]
    constructor
    · intro hsome hgone
      rw [batch_other hbatch.fits hnil hgone] at hsome
      by_cases hd : s.drops p = true
      · simp [clear, hd] at hsome
      · simp only [clear, hd] at hsome
        have hold := (hshown p).mp hsome
        apply hd
        obtain ⟨text, ht⟩ := Option.ne_none_iff_exists'.mp hold
        have hi := wanted_some.mp ht
        have hne : O.text? p ≠ N.text? p := fun he => hold (by rw [htext p he]; exact hgone)
        rw [incrementalSchedule, Option.map_eq_some_iff] at hs
        obtain ⟨packages, hpack, rfl⟩ := hs
        refine decide_eq_true (deleted_covered hdiff hpack hi.indexable ((hG.known hT).mpr hsome) (differs_of_text hne)
          (fun _ => ?_) hgone (hno p hold hgone))
        rw [text_some.mpr hi.1]
        exact Option.some_ne_none text
    · exact hkept p

/-! ## One file that leaves the index -/

def oneFile (p : Path) (text : String) : Checkout := ⟨[(p, text)], by simp⟩

def afterWalk (N : Checkout) : Db := (ingestCheckout smallTools N emptyDb none).walk.db

theorem afterWalk_reached (N : Checkout) : Reached smallTools (afterWalk N) :=
  .ingested .empty N none fun _ h => by cases h

theorem afterWalk_stores {N : Checkout} (hr : (ingestFullWalk smallTools N emptyDb).raised = false)
    (hw : (ingestFullWalk smallTools N emptyDb).walk.warnings = []) (p : Path) :
    p ∈ storedPaths (afterWalk N) ↔ wanted smallTools N p ≠ none := by
  have hstores := fullWalk_stores smallTools_ok emptyDb_shows (fun _ _ h => by cases h) hr hw
  exact ((hstores.shows smallTools_ok).stored smallTools_ok).trans Option.isSome_iff_ne_none

def distPython : Path := ⟨["dist"], "a.py"⟩

def distScript : Path := ⟨["dist"], "a.js"⟩

def distRename : List GitFileChange := [⟨.renamed, distScript, some distPython⟩]

theorem distRename_diff : GitDiff (oneFile distPython "") (oneFile distScript "") distRename where
  describes c hc := by
    rw [List.mem_singleton.mp hc]
    simp [GitFileChange.Describes, Checkout.text?, oneFile, Dict.get_cons, distPython, distScript]
  once := by decide
  all p hne := by
    by_contra hp
    apply hne
    simp only [distRename, GitFileChange.paths, List.flatMap_cons, List.flatMap_nil, List.append_nil,
      Option.toList_some, List.mem_cons, List.not_mem_nil, or_false, not_or] at hp
    simp [Checkout.text?, oneFile, Dict.get_cons, Ne.symm hp.1, Ne.symm hp.2]

/-- `dist/a.py` is renamed to `dist/a.js`, which is noise: the module row of
`dist/a.py` stays, and discovery selects nothing. -/
theorem renamed_python_lingers : smallTools.Ok ∧ Reached smallTools (afterWalk (oneFile distPython "")) ∧
    GitDiff (oneFile distPython "") (oneFile distScript "") distRename ∧
    (∀ p, p ∈ storedPaths (afterWalk (oneFile distPython "")) ↔ wanted smallTools (oneFile distPython "") p ≠ none) ∧
    takesFullWalk smallTools (oneFile distScript "") (afterWalk (oneFile distPython "")) distRename = false ∧
    (ingestIncrementalFromGit smallTools (oneFile distScript "") (afterWalk (oneFile distPython "")) distRename).raised
      = false ∧
    (ingestIncrementalFromGit smallTools (oneFile distScript "") (afterWalk (oneFile distPython "")) distRename).walk.warnings
      = [] ∧
    distPython ∈ storedPaths
      (ingestIncrementalFromGit smallTools (oneFile distScript "") (afterWalk (oneFile distPython "")) distRename).walk.db ∧
    wanted smallTools (oneFile distScript "") distPython = none :=
  ⟨smallTools_ok, afterWalk_reached _, distRename_diff, afterWalk_stores (by decide) (by decide), by decide, by decide,
    by decide, by decide, by decide⟩

def goFile : Path := ⟨[], "a.go"⟩

def goDelete : List GitFileChange := [⟨.deleted, ⟨[], "b.go"⟩, none⟩]

theorem goDelete_diff : GitDiff (goPair "f" "g") (oneFile goFile "f") goDelete where
  describes c hc := by
    rw [List.mem_singleton.mp hc]
    simp [GitFileChange.Describes, Checkout.text?, goPair, oneFile, goFile, Dict.get_cons]
  once := by decide
  all p hne := by
    by_contra hp
    apply hne
    simp only [goDelete, GitFileChange.paths, List.flatMap_cons, List.flatMap_nil, List.append_nil,
      Option.toList_none, List.mem_cons, List.not_mem_nil, or_false] at hp
    simp [Checkout.text?, goPair, oneFile, goFile, Dict.get_cons, Ne.symm hp]

theorem deleted_go_leaves : Reached smallTools (afterWalk (goPair "f" "g")) ∧ ∀ p,
    p ∈ storedPaths
      (ingestIncrementalFromGit smallTools (oneFile goFile "f") (afterWalk (goPair "f" "g")) goDelete).walk.db ↔
      wanted smallTools (oneFile goFile "f") p ≠ none := by
  refine ⟨afterWalk_reached _, (incremental_paths_iff smallTools_ok (afterWalk_reached _) goDelete_diff
    (afterWalk_stores (by decide) (by decide)) (by decide) (by decide) (by decide)).mpr ?_⟩
  intro p hold _
  have hmem : p ∈ (goPair "f" "g").files.map (·.1) := by
    obtain ⟨text, ht⟩ := Option.ne_none_iff_exists'.mp hold
    exact List.mem_map_of_mem (wanted_some.mp ht).1
  have hgo : ∀ p ∈ (goPair "f" "g").files.map (·.1), isGo p = true ∧ p.suffix = ".go" := by decide
  rintro (⟨-, hsuffix⟩ | ⟨hno, -⟩)
  · exact hsuffix (hgo p hmem).2
  · rw [(hgo p hmem).1] at hno
    cases hno

end Cograph
