import Cograph.IngestDiff

/-!
# When an ingest stores every file

Both ways through the ingest are a batch of replacements over what the graph
shows: some paths are dropped, then the due files are persisted in order. From
a graph that stores one checkout, the ingest of another stores every file of it
if and only if each name that moves between files is given up before it is
taken.
-/

namespace Cograph

variable {T : Tools} {O N : Checkout} {db : Db} {G : Path → Option String}

/-! ## Schedules -/

/-- The paths an ingest drops before it persists anything, and the files it
comes to, in order. -/
structure Schedule where
  drops : Path → Bool
  files : List (Path × String)

def fullSchedule (T : Tools) (N : Checkout) : Option Schedule :=
  (selectGoPackages T N (sortKeys ((goFiles T N).map (·.1.packageKey)))).map fun packages =>
    ⟨fun p => decide (p ∉ (presentFiles T N packages).map (·.1)), presentFiles T N packages⟩

def incrementalSchedule (T : Tools) (N : Checkout) (db : Db) (changes : List GitFileChange) : Option Schedule :=
  (selectGoPackages T N (goPackageKeys changes)).map fun packages =>
    ⟨fun p => decide (p ∈ deletedPaths T N db changes packages), incrementalFiles T N changes packages⟩

/-- The test that sends an incremental run into the full walk. -/
def takesFullWalk (T : Tools) (N : Checkout) (db : Db) (changes : List GitFileChange) : Bool :=
  changes.any touchesRootGoMod || hasStaleStamp T N db

def schedule (T : Tools) (N : Checkout) (db : Db) : Option (List GitFileChange) → Option Schedule
  | none => fullSchedule T N
  | some changes =>
    if takesFullWalk T N db changes then fullSchedule T N else incrementalSchedule T N db changes

/-- Every name that a file of `N` takes over from another file of `O` is given
up first: that file is dropped, or comes earlier. -/
def Schedule.GivesUpFirst (T : Tools) (O N : Checkout) (s : Schedule) : Prop :=
  ∀ f g, Indexed T N f → Indexed T O g → g.1 ≠ f.1 → (∃ x ∈ facts T N f, ∃ y ∈ facts T O g, x.1 = y.1) →
    s.drops g.1 = true ∨ [g.1, f.1].Sublist (s.files.map (·.1))

/-- The hash of a text the graph shows is not that of another text of `N`. -/
def Tells (T : Tools) (G : Path → Option String) (N : Checkout) : Prop :=
  ∀ p text, G p = some text → ∀ f ∈ N.files, T.host.sha256 text = T.host.sha256 f.2 → text = f.2

theorem mem_shownNames (hT : T.Ok) (C : Checkout) {p : Path} {text q : String} :
    q ∈ shownNames T p (some text) ↔ ∃ x ∈ facts T C (p, text), x.1 = q := by
  rw [facts_context hT C .empty]
  constructor
  · rintro ⟨t, ht, h⟩
    cases ht
    exact h
  · intro h
    exact ⟨text, rfl, h⟩

/-! ## The batch -/

/-- A schedule fit for `N`. -/
structure Schedule.Fits (T : Tools) (N : Checkout) (s : Schedule) : Prop where
  indexed : ∀ f ∈ s.files, Indexed T N f
  nodup : (s.files.map (·.1)).Nodup
  drops : ∀ p, s.drops p = true → wanted T N p = none

/-- Every indexed file that the graph does not show is due. -/
def Schedule.Covers (T : Tools) (N : Checkout) (G : Path → Option String) (s : Schedule)
    (due : Path × String → Bool) : Prop :=
  ∀ f, Indexed T N f → G f.1 ≠ some f.2 → f ∈ s.files ∧ due f = true

def Schedule.jobs (s : Schedule) (due : Path × String → Bool) : List (Path × Option String) :=
  (s.files.filter due).map job

section
variable {s : Schedule} {due : Path × String → Bool} (hfit : s.Fits T N)
include hfit

theorem jobs_nodup : ((s.jobs due).map (·.1)).Nodup := by
  have hsame : (s.jobs due).map (·.1) = (s.files.filter due).map (·.1) := by
    simp [Schedule.jobs, job]
  rw [hsame]
  exact hfit.nodup.sublist (List.filter_sublist.map _)

/-- **A batch that is not refused leaves every indexed file shown.** -/
theorem batch_indexed (hcover : s.Covers T N G due) (hnil : Owners.refused (shownNames T) (clear s.drops G) (s.jobs due) = [])
    {f : Path × String} (hf : Indexed T N f) :
    Owners.run (shownNames T) (clear s.drops G) (s.jobs due) f.1 = some f.2 := by
  by_cases hmem : f.1 ∈ (s.jobs due).map (·.1)
  · obtain ⟨x, hx, hxf⟩ := List.mem_map.mp hmem
    obtain ⟨g, hg, rfl⟩ := List.mem_map.mp hx
    have : f = g := hf.text (hfit.indexed g (List.mem_of_mem_filter hg)).1 hxf.symm
    subst this
    exact Owners.run_mem hnil (jobs_nodup hfit) hx
  · rw [Owners.run_other hnil hmem]
    have hshown : G f.1 = some f.2 := by
      by_contra hne
      obtain ⟨hfile, hdue⟩ := hcover f hf hne
      exact hmem (List.mem_map.mpr ⟨job f, List.mem_map_of_mem (List.mem_filter.mpr ⟨hfile, hdue⟩), rfl⟩)
    have hkept : s.drops f.1 = false := by
      rw [Bool.eq_false_iff]
      intro hd
      have := hfit.drops f.1 hd
      rw [wanted_some.mpr hf] at this
      cases this
    simp [clear, hkept, hshown]

theorem batch_other (hnil : Owners.refused (shownNames T) (clear s.drops G) (s.jobs due) = []) {p : Path}
    (hp : wanted T N p = none) :
    Owners.run (shownNames T) (clear s.drops G) (s.jobs due) p = clear s.drops G p := by
  apply Owners.run_other hnil
  intro hmem
  obtain ⟨x, hx, rfl⟩ := List.mem_map.mp hmem
  obtain ⟨g, hg, rfl⟩ := List.mem_map.mp hx
  exact wanted_none.mp hp g.2 (hfit.indexed g (List.mem_of_mem_filter hg))

theorem batch_disjoint (hT : T.Ok) (hN : Distinct T N) :
    (s.jobs due).Pairwise fun x y => Disjoint (shownNames T x.1 x.2) (shownNames T y.1 y.2) := by
  have hnodup := hfit.nodup
  rw [List.Nodup, List.pairwise_map] at hnodup
  rw [Schedule.jobs, List.pairwise_map]
  refine (hnodup.filter due).imp_of_mem ?_
  intro f g hf hg hne
  rw [Set.disjoint_left]
  intro q hqf hqg
  obtain ⟨x, hx, rfl⟩ := (mem_shownNames hT N).mp hqf
  obtain ⟨y, hy, he⟩ := (mem_shownNames hT N).mp hqg
  exact hN f g (hfit.indexed f (List.mem_of_mem_filter hf)) (hfit.indexed g (List.mem_of_mem_filter hg)) hne x hx y hy he.symm

end

theorem before_of_split {α : Type} {l pre post : List α} (hl : l.Nodup) {a b : α} (he : l = pre ++ b :: post)
    (hne : a ≠ b) : [a, b].Sublist l ↔ a ∈ pre := by
  subst he
  constructor
  · intro hsub
    obtain ⟨l₁, l₂, he, hl₁, hl₂⟩ := List.sublist_append_iff.mp hsub
    cases l₁ with
    | cons x l₁ =>
      rw [List.cons_append, List.cons.injEq] at he
      rw [he.1]
      exact hl₁.subset (List.mem_cons_self ..)
    | nil =>
      -- both after the place of `b`, so `b` comes twice
      exfalso
      cases he
      rw [List.nodup_append] at hl
      cases hl₂ with
      | cons _ h => exact (List.nodup_cons.mp hl.2.1).1 (h.subset (by simp))
      | cons_cons => exact hne rfl
  · intro ha
    have hfirst := List.singleton_sublist.mpr ha
    have hsecond := List.singleton_sublist.mpr (List.mem_cons_self (a := b) (l := post))
    exact hfirst.append hsecond

theorem pair_of_map {α β : Type} {π : α → β} {l : List α} (hl : (l.map π).Nodup) {p : β} {b : α} (hb : b ∈ l)
    (h : [p, π b].Sublist (l.map π)) : ∃ a, π a = p ∧ [a, b].Sublist l := by
  obtain ⟨l', hl', he⟩ := List.sublist_map_iff.mp h
  have hlength := congrArg List.length he
  match l', he, hlength with
  | [a, c], he, _ =>
    simp only [List.map_cons, List.map_nil, List.cons.injEq, and_true] at he
    have hc : c = b := List.inj_on_of_nodup_map hl (hl'.subset (by simp)) hb he.2.symm
    exact ⟨a, he.1.symm, hc ▸ hl'⟩
  | [], _, h => simp at h
  | [_], _, h => simp at h
  | _ :: _ :: _ :: _, _, h => simp at h

/-- **A batch from one checkout to another goes through if and only if every
name is given up first.** -/
theorem batch_iff (hT : T.Ok) (hO : Distinct T O) (hN : Distinct T N) (hG : ∀ p, G p = wanted T O p) {s : Schedule}
    {due : Path × String → Bool} (hfit : s.Fits T N) (hcover : s.Covers T N G due) :
    Owners.refused (shownNames T) (clear s.drops G) (s.jobs due) = [] ↔ s.GivesUpFirst T O N := by
  have hjobs : (s.jobs due).map (·.1) = (s.files.filter due).map (·.1) := by simp [Schedule.jobs, job]
  have hnodup : ((s.jobs due).map (·.1)).Nodup := jobs_nodup hfit
  rw [Owners.refused_nil_iff hnodup (batch_disjoint hfit hT hN)]
  constructor
  · intro hall f g hf hg hne hshare
    obtain ⟨x, hx, y, hy, hxy⟩ := hshare
    by_contra hout
    rw [not_or, Bool.not_eq_true] at hout
    -- the old checkout does not index `f` with this text: the name is `g`'s there
    have hdiff : G f.1 ≠ some f.2 := by
      intro hshown
      rw [hG, wanted_some] at hshown
      rw [facts_context hT N O] at hx
      exact hO f g hshown hg hne.symm x hx y hy hxy
    obtain ⟨hfile, hdue⟩ := hcover f hf hdiff
    obtain ⟨pre, post, hsplit⟩ := List.append_of_mem (List.mem_map_of_mem (f := job) (List.mem_filter.mpr ⟨hfile, hdue⟩))
    have hpre : g.1 ∉ pre.map (·.1) := by
      intro hmem
      apply hout.2
      have hpaths : (s.jobs due).map (·.1) = pre.map (·.1) ++ f.1 :: post.map (·.1) := by
        rw [Schedule.jobs, hsplit, List.map_append, List.map_cons]
        rfl
      have hsub := (before_of_split hnodup hpaths hne).mpr hmem
      rw [hjobs] at hsub
      exact hsub.trans (List.filter_sublist.map _)
    have hheld : x.1 ∈ shownNames T g.1 (clear s.drops G g.1) := by
      have hshown : clear s.drops G g.1 = some g.2 := by simp [clear, hout.1, hG, wanted_some.mpr hg]
      rw [hshown]
      exact (mem_shownNames hT O).mpr ⟨y, hy, hxy.symm⟩
    exact Set.disjoint_left.mp (hall pre (job f) post hsplit g.1 hne hpre) hheld
      ((mem_shownNames hT N).mpr ⟨x, hx, rfl⟩)
  · intro hfirst pre z post hsplit p hp hpre
    rw [Set.disjoint_left]
    intro q hqp hqz
    have hz : z ∈ s.jobs due := by
      rw [hsplit]
      simp
    obtain ⟨f, hf, rfl⟩ := List.mem_map.mp hz
    have hfi := hfit.indexed f (List.mem_of_mem_filter hf)
    obtain ⟨x, hx, rfl⟩ := (mem_shownNames hT N).mp hqz
    have hholds := hqp
    obtain ⟨text, htext, -⟩ := hholds
    by_cases hd : s.drops p = true
    · simp [clear, hd] at htext
    · have hshown : G p = some text := by simpa [clear, hd] using htext
      have hgi : Indexed T O (p, text) := wanted_some.mp (hG p ▸ hshown)
      rw [htext, mem_shownNames hT O] at hqp
      obtain ⟨y, hy, hxy⟩ := hqp
      rcases hfirst f (p, text) hfi hgi hp ⟨x, hx, y, hy, hxy.symm⟩ with hdrop | hbefore
      · exact hd hdrop
      · obtain ⟨g, hgp, hpair⟩ := pair_of_map hfit.nodup (List.mem_of_mem_filter hf) hbefore
        subst hgp
        have hg : g ∈ s.files := hpair.subset (List.mem_cons_self ..)
        -- `g` is due, since its text lost the name
        have hdue : due g = true := by
          apply (hcover g (hfit.indexed g hg) _).2
          intro hsame
          rw [hshown, Option.some.injEq] at hsame
          subst hsame
          rw [facts_context hT O N] at hy
          exact hN f g hfi (hfit.indexed g hg) (Ne.symm hp) x hx y hy hxy.symm
        apply hpre
        rw [← before_of_split hnodup (by rw [hsplit, List.map_append, List.map_cons]) hp, hjobs]
        have hdues := (hpair.filter due).map (·.1)
        rw [List.filter_cons_of_pos hdue, List.filter_cons_of_pos (List.mem_filter.mp hf).2] at hdues
        exact hdues

/-! ## The two ways through the ingest -/

def due (T : Tools) (N : Checkout) (db : Db) : Option (List GitFileChange) → Path × String → Bool
  | none => isStale T N (loadModuleState db)
  | some changes => if takesFullWalk T N db changes then isStale T N (loadModuleState db) else isDue T db

/-- What an ingest leaves, as a batch over what the graph showed. -/
structure Batch (T : Tools) (N : Checkout) (G : Path → Option String) (s : Schedule) (due : Path × String → Bool)
    (walk : Walk) : Prop where
  fits : s.Fits T N
  shows : Shows T walk.db (Owners.run (shownNames T) (clear s.drops G) (s.jobs due))
  warnings : walk.warnings = (Owners.refused (shownNames T) (clear s.drops G) (s.jobs due)).map (·.1)

theorem isGo_stale_hash (hT : T.Ok) (hG : Shows T db G) (htell : Tells T G N) {f : Path × String} (hf : f ∈ N.files)
    (hne : G f.1 ≠ some f.2) : isChanged T (loadModuleState db) f = true := by
  simp only [isChanged, hG.state hT, decide_eq_true_eq]
  intro hsame
  obtain ⟨text, htext, hhash⟩ := Option.map_eq_some_iff.mp hsame
  exact hne (htext.trans (congrArg some (htell f.1 text htext f hf hhash)))

theorem start_shows (hG : Shows T db G) : (Walk.start db (some (Cache.fromNodes db.nodes))).Shows T G := by
  refine ⟨hG, ?_⟩
  intro c hc
  cases hc
  exact Cache.fromNodes_ok

section
variable (hT : T.Ok) (hG : Shows T db G)
include hT hG

theorem fullWalk_batch (hr : (ingestFullWalk T N db).raised = false) :
    ∃ s, fullSchedule T N = some s ∧ Batch T N G s (isStale T N (loadModuleState db)) (ingestFullWalk T N db).walk := by
  unfold ingestFullWalk at hr ⊢
  cases hpack : selectGoPackages T N (sortKeys ((goFiles T N).map (·.1.packageKey))) with
  | none => simp [hpack] at hr
  | some packages =>
    simp only [hpack] at hr ⊢
    refine ⟨_, by rw [fullSchedule, hpack]; rfl, ?_⟩
    have hpruned : Shows T (pruneMissing db ((presentFiles T N packages).map (·.1)))
        (clear (fun p => decide (p ∉ (presentFiles T N packages).map (·.1))) G) := by
      unfold pruneMissing
      dsimp only
      split
      · exact (hG.delete _).rebuild
      · exact hG.delete _
    rw [fullJobs_eq hr]
    have hwalk := walkFiles_shows (C := N) hT ((presentFiles T N packages).filter (isStale T N (loadModuleState db)))
      (fun f hf => ((mem_present hpack).mp (List.mem_of_mem_filter hf)).indexable) (P := fun _ => True)
      (fun _ _ _ _ => trivial) (start_shows hpruned) trivial ⟨_, hpruned, trivial⟩
    refine ⟨⟨fun f hf => (mem_present hpack).mp hf, present_nodup hpack, ?_⟩, hwalk.1.graph,
      by simpa [Walk.start, Schedule.jobs] using hwalk.2.2.1⟩
    intro p hp
    rw [wanted_none]
    intro text hi
    simp only [decide_eq_true_eq] at hp
    exact hp (List.mem_map.mpr ⟨(p, text), (mem_present hpack).mpr hi, rfl⟩)

theorem fullWalk_covers {s : Schedule} (hs : fullSchedule T N = some s) (htell : Tells T G N) :
    s.Covers T N G (isStale T N (loadModuleState db)) := by
  rw [fullSchedule, Option.map_eq_some_iff] at hs
  obtain ⟨packages, hpack, rfl⟩ := hs
  intro f hf hne
  refine ⟨(mem_present hpack).mpr hf, ?_⟩
  have hchanged := isGo_stale_hash hT hG htell hf.1 hne
  simp only [isChanged, isStale, decide_eq_true_eq] at hchanged ⊢
  intro hsame
  rw [hsame] at hchanged
  exact hchanged rfl

theorem incremental_batch {cs : List GitFileChange} (hdiff : GitDiff O N cs)
    (hr : (ingestIncremental T N db cs).raised = false) :
    ∃ s, incrementalSchedule T N db cs = some s ∧ Batch T N G s (isDue T db) (ingestIncremental T N db cs).walk := by
  unfold ingestIncremental at hr ⊢
  cases hpack : selectGoPackages T N (goPackageKeys cs) with
  | none => simp [hpack] at hr
  | some packages =>
    simp only [hpack] at hr ⊢
    refine ⟨_, by rw [incrementalSchedule, hpack]; rfl, ?_⟩
    have hstart : ({ Walk.start db none with
        db := ((deletedPaths T N db cs packages).foldl deleteSourceFile (db, [])).1 } : Walk).Shows T
        (clear (fun p => decide (p ∈ deletedPaths T N db cs packages)) G) :=
      ⟨hG.deleteAll _ _, fun c hc => by cases hc⟩
    rw [incrementalJobs_eq hdiff hpack hr]
    have hwalk := persistFiles_shows (C := N) hT ((incrementalFiles T N cs packages).filter (isDue T db))
      (fun f hf => (mem_incrementalFiles hdiff hpack (List.mem_of_mem_filter hf)).indexable) hstart
    refine ⟨⟨fun f hf => mem_incrementalFiles hdiff hpack hf, incremental_nodup hdiff hpack, ?_⟩, ?_,
      by simpa [Walk.start, Schedule.jobs] using hwalk.2⟩
    · intro p hp
      exact deleted_unwanted hdiff hpack (by simpa using hp)
    · dsimp only
      split
      · exact hwalk.1.graph
      · exact hwalk.1.graph.rebuildScoped _

theorem incremental_covers {cs : List GitFileChange} (hdiff : GitDiff O N cs) {s : Schedule}
    (hs : incrementalSchedule T N db cs = some s) (htell : Tells T G N)
    (hseen : ∀ f, Indexed T N f → G f.1 ≠ some f.2 → Differs O N f.1) : s.Covers T N G (isDue T db) := by
  rw [incrementalSchedule, Option.map_eq_some_iff] at hs
  obtain ⟨packages, hpack, rfl⟩ := hs
  intro f hf hne
  refine ⟨incremental_covered hdiff hpack hf (hseen f hf hne), ?_⟩
  simp [isDue, isGo_stale_hash hT hG htell hf.1 hne]

/-- **Every ingest that does not raise is a batch.** -/
theorem ingest_batch {gitChanges : Option (List GitFileChange)}
    (hdiff : ∀ cs, gitChanges = some cs → ∃ O, GitDiff O N cs) (hr : (ingestCheckout T N db gitChanges).raised = false) :
    ∃ s, schedule T N db gitChanges = some s ∧
      Batch T N G s (due T N db gitChanges) (ingestCheckout T N db gitChanges).walk := by
  cases gitChanges with
  | none => exact fullWalk_batch hT hG hr
  | some cs =>
    obtain ⟨O, hdiff⟩ := hdiff cs rfl
    simp only [ingestCheckout, ingestIncrementalFromGit, schedule, due, takesFullWalk] at hr ⊢
    split at hr
    · rename_i hfull
      simp only [hfull, if_true]
      exact fullWalk_batch hT hG hr
    · rename_i hfull
      simp only [hfull]
      exact incremental_batch hT hG hdiff hr

end

theorem ingest_passes (hN : Distinct T N) (hsel : Selectable T N) (gitChanges : Option (List GitFileChange)) :
    (ingestCheckout T N db gitChanges).raised = false := by
  have hfull : (ingestFullWalk T N db).raised = false := by
    obtain ⟨packages, hpack⟩ := selectGoPackages_isSome hsel (sortKeys ((goFiles T N).map (·.1.packageKey)))
    simp only [ingestFullWalk, hpack, fullJobs]
    exact goJobs_passes hN _ (selectGoPackages_some hpack).2
  cases gitChanges with
  | none => exact hfull
  | some cs =>
    simp only [ingestCheckout, ingestIncrementalFromGit]
    split
    · exact hfull
    · obtain ⟨packages, hpack⟩ := selectGoPackages_isSome hsel (goPackageKeys cs)
      simp only [ingestIncremental, hpack, incrementalJobs,
        goJobs_passes hN _ (selectGoPackages_some hpack).2, Bool.false_eq_true, if_false]

theorem selects_same (hT : T.Ok) {cs : List GitFileChange} (hdiff : GitDiff O N cs)
    (hmod : cs.any touchesRootGoMod = false) : T.selects O = T.selects N := by
  apply hT.profile
  by_contra hne
  obtain ⟨c, hc, hmem⟩ := List.mem_flatMap.mp (hdiff.all _ hne)
  have := List.any_eq_false.mp hmod c hc
  simp only [touchesRootGoMod, decide_eq_true_eq, not_or] at this
  simp only [GitFileChange.paths, List.mem_cons, Option.mem_toList] at hmem
  exact hmem.elim (fun h => this.1 h.symm) fun h => this.2 h

/-- What an incremental run must see: the diff mentions every indexed file that
the graph does not show. -/
def Sees (T : Tools) (N : Checkout) (db : Db) (G : Path → Option String) (gitChanges : Option (List GitFileChange)) :
    Prop :=
  ∀ cs, gitChanges = some cs → takesFullWalk T N db cs = false →
    ∃ O, GitDiff O N cs ∧ ∀ f, Indexed T N f → G f.1 ≠ some f.2 → Differs O N f.1

theorem ingest_covers (hT : T.Ok) (hG : Shows T db G) {gitChanges : Option (List GitFileChange)} {s : Schedule}
    (hs : schedule T N db gitChanges = some s) (htell : Tells T G N) (hsees : Sees T N db G gitChanges) :
    s.Covers T N G (due T N db gitChanges) := by
  cases gitChanges with
  | none => exact fullWalk_covers hT hG hs htell
  | some cs =>
    simp only [schedule, due] at hs ⊢
    cases hfull : takesFullWalk T N db cs with
    | true =>
      simp only [hfull, if_true] at hs ⊢
      exact fullWalk_covers hT hG hs htell
    | false =>
      simp only [hfull, Bool.false_eq_true, if_false] at hs ⊢
      obtain ⟨O, hdiff, hseen⟩ := hsees cs rfl hfull
      exact incremental_covers hT hG hdiff hs htell hseen

end Cograph
