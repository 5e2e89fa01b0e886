import Cograph.IngestPlan

/-!
# The files an incremental run visits

A `git diff` between two checkouts names every path whose text differs. The
incremental run turns it into deletions and into files to persist: it deletes
only paths that are not indexed any more, persists only indexed files, and
persists every indexed file whose text differs.
-/

namespace Cograph

def GitFileChange.paths (c : GitFileChange) : List Path := c.filePath :: c.oldFilePath.toList

/-- A line of the diff says where its paths are. -/
def GitFileChange.Describes (O N : Checkout) (c : GitFileChange) : Prop :=
  match c.kind, c.oldFilePath with
  | .added, none => O.text? c.filePath = none ∧ N.text? c.filePath ≠ none
  | .modified, none => O.text? c.filePath ≠ none ∧ N.text? c.filePath ≠ none
  | .deleted, none => O.text? c.filePath ≠ none ∧ N.text? c.filePath = none
  | .renamed, some p => O.text? p ≠ none ∧ N.text? p = none ∧ O.text? c.filePath = none ∧ N.text? c.filePath ≠ none
  | _, _ => False

/-- The diff from `O` to `N`: every path whose text differs, each path once. -/
structure GitDiff (O N : Checkout) (cs : List GitFileChange) : Prop where
  describes : ∀ c ∈ cs, c.Describes O N
  once : (cs.flatMap (·.paths)).Nodup
  all : ∀ p, O.text? p ≠ N.text? p → p ∈ cs.flatMap (·.paths)

variable {T : Tools} {O N : Checkout} {c c' : GitFileChange} {cs : List GitFileChange}

section
variable (h : c.Describes O N)
include h

theorem GitFileChange.Describes.gone (hk : c.kind = .deleted) : N.text? c.filePath = none := by
  unfold GitFileChange.Describes at h
  rw [hk] at h
  cases ho : c.oldFilePath <;> simp only [ho] at h
  exact h.2

theorem GitFileChange.Describes.there (hk : c.kind ≠ .deleted) : N.text? c.filePath ≠ none := by
  unfold GitFileChange.Describes at h
  cases hkind : c.kind <;> cases ho : c.oldFilePath <;> simp only [hkind, ho] at h
  · exact h.2
  · exact h.2
  · exact absurd hkind hk
  · exact h.2.2.2

theorem GitFileChange.Describes.old {p : Path} (hp : c.oldFilePath = some p) : N.text? p = none := by
  unfold GitFileChange.Describes at h
  cases hkind : c.kind <;> simp only [hkind, hp] at h
  exact h.2.1

theorem GitFileChange.Describes.renamed {p : Path} (hp : c.oldFilePath = some p) : c.kind = .renamed := by
  unfold GitFileChange.Describes at h
  cases hkind : c.kind <;> simp only [hkind, hp] at h
  rfl

end

/-- A path that is there now and is in the diff is the new path of its
line. -/
theorem GitDiff.mentions (h : GitDiff O N cs) {p : Path} (hdiff : O.text? p ≠ N.text? p) (hp : N.text? p ≠ none) :
    ∃ c ∈ cs, c.filePath = p ∧ c.kind ≠ .deleted := by
  obtain ⟨c, hc, hmem⟩ := List.mem_flatMap.mp (h.all p hdiff)
  have hd := h.describes c hc
  simp only [GitFileChange.paths, List.mem_cons, Option.mem_toList] at hmem
  rcases hmem with rfl | hold
  · exact ⟨c, hc, rfl, fun hk => hp (hd.gone hk)⟩
  · exact absurd (hd.old hold) hp

/-! ## The non-Go work -/

/-- A JS/TS path that the index leaves out. -/
def Pruned (T : Tools) (C : Checkout) (p : Path) : Prop :=
  ∃ l, p.detectGraphLanguage = some l ∧ Path.isJsTs l = true ∧ jsTsChangePruned T C ⟨.added, p, none⟩ = true

theorem pruned_source {p : Path} {text : String} (hp : Pruned T N p) (ht : N.text? p = some text) :
    isSource T (p, text) = false := by
  obtain ⟨l, hl, hjs, hpruned⟩ := hp
  simp only [jsTsChangePruned, ht, Bool.or_eq_true, Bool.and_eq_true, Option.any_some, decide_eq_true_eq] at hpruned
  simp only [isSource, hl, hjs, Bool.true_and, Bool.not_eq_false', Bool.or_eq_true, decide_eq_true_eq]
  exact hpruned.imp_right fun h => h.2

theorem source_of_not_pruned {p : Path} {text : String} (hlang : p.detectGraphLanguage ≠ none)
    (hp : ¬ Pruned T N p) (ht : N.text? p = some text) : isSource T (p, text) = true := by
  obtain ⟨l, hl⟩ := Option.ne_none_iff_exists'.mp hlang
  simp only [isSource, hl]
  by_contra hs
  apply hp
  simp only [Bool.not_eq_true', Bool.not_eq_false, Bool.and_eq_true, Bool.or_eq_true, decide_eq_true_eq] at hs
  refine ⟨l, hl, hs.1, ?_⟩
  simp only [jsTsChangePruned, ht, Bool.or_eq_true, Bool.and_eq_true, Option.any_some, decide_eq_true_eq]
  exact hs.2.imp_right fun h => ⟨by simp, h⟩

theorem changePruned_eq (hk : c.kind ≠ .deleted) :
    jsTsChangePruned T N c = jsTsChangePruned T N ⟨.added, c.filePath, none⟩ := by
  simp [jsTsChangePruned, hk]

def Drops (T : Tools) (N : Checkout) (c c' : GitFileChange) : Prop :=
  c'.kind = .deleted ∧ isGo c'.filePath = false ∧ (c.kind = .renamed ∧ c.oldFilePath = some c'.filePath ∨
    c.kind ≠ .renamed ∧ c'.filePath = c.filePath ∧ (c.kind = .deleted ∨ Pruned T N c.filePath))

def Takes (T : Tools) (N : Checkout) (c c' : GitFileChange) : Prop :=
  c'.kind ≠ .deleted ∧ c.kind ≠ .deleted ∧ c'.filePath = c.filePath ∧ c.filePath.detectGraphLanguage ≠ none ∧
    isGo c.filePath = false ∧ ¬ Pruned T N c.filePath ∧
    (c'.kind = .renamed → c'.oldFilePath = c.oldFilePath ∧ ∀ p, c.oldFilePath = some p → isGo p = false)

theorem old_renamed {p : Path} (h : (if c.kind = .renamed then c.oldFilePath else none) = some p) :
    c.kind = .renamed ∧ c.oldFilePath = some p := by
  by_cases hk : c.kind = .renamed
  · exact ⟨hk, by simpa [hk] using h⟩
  · simp [hk] at h

/-- **What a line of the diff stands for.** -/
theorem nonGoChanges_cases (hd : c.Describes O N) (h : c' ∈ nonGoChanges T N c) : Drops T N c c' ∨ Takes T N c c' := by
  unfold nonGoChanges at h
  dsimp only at h
  split at h
  · rename_i htouch
    rcases List.mem_append.mp h with h | h
    · left
      split at h
      · rename_i p hp
        split at h
        · rename_i hold
          rw [List.mem_singleton] at h
          subst h
          exact ⟨rfl, by simpa using hold.2, Or.inl (old_renamed hp)⟩
        · cases h
      · cases h
    · right
      split at h
      · cases h
      · rename_i l hl
        split at h
        · cases h
        · rename_i hkeep
          rw [List.mem_singleton] at h
          subst h
          have hgo : isGo c.filePath = false := by
            rw [Bool.eq_false_iff]
            intro hgo
            rw [isGo_language, hl] at hgo
            exact hkeep (Or.inl (Option.some.inj hgo))
          have hkind : c.kind ≠ .deleted := by
            intro hk
            cases ho : c.oldFilePath with
            | none => simp [changeTouchesGoPackage, hgo, ho] at htouch
            | some p => rw [hd.renamed ho] at hk; cases hk
          refine ⟨by simp, hkind, rfl, by simp [hl], hgo, ?_, by simp⟩
          rintro ⟨l', hl', hjs, hpruned⟩
          rw [hl] at hl'
          cases hl'
          exact hkeep (Or.inr ⟨hjs, hpruned⟩)
  · rename_i htouch
    rw [Bool.not_eq_true, changeTouchesGoPackage, Bool.or_eq_false_iff] at htouch
    have hgo := htouch.1
    have hgoOld : ∀ p, c.oldFilePath = some p → isGo p = false := by
      intro p hp
      simpa [hp] using htouch.2
    split at h
    · left
      split at h
      · rename_i p hp
        split at h
        · rw [List.mem_singleton] at h
          subst h
          exact ⟨rfl, hgoOld p (old_renamed hp).2, Or.inl (old_renamed hp)⟩
        · cases h
      · cases h
    · rename_i l hl
      split at h
      · rename_i hpruned
        left
        split at h
        · rename_i p hp
          split at h
          · rw [List.mem_singleton] at h
            subst h
            by_cases hk : c.kind = .renamed
            · have hold : c.oldFilePath = some p := by simpa [hk] using hp
              exact ⟨rfl, hgoOld p hold, Or.inl ⟨hk, hold⟩⟩
            · have hpath : c.filePath = p := by simpa [hk] using hp
              refine ⟨rfl, hpath ▸ hgo, Or.inr ⟨hk, hpath.symm, ?_⟩⟩
              by_cases hdel : c.kind = .deleted
              · exact Or.inl hdel
              · exact Or.inr ⟨l, hl, hpruned.1, changePruned_eq hdel ▸ hpruned.2⟩
          · cases h
        · cases h
      · rename_i hkeep
        rw [List.mem_singleton] at h
        subst h
        by_cases hk : c'.kind = .deleted
        · exact Or.inl ⟨hk, hgo, Or.inr ⟨by simp [hk], rfl, Or.inl hk⟩⟩
        · right
          refine ⟨hk, hk, rfl, by simp [hl], hgo, ?_, fun _ => ⟨rfl, hgoOld⟩⟩
          rintro ⟨l', hl', hjs, hpruned⟩
          rw [hl] at hl'
          cases hl'
          exact hkeep ⟨hjs, changePruned_eq hk ▸ hpruned⟩

/-- A line whose new path is an indexed non-Go file makes the run persist
it. -/
theorem nonGoChanges_takes (hk : c.kind ≠ .deleted) {text : String}
    (hi : Indexed T N (c.filePath, text)) (hgo : isGo c.filePath = false) :
    ∃ c' ∈ nonGoChanges T N c, c'.kind ≠ .deleted ∧ c'.filePath = c.filePath := by
  obtain ⟨l, hl⟩ := Option.ne_none_iff_exists'.mp hi.language
  have hl : c.filePath.detectGraphLanguage = some l := hl
  have hkeep : ¬ (Path.isJsTs l = true ∧ jsTsChangePruned T N ⟨.added, c.filePath, none⟩ = true) := by
    rintro ⟨hjs, hpruned⟩
    have := pruned_source (T := T) ⟨l, hl, hjs, hpruned⟩ (text_some.mpr hi.1)
    rw [hi.2.1] at this
    cases this
  have hne : l ≠ .go := by
    rintro rfl
    rw [isGo_language.mpr hl] at hgo
    cases hgo
  unfold nonGoChanges
  dsimp only
  split
  · refine ⟨⟨.added, c.filePath, none⟩, List.mem_append_right _ ?_, by simp, rfl⟩
    simp only [hl]
    rw [if_neg (not_or.mpr ⟨hne, hkeep⟩)]
    exact List.mem_singleton_self _
  · simp only [hl]
    rw [changePruned_eq hk, if_neg hkeep]
    exact ⟨c, List.mem_singleton_self _, hk, rfl⟩

/-! ## Deletions -/

theorem doomed_of_drops (h : Drops T N c c') : doomedPath c' = some c'.filePath := by
  simp [doomedPath, h.1]

/-- A piece of work that persists a path deletes the one it was renamed from, if
any. -/
theorem doomed_of_takes (htake : Takes T N c c') {p : Path} (hdoom : doomedPath c' = some p) :
    c.oldFilePath = some p ∧ isGo p = false := by
  obtain ⟨hk, -, -, -, -, -, hold⟩ := htake
  unfold doomedPath at hdoom
  cases hkind : c'.kind <;> simp only [hkind] at hdoom
  · cases hdoom
  · cases hdoom
  · exact absurd hkind hk
  · obtain ⟨hsame, hgo⟩ := hold hkind
    rw [hsame] at hdoom
    exact ⟨hdoom, hgo p hdoom⟩

section
variable (h : GitDiff O N cs)
include h

theorem mem_allNonGo (hc : c' ∈ allNonGoChanges T N cs) :
    ∃ c ∈ cs, c.Describes O N ∧ (Drops T N c c' ∨ Takes T N c c') := by
  obtain ⟨c, hmem, hc⟩ := List.mem_flatMap.mp hc
  exact ⟨c, hmem, h.describes c hmem, nonGoChanges_cases (h.describes c hmem) hc⟩

theorem doomed_unwanted {p : Path} (hp : p ∈ (allNonGoChanges T N cs).filterMap doomedPath) : wanted T N p = none := by
  obtain ⟨c', hc', hdoom⟩ := List.mem_filterMap.mp hp
  obtain ⟨c, hc, hd, hdrop | htake⟩ := mem_allNonGo h hc'
  · rw [doomed_of_drops hdrop, Option.some.injEq] at hdoom
    subst hdoom
    rw [wanted_none]
    rintro text hi
    have htext := text_some.mpr hi.1
    rcases hdrop.2.2 with ⟨-, hold⟩ | ⟨-, he, hdel | hpruned⟩
    · simp [hd.old hold] at htext
    · rw [he, hd.gone hdel] at htext
      cases htext
    · rw [he] at hi htext
      have := pruned_source hpruned htext
      rw [hi.2.1] at this
      cases this
  · rw [wanted, hd.old (doomed_of_takes htake hdoom).1]
    rfl

/-! ## The files to persist -/

theorem mem_nonGoJobs {f : Path × String} (hf : f ∈ nonGoJobs T N cs) :
    Indexed T N f ∧ isGo f.1 = false := by
  obtain ⟨c', hc', he⟩ := List.mem_filterMap.mp hf
  rw [List.mem_filter, decide_eq_true_eq] at hc'
  obtain ⟨text, htext, rfl⟩ := Option.map_eq_some_iff.mp he
  obtain ⟨c, hc, -, hdrop | htake⟩ := mem_allNonGo h hc'.1
  · exact absurd hdrop.1 hc'.2
  · obtain ⟨-, -, hp, hlang, hgo, hkeep, -⟩ := htake
    rw [← hp] at hlang hgo hkeep
    refine ⟨⟨text_some.mp htext, source_of_not_pruned hlang hkeep htext, ?_⟩, hgo⟩
    intro hg
    rw [hgo] at hg
    cases hg

theorem nonGo_covered {f : Path × String} (hi : Indexed T N f) (hgo : isGo f.1 = false)
    (hdiff : O.text? f.1 ≠ N.text? f.1) : f ∈ nonGoJobs T N cs := by
  have htext := text_some.mpr hi.1
  obtain ⟨c, hc, hp, hk⟩ := h.mentions hdiff (by simp [htext])
  have hi' : Indexed T N (c.filePath, f.2) := by rw [hp]; exact hi
  obtain ⟨c', hc', hk', hp'⟩ := nonGoChanges_takes hk hi' (by rw [hp]; exact hgo)
  refine List.mem_filterMap.mpr ⟨c', ?_, ?_⟩
  · rw [List.mem_filter]
    exact ⟨List.mem_flatMap.mpr ⟨c, hc, hc'⟩, by simpa using hk'⟩
  · rw [hp', hp, htext]
    rfl

theorem go_covered {p : Path} (hgo : isGo p = true) (hdiff : O.text? p ≠ N.text? p) :
    p.packageKey ∈ cs.flatMap changeGoPackageKeys := by
  obtain ⟨c, hc, hmem⟩ := List.mem_flatMap.mp (h.all p hdiff)
  refine List.mem_flatMap.mpr ⟨c, hc, ?_⟩
  exact List.mem_map.mpr ⟨p, List.mem_filter.mpr ⟨hmem, hgo⟩, rfl⟩

theorem nonGoJobs_nodup : ((nonGoJobs T N cs).map (·.1)).Nodup := by
  have hline : ∀ c ∈ cs, List.Sublist
      ((((nonGoChanges T N c).filter (·.kind ≠ .deleted)).filterMap fun c => (N.text? c.filePath).map (c.filePath, ·)).map (·.1))
      [c.filePath] := by
    intro c hc
    have hsum : ∀ {a b : Nat}, a = 0 → b ≤ 1 → a + b ≤ 1 := by omega
    have hlength : ((nonGoChanges T N c).filter (·.kind ≠ .deleted)).length ≤ 1 := by
      unfold nonGoChanges
      dsimp only
      split
      · rw [List.filter_append, List.length_append]
        apply hsum
        · split
          · split <;> simp
          · rfl
        · refine (List.length_filter_le _ _).trans ?_
          split
          · simp
          · split <;> simp
      · refine (List.length_filter_le _ _).trans ?_
        split
        · split
          · split <;> simp
          · simp
        · split
          · split
            · split <;> simp
            · simp
          · simp
    have hpath : ∀ c' ∈ (nonGoChanges T N c).filter (·.kind ≠ .deleted), c'.filePath = c.filePath := by
      intro c' hc'
      rw [List.mem_filter, decide_eq_true_eq] at hc'
      rcases nonGoChanges_cases (h.describes c hc) hc'.1 with hdrop | htake
      · exact absurd hdrop.1 hc'.2
      · exact htake.2.2.1
    generalize (nonGoChanges T N c).filter (·.kind ≠ .deleted) = work at hlength hpath
    match work, hlength, hpath with
    | [], _, _ => simp
    | [c'], _, hpath =>
      have := hpath c' (List.mem_singleton_self _)
      cases ht : N.text? c.filePath <;> simp [this, ht]
  have hsub : List.Sublist ((nonGoJobs T N cs).map (·.1)) (cs.map (·.filePath)) := by
    have hdescribes := h.describes
    clear h
    induction cs with
    | nil => simp [nonGoJobs, allNonGoChanges]
    | cons c cs ih =>
      have hrest := ih (fun c hc => hline c (List.mem_cons_of_mem _ hc)) fun c hc => hdescribes c (List.mem_cons_of_mem _ hc)
      have hfirst := hline c (List.mem_cons_self ..)
      simp only [nonGoJobs, allNonGoChanges, List.flatMap_cons, List.filter_append, List.filterMap_append,
        List.map_append] at hrest ⊢
      exact hfirst.append hrest
  refine List.Nodup.sublist hsub (h.once.sublist ?_)
  clear h hsub hline
  induction cs with
  | nil => simp
  | cons c cs ih =>
    rw [List.flatMap_cons, List.map_cons, GitFileChange.paths, List.cons_append]
    exact (ih.trans (List.sublist_append_right _ _)).cons_cons _

end

/-! ## The whole run -/

section
variable {db : Db} {packages : List GoPackage}

/-- The files an incremental run may persist, in its order. -/
def incrementalFiles (T : Tools) (N : Checkout) (cs : List GitFileChange) (packages : List GoPackage) :
    List (Path × String) :=
  packages.flatMap (·.selected) ++ nonGoJobs T N cs

/-- A non-Go file, or a Go file with another hash. -/
def isDue (T : Tools) (db : Db) (f : Path × String) : Bool := !isGo f.1 || isChanged T (loadModuleState db) f

theorem incrementalJobs_eq (h : GitDiff O N cs) (hpack : selectGoPackages T N (goPackageKeys cs) = some packages)
    (hpass : (incrementalJobs T N db cs packages).2 = false) :
    (incrementalJobs T N db cs packages).1 = (incrementalFiles T N cs packages).filter (isDue T db) := by
  have hgo : (goJobs T N (isChanged T (loadModuleState db)) packages).2 = false := by
    by_contra hraise
    rw [Bool.not_eq_false] at hraise
    simp [incrementalJobs, hraise] at hpass
  simp only [incrementalJobs, hgo, Bool.false_eq_true, if_false, goJobs_eq hgo, incrementalFiles, List.filter_append]
  congr 1
  · apply List.filter_congr
    intro f hf
    simp [isDue, ((mem_packages hpack).mp hf).2.1]
  · symm
    rw [List.filter_eq_self]
    intro f hf
    simp [isDue, (mem_nonGoJobs h hf).2]

/-- What the run sees of a change at `p`: the text there, or that of a Go file
of its package. -/
def Differs (O N : Checkout) (p : Path) : Prop :=
  (isGo p = true → ∃ q, isGo q = true ∧ q.packageKey = p.packageKey ∧ O.text? q ≠ N.text? q) ∧
    (isGo p = false → O.text? p ≠ N.text? p)

theorem differs_of_text {p : Path} (hdiff : O.text? p ≠ N.text? p) : Differs O N p :=
  ⟨fun hgo => ⟨p, hgo, rfl, hdiff⟩, fun _ => hdiff⟩

variable (h : GitDiff O N cs) (hpack : selectGoPackages T N (goPackageKeys cs) = some packages)
include h hpack

theorem mem_incrementalFiles {f : Path × String} (hf : f ∈ incrementalFiles T N cs packages) : Indexed T N f := by
  rcases List.mem_append.mp hf with hf | hf
  · exact ((mem_packages hpack).mp hf).1
  · exact (mem_nonGoJobs h hf).1

theorem incremental_nodup : ((incrementalFiles T N cs packages).map (·.1)).Nodup := by
  rw [incrementalFiles, List.map_append, List.nodup_append]
  refine ⟨packages_nodup hpack, nonGoJobs_nodup h, ?_⟩
  intro p hp q hq
  obtain ⟨f, hf, rfl⟩ := List.mem_map.mp hp
  obtain ⟨g, hg, rfl⟩ := List.mem_map.mp hq
  intro he
  have hgo := (mem_nonGoJobs h hg).2
  rw [← he, ((mem_packages hpack).mp hf).2.1] at hgo
  cases hgo

theorem incremental_covered {f : Path × String} (hi : Indexed T N f) (hdiff : Differs O N f.1) :
    f ∈ incrementalFiles T N cs packages := by
  rw [incrementalFiles, List.mem_append]
  by_cases hgo : isGo f.1 = true
  · obtain ⟨q, hq, hkey, hdiff⟩ := hdiff.1 hgo
    exact Or.inl ((mem_packages hpack).mpr ⟨hi, hgo, hkey ▸ go_covered h hq hdiff⟩)
  · rw [Bool.not_eq_true] at hgo
    exact Or.inr (nonGo_covered h hi hgo (hdiff.2 hgo))

theorem deleted_unwanted {p : Path} (hp : p ∈ deletedPaths T N db cs packages) : wanted T N p = none := by
  rcases List.mem_append.mp hp with hp | hp
  · exact doomed_unwanted h hp
  · obtain ⟨package, hmem, hp⟩ := List.mem_flatMap.mp hp
    simp only [staleGoPaths, List.mem_insertionSort, List.mem_filter, decide_eq_true_eq] at hp
    obtain ⟨-, hsuffix, hkey, hout⟩ := hp
    rw [wanted_none]
    intro text hi
    apply hout
    have hgo : isGo p = true := by
      rw [isGo_language, Path.detectGraphLanguage, hsuffix]
      decide
    exact List.mem_map.mpr ⟨(p, text), (mem_selected ((selectGoPackages_some hpack).2 package hmem)).mpr ⟨hi, hgo, hkey⟩, rfl⟩

end

end Cograph
