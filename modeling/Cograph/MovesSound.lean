import Cograph.IngestSound

/-!
# Moving symbols between files

A graph that stores one checkout is brought to another one. No file is lost if
and only if every name that moves to another file is given up first: the walk
persists one file after the other, and the unique index refuses a file while
the old owner of one of its names still has its rows.
-/

namespace Cograph

variable {T : Tools} {O N : Checkout} {db : Db}

/-- The graph stores exactly a checkout. -/
structure Stores (T : Tools) (O : Checkout) (db : Db) : Prop where
  ok : db.Ok
  rows : ∀ p x, db.Has p x ↔ ∃ text, Indexed T O (p, text) ∧ x ∈ facts T O (p, text)

/-- The names and content hashes stored for a file are those extracted from
it. -/
def StoredAs (T : Tools) (N : Checkout) (db : Db) (f : Path × String) : Prop :=
  ∀ q hash, (∃ x, db.Has f.1 x ∧ x.1 = q ∧ x.2.2.2 = hash) ↔ ∃ x ∈ facts T N f, x.1 = q ∧ x.2.2.2 = hash

/-- The ingest ends, skips no file, and stores every indexed file. -/
def LosesNothing (T : Tools) (N : Checkout) (r : Ingested) : Prop :=
  r.raised = false ∧ r.walk.warnings = [] ∧ ∀ f, Indexed T N f → StoredAs T N r.walk.db f

theorem Stores.shows (hT : T.Ok) (h : Stores T O db) : Shows T db (wanted T O) where
  ok := h.ok
  indexable p text hp := (wanted_some.mp hp).indexable
  rows p x := by
    rw [h.rows]
    simp only [wanted_some, facts_context hT O .empty]

theorem Shows.stores (hT : T.Ok) (h : Shows T db (wanted T O)) : Stores T O db where
  ok := h.ok
  rows p x := by
    rw [h.rows]
    simp only [wanted_some, facts_context hT O .empty]

theorem storedAs_of_shows (hT : T.Ok) {G : Path → Option String} (hG : Shows T db G) {f : Path × String}
    (hf : G f.1 = some f.2) : StoredAs T N db f := by
  intro q hash
  rw [facts_context hT N .empty]
  constructor
  · rintro ⟨x, hx, hq⟩
    obtain ⟨text, ht, hmem⟩ := (hG.rows _ _).mp hx
    rw [hf, Option.some.injEq] at ht
    subst ht
    exact ⟨x, hmem, hq⟩
  · rintro ⟨x, hx, hq⟩
    exact ⟨x, (hG.rows _ _).mpr ⟨f.2, hf, hx⟩, hq⟩

theorem fullWalk_stores (hT : T.Ok) {G : Path → Option String} (hG : Shows T db G) (htell : Tells T G N)
    (hr : (ingestFullWalk T N db).raised = false) (hw : (ingestFullWalk T N db).walk.warnings = []) :
    Stores T N (ingestFullWalk T N db).walk.db := by
  obtain ⟨s, hs, hbatch⟩ := fullWalk_batch hT hG hr
  have hnil : Owners.refused (shownNames T) (clear s.drops G) (s.jobs (isStale T N (loadModuleState db))) = [] := by
    rw [hbatch.warnings] at hw
    exact List.map_eq_nil_iff.mp hw
  apply Shows.stores hT
  refine hbatch.shows.congr fun p => ?_
  cases hp : wanted T N p with
  | some text => exact batch_indexed hbatch.fits (fullWalk_covers hT hG hs htell) hnil (wanted_some.mp hp)
  | none =>
    rw [batch_other hbatch.fits hnil hp, clear, if_pos]
    rw [fullSchedule, Option.map_eq_some_iff] at hs
    obtain ⟨packages, hpack, rfl⟩ := hs
    simp only [decide_eq_true_eq]
    intro hmem
    obtain ⟨f, hf, rfl⟩ := List.mem_map.mp hmem
    exact wanted_none.mp hp f.2 ((mem_present hpack).mp hf)

/-- **When moving symbols loses no file.** Full or incremental, the ingest of
`N` on a graph that stores `O` loses nothing if and only if every name that
moves to another file is given up first. -/
theorem ingest_moves_iff {gitChanges : Option (List GitFileChange)} (hT : T.Ok) (hstores : Stores T O db)
    (hO : Distinct T O) (hN : Distinct T N) (hselect : Selectable T N)
    (hhash : ∀ f ∈ O.files, ∀ g ∈ N.files, T.host.sha256 f.2 = T.host.sha256 g.2 → f.2 = g.2)
    (hdiff : ∀ cs, gitChanges = some cs → GitDiff O N cs) :
    LosesNothing T N (ingestCheckout T N db gitChanges) ↔
      ∀ s, schedule T N db gitChanges = some s → s.GivesUpFirst T O N := by
  have hG := hstores.shows hT
  have hr : (ingestCheckout T N db gitChanges).raised = false := ingest_passes hN hselect gitChanges
  have htell : Tells T (wanted T O) N := by
    intro p text hp f hf
    exact hhash _ (wanted_some.mp hp).1 f hf
  have hsees : Sees T N db (wanted T O) gitChanges := by
    intro cs hcs hfull
    refine ⟨O, hdiff cs hcs, fun f hf hne => differs_of_text ?_⟩
    -- with the same text under the same profile the old checkout indexes it too
    intro hsame
    apply hne
    rw [takesFullWalk, Bool.or_eq_false_iff] at hfull
    have htext : O.text? f.1 = some f.2 := hsame.trans (text_some.mpr hf.1)
    rw [wanted_some, Indexed, selects_same hT (hdiff cs hcs) hfull.1]
    exact ⟨text_some.mp htext, hf.2⟩
  obtain ⟨s, hs, hbatch⟩ := ingest_batch hT hG (fun cs hcs => ⟨O, hdiff cs hcs⟩) hr
  have hcover := ingest_covers hT hG hs htell hsees
  have hiff := batch_iff hT hO hN (fun _ => rfl) hbatch.fits hcover
  constructor
  · rintro ⟨-, hw, -⟩ s' hs'
    rw [hs, Option.some.injEq] at hs'
    subst hs'
    rw [hbatch.warnings] at hw
    exact hiff.mp (List.map_eq_nil_iff.mp hw)
  · intro hfirst
    have hnil := hiff.mpr (hfirst s hs)
    refine ⟨hr, by rw [hbatch.warnings, hnil]; rfl, ?_⟩
    intro f hf
    exact storedAs_of_shows hT hbatch.shows (batch_indexed hbatch.fits hcover hnil hf)

/-! ## A function moved between two files of a package -/

/-- Digests of the texts below. -/
def smallDigest (s : String) : String :=
  (([("", "e3b0c44298fc1c149afbf4c8996fb92427ae41e4649b934ca495991b7852b855"),
    ("f", "252f10c83610ebca1a059c0bae8255eba2f95be4d1d7bcfa89d7248a82d9f111"),
    ("g", "cd0aa9856147b6c5b4ff2b7dfee5da20aa38253099ef1b4a64aced233c9afe29")] : List (String × String)).lookup s).getD
    "0000000000000000000000000000000000000000000000000000000000000000"

def smallHost : Host := ⟨smallDigest, id, fun _ => false⟩

def smallModuleName (p : Path) : String := p.posix ++ "#module"

def smallNode (p : Path) (t : NodeType) (q content : String) : ExtractedNode where
  nodeType := t
  name := q
  qualifiedName := q
  filePath := p
  language := p.detectGraphLanguage.getD .go
  content := content
  signature := none
  parentQualifiedName := none
  metadata := {}
  symbolKey := computeSymbolKey smallHost (p.detectGraphLanguage.getD .go) q none

/-- A text lists one-letter functions of the package. -/
def smallExtract (p : Path) (text : String) : ExtractedGraph where
  nodes := smallNode p .module (smallModuleName p) text ::
    text.toList.map fun c => smallNode p .function ("p." ++ String.ofList [c]) (String.ofList [c])
  edges := []

def smallTools : Tools where
  host := smallHost
  size := String.length
  selects _ _ _ := some true
  fingerprint _ _ := none
  moduleName := smallModuleName
  extract _ := smallExtract

theorem lookup_length {n : Nat} {table : List (String × String)} {s d : String}
    (htable : ∀ x ∈ table, n ≤ x.2.toList.length) (hd : n ≤ d.toList.length) :
    n ≤ ((table.lookup s).getD d).toList.length := by
  induction table with
  | nil => simpa using hd
  | cons x table ih =>
    rw [List.lookup_cons]
    split
    · exact htable x (List.mem_cons_self ..)
    · exact ih fun y hy => htable y (List.mem_cons_of_mem _ hy)

theorem smallTools_ok : smallTools.Ok where
  digits s := lookup_length (by decide) (by decide)
  context _ _ _ _ := rfl
  profile _ _ _ := rfl
  file _ p text hp := by
    obtain ⟨l, hl⟩ := Option.ne_none_iff_exists'.mp hp
    have hnodes : ∀ x ∈ (smallTools.extract ‹_› p text).nodes, x = smallNode p .module (smallModuleName p) text ∨
        ∃ c, x = smallNode p .function ("p." ++ String.ofList [c]) (String.ofList [c]) := by
      intro x hx
      rcases List.mem_cons.mp hx with hx | hx
      · exact Or.inl hx
      · obtain ⟨c, -, hc⟩ := List.mem_map.mp hx
        exact Or.inr ⟨c, hc.symm⟩
    refine ⟨?_, ?_, ?_, ⟨_, List.mem_cons_self .., rfl⟩, ?_, ?_⟩
    · intro x hx
      rcases hnodes x hx with rfl | ⟨c, rfl⟩ <;> rfl
    · intro x hx
      rcases hnodes x hx with rfl | ⟨c, rfl⟩ <;> simp [smallNode, hl]
    · intro x hx
      rcases hnodes x hx with rfl | ⟨c, rfl⟩ <;> simp only [smallNode, smallTools]
    · intro x hx ht
      rcases hnodes x hx with rfl | ⟨c, rfl⟩
      · exact ⟨rfl, rfl, rfl⟩
      · cases ht
    · intro x hx hq
      rcases hnodes x hx with rfl | ⟨c, rfl⟩
      · rfl
      · -- a function's name is shorter than the suffix of a module's
        have hlength := congrArg (fun s => s.toList.length) hq
        simp only [smallNode, smallTools, smallModuleName, String.toList_append, String.toList_ofList, List.length_append,
          List.length_singleton] at hlength
        have hprefix : "p.".toList.length = 2 := by decide
        have hsuffix : "#module".toList.length = 7 := by decide
        omega

def goPair (a b : String) : Checkout := ⟨[(⟨[], "a.go"⟩, a), (⟨[], "b.go"⟩, b)], by simp⟩

theorem distinct_of_files (h : ∀ f ∈ N.files, ∀ g ∈ N.files, f.1 ≠ g.1 →
    ∀ x ∈ facts T N f, ∀ y ∈ facts T N g, x.1 ≠ y.1) : Distinct T N :=
  fun f g hf hg => h f hf.1 g hg.1

def afterPair (a b : String) : Db := (ingestFullWalk smallTools (goPair a b) emptyDb).walk.db

theorem emptyDb_shows : Shows T emptyDb fun _ => none where
  ok := emptyDb_ok
  indexable _ _ h := by cases h
  rows p x := by simp [Db.Has, emptyDb]

theorem afterPair_stores {a b : String} (hr : (ingestFullWalk smallTools (goPair a b) emptyDb).raised = false)
    (hw : (ingestFullWalk smallTools (goPair a b) emptyDb).walk.warnings = []) :
    Stores smallTools (goPair a b) (afterPair a b) :=
  fullWalk_stores smallTools_ok emptyDb_shows (fun _ _ h => by cases h) hr hw

def bothModified : List GitFileChange := [⟨.modified, ⟨[], "a.go"⟩, none⟩, ⟨.modified, ⟨[], "b.go"⟩, none⟩]

theorem goPair_diff (a b a' b' : String) : GitDiff (goPair a b) (goPair a' b') bothModified where
  describes c hc := by
    simp only [bothModified, List.mem_cons, List.not_mem_nil, or_false] at hc
    rcases hc with rfl | rfl <;>
      simp [GitFileChange.Describes, Checkout.text?, goPair, Dict.get_cons]
  once := by decide
  all p hne := by
    by_contra hp
    apply hne
    simp only [bothModified, GitFileChange.paths, List.flatMap_cons, List.flatMap_nil, List.append_nil,
      Option.toList_none, List.cons_append, List.nil_append, List.mem_cons, List.not_mem_nil, or_false, not_or] at hp
    simp [Checkout.text?, goPair, Dict.get_cons, Ne.symm hp.1, Ne.symm hp.2]

theorem goPair_selectable (a b : String) : Selectable smallTools (goPair a b) := fun _ _ _ _ => by simp [smallTools]

/-- `f` moves from `b.go`, which stays, to `a.go`, which the walk comes to
first: `a.go` is skipped, and `f` is gone from the graph. -/
theorem move_up_loses : smallTools.Ok ∧ Stores smallTools (goPair "" "f") (afterPair "" "f") ∧
    Distinct smallTools (goPair "" "f") ∧ Distinct smallTools (goPair "f" "g") ∧
    Selectable smallTools (goPair "f" "g") ∧ GitDiff (goPair "" "f") (goPair "f" "g") bothModified ∧
    takesFullWalk smallTools (goPair "f" "g") (afterPair "" "f") bothModified = false ∧
    ∀ gitChanges ∈ [none, some bothModified],
      (ingestCheckout smallTools (goPair "f" "g") (afterPair "" "f") gitChanges).walk.warnings = [⟨[], "a.go"⟩] ∧
      (∀ n ∈ (ingestCheckout smallTools (goPair "f" "g") (afterPair "" "f") gitChanges).walk.db.nodes,
        n.qualifiedName ≠ "p.f") ∧
      ¬ LosesNothing smallTools (goPair "f" "g")
        (ingestCheckout smallTools (goPair "f" "g") (afterPair "" "f") gitChanges) := by
  have hw : ∀ gitChanges ∈ [none, some bothModified],
      (ingestCheckout smallTools (goPair "f" "g") (afterPair "" "f") gitChanges).walk.warnings = [⟨[], "a.go"⟩] := by
    decide
  refine ⟨smallTools_ok, afterPair_stores (by decide) (by decide), distinct_of_files (by decide),
    distinct_of_files (by decide), goPair_selectable _ _, goPair_diff _ _ _ _, by decide, ?_⟩
  intro gitChanges hc
  refine ⟨hw gitChanges hc, ?_, ?_⟩
  · revert gitChanges
    decide
  · rintro ⟨-, hnil, -⟩
    rw [hw gitChanges hc] at hnil
    cases hnil

/-- `f` moves from `a.go` to `b.go`, which the walk comes to later. -/
theorem move_down_keeps : LosesNothing smallTools (goPair "" "f")
    (ingestCheckout smallTools (goPair "" "f") (afterPair "f" "") (some bothModified)) := by
  refine (ingest_moves_iff (O := goPair "f" "") smallTools_ok (afterPair_stores (by decide) (by decide))
    (distinct_of_files (by decide)) (distinct_of_files (by decide)) (goPair_selectable _ _) (by decide) ?_).mpr ?_
  · intro cs hcs
    cases hcs
    exact goPair_diff _ _ _ _
  · intro s hs f g hf hg hne hshare
    have hfiles : (schedule smallTools (goPair "" "f") (afterPair "f" "") (some bothModified)).map
        (·.files.map (·.1)) = some [⟨[], "a.go"⟩, ⟨[], "b.go"⟩] := by decide
    have hall : ∀ f ∈ (goPair "" "f").files, ∀ g ∈ (goPair "f" "").files, g.1 ≠ f.1 →
        (∃ x ∈ facts smallTools (goPair "" "f") f, ∃ y ∈ facts smallTools (goPair "f" "") g, x.1 = y.1) →
        [g.1, f.1].Sublist [⟨[], "a.go"⟩, ⟨[], "b.go"⟩] := by decide
    rw [hs, Option.map_some, Option.some.injEq] at hfiles
    rw [hfiles]
    exact Or.inr (hall f hf.1 g hg.1 hne hshare)

end Cograph
