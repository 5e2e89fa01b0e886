import Cograph.IngestRows

/-!
# Which files an ingest visits

The files a checkout indexes, the order in which the full walk and the
incremental run come to them, and the paths an incremental run deletes first.
-/

namespace Cograph

variable {T : Tools} {C : Checkout}

/-! ## The files a checkout indexes -/

/-- A file that is indexed: of a graph language, no noise, and selected by the
build profile where it is a Go file. -/
def Indexed (T : Tools) (C : Checkout) (f : Path × String) : Prop :=
  f ∈ C.files ∧ isSource T f = true ∧ (isGo f.1 = true → T.selects C f.1 f.2 = some true)

instance (f : Path × String) : Decidable (Indexed T C f) := by unfold Indexed; infer_instance

/-- What the index should show. -/
def wanted (T : Tools) (C : Checkout) (p : Path) : Option String :=
  (C.text? p).filter fun text => decide (Indexed T C (p, text))

/-- The build constraints of every Go file are well-formed. -/
def Selectable (T : Tools) (C : Checkout) : Prop :=
  ∀ f ∈ C.files, isSource T f = true → isGo f.1 = true → T.selects C f.1 f.2 ≠ none

/-- The names extracted from indexed files are pairwise distinct across
files. -/
def Distinct (T : Tools) (C : Checkout) : Prop :=
  ∀ f g, Indexed T C f → Indexed T C g → f.1 ≠ g.1 →
    ∀ x ∈ facts T C f, ∀ y ∈ facts T C g, x.1 ≠ y.1

theorem text_some {p : Path} {text : String} : C.text? p = some text ↔ (p, text) ∈ C.files :=
  ⟨Dict.mem_of_get, Dict.get_of_nodup C.nodup⟩

theorem wanted_some {p : Path} {text : String} : wanted T C p = some text ↔ Indexed T C (p, text) := by
  simp only [wanted, Option.filter_eq_some_iff, text_some, decide_eq_true_eq]
  constructor
  · exact fun h => h.2
  · exact fun h => ⟨h.1, h⟩

theorem wanted_none {p : Path} : wanted T C p = none ↔ ∀ text, ¬ Indexed T C (p, text) := by
  rw [Option.eq_none_iff_forall_ne_some]
  simp only [ne_eq, wanted_some]

theorem Indexed.text {f g : Path × String} (hf : Indexed T C f) (hg : g ∈ C.files) (h : f.1 = g.1) : f = g :=
  List.inj_on_of_nodup_map C.nodup hf.1 hg h

theorem Indexed.indexable {f : Path × String} (hf : Indexed T C f) : f.1.Indexable := by
  have hs := hf.2.1
  unfold isSource at hs
  cases hl : f.1.detectGraphLanguage with
  | none => simp [hl] at hs
  | some l =>
    rw [hl] at hs
    refine ⟨l, hl, fun hjs => ?_⟩
    by_contra hnoise
    simp [hjs, hnoise] at hs

theorem Indexed.language {f : Path × String} (hf : Indexed T C f) : f.1.detectGraphLanguage ≠ none :=
  hf.indexable.language

theorem isGo_language {p : Path} : isGo p = true ↔ p.detectGraphLanguage = some .go := by simp [isGo]

/-! ## Discovery -/

theorem mem_discover {f : Path × String} : f ∈ discoverSourceFiles T C ↔ f ∈ C.files ∧ isSource T f = true := by
  rw [discoverSourceFiles, List.mem_insertionSort, List.mem_filter]

theorem discover_nodup : ((discoverSourceFiles T C).map (·.1)).Nodup :=
  ((List.perm_insertionSort _ _).map _).nodup_iff.mpr (C.nodup.sublist (List.filter_sublist.map _))

theorem mem_goFiles {f : Path × String} :
    f ∈ goFiles T C ↔ f ∈ C.files ∧ isSource T f = true ∧ isGo f.1 = true := by
  rw [goFiles, List.mem_filter, mem_discover, and_assoc]

theorem mem_nonGoFiles {f : Path × String} :
    f ∈ nonGoFiles T C ↔ f ∈ C.files ∧ isSource T f = true ∧ isGo f.1 = false := by
  simp only [nonGoFiles, List.mem_filter, mem_discover, and_assoc, Bool.not_eq_true']

/-! ## Packages -/

theorem selectGoPackage_some {k : Path.PackageKey} {package : GoPackage} (h : selectGoPackage T C k = some package) :
    package = ⟨k, ((goFiles T C).filter (·.1.packageKey = k)).filter fun f => T.selects C f.1 f.2 = some true⟩ := by
  unfold selectGoPackage at h
  dsimp only at h
  split at h
  · cases h
  · exact (Option.some.inj h).symm

theorem mem_selected {k : Path.PackageKey} {package : GoPackage} (h : selectGoPackage T C k = some package)
    {f : Path × String} : f ∈ package.selected ↔ Indexed T C f ∧ isGo f.1 = true ∧ f.1.packageKey = k := by
  rw [selectGoPackage_some h]
  simp only [List.mem_filter, mem_goFiles, decide_eq_true_eq, Indexed]
  constructor
  · rintro ⟨⟨⟨hf, hs, hg⟩, hk⟩, hsel⟩
    exact ⟨⟨hf, hs, fun _ => hsel⟩, hg, hk⟩
  · rintro ⟨⟨hf, hs, hsel⟩, hg, hk⟩
    exact ⟨⟨⟨hf, hs, hg⟩, hk⟩, hsel hg⟩

theorem selected_nodup {k : Path.PackageKey} {package : GoPackage} (h : selectGoPackage T C k = some package) :
    (package.selected.map (·.1)).Nodup := by
  rw [selectGoPackage_some h]
  have hsub := (List.filter_sublist (p := fun f => decide (T.selects C f.1 f.2 = some true))
    (l := (goFiles T C).filter (·.1.packageKey = k))).trans (List.filter_sublist.trans List.filter_sublist)
  exact discover_nodup.sublist (hsub.map _)

theorem selectGoPackages_some {ks : List Path.PackageKey} {packages : List GoPackage}
    (h : selectGoPackages T C ks = some packages) : packages.map (·.key) = ks ∧
      ∀ package ∈ packages, selectGoPackage T C package.key = some package := by
  unfold selectGoPackages at h
  induction ks generalizing packages with
  | nil =>
    simp only [List.mapM_nil, Option.pure_def, Option.some.injEq] at h
    subst h
    simp
  | cons k ks ih =>
    simp only [List.mapM_cons, Option.bind_eq_bind, Option.pure_def, Option.bind_eq_some_iff, Option.some.injEq] at h
    obtain ⟨package, hp, rest, hrest, rfl⟩ := h
    have hkey : package.key = k := by rw [selectGoPackage_some hp]
    obtain ⟨hkeys, hall⟩ := ih hrest
    refine ⟨by simp [hkey, hkeys], ?_⟩
    intro p hmem
    rcases List.mem_cons.mp hmem with rfl | hmem
    · rw [hkey]
      exact hp
    · exact hall p hmem

theorem selectGoPackages_isSome (hsel : Selectable T C) (ks : List Path.PackageKey) :
    ∃ packages, selectGoPackages T C ks = some packages := by
  unfold selectGoPackages
  induction ks with
  | nil => exact ⟨[], rfl⟩
  | cons k ks ih =>
    obtain ⟨packages, hrest⟩ := ih
    have hone : ∃ package, selectGoPackage T C k = some package := by
      unfold selectGoPackage
      rw [if_neg]
      · exact ⟨_, rfl⟩
      · rw [List.any_eq_true]
        rintro ⟨f, hf, hraise⟩
        obtain ⟨hmem, hs, hg⟩ := mem_goFiles.mp (List.mem_of_mem_filter hf)
        exact hsel f hmem hs hg (by simpa using hraise)
    obtain ⟨package, hp⟩ := hone
    exact ⟨package :: packages, by simp [List.mapM_cons, hp, hrest]⟩

theorem mem_sortKeys {ks : List Path.PackageKey} {k : Path.PackageKey} : k ∈ sortKeys ks ↔ k ∈ ks := by
  rw [sortKeys, List.mem_insertionSort, List.mem_eraseDups]

theorem sortKeys_nodup (ks : List Path.PackageKey) : (sortKeys ks).Nodup :=
  (List.perm_insertionSort _ _).nodup_iff.mpr (Dict.eraseDups_nodup ks)

section
variable {ks : List Path.PackageKey} {packages : List GoPackage} (h : selectGoPackages T C (sortKeys ks) = some packages)
include h

theorem mem_packages {f : Path × String} :
    f ∈ packages.flatMap (·.selected) ↔ Indexed T C f ∧ isGo f.1 = true ∧ f.1.packageKey ∈ ks := by
  obtain ⟨hkeys, hall⟩ := selectGoPackages_some h
  rw [List.mem_flatMap]
  constructor
  · rintro ⟨package, hp, hf⟩
    obtain ⟨hi, hg, hk⟩ := (mem_selected (hall package hp)).mp hf
    refine ⟨hi, hg, mem_sortKeys.mp ?_⟩
    rw [← hkeys, hk]
    exact List.mem_map_of_mem hp
  · rintro ⟨hi, hg, hk⟩
    rw [← mem_sortKeys, ← hkeys] at hk
    obtain ⟨package, hp, hpk⟩ := List.mem_map.mp hk
    exact ⟨package, hp, (mem_selected (hall package hp)).mpr ⟨hi, hg, hpk.symm⟩⟩

theorem packages_nodup : ((packages.flatMap (·.selected)).map (·.1)).Nodup := by
  obtain ⟨hkeys, hall⟩ := selectGoPackages_some h
  have hnodup : (packages.map (·.key)).Nodup := hkeys ▸ sortKeys_nodup ks
  rw [List.map_flatMap, List.nodup_flatMap]
  refine ⟨fun package hp => selected_nodup (hall package hp), ?_⟩
  rw [List.Nodup, List.pairwise_map] at hnodup
  refine hnodup.imp_of_mem ?_
  intro a b ha hb hne
  simp only [Function.onFun]
  rw [List.disjoint_left]
  intro p hpa hpb
  obtain ⟨f, hf, rfl⟩ := List.mem_map.mp hpa
  obtain ⟨g, hg, he⟩ := List.mem_map.mp hpb
  apply hne
  rw [← ((mem_selected (hall a ha)).mp hf).2.2, ← ((mem_selected (hall b hb)).mp hg).2.2, he]

end

/-! ## The build-variant guard -/

theorem name_fact {f : Path × String} {q : String} (hq : q ∈ guardedNames (parseSourceGraph T C f.1 f.2)) :
    ∃ x ∈ facts T C f, x.1 = q := by
  obtain ⟨y, hy, rfl⟩ := List.mem_map.mp hq
  have hkey : y.qualifiedName ∈ (Dict.ofItems ((parseSourceGraph T C f.1 f.2).nodes.map
      fun x => (x.qualifiedName, x))).map (·.1) := by
    rw [Dict.mem_keys_ofItems, List.map_map, List.mem_map]
    exact ⟨y, List.mem_of_mem_filter hy, rfl⟩
  obtain ⟨⟨q, z⟩, hz, rfl⟩ := List.mem_map.mp hkey
  obtain ⟨w, hw, he⟩ := List.mem_map.mp (Dict.mem_ofItems hz)
  simp only [Prod.mk.injEq] at he
  obtain ⟨hwq, rfl⟩ := he
  refine ⟨w.fact T.host, ?_, hwq⟩
  simp only [facts, ExtractedGraph.deduped, dedupeNodesByQualifiedName, List.map_map, List.mem_map]
  exact ⟨_, hz, rfl⟩

theorem goJobs_eq {changed : Path × String → Bool} {packages : List GoPackage}
    (h : (goJobs T C changed packages).2 = false) :
    (goJobs T C changed packages).1 = (packages.flatMap (·.selected)).filter changed := by
  induction packages with
  | nil => rfl
  | cons package rest ih =>
    rw [goJobs] at h ⊢
    by_cases hnil : package.selected.filter changed = []
    · simp only [hnil, if_true] at h ⊢
      simp [ih h, hnil]
    · by_cases hc : variantConflict T C package.selected = true
      · simp [hnil, hc] at h
      · simp only [hnil, hc, if_false, Bool.false_eq_true] at h ⊢
        simp [ih h]

theorem goJobs_subset {changed : Path × String → Bool} {packages : List GoPackage} {f : Path × String}
    (h : f ∈ (goJobs T C changed packages).1) : f ∈ packages.flatMap (·.selected) := by
  induction packages with
  | nil => cases h
  | cons package rest ih =>
    rw [List.flatMap_cons, List.mem_append]
    unfold goJobs at h
    dsimp only at h
    split at h
    · exact Or.inr (ih h)
    · split at h
      · cases h
      · rcases List.mem_append.mp h with h | h
        · exact Or.inl (List.mem_of_mem_filter h)
        · exact Or.inr (ih h)

theorem goJobs_passes (hd : Distinct T C) (changed : Path × String → Bool) {packages : List GoPackage}
    (hall : ∀ package ∈ packages, selectGoPackage T C package.key = some package) :
    (goJobs T C changed packages).2 = false := by
  induction packages with
  | nil => rfl
  | cons package rest ih =>
    have hrest := ih fun p hp => hall p (List.mem_cons_of_mem _ hp)
    have hmem := hall package (List.mem_cons_self ..)
    have hconflict : variantConflict T C package.selected = false := by
      rw [Bool.eq_false_iff]
      intro hc
      simp only [variantConflict, List.any_eq_true, Bool.and_eq_true, decide_eq_true_eq] at hc
      obtain ⟨a, ha, b, hb, hne, q, hqa, hqb⟩ := hc
      obtain ⟨x, hx, rfl⟩ := name_fact hqa
      obtain ⟨y, hy, he⟩ := name_fact hqb
      exact hd a b ((mem_selected hmem).mp ha).1 ((mem_selected hmem).mp hb).1 hne x hx y hy he.symm
    rw [goJobs, hconflict]
    by_cases hnil : package.selected.filter changed = []
    · simp [hnil, hrest]
    · simp [hnil, hrest]

/-! ## The full walk -/

section
variable {packages : List GoPackage}
  (h : selectGoPackages T C (sortKeys ((goFiles T C).map (·.1.packageKey))) = some packages)
include h

theorem mem_present {f : Path × String} : f ∈ presentFiles T C packages ↔ Indexed T C f := by
  rw [presentFiles, List.mem_append, mem_nonGoFiles, mem_packages h]
  constructor
  · rintro (⟨hf, hs, hg⟩ | ⟨hi, -⟩)
    · exact ⟨hf, hs, fun hgo => by rw [hg] at hgo; cases hgo⟩
    · exact hi
  · intro hi
    by_cases hg : isGo f.1 = true
    · right
      refine ⟨hi, hg, ?_⟩
      exact List.mem_map.mpr ⟨f, mem_goFiles.mpr ⟨hi.1, hi.2.1, hg⟩, rfl⟩
    · left
      exact ⟨hi.1, hi.2.1, by simpa using hg⟩

theorem present_nodup : ((presentFiles T C packages).map (·.1)).Nodup := by
  rw [presentFiles, List.map_append, List.nodup_append]
  refine ⟨discover_nodup.sublist (List.filter_sublist.map _), packages_nodup h, ?_⟩
  intro p hp q hq
  obtain ⟨f, hf, rfl⟩ := List.mem_map.mp hp
  obtain ⟨g, hg, rfl⟩ := List.mem_map.mp hq
  intro he
  have hfg := (mem_nonGoFiles.mp hf).2.2
  rw [he, ((mem_packages h).mp hg).2.1] at hfg
  cases hfg

omit h in
theorem fullJobs_eq {state : Dict.Items Path (String × Option String)}
    (hpass : (fullJobs T C state packages).2 = false) :
    (fullJobs T C state packages).1 = (presentFiles T C packages).filter (isStale T C state) := by
  simp only [fullJobs] at hpass ⊢
  rw [goJobs_eq hpass, presentFiles, List.filter_append]

end

end Cograph
