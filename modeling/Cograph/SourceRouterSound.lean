import Cograph.Access
import Cograph.CollectionsSound
import Cograph.SourceRouter

/-!
# Scores and cuts of the router

The weights of a pool are never negative, so that what a source matches weighs
at most the whole query, and matching more weighs no less, with weights or
without. The cut keeps the best sources of each kind.
-/

namespace Cograph.Routing

/-! ## Sums over the tokens a source matches -/

section
variable {K : Type} [Field K] [LinearOrder K] [IsStrictOrderedRing K]

theorem sum_subset_le {l l' : List Str} (w : Str → K) (hw : ∀ t, 0 ≤ w t) (hl : l.Nodup) (h : l ⊆ l') :
    (l.map w).sum ≤ (l'.map w).sum := by
  obtain ⟨k, hperm, hsub⟩ := hl.subperm h
  rw [← (hperm.map w).sum_eq]
  refine (hsub.map w).sum_le_sum fun x hx => ?_
  obtain ⟨t, -, rfl⟩ := List.mem_map.1 hx
  exact hw t

variable {log : K → K} {tokens : List Str} {n : Nat} {count : Str → Nat}

def weight (log : K → K) (n : Nat) (count : Str → Nat) (t : Str) : K :=
  if count t = 0 then 0 else log ((n + 1) / (count t + 1))

/-- No token has a negative weight: it is in no more sources than there are. -/
theorem weight_nonneg (hlog : ∀ x, 1 ≤ x → 0 ≤ log x) (hcount : ∀ t, count t ≤ n) (t : Str) : 0 ≤ weight log n count t := by
  unfold weight
  split
  · exact le_rfl
  · apply hlog
    have hle : (count t : K) ≤ n := Nat.cast_le.2 (hcount t)
    have hpos : (0 : K) < count t + 1 := by positivity
    rw [le_div_iff₀ hpos]
    linarith

omit [LinearOrder K] [IsStrictOrderedRing K] in
theorem get_idf {t : Str} (ht : t ∈ tokens) : (Dict.get (computeIdf log n count tokens) t).getD 0 = weight log n count t := by
  have hget : Dict.get (computeIdf log n count tokens) t = some (weight log n count t) := by
    unfold computeIdf
    induction tokens with
    | nil => cases ht
    | cons s tokens ih =>
      rw [List.map_cons, Dict.get_cons]
      by_cases hs : s = t
      · rw [if_pos hs, hs]
        rfl
      · rw [if_neg hs]
        exact ih ((List.mem_cons.1 ht).resolve_left (Ne.symm hs))
  rw [hget]
  rfl

omit [LinearOrder K] [IsStrictOrderedRing K] in
theorem idf_sum : ((computeIdf log n count tokens).map (·.2)).sum = (tokens.map (weight log n count)).sum := by
  rw [computeIdf, List.map_map]
  rfl

/-! ## One score -/

/-- The share of the query that a source covers. -/
def coverage (tokens : List Str) (w : Str → K) (matched : List Str) : K :=
  if (tokens.map w).sum ≤ 0 then matched.length / tokens.length else (matched.map w).sum / (tokens.map w).sum

omit [IsStrictOrderedRing K] in
theorem combineScore_eq (hne : tokens ≠ []) {matched label : List Str} (hm : matched ⊆ tokens) :
    combineScore tokens matched label (computeIdf log n count tokens) =
      min 1 (coverage tokens (weight log n count) matched * (1 + 1 / 2 * (label.length / tokens.length))) := by
  have hget : (matched.map fun t => (Dict.get (computeIdf log n count tokens) t).getD 0) = matched.map (weight log n count) :=
    List.map_congr_left fun t ht => get_idf (hm ht)
  rw [combineScore, if_neg hne, idf_sum, hget]
  rfl

section
variable {w : Str → K} (hw : ∀ t, 0 ≤ w t)
include hw

theorem coverage_nonneg (matched : List Str) : 0 ≤ coverage tokens w matched := by
  unfold coverage
  split
  · positivity
  · refine div_nonneg (List.sum_nonneg fun x hx => ?_) (by linarith)
    obtain ⟨t, -, rfl⟩ := List.mem_map.1 hx
    exact hw t

theorem coverage_mono {matched matched' : List Str} (hnodup : matched.Nodup) (hsub : matched ⊆ matched') :
    coverage tokens w matched ≤ coverage tokens w matched' := by
  unfold coverage
  split
  · have hlen : (matched.length : K) ≤ matched'.length := Nat.cast_le.2 (hnodup.subperm hsub).length_le
    gcongr
  · have hpos : 0 < (tokens.map w).sum := by linarith
    have hsum := sum_subset_le w hw hnodup hsub
    gcongr

end

theorem boost_pos (label : List Str) : (0 : K) < 1 + 1 / 2 * (label.length / tokens.length) := by
  positivity

theorem boost_mono {label label' : List Str} (hnodup : label.Nodup) (hsub : label ⊆ label') :
    (1 + 1 / 2 * (label.length / tokens.length) : K) ≤ 1 + 1 / 2 * (label'.length / tokens.length) := by
  have hlen : (label.length : K) ≤ label'.length := Nat.cast_le.2 (hnodup.subperm hsub).length_le
  gcongr

/-! ## The scores of a pool -/

theorem all_sub (tokens : List Str) (m : Matched) : m.all tokens ⊆ tokens := List.filter_subset_self _

theorem all_nodup (htokens : tokens.Nodup) (m : Matched) : (m.all tokens).Nodup := htokens.filter _

section
variable (hlog : ∀ x, 1 ≤ x → 0 ≤ log x) (pool : List Matched)
include hlog

theorem poolWeight_nonneg (t : Str) : 0 ≤ weight log pool.length (df tokens pool) t :=
  weight_nonneg hlog (fun _ => List.countP_le_length) t

theorem poolScore_bounds (m : Matched) : 0 ≤ poolScore log tokens pool m ∧ poolScore log tokens pool m ≤ 1 := by
  by_cases hne : tokens = []
  · have hzero : poolScore log tokens pool m = 0 := if_pos hne
    rw [hzero]
    exact ⟨le_rfl, zero_le_one⟩
  · rw [poolScore, poolIdf, combineScore_eq hne (all_sub tokens m)]
    refine ⟨le_min zero_le_one (mul_nonneg (coverage_nonneg (poolWeight_nonneg hlog pool) _) (boost_pos _).le), ?_⟩
    exact min_le_left _ _

/-- Matching more scores no less. -/
theorem poolScore_mono (htokens : tokens.Nodup) {m m' : Matched} (hlabel : m.label.Nodup)
    (hall : m.all tokens ⊆ m'.all tokens) (hsub : m.label ⊆ m'.label) :
    poolScore log tokens pool m ≤ poolScore log tokens pool m' := by
  by_cases hne : tokens = []
  · have hzero : ∀ m, poolScore log tokens pool m = 0 := fun m => if_pos hne
    rw [hzero, hzero]
  · rw [poolScore, poolScore, poolIdf, combineScore_eq hne (all_sub tokens m), combineScore_eq hne (all_sub tokens m')]
    have hw : ∀ t, 0 ≤ weight log pool.length (df tokens pool) t := poolWeight_nonneg hlog pool
    have hcoverage : coverage tokens _ _ ≤ coverage tokens _ _ := coverage_mono hw (all_nodup htokens m) hall
    have hboost : (1 + 1 / 2 * (m.label.length / tokens.length) : K) ≤ 1 + 1 / 2 * (m'.label.length / tokens.length) :=
      boost_mono hlabel hsub
    exact min_le_min le_rfl (mul_le_mul hcoverage hboost (boost_pos _).le (coverage_nonneg hw _))

end

omit [IsStrictOrderedRing K] in
/-- A source that matches nothing scores nothing. -/
theorem poolScore_none (pool : List Matched) {m : Matched} (hnone : m.all tokens = []) (hpos : (0 : K) ≤ 1) :
    poolScore log tokens pool m = 0 := by
  by_cases hne : tokens = []
  · exact if_pos hne
  · rw [poolScore, poolIdf, combineScore_eq hne (all_sub tokens m), hnone]
    simp [coverage, hpos]

end

/-! ## The cut -/

section
variable {K : Type} [LinearOrder K] {topK : Nat} {scored : List (RouteHit K)}

theorem mem_best {hit : RouteHit K} (h : hit ∈ best topK scored) : hit ∈ scored :=
  List.mem_mergeSort.1 (List.mem_of_mem_take h)

theorem length_best : (best topK scored).length = min topK scored.length := by
  rw [best, List.length_take, List.length_mergeSort]

/-- What is cut scores no more than what is kept. -/
theorem best_ge {x : RouteHit K} (hx : x ∈ scored) (hout : x ∉ best topK scored) :
    ∀ hit ∈ best topK scored, x.score ≤ hit.score := by
  intro hit hhit
  have hsorted : (scored.mergeSort fun a b => b.score ≤ a.score).Pairwise fun a b => decide (b.score ≤ a.score) = true := by
    apply List.pairwise_mergeSort
    · intro a b c hab hbc
      rw [decide_eq_true_eq] at hab hbc ⊢
      exact hbc.trans hab
    · intro a b
      rw [Bool.or_eq_true, decide_eq_true_eq, decide_eq_true_eq]
      exact le_total b.score a.score
  rw [← List.take_append_drop topK (scored.mergeSort fun a b => b.score ≤ a.score), List.pairwise_append] at hsorted
  have hmem : x ∈ scored.mergeSort fun a b => b.score ≤ a.score := List.mem_mergeSort.2 hx
  rw [← List.take_append_drop topK (scored.mergeSort fun a b => b.score ≤ a.score)] at hmem
  have hdrop := (List.mem_append.1 hmem).resolve_left hout
  exact of_decide_eq_true (hsorted.2.2 hit hhit x hdrop)

end

/-! ## The route -/

section
variable {K : Type} [Field K] [LinearOrder K] (log : K → K) (C : Corpus) (caller : Caller) (tokens : List Str)

/-- The score of a readable repository, returned or not. -/
def repositoryScore (r : Access.Repository) : K :=
  poolScore log tokens (caller.repos.map (matchRepository C tokens)) (matchRepository C tokens r)

def collectionScore (c : Collections.MdCollection) : K :=
  poolScore log tokens (caller.colls.map (matchCollection C tokens)) (matchCollection C tokens c)

/-- What a route with these hits keeps to. -/
structure Laws (topK : Nat) (hits : List (RouteHit K)) : Prop where
  repositoryBounds : ∀ r ∈ caller.repos, 0 ≤ repositoryScore log C caller tokens r ∧ repositoryScore log C caller tokens r ≤ 1
  collectionBounds : ∀ c ∈ caller.colls, 0 ≤ collectionScore log C caller tokens c ∧ collectionScore log C caller tokens c ≤ 1
  repositoryMono : ∀ a ∈ caller.repos, ∀ b ∈ caller.repos,
    (matchRepository C tokens b).all tokens ⊆ (matchRepository C tokens a).all tokens →
      (matchRepository C tokens b).label ⊆ (matchRepository C tokens a).label →
        repositoryScore log C caller tokens b ≤ repositoryScore log C caller tokens a
  collectionMono : ∀ a ∈ caller.colls, ∀ b ∈ caller.colls,
    (matchCollection C tokens b).all tokens ⊆ (matchCollection C tokens a).all tokens →
      (matchCollection C tokens b).label ⊆ (matchCollection C tokens a).label →
        collectionScore log C caller tokens b ≤ collectionScore log C caller tokens a
  count : tokens ≠ [] → (hits.filter (·.kind = .collection)).length = min topK (caller.collections.collections.filter
    (Collections.userCanReadMdCollection caller.collections caller.currentUser)).length
  repositoryScope : ∀ hit ∈ hits, hit.kind = .repository → ∃ r ∈ caller.repositories.repositories,
    Access.userCanReadRepository caller.repositories caller.publicRead caller.currentUser r ∧ hit.id = r.id ∧
      hit.score = repositoryScore log C caller tokens r
  collectionScope : ∀ hit ∈ hits, hit.kind = .collection → ∃ c ∈ caller.collections.collections,
    Collections.userCanReadMdCollection caller.collections caller.currentUser c ∧ hit.id = c.id ∧
      hit.score = collectionScore log C caller tokens c
  repositoryBest : ∀ r ∈ caller.repos, (∀ hit ∈ hits, hit.kind = .repository → hit.id ≠ r.id) →
    ∀ hit ∈ hits, hit.kind = .repository → repositoryScore log C caller tokens r ≤ hit.score
  collectionBest : ∀ c ∈ caller.colls, (∀ hit ∈ hits, hit.kind = .collection → hit.id ≠ c.id) →
    ∀ hit ∈ hits, hit.kind = .collection → collectionScore log C caller tokens c ≤ hit.score

end

section
variable {K : Type} [Field K] [LinearOrder K] [IsStrictOrderedRing K] {log : K → K} {C : Corpus} {caller : Caller}
  {tokens : List Str} {topK : Nat} {hit : RouteHit K}

theorem mem_repos {r : Access.Repository} : r ∈ caller.repos ↔ r ∈ caller.repositories.repositories ∧
    Access.userCanReadRepository caller.repositories caller.publicRead caller.currentUser r := by
  rw [Caller.repos, Access.mem_scope]
  simp [Access.Select.all, Access.Select.rows]

theorem colls_eq : caller.colls = caller.collections.collections.filter
    (Collections.userCanReadMdCollection caller.collections caller.currentUser) := by
  rw [Caller.colls, Collections.select]
  refine List.filter_congr fun c hc => ?_
  have hscope := @Collections.mem_scope caller.collections caller.currentUser c
  rw [Collections.select, List.mem_filter, ← Collections.userCanRead_iff] at hscope
  rw [Bool.eq_iff_iff]
  exact ⟨fun h => (hscope.1 ⟨hc, h⟩).2, fun h => (hscope.2 ⟨hc, h⟩).2⟩

theorem mem_colls {c : Collections.MdCollection} : c ∈ caller.colls ↔ c ∈ caller.collections.collections ∧
    Collections.userCanReadMdCollection caller.collections caller.currentUser c := by
  rw [colls_eq, List.mem_filter]

omit [IsStrictOrderedRing K] in
theorem repositoryHit_some {pool : List Matched} {r : Access.Repository} (h : repositoryHit log C tokens pool r = some hit) :
    hit.kind = .repository ∧ hit.id = r.id ∧ hit.score = poolScore log tokens pool (matchRepository C tokens r) := by
  unfold repositoryHit at h
  dsimp only at h
  split at h
  · cases h
  · obtain rfl := Option.some.inj h
    exact ⟨rfl, rfl, rfl⟩

omit [IsStrictOrderedRing K] in
theorem mem_routeRepositories (h : hit ∈ routeRepositories log C tokens caller.repos topK) :
    hit.kind = .repository ∧ ∃ r ∈ caller.repos, hit.id = r.id ∧ hit.score = repositoryScore log C caller tokens r := by
  obtain ⟨r, hr, hsome⟩ := List.mem_filterMap.1 (mem_best h)
  obtain ⟨hkind, hid, hscore⟩ := repositoryHit_some hsome
  exact ⟨hkind, r, hr, hid, hscore⟩

omit [IsStrictOrderedRing K] in
theorem mem_routeCollections (h : hit ∈ routeCollections log C tokens caller.colls topK) :
    hit.kind = .collection ∧ ∃ c ∈ caller.colls, hit.id = c.id ∧ hit.score = collectionScore log C caller tokens c := by
  obtain ⟨c, hc, rfl⟩ := List.mem_map.1 (mem_best h)
  exact ⟨rfl, c, hc, rfl, rfl⟩

theorem matchesIn_nodup (htokens : tokens.Nodup) (text : Str) : (matchesIn tokens text).Nodup := by
  unfold matchesIn
  split
  · exact List.nodup_nil
  · exact htokens.filter _

/-- A readable repository that is left out scores no more than a returned one:
it was cut, or it matches nothing. -/
theorem left_repository (hlog : ∀ x, 1 ≤ x → 0 ≤ log x) {r : Access.Repository} (hr : r ∈ caller.repos)
    (hout : ∀ hit ∈ routeRepositories log C tokens caller.repos topK, hit.id ≠ r.id) :
    ∀ hit ∈ routeRepositories log C tokens caller.repos topK, repositoryScore log C caller tokens r ≤ hit.score := by
  intro hit hhit
  cases hsome : repositoryHit log C tokens (caller.repos.map (matchRepository C tokens)) r with
  | none =>
    have hnone : (matchRepository C tokens r).all tokens = [] := by
      by_contra hne
      simp [repositoryHit, hne] at hsome
    obtain ⟨-, r', -, -, hscore⟩ := mem_routeRepositories hhit
    rw [repositoryScore, poolScore_none _ hnone zero_le_one, hscore]
    exact (poolScore_bounds hlog _ _).1
  | some x =>
    obtain ⟨-, hid, hscore⟩ := repositoryHit_some hsome
    have hmem : x ∈ caller.repos.filterMap (repositoryHit log C tokens (caller.repos.map (matchRepository C tokens))) :=
      List.mem_filterMap.2 ⟨r, hr, hsome⟩
    have hge := best_ge hmem (fun hx => hout x hx hid) hit hhit
    rwa [hscore] at hge

omit [IsStrictOrderedRing K] in
theorem left_collection {c : Collections.MdCollection} (hc : c ∈ caller.colls)
    (hout : ∀ hit ∈ routeCollections log C tokens caller.colls topK, hit.id ≠ c.id) :
    ∀ hit ∈ routeCollections log C tokens caller.colls topK, collectionScore log C caller tokens c ≤ hit.score := by
  have hmem : collectionHit log C tokens (caller.colls.map (matchCollection C tokens)) c ∈
      caller.colls.map (collectionHit log C tokens (caller.colls.map (matchCollection C tokens))) := List.mem_map_of_mem hc
  exact best_ge hmem fun hx => hout _ hx rfl

omit [IsStrictOrderedRing K] in
/-- The hits of either kind are those of its pool. -/
theorem mem_hits : (hit ∈ routeRepositories log C tokens caller.repos topK ++ routeCollections log C tokens caller.colls topK ∧
      hit.kind = .repository ↔ hit ∈ routeRepositories log C tokens caller.repos topK) ∧
    (hit ∈ routeRepositories log C tokens caller.repos topK ++ routeCollections log C tokens caller.colls topK ∧
      hit.kind = .collection ↔ hit ∈ routeCollections log C tokens caller.colls topK) := by
  have hrepo : hit ∈ routeRepositories log C tokens caller.repos topK → hit.kind = .repository :=
    fun h => (mem_routeRepositories h).1
  have hcoll : hit ∈ routeCollections log C tokens caller.colls topK → hit.kind = .collection :=
    fun h => (mem_routeCollections h).1
  rw [List.mem_append]
  grind

theorem routed_laws (hlog : ∀ x, 1 ≤ x → 0 ≤ log x) (htokens : tokens.Nodup) (hits : List (RouteHit K))
    (hhits : hits = if tokens = [] then [] else
      routeRepositories log C tokens caller.repos topK ++ routeCollections log C tokens caller.colls topK) :
    Laws log C caller tokens topK hits := by
  -- a query without tokens has no hits, so any hit is one of the two pools
  have hpools : ∀ hit ∈ hits, hits =
      routeRepositories log C tokens caller.repos topK ++ routeCollections log C tokens caller.colls topK := by
    intro hit hhit
    rw [hhits] at hhit ⊢
    split at hhit
    · cases hhit
    · next hne => exact if_neg hne
  have hrepo : ∀ hit ∈ hits, hit.kind = .repository → hit ∈ routeRepositories log C tokens caller.repos topK := by
    intro hit hhit hkind
    exact mem_hits.1.1 ⟨hpools hit hhit ▸ hhit, hkind⟩
  have hcoll : ∀ hit ∈ hits, hit.kind = .collection → hit ∈ routeCollections log C tokens caller.colls topK := by
    intro hit hhit hkind
    exact mem_hits.2.1 ⟨hpools hit hhit ▸ hhit, hkind⟩
  refine ⟨fun r _ => poolScore_bounds hlog _ _, fun c _ => poolScore_bounds hlog _ _,
    fun a _ b _ hall hlabel => poolScore_mono hlog _ htokens (matchesIn_nodup htokens _) hall hlabel,
    fun a _ b _ hall hlabel => poolScore_mono hlog _ htokens (matchesIn_nodup htokens _) hall hlabel,
    fun hne => ?_, fun hit hhit hkind => ?_, fun hit hhit hkind => ?_, fun r hr hout hit hhit hkind => ?_,
    fun c hc hout hit hhit hkind => ?_⟩
  · have hnone : (routeRepositories log C tokens caller.repos topK).filter (·.kind = .collection) = [] := by
      rw [List.filter_eq_nil_iff]
      intro hit hhit
      simp [(mem_routeRepositories hhit).1]
    have hall : (routeCollections log C tokens caller.colls topK).filter (·.kind = .collection) =
        routeCollections log C tokens caller.colls topK := by
      rw [List.filter_eq_self]
      intro hit hhit
      simp [(mem_routeCollections hhit).1]
    rw [hhits, if_neg hne, List.filter_append, hnone, hall, List.nil_append, routeCollections, length_best, List.length_map,
      colls_eq]
  · obtain ⟨-, r, hr, hid, hscore⟩ := mem_routeRepositories (hrepo hit hhit hkind)
    exact ⟨r, (mem_repos.1 hr).1, (mem_repos.1 hr).2, hid, hscore⟩
  · obtain ⟨-, c, hc, hid, hscore⟩ := mem_routeCollections (hcoll hit hhit hkind)
    exact ⟨c, (mem_colls.1 hc).1, (mem_colls.1 hc).2, hid, hscore⟩
  · refine left_repository hlog hr (fun x hx => ?_) hit (hrepo hit hhit hkind)
    obtain ⟨hmem, hk⟩ := mem_hits.1.2 hx
    exact hout x (by rwa [hpools hit hhit]) hk
  · refine left_collection hc (fun x hx => ?_) hit (hcoll hit hhit hkind)
    obtain ⟨hmem, hk⟩ := mem_hits.2.2 hx
    exact hout x (by rwa [hpools hit hhit]) hk

end

/-- **Routing.** With the real logarithm, every score of the pool is between 0
and 1, a source that matches more scores no less, the route has as many
collections as it may, only readable sources, and the best of each kind. -/
theorem routeSources_laws (C : Corpus) (caller : Caller) (query : Str) (topK : Nat) :
    Laws Real.log C caller (tokenSet query) topK (routeSources Real.log C caller query topK) :=
  routed_laws (fun _ hx => Real.log_nonneg hx) (Dict.eraseDups_nodup _) _ rfl

end Cograph.Routing
