import Cograph.CitationsSound

/-!
# What unwrapping leaves open

A citation ends at the first closing bracket after it opens. So a text is read
in runs between closing brackets, and a run that two brackets close holds at
most one citation: the first that opens in it. Unwrapping a rejected citation
takes its brackets away and joins its run with the next one, where the joined
text may open a citation that was none before.
-/

namespace Cograph.Wiki

open Regex

/-! ## Runs -/

/-- The citation of a run that two brackets close, and where it opens. -/
def opening (r : Str) : Option (Nat × Match) := (finditer placeholderRe (r ++ "]]".toList)).head?

section
variable (rejected : Match → Bool)

/-- The runs that are joined by unwrapping and closed by two brackets. `acc`
is what unwrapping put before the first run. -/
def joined : Str → List Str → List Str
  | acc, r :: [] :: next :: runs =>
    match opening r with
    | some (i, m) =>
      if rejected m then joined (acc ++ (r.take i ++ plainText (kindOf m) (valueOf m))) (next :: runs)
      else (if acc = [] then [] else [acc ++ r]) ++ joined [] (next :: runs)
    | none => (if acc = [] then [] else [acc ++ r]) ++ joined [] (next :: runs)
  | _, _ :: next :: runs => joined [] (next :: runs)
  | _, _ => []

end

/-! ## Scanning a run -/

theorem citation_brackets {kind : CitationKind} {v : Str} (hv : Valued v) : (citation kind v).count ']' = 2 := by
  have hc : v.count ']' = 0 := List.count_eq_zero.2 hv.2
  cases kind <;> simp [citation, CitationKind.text, hc]

theorem citation_last {kind : CitationKind} {v t u : Str} (h : t ++ u = citation kind v) (hu : u ≠ []) : ']' ∈ u := by
  have hlast : (t ++ u).getLast? = some ']' := by
    rw [h, citation, List.getLast?_append_of_ne_nil _ (by simp)]
    rfl
  rw [List.getLast?_append_of_ne_nil _ hu] at hlast
  exact List.mem_of_getLast? hlast

section
variable {r y : Str}

theorem calm_closed (r : Str) : Calm (r ++ "]]".toList) := by
  intro ⟨t, u, kind, v, ht, hu, ⟨x, hx⟩, hv, he⟩
  have hlast := citation_last he hu
  rcases List.append_eq_append_iff.1 hx with ⟨a, -, hb⟩ | ⟨a, -, hb⟩
  · have hcount := @citation_brackets kind _ hv
    rw [← he, hb] at hcount
    have : 0 < u.count ']' := List.count_pos_iff.2 hlast
    simp at hcount
    omega
  · -- a suffix of the brackets does not start like a citation
    cases t with
    | nil => exact ht rfl
    | cons c t =>
      have hc : c = '[' := (List.cons.inj he).1
      have : c ∈ "]]".toList := hb ▸ by simp
      simp [hc] at this

theorem scan_closed (r y : Str) : scan placeholderRe 0 [] (r ++ "]]".toList ++ y) =
    scan placeholderRe 0 [] (r ++ "]]".toList) ++ scan placeholderRe 0 [] y :=
  scan_calm (calm_closed r) y

theorem scan_open (hr : ']' ∉ r) : scan placeholderRe 0 [] r = r.map Token.plain := by
  apply scan_plains
  have hnil : (finditer placeholderRe r).map (·.2) = [] := by
    rw [finditer_map]
    exact cites_of_not_mem (.inr rfl) hr
  exact List.map_eq_nil_iff.1 hnil

theorem scan_single (hr : ']' ∉ r) (hy : y.head? ≠ some ']') : scan placeholderRe 0 [] (r ++ [']'] ++ y) =
    (r ++ [']']).map Token.plain ++ scan placeholderRe 0 [] y := by
  have hplain : scan placeholderRe 0 [] (r ++ [']']) = (r ++ [']']).map Token.plain := by
    have hnil : (finditer placeholderRe (r ++ [']'])).map (·.2) = [] := by
      rw [finditer_map]
      apply List.eq_nil_iff_forall_not_mem.2
      intro m hm
      obtain ⟨kind, v, a, b, hv, -, he⟩ := mem_cites hm
      have hcount := congrArg (List.count ']') he
      simp only [List.count_append, citation_brackets hv, List.count_eq_zero.2 hr] at hcount
      simp at hcount
      omega
    exact scan_plains _ _ _ (List.map_eq_nil_iff.1 hnil)
  rw [scan_append placeholder_blind, hplain]
  intro t ht ⟨x, hx⟩
  apply matchAt_append _ ht
  intro c u kind v _ hu hv he hyu
  -- the run before the bracket would be the citation up to its first bracket
  have hend : ∃ t', t = t' ++ [']'] := by
    have hlast : t.getLast? = some ']' := by
      have := congrArg List.getLast? hx
      rwa [List.getLast?_append_of_ne_nil _ ht, List.getLast?_concat] at this
    exact ⟨t.dropLast, (List.dropLast_append_getLast? _ hlast).symm⟩
  obtain ⟨t', rfl⟩ := hend
  have hcount := @citation_brackets kind _ hv
  have ht' : ']' ∉ t' := by
    intro hmem
    apply hr
    have : x ++ t' = r := by
      rw [← List.append_assoc] at hx
      exact (List.append_inj' hx rfl).1
    rw [← this]
    exact List.mem_append_right _ hmem
  have hcut : ∀ {w z : Str}, ']' ∉ w → (w ++ ']' :: z).dropWhile (· ≠ ']') = ']' :: z := by
    intro w z hw
    rw [List.dropWhile_append_of_pos]
    · simp
    · intro c hc
      have : c ≠ ']' := fun h => hw (h ▸ hc)
      simpa using this
  have hrest := congrArg (List.dropWhile (· ≠ ']')) he
  rw [List.append_assoc, List.singleton_append, hcut ht',
    show citation kind v = ("[[".toList ++ kind.text ++ ":".toList ++ v) ++ ']' :: [']'] from rfl, hcut] at hrest
  · rw [List.cons.injEq] at hrest
    apply hy
    rw [hyu, hrest.2]
    rfl
  · cases kind <;> simp [CitationKind.text, hv.2]

theorem opening_some (hr : ']' ∉ r) {i : Nat} {m : Match} (ho : opening r = some (i, m)) :
    ∃ kind v, Valued v ∧ m = citationMatch kind v ∧ r ++ "]]".toList = r.take i ++ citation kind v ∧
      scan placeholderRe 0 [] (r ++ "]]".toList) = (r.take i).map Token.plain ++ [.hit m] := by
  obtain ⟨b', t, hs, hscan⟩ := scan_first placeholderRe [] _ ho
  obtain ⟨x, w, -, -, hm⟩ := finditer_split (List.mem_of_head? ho)
  obtain ⟨kind, v, -, hv, -, hmv⟩ := matchAt_placeholder.1 hm
  dsimp only at hs hscan hmv
  subst hmv
  have hs' : r ++ "]]".toList = (r ++ "]]".toList).take i ++ citation kind v ++ t := by
    rw [List.append_assoc]
    exact hs
  have hcount := congrArg (List.count ']') hs'
  simp only [List.count_append, citation_brackets hv, List.count_eq_zero.2 hr] at hcount
  have htwo : List.count ']' "]]".toList = 2 := by decide
  have ht : t = [] := by
    by_contra hne
    have hlast := congrArg List.getLast? hs'
    rw [List.getLast?_append_of_ne_nil _ hne, List.getLast?_append_of_ne_nil _ (by simp)] at hlast
    have : 0 < t.count ']' := List.count_pos_iff.2 (List.mem_of_getLast? hlast.symm)
    omega
  subst ht
  have hlen := congrArg List.length hs'
  have htake : (r ++ "]]".toList).take i = r.take i := by
    have : 0 < (citation kind v).length - 2 := by
      cases kind <;> simp [citation, CitationKind.text]
    apply List.take_append_of_le_length
    simp only [List.length_append, List.length_take, List.append_nil] at hlen
    have h2 : "]]".toList.length = 2 := rfl
    omega
  rw [htake] at hs' hscan
  exact ⟨kind, v, hv, rfl, by simpa using hs', by simpa [scan] using hscan⟩

theorem opening_none (ho : opening r = none) :
    scan placeholderRe 0 [] (r ++ "]]".toList) = (r ++ "]]".toList).map Token.plain :=
  scan_plains _ _ _ (List.head?_eq_none_iff.1 ho)

end

/-! ## Unwrapping -/

/-- What unwrapping does: a text that stands stays, the others are put plain. -/
def unwrap (ok : Match → Bool) (m : Match) : Str := if ok m then m.text else plainText (kindOf m) (valueOf m)

theorem strip_subset {s : Str} {c : Char} (h : c ∈ Str.strip s) : c ∈ s := by
  unfold Str.strip Str.rstrip Str.lstrip at h
  rw [List.mem_reverse] at h
  exact List.dropWhile_subset _ (List.mem_reverse.1 (List.dropWhile_subset _ h))

theorem plainText_run (kind : CitationKind) {v : Str} (hv : Valued v) : ']' ∉ plainText kind (Str.strip v) := by
  have hstrip : ']' ∉ Str.strip v := fun h => hv.2 (strip_subset h)
  cases kind with
  | node =>
    unfold plainText
    split <;> simp_all
  | doc => exact hstrip

section
variable {ok : Match → Bool} (hok : ∀ m, ok m = false → valueOf m ≠ [])

theorem sub_append {f : Match → Str} {x y : Str}
    (h : scan placeholderRe 0 [] (x ++ y) = scan placeholderRe 0 [] x ++ scan placeholderRe 0 [] y) :
    sub placeholderRe f (x ++ y) = sub placeholderRe f x ++ sub placeholderRe f y := by
  rw [sub, h, List.flatMap_append]
  rfl

include hok

theorem unwrap_head {y : Str} (hy : y.head? ≠ some ']') : (sub placeholderRe (unwrap ok) y).head? ≠ some ']' := by
  cases y with
  | nil => simp [sub, scan]
  | cons c y =>
    cases hm : matchAt placeholderRe [] (c :: y) with
    | none =>
      rw [sub, scan_plain hm]
      simpa [Token.subst] using hy
    | some m =>
      obtain ⟨kind, v, t, hv, hs, rfl⟩ := matchAt_placeholder.1 hm
      rw [sub, scan_hit hm hs, List.flatMap_cons, Token.subst, unwrap]
      split
      · simp [citationMatch, citation]
      · rename_i hbad
        have hvalue := hok (citationMatch kind v) (by simpa using hbad)
        rw [valueOf_citation] at hvalue ⊢
        have hrun := plainText_run kind hv
        rw [kindOf_citation]
        cases hp : plainText kind (Str.strip v) with
        | nil => cases kind <;> simp [plainText, hvalue] at hp
        | cons d w =>
          rw [hp] at hrun
          intro hd
          simp only [List.cons_append, List.head?_cons, Option.some.injEq] at hd
          simp [hd] at hrun

omit hok in
theorem cites_closed {w : Str} (hw : ']' ∉ w) :
    (∀ m ∈ cites (w ++ "]]".toList), ok m = true) ↔ ∀ i m, opening w = some (i, m) → ok m = true := by
  cases ho : opening w with
  | none =>
    have hnil : cites (w ++ "]]".toList) = [] := by
      rw [cites, hits, opening_none ho, hit_plains]
    rw [hnil]
    simp
  | some x =>
    obtain ⟨i, m⟩ := x
    obtain ⟨_, _, _, _, _, hscan⟩ := opening_some hw ho
    have hone : cites (w ++ "]]".toList) = [m] := by
      rw [cites, hits, hscan, List.filterMap_append, hit_plains]
      rfl
    rw [hone]
    simp

/-- **What is left stands** if and only if the joined runs open nothing that
does not. -/
theorem unwrap_stands (s acc : Str) (hacc : ']' ∉ acc) :
    (∀ m ∈ cites (acc ++ sub placeholderRe (unwrap ok) s), ok m = true) ↔
      ∀ t ∈ joined (fun m => !ok m) acc (s.splitOn ']'), ∀ i m, opening t = some (i, m) → ok m = true := by
  induction hn : s.length using Nat.strongRecOn generalizing s acc with
  | _ n ih =>
    by_cases hs : ']' ∈ s
    · obtain ⟨r, y, rfl, hr⟩ := List.eq_append_cons_of_mem hs
      rw [List.splitOn_append_cons_self_of_not_mem hr]
      -- a run that is closed and stays as it is
      have stay : ∀ z, y = ']' :: z → (∀ i m, opening r = some (i, m) → ok m = true) →
          sub placeholderRe (unwrap ok) (r ++ "]]".toList) = r ++ "]]".toList →
          ((∀ m ∈ cites (acc ++ sub placeholderRe (unwrap ok) (r ++ ']' :: y)), ok m = true) ↔
            ∀ t ∈ (if acc = [] then [] else [acc ++ r]) ++ joined (fun m => !ok m) [] (z.splitOn ']'),
              ∀ i m, opening t = some (i, m) → ok m = true) := by
        intro z hz hopen hsame
        have hjoin : r ++ ']' :: y = r ++ "]]".toList ++ z := by simp [hz]
        have hz' := ih z.length (by simp [hz] at hn; omega) z [] (by simp) rfl
        rw [hjoin, sub_append (scan_closed r z), hsame, ← List.append_assoc, ← List.append_assoc,
          cites_append (calm_closed _), List.forall_mem_append, List.forall_mem_append,
          cites_closed (by simp [hacc, hr])]
        rw [List.nil_append] at hz'
        refine and_congr ?_ hz'
        by_cases hnil : acc = []
        · simpa [hnil] using hopen
        · simp [hnil]
      by_cases hy : y.head? = some ']'
      · obtain ⟨z, rfl⟩ : ∃ z, y = ']' :: z := by
          cases y with
          | nil => simp at hy
          | cons c z => exact ⟨z, by simpa using hy⟩
        obtain ⟨next, runs, hz⟩ := List.exists_cons_of_ne_nil (List.splitOn_ne_nil ']' z)
        have hsplit : (']' :: z).splitOn ']' = [] :: next :: runs := by
          rw [← hz]
          have hclear : (']' : Char) ∉ ([] : Str) := by simp
          exact List.splitOn_append_cons_self_of_not_mem hclear z
        rw [hsplit, joined]
        cases ho : opening r with
        | none =>
          rw [← hz]
          apply stay z rfl (by simp [ho])
          rw [sub, opening_none ho, subst_plains]
        | some x =>
          obtain ⟨i, m⟩ := x
          obtain ⟨kind, v, hv, rfl, hcut, hscan⟩ := opening_some hr ho
          have hsub : sub placeholderRe (unwrap ok) (r ++ "]]".toList) =
              r.take i ++ unwrap ok (citationMatch kind v) := by
            rw [sub, hscan, List.flatMap_append, subst_plains]
            simp [Token.subst]
          cases hkeep : ok (citationMatch kind v) with
          | true =>
            rw [← hz]
            simp only [hkeep, Bool.not_true, Bool.false_eq_true, if_false]
            apply stay z rfl
            · intro j m hj
              rw [ho, Option.some.injEq, Prod.mk.injEq] at hj
              rw [← hj.2]
              exact hkeep
            · rw [hsub, hcut, unwrap, if_pos hkeep]
              rfl
          | false =>
            have hplain := plainText_run (kindOf (citationMatch kind v)) hv
            rw [← valueOf_citation kind v] at hplain
            have htake : ']' ∉ r.take i := fun h => hr (List.mem_of_mem_take h)
            have hz' := ih z.length (by simp at hn; omega) z
              (acc ++ (r.take i ++ plainText (kindOf (citationMatch kind v)) (valueOf (citationMatch kind v))))
              (by simp only [List.mem_append, not_or]; exact ⟨hacc, htake, hplain⟩) rfl
            have hjoin : r ++ ']' :: ']' :: z = r ++ "]]".toList ++ z := by simp
            simp only [hkeep, Bool.not_false, if_true]
            rw [← hz, ← hz', hjoin, sub_append (scan_closed r z), hsub, unwrap, hkeep]
            simp only [Bool.false_eq_true, if_false, List.append_assoc]
      · -- one bracket: what comes after it is read for itself
        have hy' := ih y.length (by simp at hn; omega) y [] (by simp) rfl
        have hjoin : r ++ ']' :: y = r ++ [']'] ++ y := by simp
        have hsub : sub placeholderRe (unwrap ok) (r ++ ']' :: y) =
            r ++ [']'] ++ sub placeholderRe (unwrap ok) y := by
          rw [hjoin, sub, scan_single hr hy, List.flatMap_append, subst_plains]
          rfl
        have hcites : cites (acc ++ (r ++ [']'] ++ sub placeholderRe (unwrap ok) y)) =
            cites (sub placeholderRe (unwrap ok) y) := by
          have hrun : ']' ∉ acc ++ r := by simp [hacc, hr]
          rw [← List.append_assoc, ← List.append_assoc, cites, hits, scan_single hrun (unwrap_head hok hy),
            List.filterMap_append, hit_plains]
          rfl
        have hnext : joined (fun m => !ok m) acc (r :: y.splitOn ']') = joined (fun m => !ok m) [] (y.splitOn ']') := by
          cases y with
          | nil => rfl
          | cons c w =>
            have hc : c ≠ ']' := by simpa using hy
            obtain ⟨next, runs, hw⟩ := List.exists_cons_of_ne_nil (List.splitOn_ne_nil ']' w)
            have hsplit : (c :: w).splitOn ']' = (c :: next) :: runs := by
              rw [List.splitOn_cons_eq_if_modifyHead, hw]
              simp [hc]
            rw [hsplit, joined]
            simp
        rw [hsub, hcites, hnext, ← hy', List.nil_append]
    · rw [List.splitOn_eq_singleton hs, sub, scan_open hs, subst_plains, cites_of_not_mem (.inr rfl) (by simp [hacc, hs])]
      simp [joined]

end

/-! ## The gate run twice -/

section
variable (ledger : Ledger) (mode : DocPathMatch) (markdown : Str)

/-- The page with the citations the gate reports unwrapped. -/
def cleaned : Str := stripInvalidCitations markdown (validateCitations markdown ledger mode)

theorem strip_unwraps : cleaned ledger mode markdown =
    sub placeholderRe (unwrap (Stands ledger mode)) markdown := by
  unfold cleaned stripInvalidCitations
  split
  · rename_i hnil
    have hall := validateCitations_nil.1 hnil
    conv => lhs; rw [← scan_text placeholderRe [] markdown]
    unfold sub
    apply List.flatMap_congr
    intro t ht
    cases t with
    | plain c => rfl
    | hit m =>
      have hm : m ∈ cites markdown := List.mem_filterMap.2 ⟨_, ht, rfl⟩
      simp [Token.text, Token.subst, unwrap, hall m hm]
  · unfold sub
    apply List.flatMap_congr
    intro t ht
    cases t with
    | plain c => rfl
    | hit m =>
      have hm : m ∈ cites markdown := List.mem_filterMap.2 ⟨_, ht, rfl⟩
      rw [cites, ← finditer_map, List.mem_map] at hm
      obtain ⟨j, hj, rfl⟩ := hm
      have hkey : (kindOf j.2, valueOf j.2) ∈
          (validateCitations markdown ledger mode).map (fun c => (c.kind, c.value)) ↔ Stands ledger mode j.2 = false := by
        rw [List.mem_map]
        constructor
        · intro h
          obtain ⟨c, hc, he⟩ := h
          obtain ⟨j', -, hbad, rfl⟩ := mem_validateCitations.1 hc
          simp only [Prod.mk.injEq] at he
          simpa [Stands, ← he.1, ← he.2] using hbad
        · intro hbad
          exact ⟨_, mem_validateCitations.2 ⟨j, hj, hbad, rfl⟩, rfl⟩
      simp only [Token.subst, hkey, unwrap]
      cases Stands ledger mode j.2 <;> rfl

/-- No text that unwrapping joins opens a citation the ledger does not hold. -/
def JoinsStand : Prop :=
  ∀ t ∈ joined (fun m => !Stands ledger mode m) [] (markdown.splitOn ']'), ∀ i m, opening t = some (i, m) →
    valueOf m = [] ∨ verified ledger mode (kindOf m) (valueOf m)

/-- **When the gate is closed.** The cleaned page passes the gate, so that each
placeholder left in it names verified evidence, if and only if no text joined
by unwrapping opens a citation that the ledger does not hold. -/
theorem cleaned_page_passes_iff :
    (validateCitations (cleaned ledger mode markdown) ledger mode = [] ∧
      ∀ x ∈ finditer placeholderRe (cleaned ledger mode markdown), valueOf x.2 ≠ [] →
        verified ledger mode (kindOf x.2) (valueOf x.2)) ↔
      JoinsStand ledger mode markdown := by
  have hvalue : ∀ m, Stands ledger mode m = false → valueOf m ≠ [] := by
    intro m hm
    simp only [Stands, decide_eq_false_iff_not, not_or] at hm
    exact hm.1
  have hstands := unwrap_stands hvalue markdown [] (by simp)
  rw [List.nil_append, ← strip_unwraps] at hstands
  rw [validateCitations_nil]
  have hgoal : JoinsStand ledger mode markdown ↔
      ∀ m ∈ cites (cleaned ledger mode markdown), Stands ledger mode m = true := by
    rw [hstands]
    simp [JoinsStand, Stands]
  rw [hgoal]
  constructor
  · exact And.left
  · intro hall
    refine ⟨hall, ?_⟩
    intro x hx hne
    have := hall x.2 (by rw [cites, ← finditer_map]; exact List.mem_map_of_mem hx)
    simpa [Stands, hne] using this

end

/-- A citation within the value of a rejected one comes out whole. -/
def nestedPage : Str := "[[doc:[[node:a]]]]".toList

theorem nested_citation_survives : ¬ ∀ (markdown : Str) (ledger : Ledger),
    validateCitations (cleaned ledger .pre markdown) ledger .pre = [] := by
  intro h
  exact absurd (h nestedPage .empty) (by decide)

end Cograph.Wiki
