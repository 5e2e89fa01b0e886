import Cograph.GitUrl
import Cograph.Joins
import Cograph.Occurrences

/-!
# Which repositories can be addressed

The slug of a repository that is created from a URL is read back as its three
parts just where the name that is given has no slash in it, and the name that is
stored does not end in white space.
-/

namespace Cograph.GitUrl

open Regex Idempotency

/-! ## White space at an end -/

theorem rstrip_eq_iff {s : Str} : Str.rstrip s = s ↔ ∀ c, s.getLast? = some c → Str.isSpace c = false := by
  constructor
  · intro h c hc
    rw [← h] at hc
    exact Str.rstrip_last hc
  · intro h
    obtain ⟨w, hw, hspace⟩ := Str.rstrip_append s
    have hnil : w = [] := by
      by_contra hne
      have hlast : s.getLast? = some (w.getLast hne) := by
        rw [hw, List.getLast?_append_of_ne_nil _ hne, List.getLast?_eq_some_getLast hne]
      have hfalse := h _ hlast
      rw [hspace _ (List.getLast_mem hne)] at hfalse
      cases hfalse
    rw [hnil, List.append_nil] at hw
    exact hw.symm

theorem rstrip_append_iff {u v : Str} (hv : v ≠ []) : Str.rstrip (u ++ v) = u ++ v ↔ Str.rstrip v = v := by
  rw [rstrip_eq_iff, rstrip_eq_iff, List.getLast?_append_of_ne_nil _ hv]

theorem strip_word {w : Str} (hw : ∀ c ∈ w, Str.isSpace c = false) (hne : w ≠ []) (t : Str) :
    Str.strip (w ++ t) = w ++ Str.rstrip t := by
  have hright : ∀ v : Str, (∀ c ∈ v, Str.isSpace c = false) → Str.rstrip (v ++ t) = v ++ Str.rstrip t := by
    intro v hv
    induction v with
    | nil => rfl
    | cons c v ih =>
      rw [List.cons_append, Str.rstrip_graphic (hv c (by simp)), ih fun d hd => hv d (List.mem_cons_of_mem _ hd),
        List.cons_append]
  obtain ⟨c, w, rfl⟩ := List.exists_cons_of_ne_nil hne
  have hleft : Str.lstrip (c :: w ++ t) = c :: w ++ t := by
    refine Str.lstrip_of_head fun d hd => ?_
    rw [List.cons_append, List.head?_cons, Option.some.injEq] at hd
    rw [← hd]
    exact hw c (by simp)
  rw [Str.strip, hleft, hright _ hw]

/-! ## Segments of a path -/

theorem segments_slash (u v : Str) : pathSegments (u ++ '/' :: v) = pathSegments u ++ pathSegments v := by
  unfold pathSegments
  rw [List.splitOn_append_cons_self, List.filter_append]

theorem segments_word {s : Str} (h : '/' ∉ s) (hne : s ≠ []) : pathSegments s = [s] := by
  unfold pathSegments
  rw [List.splitOn_eq_singleton h]
  simp [hne]

theorem segments_nil : pathSegments [] = [] := rfl

theorem segments_plain {s part : Str} (h : part ∈ pathSegments s) : part ≠ [] ∧ '/' ∉ part := by
  unfold pathSegments at h
  obtain ⟨hin, hne⟩ := List.mem_filter.1 h
  rw [List.splitOn_eq_splitOnP] at hin
  refine ⟨by simpa using hne, fun hslash => ?_⟩
  simpa using Occurs.splitOnP_mem part hin '/' hslash

theorem segments_eq_self {s t : Str} : pathSegments s = [t] → '/' ∉ s → s = t := by
  intro h hslash
  by_cases hne : s = []
  · rw [hne, segments_nil] at h
    cases h
  · rw [segments_word hslash hne] at h
    exact List.singleton_inj.1 h

/-- A text without the slashes at its end. -/
def trimSlashes (s : Str) : Str := (s.reverse.dropWhile (· = '/')).reverse

theorem segments_trimSlashes (s : Str) : pathSegments (trimSlashes s) = pathSegments s := by
  induction s using List.reverseRecOn with
  | nil => rfl
  | append_singleton s c ih =>
    unfold trimSlashes at ih ⊢
    rw [List.reverse_append, List.reverse_singleton, List.singleton_append, List.dropWhile_cons]
    by_cases hc : c = '/'
    · rw [if_pos (by simpa using hc), ih, hc, segments_slash, segments_nil, List.append_nil]
    · rw [if_neg (by simpa using hc), List.reverse_cons, List.reverse_reverse]

theorem trimSlashes_last {s : Str} {c : Char} (h : (trimSlashes s).getLast? = some c) : c ≠ '/' := by
  unfold trimSlashes at h
  rw [List.getLast?_reverse] at h
  intro hc
  have hhead := List.head?_dropWhile_not (fun d : Char => decide (d = '/')) s.reverse
  rw [h] at hhead
  simp [hc] at hhead

/-- A text cut behind the last of a character. -/
theorem last_break (d : Char) (x : Str) : ∃ u v, x = u ++ v ∧ d ∉ v ∧ (u = [] ∨ ∃ w, u = w ++ [d]) := by
  induction x using List.reverseRecOn with
  | nil => exact ⟨[], [], rfl, by simp, .inl rfl⟩
  | append_singleton x c ih =>
    by_cases hc : c = d
    · subst hc
      exact ⟨x ++ [c], [], by simp, by simp, .inr ⟨x, rfl⟩⟩
    · obtain ⟨u, v, rfl, hv, hu⟩ := ih
      refine ⟨u, v ++ [c], by simp, ?_, hu⟩
      rw [List.mem_append, List.mem_singleton, not_or]
      exact ⟨hv, fun he => hc he.symm⟩

/-- The last segment is what a text ends with, but for slashes. -/
theorem segments_last {s name : Str} {init : List Str} (h : pathSegments s = init ++ [name]) :
    ∃ u, trimSlashes s = u ++ name := by
  rw [← segments_trimSlashes] at h
  have hlast := fun c hc => trimSlashes_last (s := s) (c := c) hc
  generalize trimSlashes s = x at h hlast
  obtain ⟨u, v, rfl, hv, hu⟩ := last_break '/' x
  by_cases hne : v = []
  · subst hne
    rcases hu with rfl | ⟨w, rfl⟩
    · simp [segments_nil] at h
    · exact absurd rfl (hlast '/' (by simp))
  · refine ⟨u, ?_⟩
    have hseg : ∃ front, pathSegments (u ++ v) = front ++ [v] := by
      rcases hu with rfl | ⟨w, rfl⟩
      · exact ⟨[], by rw [List.nil_append, segments_word hv hne, List.nil_append]⟩
      · exact ⟨pathSegments w, by rw [List.append_assoc, List.singleton_append, segments_slash, segments_word hv hne]⟩
    obtain ⟨front, hfront⟩ := hseg
    rw [hfront] at h
    rw [(List.append_inj' h rfl).2 |> List.singleton_inj.1]

/-! ## Reading a slug -/

/-- The parts of a slug that have no slash, and of which the last has no white
space at its end, are read back. -/
theorem slugParts_iff {g : Slug} (hhost : g.host ≠ []) (howner : g.owner ≠ []) (hname : g.name ≠ [])
    (hfree : '/' ∉ g.host) (hspace : ∀ c ∈ g.host, Str.isSpace c = false) (hslash : '/' ∉ g.owner) :
    slugParts (slugText g) = some g ↔ '/' ∉ g.name ∧ Str.rstrip g.name = g.name := by
  have hstrip : Str.strip (slugText g) = g.host ++ '/' :: (g.owner ++ '/' :: Str.rstrip g.name) := by
    have hend : Str.rstrip (('/' :: g.owner) ++ '/' :: g.name) = ('/' :: g.owner) ++ '/' :: Str.rstrip g.name := by
      rw [Str.rstrip_over (by rw [Str.rstrip_graphic (by decide)]; simp), Str.rstrip_graphic (by decide)]
    rw [slugText, List.append_assoc, strip_word hspace hhost, hend, List.cons_append]
  have hparts : pathSegments (Str.strip (slugText g)) = g.host :: g.owner :: pathSegments (Str.rstrip g.name) := by
    rw [hstrip, segments_slash, segments_slash, segments_word hfree hhost, segments_word hslash howner]
    rfl
  unfold slugParts
  rw [hparts]
  constructor
  · intro h
    have hone : pathSegments (Str.rstrip g.name) = [g.name] := by
      generalize pathSegments (Str.rstrip g.name) = rest at h
      rcases rest with _ | ⟨name, _ | ⟨more, rest⟩⟩
      · cases h
      · exact congrArg (fun g => [g.name]) (Option.some.inj h)
      · cases h
    have hfree : '/' ∉ g.name := (segments_plain (by rw [hone]; exact List.mem_singleton_self _)).2
    obtain ⟨w, hw, -⟩ := Str.rstrip_append g.name
    exact ⟨hfree, segments_eq_self hone fun hin => hfree (by rw [hw]; exact List.mem_append_left _ hin)⟩
  · intro h
    rw [h.2, segments_word h.1 hname]

/-! ## The parser -/

/-- The path of a repository, without slashes and `.git` at its end. -/
def repoPath (path : Str) : Str :=
  let stem := trimSlashes path
  trimSlashes (if endsWith stem ".git" then stem.take (stem.length - 4) else stem)

section
variable {parse : Str → Option Str × Str} {url : Str} {slug : Slug}

/-- What is read of a URL that is no SCP-like one. -/
theorem parse_spec (hgit : startsWith url "git@" = false) (h : parseHostOwnerAndName parse url = some slug) :
    (parse url).1 = some slug.host ∧ slug.host ≠ [] ∧ (slug.owner ≠ [] ∧ '/' ∉ slug.owner) ∧
      (slug.name ≠ [] ∧ '/' ∉ slug.name) ∧ ∃ u, repoPath (parse url).2 = u ++ slug.name := by
  unfold parseHostOwnerAndName at h
  rw [hgit, if_neg Bool.false_ne_true] at h
  dsimp only at h
  split at h
  · cases h
  · next name owner rest hparts hhost =>
    cases h
    have hsegs : pathSegments (if endsWith (trimSlashes (parse url).2) ".git" then
        (trimSlashes (parse url).2).take ((trimSlashes (parse url).2).length - 4)
        else trimSlashes (parse url).2) = rest.reverse ++ [owner] ++ [name] := by
      rw [← List.reverse_reverse (pathSegments _)]
      exact (congrArg List.reverse hparts).trans (by simp)
    have hhostEq : (parse url).1 = some ((parse url).1.getD []) := by
      cases hp : (parse url).1 with
      | none => exact absurd (by rw [hp]; rfl) hhost
      | some x => rfl
    have howner : owner ≠ [] ∧ '/' ∉ owner := segments_plain (by rw [hsegs]; simp)
    have hname : name ≠ [] ∧ '/' ∉ name := segments_plain (by rw [hsegs]; simp)
    exact ⟨hhostEq, hhost, howner, hname, segments_last hsegs⟩
  · cases h

end

/-! ## The host -/

/-- A lower case, which has something for every text and brings in no slash and
no white space. -/
structure Lowers (lower : Str → Str) : Prop where
  plain : ∀ s, ∀ c ∈ lower s, c = '/' ∨ Str.isSpace c = true → c ∈ s

theorem mem_of_mem_dropWhile {p : Char → Bool} {c : Char} {s : Str} (h : c ∈ s.dropWhile p) : c ∈ s :=
  (List.dropWhile_sublist p).subset h

theorem mem_of_mem_takeWhile {p : Char → Bool} {c : Char} {s : Str} (h : c ∈ s.takeWhile p) : c ∈ s :=
  (List.takeWhile_sublist p).subset h

theorem mem_afterLast {d c : Char} {s : Str} (h : c ∈ afterLast d s) : c ∈ s := by
  unfold afterLast at h
  exact List.mem_reverse.1 (mem_of_mem_takeWhile (List.mem_reverse.1 h))

theorem mem_hostOf {c : Char} {netloc : Str} (h : c ∈ hostOf netloc) : c ∈ netloc := by
  unfold hostOf at h
  dsimp only at h
  split at h
  · exact mem_afterLast (mem_of_mem_dropWhile (List.mem_of_mem_drop (mem_of_mem_takeWhile h)))
  · exact mem_afterLast (mem_of_mem_takeWhile h)

/-- A host name has no slash and no white space that the location has not. -/
theorem hostname_plain {lower : Str → Str} (hlower : Lowers lower) {netloc host : Str}
    (h : hostname lower netloc = some host) {c : Char} (hc : c ∈ host) (hkind : c = '/' ∨ Str.isSpace c = true) :
    c ∈ netloc := by
  unfold hostname at h
  dsimp only at h
  split at h
  · cases h
  · cases h
    rcases List.mem_append.1 hc with hin | hin
    · exact mem_hostOf (mem_of_mem_takeWhile (hlower.plain _ c hin hkind))
    · exact mem_hostOf (mem_of_mem_dropWhile hin)

/-! ## The URL pattern -/

theorem fold_small {c : Char} (h : c.toNat < 64) : Str.fold c = c := by
  have hne : ∀ d : Char, 64 ≤ d.toNat → c ≠ d := fun d hd he => by
    rw [he] at h
    omega
  unfold Str.fold
  rw [if_neg (by simp [hne '\u0130' (by decide), hne '\u0131' (by decide)]), if_neg (hne '\u017f' (by decide)),
    if_neg (hne '\u212a' (by decide)), Char.toLower, dif_neg]
  intro hupper
  have h65 : (65 : UInt32) ≤ c.val := hupper.1
  have hnat : 65 ≤ c.toNat := h65
  omega

theorem mem_ignoringCase {w : Str} {p q : Point} (h : q ∈ (ignoringCase w).ends p) :
    ∃ v, Reaches p v q ∧ v.map Str.fold = w := by
  induction w generalizing p with
  | nil => exact ⟨[], by simpa [ignoringCase] using h, rfl⟩
  | cons c w ih =>
    simp only [ignoringCase, Pattern.mem_seq, Pattern.mem_sat, decide_eq_true_eq] at h
    obtain ⟨m, ⟨d, hd, hfold⟩, hq⟩ := h
    obtain ⟨v, hv, hmap⟩ := ih hq
    exact ⟨d :: v, hd.trans hv, by rw [List.map_cons, hfold, hmap]⟩

/-- What the pattern of an HTTPS URL is found in. -/
theorem https_spec {v : Str} (h : (httpsGitUrlRe.matchAt [] v).isSome) :
    ∃ word part rest, v = word ++ "://".toList ++ part ++ '/' :: rest ∧ word.map Str.fold = "https".toList ∧
      ∀ c ∈ part, c ≠ '/' ∧ Str.isSpace c = false := by
  obtain ⟨m, hm⟩ := Option.isSome_iff_exists.1 h
  obtain ⟨q, hq, -⟩ := Pattern.matchAt_some hm
  simp only [httpsGitUrlRe, segmentRe, Pattern.mem_seq, Pattern.mem_lit, Pattern.mem_plus, decide_eq_true_eq] at hq
  obtain ⟨m₁, h₁, m₂, h₂, m₃, ⟨part, _, h₃, hpart⟩, m₄, h₄, _⟩ := hq
  obtain ⟨word, hword, hfold⟩ := mem_ignoringCase h₁
  refine ⟨word, part, m₄.after, ?_, hfold, fun c hc => ⟨(hpart c hc).1, by simpa using (hpart c hc).2⟩⟩
  have hread := (hword.1.trans h₂.1).trans (h₃.1.trans h₄.1)
  have hafter := hread.1
  simpa using hafter

/-- The letters of a word under `IGNORECASE` are no delimiters. -/
theorem word_letters {word w : Str} (h : word.map Str.fold = w) (hw : w.all (64 ≤ ·.toNat) = true) :
    ∀ c ∈ word, 64 ≤ c.toNat := by
  intro c hc
  by_contra hlt
  have hin : Str.fold c ∈ w := by
    rw [← h]
    exact List.mem_map_of_mem hc
  rw [fold_small (Nat.not_le.1 hlt)] at hin
  exact hlt (by simpa using List.all_eq_true.1 hw c hin)

theorem safe_of_graphic {c : Char} (h : Str.isSpace c = false) : unsafeByte c = false := by
  rw [Bool.eq_false_iff]
  intro hun
  simp only [unsafeByte, decide_eq_true_eq] at hun
  rcases hun with rfl | rfl | rfl <;> exact absurd h (by decide)

theorem takeWhile_stop {p : Char → Bool} {x t : Str} {d : Char} (hd : p d = false) {c : Char}
    (h : c ∈ (x ++ d :: t).takeWhile p) : c ∈ x := by
  induction x with
  | nil => simp [hd] at h
  | cons y x ih =>
    rw [List.cons_append, List.takeWhile_cons] at h
    split at h
    · rcases List.mem_cons.1 h with rfl | h
      · exact List.mem_cons_self
      · exact List.mem_cons_of_mem _ (ih h)
    · cases h

section
variable {validNetloc : Str → Bool} {v word part rest : Str} {p : ParseResult}

/-- Nothing is removed from the front of a URL. -/
theorem cleaned_url (hv : v = word ++ "://".toList ++ part ++ '/' :: rest) (hword : ∀ c ∈ word, 64 ≤ c.toNat)
    (hne : word ≠ []) (hpart : ∀ c ∈ part, c ≠ '/' ∧ Str.isSpace c = false) :
    ((v.dropWhile controlOrSpace).filter fun c => ¬unsafeByte c) =
      word ++ "://".toList ++ part ++ '/' :: rest.filter fun c => ¬unsafeByte c := by
  have hdrop : v.dropWhile controlOrSpace = v := by
    obtain ⟨c, w, rfl⟩ := List.exists_cons_of_ne_nil hne
    have hc : controlOrSpace c = false := by
      have := hword c (by simp)
      simp only [controlOrSpace, decide_eq_false_iff_not]
      omega
    rw [hv]
    simp only [List.cons_append, List.dropWhile_cons, hc]
    rfl
  have hkeep : ∀ x : Str, (∀ c ∈ x, unsafeByte c = false) → (x.filter fun c => ¬unsafeByte c) = x :=
    fun x hx => List.filter_eq_self.2 fun c hc => by simp [hx c hc]
  have hletter : ∀ c ∈ word, unsafeByte c = false := by
    intro c hc
    rw [Bool.eq_false_iff]
    intro hun
    have hlow := hword c hc
    simp only [unsafeByte, decide_eq_true_eq] at hun
    rcases hun with rfl | rfl | rfl <;> exact absurd hlow (by decide)
  have hmark : ("://".toList.filter fun c => ¬unsafeByte c) = "://".toList := by decide
  rw [hdrop, hv, List.filter_append, List.filter_append, List.filter_append, hkeep word hletter, hmark,
    hkeep part fun c hc => safe_of_graphic (hpart c hc).2]
  rfl

theorem splitScheme_word (hword : ∀ c ∈ word, 64 ≤ c.toNat) (t : Str) :
    splitScheme (word ++ ':' :: t) = (word.map Char.toLower, t) ∨ splitScheme (word ++ ':' :: t) = ([], word ++ ':' :: t) := by
  have hcolon : ∀ c ∈ word, decide (c ≠ ':') = true := by
    intro c hc
    have hlow := hword c hc
    rw [decide_eq_true_eq]
    rintro rfl
    exact absurd hlow (by decide)
  have htake : (word ++ ':' :: t).takeWhile (· ≠ ':') = word := by
    rw [List.takeWhile_append_of_pos hcolon]
    simp
  have hdrop : (word ++ ':' :: t).dropWhile (· ≠ ':') = ':' :: t := by
    rw [List.dropWhile_append_of_pos hcolon]
    simp
  unfold splitScheme
  dsimp only
  rw [htake, hdrop]
  split
  · exact .inl rfl
  · exact .inr rfl

/-- The network location of an HTTPS URL is in its first segment. -/
theorem netloc_part (hv : v = word ++ "://".toList ++ part ++ '/' :: rest) (hword : ∀ c ∈ word, 64 ≤ c.toNat)
    (hne : word ≠ []) (hpart : ∀ c ∈ part, c ≠ '/' ∧ Str.isSpace c = false)
    (h : urlparse validNetloc v = some p) (hscheme : p.scheme ≠ []) : ∀ c ∈ p.netloc, c ∈ part := by
  have hclean := cleaned_url hv hword hne hpart
  have hurl : ((v.dropWhile controlOrSpace).filter fun c => ¬unsafeByte c) =
      word ++ ':' :: ('/' :: '/' :: (part ++ '/' :: rest.filter fun c => ¬unsafeByte c)) := by
    rw [hclean]
    simp
  unfold urlparse at h
  dsimp only at h
  rw [hurl] at h
  rcases splitScheme_word hword ('/' :: '/' :: (part ++ '/' :: rest.filter fun c => ¬unsafeByte c)) with hs | hs
  · rw [hs] at h
    dsimp only at h
    have hnetloc : (splitNetloc ('/' :: '/' :: (part ++ '/' :: rest.filter fun c => ¬unsafeByte c))).1 =
        (part ++ '/' :: rest.filter fun c => ¬unsafeByte c).takeWhile fun c => ¬netlocEnd c := by
      have hslashes : startsWith ('/' :: '/' :: (part ++ '/' :: rest.filter fun c => ¬unsafeByte c)) "//" = true :=
        List.isPrefixOf_iff_prefix.2 ⟨_, rfl⟩
      rw [splitNetloc, if_pos hslashes]
      rfl
    split at h
    · cases h
    · cases h
      intro c hc
      rw [hnetloc] at hc
      exact takeWhile_stop (by decide) hc
  · rw [hs] at h
    dsimp only at h
    split at h
    · cases h
    · cases h
      exact absurd rfl hscheme

end

/-! ## Slugs of created repositories -/

section
variable {validNetloc : Str → Bool} {digit : Char → Bool} {lower : Str → Str}

/-- A URL that is neither of the SSH ones has no slash and no white space in the
location of its host. -/
theorem netloc_plain {v : Str} (h : validateGitUrl validNetloc digit v = .ok v) (hgit : startsWith v "git@" = false)
    (hssh : startsWith v "ssh://" = false) :
    ∃ p, urlparse validNetloc v = some p ∧ ∀ c ∈ p.netloc, c ≠ '/' ∧ Str.isSpace c = false := by
  unfold validateGitUrl at h
  rw [hgit, hssh, if_neg Bool.false_ne_true, if_neg Bool.false_ne_true] at h
  cases hp : urlparse validNetloc v with
  | none =>
    rw [hp] at h
    cases h
  | some p =>
    rw [hp] at h
    dsimp only at h
    split at h
    · cases h
    · next hscheme =>
      rw [not_or, ne_eq, not_not] at hscheme
      split at h
      · next hmatch =>
        obtain ⟨word, part, rest, hv, hfold, hpart⟩ := https_spec hmatch
        have hletters := word_letters hfold (by decide)
        have hword : word ≠ [] := by
          rintro rfl
          cases hfold
        refine ⟨p, rfl, fun c hc => hpart c ?_⟩
        exact netloc_part hv hletters hword hpart hp (by rw [hscheme.1]; decide) c hc
      · cases h

/-- The name that a request gives, or the end of the URL's path, can be read
back. -/
def Addressable (validNetloc : Str → Bool) (payload : CreateRepositoryRequest) : Prop :=
  match payload.name.filter (· ≠ []) with
  | some name => '/' ∉ name ∧ Str.rstrip name = name
  | none =>
    let path := repoPath (((urlparse validNetloc payload.gitUrl).map (·.path)).getD [])
    Str.rstrip path = path

/-- A stored slug has three parts, and is found by its text. -/
structure RoundTrips (row : Repository) : Prop where
  host : row.slug.host ≠ []
  owner : row.slug.owner ≠ []
  name : row.slug.name ≠ []
  parts : slugParts (slugText row.slug) = some row.slug
  found : ∀ repositories : List Repository, row ∈ repositories → (repositories.map (·.slug)).Nodup →
    resolveRepositoryBySlug repositories (slugText row.slug) = some row

theorem resolve_found {row : Repository} (h : slugParts (slugText row.slug) = some row.slug)
    {repositories : List Repository} (hin : row ∈ repositories) (hnodup : (repositories.map (·.slug)).Nodup) :
    resolveRepositoryBySlug repositories (slugText row.slug) = some row := by
  unfold resolveRepositoryBySlug
  rw [h, Option.bind_some]
  induction repositories with
  | nil => cases hin
  | cons r rs ih =>
    rw [List.map_cons, List.nodup_cons] at hnodup
    rw [List.find?_cons]
    by_cases hr : r.slug = row.slug
    · rcases List.mem_cons.1 hin with rfl | hin
      · simp
      · exact absurd (hr ▸ List.mem_map_of_mem hin) hnodup.1
    · rcases List.mem_cons.1 hin with rfl | hin
      · exact absurd rfl hr
      · simpa [hr] using ih hin hnodup.2

theorem roundTrips_iff {row : Repository} {slug : Slug} {name : Str} (hslug : row.slug = { slug with name })
    (hhost : slug.host ≠ []) (hfree : ∀ c ∈ slug.host, c ≠ '/' ∧ Str.isSpace c = false)
    (howner : slug.owner ≠ [] ∧ '/' ∉ slug.owner) (hname : name ≠ []) :
    RoundTrips row ↔ '/' ∉ name ∧ Str.rstrip name = name := by
  have hparts : slugParts (slugText { slug with name }) = some { slug with name } ↔
      '/' ∉ name ∧ Str.rstrip name = name :=
    slugParts_iff hhost howner.1 hname (fun hin => (hfree _ hin).1 rfl) (fun c hc => (hfree c hc).2) howner.2
  rw [← hparts, ← hslug]
  constructor
  · exact RoundTrips.parts
  · intro h
    refine ⟨?_, ?_, ?_, h, fun repositories hin hnodup => resolve_found h hin hnodup⟩
    · rw [hslug]
      exact hhost
    · rw [hslug]
      exact howner.1
    · rw [hslug]
      exact hname

/-- A URL is no SSH one where `create_repository` takes it. -/
theorem no_ssh {url : Str} (h : looksLikeSshUrl url = false) :
    startsWith url "git@" = false ∧ startsWith url "ssh://" = false := by
  have hstrip : ∀ p : String, p.toList.all (fun c => !Str.isSpace c) = true → p.toList ≠ [] →
      startsWith url p = true → startsWith (Str.strip url) p = true := by
    intro p hp hne hstart
    obtain ⟨t, rfl⟩ := List.isPrefixOf_iff_prefix.1 hstart
    refine List.isPrefixOf_iff_prefix.2 ?_
    rw [strip_word (fun c hc => by simpa using List.all_eq_true.1 hp c hc) hne]
    exact List.prefix_append _ _
  unfold looksLikeSshUrl at h
  rw [Bool.or_eq_false_iff] at h
  constructor
  · rw [Bool.eq_false_iff]
    intro hgit
    exact absurd (hstrip "git@" (by decide) (by decide) hgit) (by rw [h.2]; exact Bool.false_ne_true)
  · rw [Bool.eq_false_iff]
    intro hssh
    exact absurd (hstrip "ssh://" (by decide) (by decide) hssh) (by rw [h.1]; exact Bool.false_ne_true)

/-- What is stored of a request is the slug of its URL, with the name it gives. -/
theorem row_spec {db : Idempotency.Db} {payload : CreateRepositoryRequest} {remoteHead : Str} {uuid : Nat} {row : Repository}
    {parse : Str → Option Str × Str} (h : createRow parse db payload remoteHead uuid = .ok row) :
    looksLikeSshUrl payload.gitUrl = false ∧ ∃ slug, parseHostOwnerAndName parse payload.gitUrl = some slug ∧
      row.slug = { slug with name := (payload.name.filter (· ≠ [])).getD slug.name } := by
  unfold createRow at h
  split at h
  · cases h
  · next hssh =>
    split at h
    · cases h
    · next slug hslug =>
      cases hhost : resolveHost parse db payload slug.host with
      | error answer =>
        rw [hhost] at h
        cases h
      | ok hostId =>
        rw [hhost] at h
        cases h
        exact ⟨Bool.not_eq_true _ ▸ hssh, slug, hslug, rfl⟩

end

/-- A repository that is created can be addressed by its slug just where the
name that the request gives has no slash, and the name that is stored does not
end in white space. -/
theorem slug_round_trips_iff (validNetloc : Str → Bool) (digit : Char → Bool) (lower : Str → Str)
    (hlower : Lowers lower) (db : Idempotency.Db) (payload : CreateRepositoryRequest) (remoteHead : Str) (uuid : Nat)
    (row : Repository) (hvalid : validateGitUrl validNetloc digit payload.gitUrl = .ok payload.gitUrl)
    (hrow : createRow (hostAndPath validNetloc lower) db payload remoteHead uuid = .ok row) :
    RoundTrips row ↔ Addressable validNetloc payload := by
  obtain ⟨hssh, slug, hparse, hslug⟩ := row_spec hrow
  obtain ⟨hgit, hssh⟩ := no_ssh hssh
  obtain ⟨p, hp, hplain⟩ := netloc_plain hvalid hgit hssh
  obtain ⟨hhost, hhostne, howner, hname, u, hu⟩ := parse_spec hgit hparse
  have hhostname : hostname lower p.netloc = some slug.host := by
    rw [← hhost, hostAndPath, hp]
    rfl
  have hfree : ∀ c ∈ slug.host, c ≠ '/' ∧ Str.isSpace c = false := by
    intro c hc
    refine ⟨fun he => (hplain c (hostname_plain hlower hhostname hc (.inl he))).1 he, ?_⟩
    rw [Bool.eq_false_iff]
    intro hspace
    have hin := hostname_plain hlower hhostname hc (.inr hspace)
    rw [(hplain c hin).2] at hspace
    cases hspace
  unfold Addressable
  cases hgiven : payload.name.filter (· ≠ []) with
  | some name =>
    have hne : name ≠ [] := by simpa using (Option.filter_eq_some_iff.1 hgiven).2
    rw [hgiven, Option.getD_some] at hslug
    exact roundTrips_iff hslug hhostne hfree howner hne
  | none =>
    have hpath : repoPath (((urlparse validNetloc payload.gitUrl).map (·.path)).getD []) = u ++ slug.name := hu
    rw [hgiven, Option.getD_none] at hslug
    dsimp only
    rw [roundTrips_iff hslug hhostne hfree howner hname.1, hpath, rstrip_append_iff hname.1]
    exact and_iff_right hname.2

theorem toLower_plain {c : Char} (h : c.toLower = '/' ∨ Str.isSpace c.toLower = true) : c.toLower = c := by
  unfold Char.toLower at h ⊢
  split
  · next hupper =>
    rw [dif_pos hupper] at h
    exfalso
    have h65 : 65 ≤ c.val.toNat := hupper.1
    have h90 : c.val.toNat ≤ 90 := hupper.2
    have hval : (c.val + ('a'.val - 'A'.val)).toNat = c.val.toNat + 32 := by
      rw [UInt32.toNat_add]
      show (c.val.toNat + 32) % 2 ^ 32 = _
      omega
    rcases h with h | h
    · have := congrArg (fun d : Char => d.val.toNat) h
      simp only [hval] at this
      have h47 : ('/' : Char).val.toNat = 47 := rfl
      omega
    · simp only [Str.isSpace, Char.toNat, hval, decide_eq_true_eq] at h
      omega
  · rfl

theorem lowers_lower : Lowers Str.lower where
  plain s c hc hkind := by
    obtain ⟨d, hd, hin⟩ := List.mem_flatMap.1 hc
    split at hin
    · simp only [List.mem_cons, List.not_mem_nil, or_false] at hin
      rcases hin with rfl | rfl <;> exact absurd hkind (by decide)
    · split at hin
      · rw [List.mem_singleton.1 hin] at hkind
        exact absurd hkind (by decide)
      · rw [List.mem_singleton.1 hin] at hkind ⊢
        rw [toLower_plain hkind]
        exact hd

/-! ## Requests -/

def exampleUrl : Str := "https://git.corp/team/app.git".toList

def request (name : Option Str) : CreateRepositoryRequest := ⟨exampleUrl, some "main".toList, name, none, none, none⟩

/-- The row of the request. -/
def stored (name : Str) : Repository where
  id := 1
  gitUrl := exampleUrl
  source := .git
  slug := ⟨"git.corp".toList, "team".toList, name⟩
  hostId := none
  branch := "main".toList
  status := .pending
  lastCommit := none
  errorMsg := none
  visibility := .adminOnly
  syncSchedule := .manual

theorem example_valid : validateGitUrl (fun _ => true) Char.isDigit exampleUrl = .ok exampleUrl := by rfl

theorem slug_round_trips_iff_example :
    RoundTrips (stored "app".toList) ↔ Addressable (fun _ => true) (request none) :=
  slug_round_trips_iff (fun _ => true) Char.isDigit Str.lower lowers_lower ⟨[], [], [], []⟩ (request none) [] 1
    (stored "app".toList) example_valid (by rfl)

/-- A name with a slash is stored, and its slug is read as four parts. -/
theorem name_with_slash_lost : validateGitUrl (fun _ => true) Char.isDigit exampleUrl = .ok exampleUrl ∧
    createRow (hostAndPath (fun _ => true) Str.lower) ⟨[], [], [], []⟩ (request (some "platform/app".toList)) [] 1 =
      .ok (stored "platform/app".toList) ∧
    slugParts (slugText (stored "platform/app".toList).slug) = none ∧ ¬RoundTrips (stored "platform/app".toList) := by
  have hnone : slugParts (slugText (stored "platform/app".toList).slug) = none := by decide
  refine ⟨example_valid, by rfl, hnone, fun h => ?_⟩
  have hparts := h.parts
  rw [hnone] at hparts
  cases hparts

end Cograph.GitUrl
