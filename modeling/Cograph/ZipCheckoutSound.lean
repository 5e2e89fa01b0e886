import Cograph.ZipCheckout

/-!
# The paths of an archive and what a failed checkout leaves

`safe_relpath_safe`: the path of a member is safe unless its leading segments
drop out and leave a drive or nothing. `failed_checkout_clean`: a checkout that
fails leaves nothing and says so itself unless the run meets an exception that
no handler of the module is for.
-/

namespace Cograph.ZipCheckout

/-! ## Paths -/

/-- A path under the checkout root, as `_safe_relpath` is to return it. -/
structure SafePath (r : Str) : Prop where
  relative : r.head? ≠ some '/'
  segments : ∀ s ∈ r.splitOn '/', s ≠ [] ∧ s ≠ ['.'] ∧ s ≠ ['.', '.']
  plain : '\\' ∉ r
  noDrive : ':' ∉ r.takeWhile (· ≠ '/')
  again : safeRelpath r none = .ok (some r)
  under : ∀ root : List Str, ['.', '.'] ∉ root → ∃ s ss, resolveParts (joinParts root r) = root ++ s :: ss

/-- The segments of a name that `_safe_relpath` keeps. -/
def keptSegments (rel : Str) : List Str := (segments rel).filter fun part => part ≠ [] ∧ part ≠ ['.']

/-- The name passes every check, but the drive check reads a first segment that
drops out: none is left, or the first one left has a colon. -/
def Misread (rel : Str) : Prop :=
  rel ≠ [] ∧ rel.getLast? ≠ some '/' ∧ rel.head? ≠ some '/' ∧ rel.head? ≠ some '\\' ∧ ':' ∉ rel.takeWhile (· ≠ '/') ∧
    ['.', '.'] ∉ segments rel ∧ (keptSegments rel = [] ∨ ∃ s ss, keptSegments rel = s :: ss ∧ ':' ∈ s)

section
variable {name rel r s : Str} {ss : List Str} {stripPrefix : Option Str} {root : List Str}

theorem mem_splitOn {c : Char} {w : Str} (h : s ∈ w.splitOn c) : c ∉ s ∧ s ⊆ w := by
  induction w generalizing s with
  | nil =>
    rw [List.splitOn_nil, List.mem_singleton] at h
    simp [h]
  | cons d w ih =>
    rw [List.splitOn_cons_eq_if_modifyHead] at h
    split at h
    · rcases List.mem_cons.1 h with rfl | h
      · simp
      · exact ⟨(ih h).1, List.subset_cons_of_subset _ (ih h).2⟩
    · next hd =>
      obtain ⟨t, ts, ht⟩ := List.exists_cons_of_ne_nil (List.splitOn_ne_nil c w)
      rw [ht, List.modifyHead_cons] at h
      rw [ht] at ih
      rcases List.mem_cons.1 h with rfl | h
      · obtain ⟨hc, hsub⟩ := ih List.mem_cons_self
        have hne : c ≠ d := fun he => hd (by simp [he])
        exact ⟨by simp [hc, hne], List.cons_subset_cons _ hsub⟩
      · obtain ⟨hc, hsub⟩ := ih (List.mem_cons_of_mem _ h)
        exact ⟨hc, List.subset_cons_of_subset _ hsub⟩

theorem mem_segments (h : s ∈ segments rel) : '/' ∉ s ∧ '\\' ∉ s := by
  refine ⟨(mem_splitOn h).1, fun hmem => ?_⟩
  obtain ⟨c, -, hc⟩ := List.mem_map.1 ((mem_splitOn h).2 hmem)
  split at hc
  · simp at hc
  · next hne => exact hne hc

theorem intercalate_cons (s : Str) (ss : List Str) :
    ['/'].intercalate (s :: ss) = s ++ (ss.map ('/' :: ·)).flatten := by
  induction ss generalizing s with
  | nil => simp [List.intercalate]
  | cons t ss ih =>
    rw [List.intercalate_cons_cons, ih]
    simp

theorem resolveParts_plain {parts : List Str} (h : ['.', '.'] ∉ parts) : resolveParts parts = parts := by
  induction parts using List.reverseRecOn with
  | nil => rfl
  | append_singleton parts s ih =>
    simp only [List.mem_append, List.mem_singleton, not_or] at h
    rw [resolveParts, List.foldl_append, List.foldl_cons, List.foldl_nil, if_neg (Ne.symm h.2)]
    exact congrArg (· ++ [s]) (ih h.1)

/-- A segment that stays as it is. -/
def GoodSegment (s : Str) : Prop := s ≠ [] ∧ s ≠ ['.'] ∧ s ≠ ['.', '.'] ∧ '/' ∉ s ∧ '\\' ∉ s

/-- What is joined from good segments is safe. -/
theorem safe_of_segments (hall : ∀ t ∈ s :: ss, GoodSegment t) (hs : ':' ∉ s) :
    SafePath (['/'].intercalate (s :: ss)) := by
  obtain ⟨r, hr⟩ : ∃ r, r = ['/'].intercalate (s :: ss) := ⟨_, rfl⟩
  rw [← hr]
  have hsplit : r.splitOn '/' = s :: ss := by
    rw [hr]
    exact List.splitOn_intercalate '/' (fun t ht => (hall t ht).2.2.2.1) (List.cons_ne_nil _ _)
  obtain ⟨hne, -, -, hslash, hback⟩ := hall s (by simp)
  have hplain : '\\' ∉ r := by
    rw [hr, intercalate_cons]
    simp only [List.mem_append, List.mem_flatten, List.mem_map]
    rintro (h | ⟨_, ⟨t, ht, rfl⟩, h⟩)
    · exact hback h
    · rcases List.mem_cons.1 h with h | h
      · cases h
      · exact (hall t (by simp [ht])).2.2.2.2 h
  have hfirst : r.takeWhile (· ≠ '/') = s := by
    have hrest : ((ss.map ('/' :: ·)).flatten).takeWhile (· ≠ '/') = [] := by
      cases ss with
      | nil => rfl
      | cons t ss => simp
    rw [hr, intercalate_cons, List.takeWhile_append_of_pos, hrest, List.append_nil]
    intro d hd
    simpa using ne_of_mem_of_not_mem hd hslash
  have hhead : r.head? = s.head? := by rw [hr, intercalate_cons, List.head?_append_of_ne_nil _ hne]
  have hstart : ∀ c, c ∉ s → r.head? ≠ some c := by
    intro c hc he
    rw [hhead] at he
    exact hc (List.mem_of_head? he)
  have hend : r.getLast? ≠ some '/' := by
    intro he
    obtain ⟨w, hw⟩ := List.getLast?_eq_some_iff.1 he
    have hmem : [] ∈ r.splitOn '/' := by
      rw [hw, List.splitOn_append_cons_self]
      simp
    rw [hsplit] at hmem
    exact (hall [] hmem).1 rfl
  have hsegments : segments r = s :: ss := by
    have hmap : r.map (fun c => if c = '\\' then '/' else c) = r := by
      conv_rhs => rw [← List.map_id r]
      apply List.map_congr_left
      intro d hd
      rw [if_neg (ne_of_mem_of_not_mem hd hplain)]
      rfl
    rw [segments, hmap, hsplit]
  have hfilter : (s :: ss).filter (fun part => part ≠ [] ∧ part ≠ ['.']) = s :: ss := by
    rw [List.filter_eq_self]
    intro t ht
    simpa using ⟨(hall t ht).1, (hall t ht).2.1⟩
  have hdots : ['.', '.'] ∉ s :: ss := fun hmem => (hall _ hmem).2.2.1 rfl
  constructor
  · exact hstart _ hslash
  · intro t ht
    rw [hsplit] at ht
    exact ⟨(hall t ht).1, (hall t ht).2.1, (hall t ht).2.2.1⟩
  · exact hplain
  · rw [hfirst]
    exact hs
  · have hnil : r ≠ [] := by
      intro he
      rw [he] at hsplit
      exact hne (List.cons.inj hsplit).1.symm
    unfold safeRelpath stripWrapper
    simp only [hnil, hend, hstart _ hslash, hstart _ hback, hfirst, hs, hsegments, hdots, or_self, if_false, hfilter, ← hr]
  · intro root hroot
    refine ⟨s, ss, ?_⟩
    rw [joinParts, hsplit, hfilter]
    refine resolveParts_plain ?_
    rw [List.mem_append, not_or]
    exact ⟨hroot, hdots⟩

theorem kept_good (hdots : ['.', '.'] ∉ segments rel) : ∀ t ∈ keptSegments rel, GoodSegment t := by
  intro t ht
  obtain ⟨hmem, hkeep⟩ := List.mem_filter.1 ht
  simp only [decide_eq_true_eq] at hkeep
  exact ⟨hkeep.1, hkeep.2, fun he => hdots (he ▸ hmem), mem_segments hmem⟩

/-- Every path the code makes of a name is safe, and stays what it is, if and
only if the name is not misread. -/
theorem safe_relpath_safe (name : Str) (stripPrefix : Option Str) :
    (∀ r, safeRelpath name stripPrefix = .ok (some r) → SafePath r) ↔ ¬Misread (stripWrapper name stripPrefix) := by
  constructor
  · intro h hmis
    obtain ⟨hne, hlast, hslash, hback, hdrive, hdots, hkept⟩ := hmis
    have hname : name ≠ [] := by
      rintro rfl
      refine hne ?_
      unfold stripWrapper
      split
      · split
        · simp
        · rfl
      · rfl
    have hsafe := h (['/'].intercalate (keptSegments (stripWrapper name stripPrefix))) (by
      unfold safeRelpath
      simp only [hname, hne, hlast, hslash, hback, hdrive, hdots, or_self, if_false]
      rfl)
    rcases hkept with hnil | ⟨s, ss, hkept, hcolon⟩
    · rw [hnil] at hsafe
      exact (hsafe.segments [] (by simp [List.intercalate])).1 rfl
    · rw [hkept] at hsafe
      have hdrop := hsafe.noDrive
      rw [intercalate_cons] at hdrop
      have hgood := kept_good hdots s (by rw [hkept]; simp)
      rw [List.takeWhile_append_of_pos] at hdrop
      · exact hdrop (List.mem_append_left _ hcolon)
      · intro d hd
        simpa using ne_of_mem_of_not_mem hd hgood.2.2.2.1
  · intro hmis r h
    unfold safeRelpath at h
    split at h
    · cases h
    dsimp only at h
    split at h
    · cases h
    split at h
    · cases h
    split at h
    · cases h
    split at h
    · cases h
    next hempty hstart hdrive hdots =>
    obtain rfl := Option.some.inj (Except.ok.inj h)
    simp only [not_or] at hempty hstart
    have hread : ¬(keptSegments (stripWrapper name stripPrefix) = [] ∨
        ∃ s ss, keptSegments (stripWrapper name stripPrefix) = s :: ss ∧ ':' ∈ s) := fun hkept =>
      hmis ⟨hempty.1, hempty.2, hstart.1, hstart.2, hdrive, hdots, hkept⟩
    cases hkept : keptSegments (stripWrapper name stripPrefix) with
    | nil => exact absurd (.inl hkept) hread
    | cons s ss =>
      have hcolon : ':' ∉ s := fun hc => hread (.inr ⟨s, ss, hkept, hc⟩)
      have hsafe := safe_of_segments (hkept ▸ kept_good hdots) hcolon
      rw [← hkept] at hsafe
      exact hsafe

/-- A drive behind a dot gets past the check. -/
theorem drive_passes : safeRelpath "./C:/x".toList none = .ok (some "C:/x".toList) ∧
    safeRelpath "C:/x".toList none = .error (.driveLetter "C:/x".toList) := by
  decide

end

/-! ## Failures -/

/-- Raised past the handlers of the module. -/
def Failure.Stray (e : Failure) : Prop := ∃ x, e = .raised x ∧ x ≠ .badZipFile

theorem own_not_stray (z : ZipCheckoutError) : ¬(Failure.own z).Stray := by
  rintro ⟨x, hx, -⟩
  cases hx

/-- Writing the member meets what no handler is for: its path clashes with a
member's before it or is refused, it is encrypted or damaged, or it breaks off
before the cap is reached. -/
def WriteStrays (env : Env) (files : List (List Str)) (m : Member) (target : List Str) : Prop :=
  mkdirFails files target.dropLast ∨ env.refuses target.dropLast ∨ (∃ x, m.opening = some x ∧ x ≠ .badZipFile) ∨
    m.opening = none ∧ (openFails files target ∨ env.refuses target ∨
      m.chunks.sum ≤ env.limits.maxPerFile ∧ ∃ x, m.ending = some x ∧ x ≠ .badZipFile)

/-- The loop, at `p`, goes on to write the member and that strays. -/
def Strays (env : Env) (stripPrefix : Option Str) (matchers : List (Str × (Str → Bool))) (p : Progress) (m : Member) :
    Prop :=
  ∃ rel target, safeRelpath m.filename stripPrefix = .ok (some rel) ∧ ¬(shouldSkipEntry rel ∨ isGitignored rel matchers) ∧
    admitted env p m rel = .ok target ∧ WriteStrays env p.files m target

/-- A `.gitignore` that cannot be read for a reason that is not passed over. -/
def IgnoreStrays (stripPrefix : Option Str) (m : Member) : Prop :=
  (gitignoreDir stripPrefix m).isSome ∧ ∃ x, m.opening.or m.ending = some x ∧ x ≠ .badZipFile ∧ x ≠ .keyError

section
variable {env : Env} {stripPrefix : Option Str} {matchers : List (Str × (Str → Bool))} {p q : Progress} {m : Member}
  {infos : List Member} {files : List (List Str)} {target : List Str} {name : Str} {e : Failure}

theorem streamMember_stray {remaining : Nat} {chunks : List Nat} {ending : Option Exc} :
    (∃ e, streamMember name remaining chunks ending = some e ∧ e.Stray) ↔
      chunks.sum ≤ remaining ∧ ∃ x, ending = some x ∧ x ≠ .badZipFile := by
  induction chunks generalizing remaining with
  | nil =>
    simp only [streamMember, Option.map_eq_some_iff, List.sum_nil, Nat.zero_le, true_and]
    constructor
    · intro h
      obtain ⟨_, ⟨x, hx, rfl⟩, y, hy, hne⟩ := h
      exact ⟨x, hx, by rwa [Failure.raised.inj hy]⟩
    · intro h
      obtain ⟨x, hx, hne⟩ := h
      exact ⟨_, ⟨x, hx, rfl⟩, x, rfl, hne⟩
  | cons n chunks ih =>
    rw [streamMember, List.sum_cons]
    split
    · next hlt =>
      constructor
      · intro h
        obtain ⟨e, he, hstray⟩ := h
        exact (own_not_stray _ (Option.some.inj he ▸ hstray)).elim
      · intro h
        omega
    · rw [ih]
      constructor
      · exact fun h => ⟨by omega, h.2⟩
      · exact fun h => ⟨by omega, h.2⟩

theorem writeMember_stray : (∃ e, writeMember env files m target = some e ∧ e.Stray) ↔ WriteStrays env files m target := by
  unfold writeMember WriteStrays
  split
  · next h =>
    rw [Bool.or_eq_true] at h
    refine ⟨fun _ => ?_, fun _ => ⟨_, rfl, .osError, rfl, by decide⟩⟩
    rcases h with h | h
    · exact .inl h
    · exact .inr (.inl h)
  · next h =>
    rw [Bool.or_eq_true, not_or] at h
    simp only [h, Bool.false_eq_true, false_or]
    cases hopen : m.opening with
    | some x =>
      simp only [Option.some.injEq, reduceCtorEq, false_and, or_false, exists_eq_left', Failure.Stray,
        Failure.raised.injEq]
    | none =>
      simp only [reduceCtorEq, false_and, exists_false, false_or, true_and]
      split
      · next h =>
        rw [Bool.or_eq_true] at h
        refine ⟨fun _ => ?_, fun _ => ⟨_, rfl, .osError, rfl, by decide⟩⟩
        rcases h with h | h
        · exact .inl h
        · exact .inr (.inl h)
      · next h =>
        rw [Bool.or_eq_true, not_or] at h
        simp only [h, Bool.false_eq_true, false_or]
        exact streamMember_stray

theorem isDir_skipped (h : m.isDir = true) : safeRelpath m.filename stripPrefix = .ok none := by
  have hend : m.filename.getLast? = some '/' := by simpa [Member.isDir] using h
  unfold safeRelpath
  split
  · rfl
  · dsimp only
    rw [if_pos]
    unfold stripWrapper
    split
    · split
      · next w hw =>
        by_cases hrest : m.filename.drop w.length = []
        · exact .inl hrest
        · right
          rw [List.getLast?_drop, if_neg fun hle => hrest (List.drop_eq_nil_of_le hle)]
          exact hend
      · exact .inr hend
    · exact .inr hend

theorem extractMember_stray : (∃ e, extractMember env stripPrefix matchers p m = .error e ∧ e.Stray) ↔
    Strays env stripPrefix matchers p m := by
  unfold extractMember Strays
  cases hrel : safeRelpath m.filename stripPrefix with
  | error z =>
    constructor
    · intro h
      obtain ⟨e, he, hstray⟩ := h
      exact (own_not_stray z (Except.error.inj he ▸ hstray)).elim
    · intro h
      obtain ⟨rel, target, he, -⟩ := h
      cases he
  | ok rel =>
    cases rel with
    | none => simp
    | some rel =>
      have hdir : m.isDir = false := by
        cases hd : m.isDir with
        | false => rfl
        | true =>
          rw [isDir_skipped hd] at hrel
          cases hrel
      simp only [hdir, Bool.false_eq_true, not_false_eq_true, true_and, if_false, Except.ok.injEq, Option.some.injEq,
        exists_and_left, exists_eq_left']
      split
      · next hskip => simp [hskip]
      · next hskip =>
        simp only [hskip, not_false_eq_true, true_and]
        cases hadmit : admitted env p m rel with
        | error z =>
          constructor
          · intro h
            obtain ⟨e, he, hstray⟩ := h
            exact (own_not_stray z (Except.error.inj he ▸ hstray)).elim
          · intro h
            obtain ⟨target, he, -⟩ := h
            cases he
        | ok target =>
          simp only [Except.ok.injEq, exists_eq_left']
          rw [← writeMember_stray]
          cases writeMember env p.files m target with
          | none => simp
          | some e => simp

/-- The loop strays where it comes to a member and that does. -/
theorem extractMembers_stray : (∃ e files, extractMembers env stripPrefix matchers p infos = .error (e, files) ∧ e.Stray) ↔
    ∃ before m after q, infos = before ++ m :: after ∧ extractMembers env stripPrefix matchers p before = .ok q ∧
      Strays env stripPrefix matchers q m := by
  induction infos generalizing p with
  | nil => simp [extractMembers]
  | cons m infos ih =>
    rw [extractMembers]
    cases hm : extractMember env stripPrefix matchers p m with
    | error e =>
      constructor
      · intro h
        obtain ⟨_, _, he, hstray⟩ := h
        obtain ⟨rfl, -⟩ := Prod.mk.inj (Except.error.inj he)
        exact ⟨[], m, infos, p, rfl, rfl, extractMember_stray.1 ⟨e, hm, hstray⟩⟩
      · intro h
        obtain ⟨before, m', after, q, hinfos, hq, hstray⟩ := h
        cases before with
        | nil =>
          obtain ⟨rfl, rfl⟩ := List.cons.inj hinfos
          obtain rfl := Except.ok.inj hq
          obtain ⟨e', he', hs⟩ := extractMember_stray.2 hstray
          rw [hm] at he'
          obtain rfl := Except.error.inj he'
          exact ⟨e, _, rfl, hs⟩
        | cons m'' before =>
          obtain ⟨rfl, -⟩ := List.cons.inj hinfos
          rw [extractMembers, hm] at hq
          cases hq
    | ok p' =>
      dsimp only
      rw [ih]
      constructor
      · intro h
        obtain ⟨before, m', after, q, rfl, hq, hstray⟩ := h
        exact ⟨m :: before, m', after, q, rfl, by rw [extractMembers, hm]; exact hq, hstray⟩
      · intro h
        obtain ⟨before, m', after, q, hinfos, hq, hstray⟩ := h
        cases before with
        | nil =>
          obtain ⟨rfl, -⟩ := List.cons.inj hinfos
          obtain rfl := Except.ok.inj hq
          obtain ⟨e, he, -⟩ := extractMember_stray.2 hstray
          rw [hm] at he
          cases he
        | cons m'' before =>
          obtain ⟨rfl, rfl⟩ := List.cons.inj hinfos
          rw [extractMembers, hm] at hq
          exact ⟨before, m', after, q, rfl, hq, hstray⟩

theorem gitignore_stray : (∃ x, gitignoreMatchers env stripPrefix infos = .error x) ↔
    ∃ m ∈ infos, IgnoreStrays stripPrefix m := by
  induction infos with
  | nil => simp [gitignoreMatchers]
  | cons m infos ih =>
    rw [gitignoreMatchers, List.exists_mem_cons_iff, ← ih]
    cases hdir : gitignoreDir stripPrefix m with
    | none => simp [IgnoreStrays, hdir]
    | some dir =>
      have hread : IgnoreStrays stripPrefix m ↔ ∃ x, readText m = .error x := by
        unfold IgnoreStrays readText
        rw [hdir]
        cases hx : m.opening.or m.ending with
        | none => simp
        | some x => cases x <;> simp
      rw [hread]
      dsimp only
      cases readText m with
      | error x => simp
      | ok text =>
        dsimp only
        cases gitignoreMatchers env stripPrefix infos with
        | error x => simp
        | ok ms =>
          dsimp only
          split <;> simp

/-- The reasons no handler is for stay as raised by the reader of `.gitignore`. -/
theorem gitignore_error {x : Exc} (h : gitignoreMatchers env stripPrefix infos = .error x) : x ≠ .badZipFile := by
  induction infos with
  | nil => cases h
  | cons m infos ih =>
    rw [gitignoreMatchers] at h
    split at h
    · exact ih h
    · split at h
      · next e he =>
        obtain rfl := Except.error.inj h
        unfold readText at he
        split at he
        · cases he
        · cases he
        · cases he
        · next hbad _ =>
          rw [← Except.error.inj he]
          exact hbad
      · split at h
        · next e he =>
          obtain rfl := Except.error.inj h
          exact ih he
        · split at h
          · cases h
          · cases h

end

/-! ## What a failed checkout leaves -/

/-- The archive strays: it does not open, or, within the cap on its entries, a
`.gitignore` of it or a member the loop comes to does. -/
def ArchiveStrays (env : Env) : Except Exc (List Member) → Prop
  | .error x => x ≠ .badZipFile
  | .ok infos => infos.length ≤ env.limits.maxEntries ∧
    ((∃ m ∈ infos, IgnoreStrays (detectStripPrefix infos) m) ∨
      ∃ matchers, buildGitignoreMatchers env infos (detectStripPrefix infos) = .ok matchers ∧
        ∃ before m after p, infos = before ++ m :: after ∧
          extractMembers env (detectStripPrefix infos) matchers {} before = .ok p ∧
          Strays env (detectStripPrefix infos) matchers p m)

section
variable {env : Env} {infos : List Member}

theorem extract_stray : (∃ e files, extract env infos = .error (e, files) ∧ e.Stray) ↔ ArchiveStrays env (.ok infos) := by
  unfold extract ArchiveStrays
  split
  · next hmany => simp [own_not_stray, Nat.not_le.2 hmany]
  · next hfew =>
    have hall := @gitignore_stray env (detectStripPrefix infos) infos
    dsimp only
    unfold buildGitignoreMatchers
    cases hms : gitignoreMatchers env (detectStripPrefix infos) infos with
    | error x =>
      refine ⟨fun _ => ⟨Nat.le_of_not_lt hfew, .inl (hall.1 ⟨x, hms⟩)⟩, fun _ => ?_⟩
      exact ⟨.raised x, [], rfl, x, rfl, gitignore_error hms⟩
    | ok ms =>
      have hquiet : ¬∃ m ∈ infos, IgnoreStrays (detectStripPrefix infos) m := by
        rw [← hall, hms]
        simp
      simp only [Except.map, Except.ok.injEq, exists_eq_left', hquiet, false_or, Nat.le_of_not_lt hfew, true_and,
        ← extractMembers_stray]
      cases extractMembers env (detectStripPrefix infos) (ms.insertionSort fun x y => x.1.length ≤ y.1.length) {} infos with
      | error e => rfl
      | ok p =>
        dsimp only
        split
        · simp [own_not_stray]
        · simp

theorem handle_clean (e : Failure) (files : List (List Str)) :
    (∃ z, (handle (e, files)).1 = .own z) ∧ (handle (e, files)).2 = none ↔ ¬e.Stray := by
  cases e with
  | own z => simp [handle, Failure.Stray]
  | raised x => cases x <;> simp [handle, Failure.Stray]

end

/-- A checkout that fails leaves no directory and raises the module's own error
if and only if the archive does not stray and, where there is no archive, there
was no checkout either. -/
theorem failed_checkout_clean (env : Env) (archive : Option (Except Exc (List Member)))
    (old : Option (List (List Str))) :
    (∀ e, (prepareCheckout env archive old).1 = .error e →
        (∃ z, e = .own z) ∧ (prepareCheckout env archive old).2 = none) ↔
      (archive = none → old = none) ∧ ∀ opened, archive = some opened → ¬ArchiveStrays env opened := by
  have hclean : ∀ (e : Failure) (files : List (List Str)),
      (∀ e', ((handle (e, files)).map (Except.error (α := Progress)) id).1 = .error e' →
        (∃ z, e' = .own z) ∧ ((handle (e, files)).map (Except.error (α := Progress)) id).2 = none) ↔ ¬e.Stray := by
    intro e files
    rw [← handle_clean e files]
    simp
  match archive with
  | none => simp [prepareCheckout]
  | some (.error x) =>
    simp only [prepareCheckout, reduceCtorEq, false_implies, true_and, Option.some.injEq, forall_eq']
    rw [hclean]
    simp [Failure.Stray, ArchiveStrays]
  | some (.ok infos) =>
    simp only [prepareCheckout, reduceCtorEq, false_implies, true_and, Option.some.injEq, forall_eq']
    rw [← extract_stray]
    cases hx : extract env infos with
    | ok p => simp
    | error e =>
      dsimp only
      rw [hclean]
      constructor
      · intro h hstray
        obtain ⟨e', files, he, hs⟩ := hstray
        rw [Except.error.inj he] at h
        exact h hs
      · intro h hs
        exact h ⟨e.1, e.2, rfl, hs⟩

def sampleMember (filename : String) (encrypted : Bool) : Member :=
  ⟨filename.toList, 1, 1, 0, encrypted, none, [1], none, []⟩

def roomy : Env := ⟨[], ⟨1000, 1000, 100, 1000⟩, fun _ => none, fun _ => false⟩

/-- An encrypted member, and a file that another member has as a directory,
leave the files before them and an exception that is not the module's. -/
theorem failed_checkout_stays :
    prepareCheckout roomy (some (.ok [sampleMember "a.py" false, sampleMember "b.py" true])) none =
        (.error (.raised .runtimeError), some [["a.py".toList]]) ∧
      prepareCheckout roomy (some (.ok [sampleMember "a" false, sampleMember "a/b" false])) none =
        (.error (.raised .osError), some [["a".toList]]) := by
  decide +kernel

end Cograph.ZipCheckout
