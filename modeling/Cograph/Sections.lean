import Cograph.Coverage

/-!
# A page cut at its H2 headings

What stands before the first heading, then the sections, each from its heading
to the next. A pattern for headings matches at the start of a section only, so
that scans for it go section by section.
-/

namespace Cograph.Wiki

open Regex

/-! ## The cut -/

/-- The text before, last character first, has ended a line. -/
def atLineStart (b : Str) : Bool := b.head?.getD '\n' = '\n'

/-- An H2 heading begins, where this begins a line. -/
def opens : Str → Bool
  | '#' :: '#' :: c :: _ => Str.isSpace c
  | _ => false

def cut : Str → Str → Str × List Str
  | _, [] => ([], [])
  | b, c :: s =>
    let rest := cut (c :: b) s
    if atLineStart b && opens (c :: s) then ([], (c :: rest.1) :: rest.2) else (c :: rest.1, rest.2)

def lead (s : Str) : Str := (cut [] s).1

def sections (s : Str) : List Str := (cut [] s).2

/-- After `b` a section begins, or nothing follows. -/
def Starts (b y : Str) : Prop := y = [] ∨ atLineStart b = true ∧ opens y = true

def Section (x : Str) : Prop := cut [] x = ([], [x])

/-- Sections one after another, each with a line of its own to begin. -/
def Sectioned : List Str → Prop
  | [] => True
  | x :: xs => Section x ∧ Starts x.reverse xs.flatten ∧ Sectioned xs

section
variable {b s x y : Str}

theorem atLineStart_append (hx : x ≠ []) (b : Str) : atLineStart (x.reverse ++ b) = atLineStart x.reverse := by
  unfold atLineStart
  rw [List.head?_append]
  cases h : x.reverse.head? with
  | none => simp at h; exact absurd h hx
  | some c => rfl

theorem opens_ne_nil (h : opens y = true) : y ≠ [] := by
  rintro rfl
  cases h

theorem opens_cons (h : opens y = true) : ∃ c t, y = '#' :: '#' :: c :: t ∧ Str.isSpace c = true := by
  unfold opens at h
  split at h
  · exact ⟨_, _, rfl, h⟩
  · cases h

/-- Where a line has ended, what follows does not make a heading of what went before. -/
theorem opens_append (hx : x ≠ []) (h : y = [] ∨ atLineStart x.reverse = true) : opens (x ++ y) = opens x := by
  rcases h with rfl | h
  · rw [List.append_nil]
  · match x, hx, h with
    | [c], _, h =>
      have hc : c = '\n' := by simpa [atLineStart] using h
      subst hc
      rfl
    | [c, d], _, h =>
      have hd : d = '\n' := by simpa [atLineStart] using h
      subst hd
      simp [opens]
    | c :: d :: e :: t, _, _ =>
      by_cases hc : c = '#' <;> by_cases hd : d = '#' <;> simp [opens, hc, hd]

theorem cut_congr {b b' : Str} (h : atLineStart b = atLineStart b') (s : Str) : cut b s = cut b' s := by
  cases s with
  | nil => rfl
  | cons c s =>
    have hline : atLineStart (c :: b) = atLineStart (c :: b') := rfl
    rw [cut, cut, h, cut_congr hline s]

theorem cut_after (c : Char) (b b' s : Str) : cut (c :: b) s = cut (c :: b') s :=
  cut_congr (show atLineStart (c :: b) = atLineStart (c :: b') from rfl) s

theorem cut_flatten (b s : Str) : (cut b s).1 ++ (cut b s).2.flatten = s := by
  induction s generalizing b with
  | nil => rfl
  | cons c s ih =>
    rw [cut]
    split
    · simpa using ih (c :: b)
    · simpa using ih (c :: b)

theorem cut_starts (b s : Str) : Starts ((cut b s).1.reverse ++ b) (cut b s).2.flatten := by
  induction s generalizing b with
  | nil => exact .inl rfl
  | cons c s ih =>
    have hflat := cut_flatten (c :: b) s
    rw [cut]
    split
    · next h =>
      right
      simpa [hflat] using h
    · simpa using ih (c :: b)

theorem cut_of_starts (h : Starts b y) : cut b y = ([], sections y) := by
  rcases h with rfl | ⟨hb, hy⟩
  · rfl
  · have hline : atLineStart b = atLineStart [] := hb
    rw [sections, cut_congr hline]
    obtain ⟨c, t, rfl, hc⟩ := opens_cons hy
    simp [cut, opens, hc, atLineStart]

theorem cut_append (h : Starts (x.reverse ++ b) y) : cut b (x ++ y) = ((cut b x).1, (cut b x).2 ++ sections y) := by
  induction x generalizing b with
  | nil =>
    rw [List.nil_append, cut_of_starts (by simpa using h)]
    rfl
  | cons c x ih =>
    have hrest := ih (b := c :: b) (by simpa using h)
    have hopens : opens (c :: (x ++ y)) = opens (c :: x) := by
      refine opens_append (x := c :: x) (by simp) (h.imp_right fun h => ?_)
      rw [← atLineStart_append (by simp) b]
      exact h.1
    rw [List.cons_append, cut, cut, hrest, hopens]
    split <;> rfl

theorem sections_ne_nil (h : x ∈ (cut b s).2) : x ≠ [] := by
  induction s generalizing b with
  | nil => simp [cut] at h
  | cons c s ih =>
    rw [cut] at h
    split at h
    · rcases List.mem_cons.1 h with rfl | h
      · simp
      · exact ih h
    · exact ih h

theorem cut_lead (b s : Str) : cut b (cut b s).1 = ((cut b s).1, []) := by
  have hcut := cut_append (cut_starts b s)
  rw [cut_flatten] at hcut
  have hlead : (cut b (cut b s).1).1 = (cut b s).1 := (congrArg Prod.fst hcut).symm
  have hflat := cut_flatten b (cut b s).1
  rw [hlead, List.append_right_eq_self] at hflat
  have hnil : (cut b (cut b s).1).2 = [] := by
    by_contra hne
    obtain ⟨x, hx⟩ := List.exists_mem_of_ne_nil _ hne
    exact sections_ne_nil hx (List.flatten_eq_nil_iff.1 hflat x hx)
  exact Prod.ext hlead hnil

theorem section_cons : Section x ↔ opens x = true ∧ ∃ t, x = '#' :: t ∧ cut ['#'] t = (t, []) := by
  constructor
  · intro h
    cases x with
    | nil => cases h
    | cons c t =>
      rw [Section, cut] at h
      split at h
      · next hopens =>
        have hx : opens (c :: t) = true := (Bool.and_eq_true_iff.1 hopens).2
        obtain ⟨d, u, he, _⟩ := opens_cons hx
        obtain ⟨rfl, -⟩ := List.cons.inj he
        obtain ⟨-, hsec⟩ := Prod.mk.inj h
        obtain ⟨hlead, hrest⟩ := List.cons.inj hsec
        exact ⟨hx, t, rfl, Prod.ext (List.cons.inj hlead).2 hrest⟩
      · cases h
  · intro ⟨hx, t, ht, hcut⟩
    rw [ht] at hx ⊢
    rw [Section, cut, hcut, hx]
    rfl

theorem Section.opens (h : Section x) : opens x = true := (section_cons.1 h).1

theorem Section.ne_nil (h : Section x) : x ≠ [] := opens_ne_nil h.opens

theorem cut_sectioned (b s : Str) : Sectioned (cut b s).2 := by
  induction s generalizing b with
  | nil => trivial
  | cons c s ih =>
    rw [cut]
    split
    · next hopens =>
      obtain ⟨-, hx⟩ := Bool.and_eq_true_iff.1 hopens
      have hflat := cut_flatten (c :: b) s
      have hstarts := cut_starts (c :: b) s
      have hlead := cut_lead (c :: b) s
      revert hflat hstarts hlead
      generalize (cut (c :: b) s).1 = l
      intro hflat hstarts hlead
      have hline : Starts (c :: l).reverse (cut (c :: b) s).2.flatten := by
        refine hstarts.imp_right fun h => ⟨?_, h.2⟩
        rw [← atLineStart_append (x := c :: l) (by simp) b]
        simpa using h.1
      refine ⟨section_cons.2 ?_, hline, ih (c :: b)⟩
      rw [← hflat, ← List.cons_append, opens_append (by simp) (hline.imp_right And.left)] at hx
      obtain ⟨d, u, he, -⟩ := opens_cons hx
      obtain ⟨rfl, -⟩ := List.cons.inj he
      exact ⟨hx, l, rfl, by rw [cut_after '#' [] b, hlead]⟩
    · exact ih (c :: b)

/-! ## Cuts put together -/

theorem Sectioned.left {xs ys : List Str} (h : Sectioned (xs ++ ys)) : Sectioned ys := by
  induction xs with
  | nil => exact h
  | cons x xs ih => exact ih h.2.2

theorem Sectioned.mem {xs : List Str} (h : Sectioned xs) (hx : x ∈ xs) : Section x := by
  induction xs with
  | nil => cases hx
  | cons z xs ih =>
    rcases List.mem_cons.1 hx with rfl | hx
    · exact h.1
    · exact ih h.2.2 hx

/-- At the start of a line sections may follow. -/
theorem Sectioned.starts {xs : List Str} (h : Sectioned xs) (hb : xs ≠ [] → atLineStart b = true) :
    Starts b xs.flatten := by
  cases xs with
  | nil => exact .inl rfl
  | cons x xs =>
    refine .inr ⟨hb (by simp), ?_⟩
    rw [List.flatten_cons, opens_append h.1.ne_nil (h.2.1.imp_right And.left)]
    exact h.1.opens

theorem Starts.line (h : Starts b y) (hy : y ≠ []) : atLineStart b = true := (h.resolve_left hy).1

theorem Sectioned.sections {xs : List Str} (h : Sectioned xs) : sections xs.flatten = xs := by
  induction xs with
  | nil => rfl
  | cons x xs ih =>
    rw [Wiki.sections, List.flatten_cons, cut_append (by simpa using h.2.1), ih h.2.2, h.1]
    rfl

theorem cut_join {l : Str} {xs : List Str} (hl : cut b l = (l, [])) (hs : Starts (l.reverse ++ b) xs.flatten)
    (h : Sectioned xs) : cut b (l ++ xs.flatten) = (l, xs) := by
  rw [cut_append hs, hl, h.sections]
  rfl

theorem Sectioned.without {xs ys : List Str} (h : Sectioned (xs ++ x :: ys)) : Sectioned (xs ++ ys) := by
  induction xs with
  | nil => exact h.2.2
  | cons z xs ih =>
    refine ⟨h.1, (ih h.2.2).starts fun _ => ?_, ih h.2.2⟩
    have hx : Section x := h.mem (by simp)
    exact h.2.1.line (by simp [hx.ne_nil])

theorem sections_sectioned (s : Str) : Sectioned (sections s) := cut_sectioned [] s

theorem sections_flatten (s : Str) : lead s ++ (sections s).flatten = s := cut_flatten [] s

theorem lead_starts (s : Str) : Starts (lead s).reverse (sections s).flatten := by
  have h := cut_starts [] s
  rwa [List.append_nil] at h

theorem Starts.after (hx : x ≠ []) (h : Starts x.reverse y) (b : Str) : Starts (x.reverse ++ b) y := by
  refine h.imp_right fun h => ⟨?_, h.2⟩
  rw [atLineStart_append hx]
  exact h.1

theorem sections_starts {xs ys : List Str} (hsec : sections s = xs ++ ys) :
    Starts (lead s ++ xs.flatten).reverse ys.flatten := by
  rcases List.eq_nil_or_concat xs with rfl | ⟨zs, z, rfl⟩
  · rw [List.nil_append] at hsec
    simpa [hsec] using lead_starts s
  · have hall : Sectioned (zs ++ z :: ys) := by simpa [hsec] using sections_sectioned s
    obtain ⟨hz, hstarts, -⟩ := hall.left
    simpa using hstarts.after hz.ne_nil (lead s ++ zs.flatten).reverse

theorem cut_upto {xs ys : List Str} (hsec : sections s = xs ++ ys) :
    cut [] (lead s ++ xs.flatten) = (lead s, xs) := by
  have hall : Sectioned (xs ++ ys) := hsec ▸ sections_sectioned s
  have hs : lead s ++ xs.flatten ++ ys.flatten = s := by
    rw [List.append_assoc, ← List.flatten_append, ← hsec, sections_flatten]
  have hcut := cut_append (b := []) (x := lead s ++ xs.flatten) (y := ys.flatten) (by simpa using sections_starts hsec)
  rw [hs, hall.left.sections] at hcut
  obtain ⟨hlead, hrest⟩ : lead s = _ ∧ sections s = _ := Prod.mk.inj hcut
  rw [hsec] at hrest
  exact Prod.ext hlead.symm (List.append_cancel_right hrest).symm

theorem cut_suffix {v w : Str} (h : cut b (v ++ w) = (v ++ w, [])) : cut (v.reverse ++ b) w = (w, []) := by
  induction v generalizing b with
  | nil => exact h
  | cons c v ih =>
    rw [List.cons_append, cut] at h
    split at h
    · cases h
    · obtain ⟨hlead, hrest⟩ := Prod.mk.inj h
      simpa using ih (b := c :: b) (Prod.ext (List.cons.inj hlead).2 hrest)

end

/-! ## Scans -/

/-- Inside a section no other begins. -/
theorem Section.rest {b u t x : Str} (h : Section x) (hx : x = u ++ t) (hu : u ≠ []) :
    cut (u.reverse ++ b) t = (t, []) := by
  obtain ⟨c, v, rfl⟩ := List.exists_cons_of_ne_nil hu
  obtain ⟨-, w, hw, hcut⟩ := section_cons.1 h
  rw [hw, List.cons_append] at hx
  obtain ⟨rfl, rfl⟩ := List.cons.inj hx
  have hsuf := cut_suffix (b := '#' :: b) (v := v) (w := t) (by rw [cut_after '#' b [], hcut])
  simpa using hsuf

theorem positions_plains (w : Str) (i : Nat) (ts : List Token) :
    positions i (w.map Token.plain ++ ts) = positions (i + w.length) ts := by
  induction w generalizing i with
  | nil => rfl
  | cons c w ih =>
    rw [List.map_cons, List.cons_append, positions, ih, List.length_cons, Nat.add_assoc, Nat.add_comm 1]

/-- The pattern matches at the start of a section only, and within its heading. -/
structure Heads (r : Regex) : Prop where
  starts : ∀ {b s m}, matchAt r b s = some m → atLineStart b = true ∧ opens s = true
  plain : ∀ {b s m}, matchAt r b s = some m → '#' ∉ m.text.drop 2

section
variable {r : Regex} (hr : Heads r) {b x y : Str}
include hr

theorem Heads.scan_quiet (hx : cut b x = (x, [])) (h : Starts (x.reverse ++ b) y) :
    scan r 0 b (x ++ y) = x.map Token.plain ++ scan r 0 (x.reverse ++ b) y := by
  induction x generalizing b with
  | nil => rfl
  | cons c x ih =>
    have hopens : opens (c :: (x ++ y)) = opens (c :: x) := by
      refine opens_append (x := c :: x) (by simp) (h.imp_right fun h => ?_)
      rw [← atLineStart_append (by simp) b]
      exact h.1
    rw [cut] at hx
    split at hx
    · cases hx
    · next hno =>
      obtain ⟨hlead, hrest⟩ := Prod.mk.inj hx
      have hmatch : matchAt r b (c :: (x ++ y)) = none := by
        cases hm : matchAt r b (c :: (x ++ y)) with
        | none => rfl
        | some m =>
          obtain ⟨hb, hs⟩ := hr.starts hm
          rw [hopens] at hs
          exact absurd (Bool.and_eq_true_iff.2 ⟨hb, hs⟩) hno
      rw [List.cons_append, scan_plain hmatch, ih (Prod.ext (List.cons.inj hlead).2 hrest) (by simpa using h)]
      simp

/-- The match at a heading is part of the section. -/
theorem Heads.within (hx : Section x) (h : Starts (x.reverse ++ b) y) {m : Match}
    (hm : matchAt r b (x ++ y) = some m) : ∃ t, x = m.text ++ t := by
  obtain ⟨q, -, hs, -, -⟩ := matchAt_some hm
  rcases List.append_eq_append_iff.1 hs with ⟨v, hv, hy⟩ | ⟨v, hv, -⟩
  · rcases v with - | ⟨c, v⟩
    · exact ⟨[], by simpa using hv.symm⟩
    · obtain ⟨d, t, ht, -⟩ := opens_cons hx.opens
      have hc : c = '#' := by
        rcases h with rfl | h
        · cases hy
        · obtain ⟨d, t, ht, -⟩ := opens_cons h.2
          rw [hy] at ht
          exact (List.cons.inj ht).1
      exact absurd (by rw [hv, ht, hc]; simp) (hr.plain hm)
  · exact ⟨v, hv⟩

theorem Heads.scan_section (hx : Section x) (h : Starts (x.reverse ++ b) y) :
    (matchAt r b (x ++ y) = none ∧ scan r 0 b (x ++ y) = x.map Token.plain ++ scan r 0 (x.reverse ++ b) y) ∨
      ∃ m t, matchAt r b (x ++ y) = some m ∧ x = m.text ++ t ∧
        scan r 0 b (x ++ y) = .hit m :: (t.map Token.plain ++ scan r 0 (x.reverse ++ b) y) := by
  obtain ⟨-, t, rfl, ht⟩ := section_cons.1 hx
  cases hm : matchAt r b ('#' :: t ++ y) with
  | none =>
    left
    refine ⟨rfl, ?_⟩
    have hrest := hr.scan_quiet (b := '#' :: b) (by rw [cut_after '#' b [], ht]) (by simpa using h)
    rw [List.cons_append] at hm ⊢
    rw [scan_plain hm, hrest]
    simp
  | some m =>
    right
    obtain ⟨u, hu⟩ := hr.within hx h hm
    refine ⟨m, u, rfl, hu, ?_⟩
    obtain ⟨_, _, _, hne, _⟩ := matchAt_some hm
    have hquiet := hx.rest (b := b) hu hne
    rw [hu, List.append_assoc] at hm ⊢
    rw [scan_hit hm rfl, hr.scan_quiet hquiet (by rw [hu] at h; simpa using h)]
    simp

end

/-! ## The pattern of a heading -/

section
variable {b s : Str}

/-- The text that `h2Re` matches. -/
def h2Text (s : Str) : Str := '#' :: '#' :: (s.drop 2).takeWhile Str.isSpace

theorem matchAt_h2 (b s : Str) :
    matchAt h2Re b s = if atLineStart b && opens s then some ⟨h2Text s, []⟩ else none := by
  split
  · next h =>
    obtain ⟨hb, hs⟩ := Bool.and_eq_true_iff.1 h
    obtain ⟨c, t, rfl, hc⟩ := opens_cons hs
    have hline : first lineStart ⟨b, '#' :: '#' :: c :: t, []⟩ = some ⟨b, '#' :: '#' :: c :: t, []⟩ := by
      have hb : b.head?.getD '\n' = '\n' := by simpa [atLineStart] using hb
      simp [first, ends, hb]
    have hlit := first_lit (p := ⟨b, '#' :: '#' :: c :: t, []⟩) (w := "##".toList) (t := c :: t) rfl
    have hsplit : c :: t = (c :: t).takeWhile Str.isSpace ++ (c :: t).dropWhile Str.isSpace :=
      List.takeWhile_append_dropWhile.symm
    have hplus := first_plus (f := Str.isSpace) (p := ⟨"##".toList.reverse ++ b, c :: t, []⟩)
      (w := (c :: t).takeWhile Str.isSpace) (by simp [hc]) hsplit
      (fun d hd => List.all_eq_true.1 List.all_takeWhile d hd) (fun d hd => by
        have := List.head?_dropWhile_not Str.isSpace (c :: t)
        rw [hd] at this
        simpa using this)
    have hall := first_seq hline (first_seq hlit hplus)
    have he : '#' :: '#' :: c :: t = h2Text ('#' :: '#' :: c :: t) ++ (c :: t).dropWhile Str.isSpace := by
      conv_lhs => rw [hsplit]
      rfl
    rw [he] at hall
    conv_lhs => rw [he]
    exact matchAt_first hall rfl (by simp [h2Text])
  · next h =>
    cases hm : matchAt h2Re b s with
    | none => rfl
    | some m =>
      exfalso
      apply h
      obtain ⟨q, hq, -⟩ := matchAt_some hm
      have hb := matchAt_lineStart hm
      obtain ⟨p, hp, hq⟩ := mem_ends_seq.1 hq
      obtain ⟨p', hp', hq⟩ := mem_ends_seq.1 hq
      obtain ⟨w, hne, hw, hf⟩ := mem_ends_plus_sat.1 hq
      obtain rfl : p = ⟨b, s, []⟩ := by
        simpa [ends, hb] using hp
      obtain ⟨c, w, rfl⟩ := List.exists_cons_of_ne_nil hne
      have hs : s = "##".toList ++ (c :: w ++ q.after) := by
        rw [← hw.1.1]
        exact (mem_ends_lit.1 hp').1.1
      rw [hs, Bool.and_eq_true_iff]
      exact ⟨by simpa [atLineStart] using hb, hf c (by simp)⟩

theorem opens_h2 (h : opens s = true) : ∃ t, s = h2Text s ++ t ∧ '#' ∉ (h2Text s).drop 2 := by
  obtain ⟨c, t, rfl, hc⟩ := opens_cons h
  refine ⟨(c :: t).dropWhile Str.isSpace, ?_, fun hmem => ?_⟩
  · simp [h2Text, List.takeWhile_append_dropWhile]
  · have := List.all_eq_true.1 List.all_takeWhile '#' hmem
    simp [Str.isSpace] at this

theorem h2_heads : Heads h2Re where
  starts := by
    intro b s m h
    rw [matchAt_h2] at h
    split at h
    · next hs => exact Bool.and_eq_true_iff.1 hs
    · cases h
  plain := by
    intro b s m h
    rw [matchAt_h2] at h
    split at h
    · next hs =>
      obtain ⟨t, -, ht⟩ := opens_h2 (Bool.and_eq_true_iff.1 hs).2
      rw [← Option.some.inj h]
      exact ht
    · cases h

end

end Cograph.Wiki
