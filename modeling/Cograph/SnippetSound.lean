import Cograph.Snippet

/-!
# Excerpts and their match

An excerpt is a stretch of the folded content between its ellipses. When it
shows the first match: neither cut may reach it.
-/

namespace Cograph.Snippet

open Occurs

/-! ## Folded white space -/

/-- Spaces are the only white space, and behind each one stands something else. -/
structure Folded (s : Str) : Prop where
  blank : ∀ c ∈ s, Str.isSpace c = true → c = ' '
  single : ∀ i : Nat, s[i]? = some ' ' → ∃ c, s[i + 1]? = some c ∧ c ≠ ' '

theorem collapse_blank : ∀ (s : Str), ∀ c ∈ Compact.collapse s, Str.isSpace c = true → c = ' '
  | [], c, hc, _ => by simp [Compact.collapse] at hc
  | d :: s, c, hc, hsp => by
    unfold Compact.collapse at hc
    split at hc
    · split at hc
      · exact collapse_blank s c hc hsp
      · rcases List.mem_cons.1 hc with rfl | hc
        · rfl
        · exact collapse_blank s c hc hsp
    · next hd =>
      rcases List.mem_cons.1 hc with rfl | hc
      · exact absurd hsp hd
      · exact collapse_blank s c hc hsp

theorem collapse_head {s : Str} (h : ¬s.head?.any Str.isSpace = true) :
    (Compact.collapse s).head? = s.head? := by
  cases s with
  | nil => rfl
  | cons c s =>
    have hc : ¬Str.isSpace c = true := by simpa using h
    rw [Compact.collapse, if_neg hc]
    rfl

/-- Of two neighbours one is no space. -/
def apart (c d : Char) : Prop := ¬(c = ' ' ∧ d = ' ')

theorem collapse_apart : ∀ s : Str, (Compact.collapse s).IsChain apart
  | [] => by simp [Compact.collapse]
  | c :: s => by
    unfold Compact.collapse
    split
    · split
      · exact collapse_apart s
      · next hs =>
        rw [List.isChain_cons]
        refine ⟨?_, collapse_apart s⟩
        intro d hd hboth
        rw [collapse_head hs] at hd
        rw [hd, hboth.2] at hs
        exact hs rfl
    · next hc =>
      rw [List.isChain_cons]
      refine ⟨?_, collapse_apart s⟩
      intro d _ hboth
      rw [hboth.1] at hc
      exact hc rfl

theorem strip_infix (s : Str) : Str.strip s <:+: s := by
  obtain ⟨w, hw, _⟩ := Str.rstrip_append (Str.lstrip s)
  have hpre : Str.strip s <+: Str.lstrip s := ⟨w, hw.symm⟩
  exact hpre.isInfix.trans (List.dropWhile_suffix _).isInfix

theorem folded_collapse (text : Str) : Folded (collapseWhitespace text) := by
  have hin : collapseWhitespace text <:+: Compact.collapse text := strip_infix _
  constructor
  · intro c hc
    exact collapse_blank text c (hin.subset hc)
  · intro i hi
    have hlt : i < (collapseWhitespace text).length := (List.getElem?_eq_some_iff.1 hi).1
    by_cases hlast : i + 1 < (collapseWhitespace text).length
    · refine ⟨_, List.getElem?_eq_getElem hlast, ?_⟩
      intro hsp
      have hchain : (collapseWhitespace text).IsChain apart := by
        obtain ⟨u, v, huv⟩ := hin
        have hall := collapse_apart text
        rw [← huv] at hall
        exact hall.left_of_append.right_of_append
      have hpair := List.isChain_iff_getElem.1 hchain i hlast
      exact hpair ⟨(List.getElem?_eq_some_iff.1 hi).2, hsp⟩
    · -- a stripped text ends with no space
      have hend : (collapseWhitespace text).getLast? = some ' ' := by
        rw [List.getLast?_eq_getElem?, ← hi]
        congr 1
        omega
      exact absurd (Str.rstrip_last hend) (by decide)

/-! ## What the cuts take -/

section
variable (text : Str) (w a : Nat)

/-- The cut at the end of the window that opens at `a` leaves the character at
`j`. There is none where the text ends with the window. A mark at the end, or no
space near it, leaves the whole window, else the last space ends what is left. -/
def TailLeaves (j : Nat) : Prop :=
  a ≤ j ∧ j < a + w ∧ text[j]? ≠ some ' ' ∧
    (a + w = text.length ∨ (∃ c, text[a + w - 1]? = some c ∧ closing c = true) ∨
      (∀ s, a < s → s < a + w → a + w ≤ s + wordBoundaryLookback → text[s]? ≠ some ' ') ∨
        ∃ s, j < s ∧ s < a + w ∧ text[s]? = some ' ')

/-- The cut at the start takes all up to the space at `f`. It stands near the
start, with something left behind it. -/
def HeadCuts (f : Nat) : Prop :=
  0 < a ∧ a ≤ f ∧ f ≤ a + wordBoundaryLookback ∧ text[f]? = some ' ' ∧ ∃ j, f < j ∧ TailLeaves text w a j

/-- The cut at the end leaves what is before `y`. -/
structure EndsAt (y : Nat) : Prop where
  start_le : a ≤ y
  below : ∀ j, TailLeaves text w a j → j < y
  last : a < y → TailLeaves text w a (y - 1)

/-- The cut at the start leaves what is from `x` on. -/
def StartsAt (x : Nat) : Prop :=
  (x = a ∧ ∀ f, ¬HeadCuts text w a f) ∨
    ∃ f, HeadCuts text w a f ∧ x = f + 1 ∧ ∀ g, HeadCuts text w a g → f ≤ g

end

section
variable {text : Str} {w a : Nat}

/-- White space at the end of a stretch goes. -/
theorem rstrip_stretch (hF : Folded text) {i j : Nat} (hij : i ≤ j) (hj : j ≤ text.length) :
    ∃ y, i ≤ y ∧ y ≤ j ∧ Str.rstrip (stretch text i j) = stretch text i y ∧
      (∀ k, i ≤ k → k < j → text[k]? ≠ some ' ' → k < y) ∧ (i < y → text[y - 1]? ≠ some ' ') := by
  obtain ⟨v, hv, hsp⟩ := Str.rstrip_append (stretch text i j)
  have hlen : (Str.rstrip (stretch text i j)).length + v.length = j - i := by
    rw [← List.length_append, ← hv, stretch_length hj]
  have heq : Str.rstrip (stretch text i j) = stretch text i (i + (Str.rstrip (stretch text i j)).length) := by
    rw [← stretch_take (show i + (Str.rstrip (stretch text i j)).length ≤ j by omega)]
    exact List.prefix_iff_eq_take.1 ⟨v, hv.symm⟩
  refine ⟨i + (Str.rstrip (stretch text i j)).length, Nat.le_add_right _ _, by omega, heq, ?_, ?_⟩
  · intro k hik hkj hk
    by_contra hge
    have hget : (stretch text i j)[k - i]? = text[k]? := by
      rw [stretch_get (by omega), Nat.add_sub_cancel' hik]
    rw [hv, List.getElem?_append_right (by omega)] at hget
    obtain ⟨c, hc⟩ : ∃ c, text[k]? = some c := ⟨_, List.getElem?_eq_getElem (by omega)⟩
    rw [hc] at hget
    have hspace : c = ' ' := hF.blank c (List.mem_of_getElem? hc) (hsp c (List.mem_of_getElem? hget))
    rw [hc, hspace] at hk
    exact hk rfl
  · intro hlt hlast
    have hend : (Str.rstrip (stretch text i j)).getLast? = some ' ' := by
      rw [List.getLast?_eq_getElem?, ← hlast]
      conv_lhs => rw [heq]
      rw [stretch_get (by rw [stretch_length (by omega)]; omega), stretch_length (by omega)]
      congr 1
      omega
    exact absurd (Str.rstrip_last hend) (by decide)

theorem lastSpace_some {s : Str} {i : Nat} (h : lastSpace s = some i) :
    s[i]? = some ' ' ∧ ∀ j, i < j → s[j]? ≠ some ' ' := by
  obtain ⟨k, hk, hi⟩ := Option.map_eq_some_iff.1 h
  obtain ⟨hsp, hmin⟩ := find_singleton.1 hk
  have hlt : k < s.length := by simpa using (List.getElem?_eq_some_iff.1 hsp).1
  rw [List.getElem?_reverse hlt] at hsp
  constructor
  · rw [← hi]
    exact hsp
  · intro j hj hjsp
    have hjlt : j < s.length := (List.getElem?_eq_some_iff.1 hjsp).1
    have := hmin (s.length - 1 - j) (by omega)
    rw [List.getElem?_reverse (by omega)] at this
    apply this
    rw [← hjsp]
    congr 1
    omega

theorem lastSpace_none {s : Str} (h : lastSpace s = none) (j : Nat) : s[j]? ≠ some ' ' := by
  intro hj
  have hlt : j < s.length := (List.getElem?_eq_some_iff.1 hj).1
  have hnone := find_singleton_none.1 (Option.map_eq_none_iff.1 h) (s.length - 1 - j)
  rw [List.getElem?_reverse (by omega)] at hnone
  apply hnone
  rw [← hj]
  congr 1
  omega

section
variable (ha : a + w < text.length)
include ha

theorem window_length : (stretch text a (a + w)).length = w := by
  rw [stretch_length ha.le, Nat.add_sub_cancel_left]

theorem window_lastSpace {i : Nat} (h : lastSpace (stretch text a (a + w)) = some i) :
    i < w ∧ text[a + i]? = some ' ' ∧ ∀ s, a + i < s → s < a + w → text[s]? ≠ some ' ' := by
  obtain ⟨hsp, hmax⟩ := lastSpace_some h
  have hiw : i < w := window_length ha ▸ (List.getElem?_eq_some_iff.1 hsp).1
  rw [stretch_get (by omega)] at hsp
  refine ⟨hiw, hsp, ?_⟩
  intro s his hsw
  have hno := hmax (s - a) (by omega)
  rw [stretch_get (by omega), Nat.add_sub_cancel' (by omega)] at hno
  exact hno

variable (hF : Folded text)
include hF

/-- The whole window is left, but for a space at its end. -/
theorem trim_whole (hcut : ∀ j, a ≤ j → j < a + w → text[j]? ≠ some ' ' → TailLeaves text w a j) :
    ∃ y, Str.rstrip (stretch text a (a + w)) = stretch text a y ∧ EndsAt text w a y := by
  obtain ⟨y, hay, hy, heq, hbelow, hlast⟩ := rstrip_stretch hF (Nat.le_add_right a w) ha.le
  refine ⟨y, heq, hay, fun j hj => hbelow j hj.1 hj.2.1 hj.2.2.1, ?_⟩
  intro hlt
  exact hcut (y - 1) (by omega) (by omega) (hlast hlt)

/-- The cut at the end, where the text goes on behind the window. -/
theorem trim_tail (hw : 0 < w) :
    ∃ y, trimToWordBoundary (stretch text a (a + w)) = stretch text a y ∧ EndsAt text w a y := by
  have hlen : (stretch text a (a + w)).length = w := window_length ha
  obtain ⟨c, hc⟩ : ∃ c, text[a + w - 1]? = some c := ⟨_, List.getElem?_eq_getElem (by omega)⟩
  have hlastc : (stretch text a (a + w)).getLast? = some c := by
    rw [List.getLast?_eq_getElem?, hlen, stretch_get (by omega), ← hc]
    congr 1
    omega
  unfold trimToWordBoundary
  rw [hlastc]
  by_cases hend : Str.isSpace c = true ∨ closing c = true
  · simp only [hend, if_true]
    apply trim_whole ha hF
    intro j hj hjw hjsp
    refine ⟨hj, hjw, hjsp, ?_⟩
    rcases hend with hsp | hmark
    · have hspace : c = ' ' := hF.blank c (List.mem_of_getElem? hc) hsp
      refine Or.inr (Or.inr (Or.inr ⟨a + w - 1, ?_, by omega, by rw [hc, hspace]⟩))
      have hne : j ≠ a + w - 1 := by
        intro he
        rw [he, hc, hspace] at hjsp
        exact hjsp rfl
      omega
    · exact Or.inr (Or.inl ⟨c, hc, hmark⟩)
  · simp only [hend, if_false]
    cases hs : lastSpace (stretch text a (a + w)) with
    | none =>
      apply trim_whole ha hF
      intro j hj hjw hjsp
      refine ⟨hj, hjw, hjsp, Or.inr (Or.inr (Or.inl ?_))⟩
      intro s has hsw _
      have hno := lastSpace_none hs (s - a)
      rw [stretch_get (by omega), Nat.add_sub_cancel' has.le] at hno
      exact hno
    | some i =>
      obtain ⟨hiw, hsp, hafter⟩ := window_lastSpace ha hs
      simp only [hlen]
      split
      · next hnear =>
        rw [stretch_take (by omega)]
        obtain ⟨y, hay, hy, heq, hbelow, hlast⟩ :=
          rstrip_stretch hF (Nat.le_add_right a i) (show a + i ≤ text.length by omega)
        refine ⟨y, heq, hay, ?_, ?_⟩
        · intro j hj
          obtain ⟨haj, hjw, hjsp, hcut⟩ := hj
          apply hbelow j haj _ hjsp
          rcases hcut with hcut | hcut | hcut | hcut
          · omega
          · obtain ⟨d, hd, hmark⟩ := hcut
            rw [hc] at hd
            cases hd
            exact absurd (Or.inr hmark) hend
          · exact absurd hsp (hcut (a + i) (by omega) (by omega) (by omega))
          · obtain ⟨s, hjs, hsw, hssp⟩ := hcut
            by_contra hge
            exact hafter s (by omega) hsw hssp
        · intro hlt
          exact ⟨by omega, by omega, hlast hlt, Or.inr (Or.inr (Or.inr ⟨a + i, by omega, by omega, hsp⟩))⟩
      · next hfar =>
        apply trim_whole ha hF
        intro j hj hjw hjsp
        refine ⟨hj, hjw, hjsp, Or.inr (Or.inr (Or.inl ?_))⟩
        intro s has hsw hnear hssp
        have hsi : s ≤ a + i := by
          by_contra hgt
          exact hafter s (by omega) hsw hssp
        exact hfar ⟨by omega, by omega⟩

end

/-- Nothing is cut where the text ends with the window. -/
theorem whole_tail (hF : Folded text) (hw : 0 < w) (ha : a + w = text.length) : EndsAt text w a (a + w) := by
  refine ⟨Nat.le_add_right a w, fun j hj => hj.2.1, fun _ => ⟨by omega, by omega, ?_, Or.inl ha⟩⟩
  intro hsp
  obtain ⟨c, hc, _⟩ := hF.single _ hsp
  have hlt := (List.getElem?_eq_some_iff.1 hc).1
  omega

theorem EndsAt.le_stop {y : Nat} (h : EndsAt text w a y) : y ≤ a + w := by
  by_cases hlt : a < y
  · have := (h.last hlt).2.1
    omega
  · have := h.start_le
    omega

section
variable (hF : Folded text) {y : Nat}
include hF

/-- A stretch that begins with no space is left as it is. -/
theorem lstrip_stretch {x : Nat} (hx : text[x]? ≠ some ' ') : Str.lstrip (stretch text x y) = stretch text x y := by
  apply Str.lstrip_of_head
  intro c hc
  have hmem : c ∈ text := (stretch_inside text x y).subset (List.mem_of_mem_head? hc)
  cases hsp : Str.isSpace c with
  | false => rfl
  | true =>
    rw [stretch, List.head?_drop, List.getElem?_take] at hc
    split at hc
    · exact absurd (hF.blank c hmem hsp ▸ hc) hx
    · cases hc

variable (hy : EndsAt text w a y)
include hy

/-- A space that is left has something left behind it. -/
theorem space_cuts (ha : 0 < a) {f : Nat} (haf : a ≤ f) (hfy : f < y) (hnear : f ≤ a + wordBoundaryLookback)
    (hsp : text[f]? = some ' ') :
    HeadCuts text w a f ∧ f + 1 ≤ y ∧ Str.lstrip (stretch text (f + 1) y) = stretch text (f + 1) y := by
  have hend := hy.last (by omega)
  have hne : f ≠ y - 1 := by
    intro he
    exact hend.2.2.1 (he ▸ hsp)
  refine ⟨⟨ha, haf, hnear, hsp, y - 1, by omega, hend⟩, hfy, lstrip_stretch hF ?_⟩
  obtain ⟨c, hc, hcsp⟩ := hF.single f hsp
  rw [hc]
  exact fun he => hcsp (Option.some.inj he)

omit hF in
theorem HeadCuts.lt {f : Nat} (h : HeadCuts text w a f) : f < y := by
  obtain ⟨_, _, _, _, j, hfj, hj⟩ := h
  exact hfj.trans (hy.below j hj)

/-- The cut at the start. -/
theorem trim_head (hlen : y ≤ text.length) (ha : 0 < a) :
    ∃ x, a ≤ x ∧ x ≤ y ∧ Str.lstrip (trimLeadingPartialWord (stretch text a y)) = stretch text x y ∧
      StartsAt text w a x := by
  have hget {i : Nat} (hi : a + i < y) : (stretch text a y)[i]? = text[a + i]? := stretch_get hi
  cases hcons : stretch text a y with
  | nil =>
    have hya : y - a = 0 := by rw [← stretch_length hlen, hcons, List.length_nil]
    refine ⟨a, le_rfl, hy.start_le, hcons.symm, Or.inl ⟨rfl, ?_⟩⟩
    intro f hf
    have := hf.lt hy
    have := hf.2.1
    omega
  | cons first rest =>
    have hya : y - a = rest.length + 1 := by rw [← stretch_length hlen, hcons, List.length_cons]
    have hfirst : text[a]? = some first := by
      rw [← Nat.add_zero a, ← hget (by omega), hcons]
      rfl
    simp only [trimLeadingPartialWord]
    rw [← hcons]
    by_cases hsp : Str.isSpace first = true
    · have hspace : first = ' ' := hF.blank first (List.mem_of_getElem? hfirst) hsp
      rw [hspace] at hfirst
      obtain ⟨hcut, hle, hkeep⟩ := space_cuts hF hy ha le_rfl (by omega) (Nat.le_add_right a _) hfirst
      refine ⟨a + 1, Nat.le_succ a, hle, ?_, Or.inr ⟨a, hcut, rfl, fun g hg => hg.2.1⟩⟩
      rw [if_pos hsp, Str.lstrip_of_head (fun c hc => Str.lstrip_head _ hc), ← hkeep, ← stretch_drop, hcons]
      simp [Str.lstrip, hsp]
    · have hgraphic : text[a]? ≠ some ' ' := by
        rw [hfirst]
        intro he
        rw [Option.some.inj he] at hsp
        exact hsp rfl
      rw [if_neg hsp]
      -- no space within reach
      have hnone (hfar : ∀ f, a < f → f < y → f ≤ a + wordBoundaryLookback → text[f]? ≠ some ' ') :
          ∀ f, ¬HeadCuts text w a f := by
        intro f hf
        obtain ⟨_, haf, hnear, hfsp, _⟩ := id hf
        have hne : f ≠ a := by
          intro he
          exact hgraphic (he ▸ hfsp)
        exact hfar f (by omega) (hf.lt hy) hnear hfsp
      cases hs : find (stretch text a y) [' '] with
      | none =>
        refine ⟨a, le_rfl, hy.start_le, lstrip_stretch hF hgraphic, Or.inl ⟨rfl, hnone ?_⟩⟩
        intro f haf hfy _
        have hno := find_singleton_none.1 hs (f - a)
        rw [hget (by omega), Nat.add_sub_cancel' haf.le] at hno
        exact hno
      | some i =>
        obtain ⟨hisp, hmin⟩ := find_singleton.1 hs
        have hilt : i < y - a := stretch_length hlen ▸ (List.getElem?_eq_some_iff.1 hisp).1
        rw [hget (by omega)] at hisp
        have hbefore (f : Nat) (haf : a ≤ f) (hfi : f < a + i) : text[f]? ≠ some ' ' := by
          have hno := hmin (f - a) (by omega)
          rw [hget (by omega), Nat.add_sub_cancel' haf] at hno
          exact hno
        simp only
        split
        · next hnear =>
          obtain ⟨hcut, hle, hkeep⟩ := space_cuts hF hy ha (Nat.le_add_right a i) (by omega) (by omega) hisp
          refine ⟨a + i + 1, by omega, hle, ?_, Or.inr ⟨a + i, hcut, rfl, ?_⟩⟩
          · rw [stretch_drop]
            exact hkeep
          · intro g hg
            by_contra hlt
            exact hbefore g hg.2.1 (by omega) hg.2.2.2.1
        · next hfar =>
          refine ⟨a, le_rfl, hy.start_le, lstrip_stretch hF hgraphic, Or.inl ⟨rfl, hnone ?_⟩⟩
          intro f haf _ hnear
          have hi0 : i ≠ 0 := by
            intro he
            rw [he] at hisp
            exact hgraphic hisp
          exact hbefore f haf.le (by omega)

end

end

/-! ## The excerpt -/

/-- Where the window opens: a third of the budget before the match, if that
leaves it full. -/
def opens (n w m : Nat) : Nat := min (m - w / 3) (n - w)

theorem window_some {n w : Nat} (hw : 0 < w) (hn : w < n) (m : Nat) :
    window n w (some m) = (opens n w m, opens n w m + w) := by
  unfold window opens
  dsimp only
  by_cases hfull : m - w / 3 + w ≤ n
  · rw [min_eq_left (by omega : m - w / 3 ≤ n - w), min_eq_right hfull, if_neg (by omega)]
  · rw [min_eq_right (by omega : n - w ≤ m - w / 3), min_eq_left (by omega : n ≤ m - w / 3 + w), if_pos (by omega),
      Nat.sub_add_cancel hn.le]

section
variable {text : Str} {w a : Nat} (hF : Folded text)
include hF

/-- No white space at the end of what is left, nor of an ellipsis before it. -/
theorem rstrip_left {x y : Nat} (hy : EndsAt text w a y) (hax : a ≤ x) (hxy : x ≤ y) (hlen : y ≤ text.length)
    {pre : Str} (hpre : pre = [] ∨ pre = ['…']) :
    Str.rstrip (pre ++ stretch text x y) = pre ++ stretch text x y := by
  by_cases hlt : x < y
  · have hend : (stretch text x y).getLast? = text[y - 1]? := by
      rw [List.getLast?_eq_getElem?, stretch_length hlen, stretch_get (by omega)]
      congr 1
      omega
    have hne : (stretch text x y).length ≠ 0 := by
      rw [stretch_length hlen]
      omega
    have hstrip : Str.rstrip (stretch text x y) = stretch text x y := by
      have h := Str.lstrip_of_head (s := (stretch text x y).reverse) ?_
      · rw [Str.rstrip, ← Str.lstrip, h, List.reverse_reverse]
      · intro c hc
        rw [List.head?_reverse, hend] at hc
        cases hsp : Str.isSpace c with
        | false => rfl
        | true => exact absurd (hF.blank c (List.mem_of_getElem? hc) hsp ▸ hc) (hy.last (by omega)).2.2.1
    rw [Str.rstrip_over, hstrip]
    rw [hstrip]
    exact fun h => hne (by rw [h]; rfl)
  · have hnil : stretch text x y = [] := by
      apply List.eq_nil_of_length_eq_zero
      rw [stretch_length hlen]
      omega
    rw [hnil]
    rcases hpre with rfl | rfl <;> rfl

theorem excerpt_eq (hw : 0 < w) (ha : a + w ≤ text.length) :
    ∃ x y, a ≤ x ∧ x ≤ y ∧ EndsAt text w a y ∧ StartsAt text w a x ∧
      excerpt text a (a + w) =
        (if 0 < a then ['…'] else []) ++ stretch text x y ++ (if a + w < text.length then ['…'] else []) := by
  have htail : ∃ y, (if a + w < text.length then trimToWordBoundary (stretch text a (a + w))
      else stretch text a (a + w)) = stretch text a y ∧ EndsAt text w a y := by
    split
    · next hlt => exact trim_tail hlt hF hw
    · next hge => exact ⟨a + w, rfl, whole_tail hF hw (by omega)⟩
  obtain ⟨y, hcut, hy⟩ := htail
  have hlen : y ≤ text.length := hy.le_stop.trans ha
  have hhead : ∃ x, a ≤ x ∧ x ≤ y ∧ StartsAt text w a x ∧
      (if 0 < a then '…' :: Str.lstrip (trimLeadingPartialWord (stretch text a y)) else stretch text a y) =
        (if 0 < a then ['…'] else []) ++ stretch text x y := by
    by_cases h0 : 0 < a
    · obtain ⟨x, hax, hxy, heq, hx⟩ := trim_head hF hy hlen h0
      refine ⟨x, hax, hxy, hx, ?_⟩
      rw [if_pos h0, if_pos h0, heq]
      rfl
    · refine ⟨a, le_rfl, hy.start_le, Or.inl ⟨rfl, fun f hf => h0 hf.1⟩, ?_⟩
      rw [if_neg h0, if_neg h0, List.nil_append]
  obtain ⟨x, hax, hxy, hx, hstart⟩ := hhead
  refine ⟨x, y, hax, hxy, hy, hx, ?_⟩
  simp only [excerpt, hcut, hstart]
  split
  · rw [rstrip_left hF hy hax hxy hlen (by split <;> simp)]
  · rw [List.append_nil]

end

/-! ## Lower case -/

section
variable (C : CaseMap)

/-- Where the lower case of the first `i` characters ends. -/
def CaseMap.past (text : Str) (i : Nat) : Nat := (C.lower (text.take i)).length

theorem lower_append (s s' : Str) : C.lower (s ++ s') = C.lower s ++ C.lower s' := List.flatMap_append

theorem lower_stretch (text : Str) {i j : Nat} (hij : i ≤ j) :
    C.lower (stretch text i j) = stretch (C.lower text) (C.past text i) (C.past text j) := by
  have hj : C.lower text = C.lower (text.take j) ++ C.lower (text.drop j) := by
    rw [← lower_append, List.take_append_drop]
  have hi : C.lower (text.take j) = C.lower (text.take i) ++ C.lower (stretch text i j) := by
    rw [← lower_append]
    conv_lhs => rw [← List.take_append_drop i (text.take j), List.take_take, min_eq_left hij]
    rfl
  unfold CaseMap.past
  rw [stretch.eq_def (C.lower text), hj, List.take_left, hi, List.drop_left]

theorem past_mono (text : Str) {i j : Nat} (hij : i ≤ j) : C.past text i ≤ C.past text j := by
  have hpre : text.take i <+: text.take j := List.take_prefix_take_left hij
  obtain ⟨v, hv⟩ := hpre
  rw [CaseMap.past, CaseMap.past, ← hv, lower_append, List.length_append]
  exact Nat.le_add_right _ _

theorem lower_caseless {t : Str} {d : Char} (hd : caseless d = true) (h : d ∈ C.lower t) : d ∈ t := by
  obtain ⟨c, hc, hdc⟩ := List.mem_flatMap.1 h
  rw [C.of_mem c d hdc hd]
  exact hc

theorem lower_ne_nil {t : Str} (ht : t ≠ []) : C.lower t ≠ [] := by
  cases t with
  | nil => exact absurd rfl ht
  | cons c t =>
    intro h
    exact C.nonempty c (List.append_eq_nil_iff.1 h).1

variable {C}

/-- The ellipses spell nothing of a term. -/
theorem lower_infix_dots {t : Str} (ht : t ≠ []) (hdots : '…' ∉ t) {pre post : Str}
    (hpre : pre = [] ∨ pre = ['…']) (hpost : post = [] ∨ post = ['…']) (s : Str) :
    C.lower t <:+: C.lower (pre ++ s ++ post) ↔ C.lower t <:+: C.lower s := by
  have hout {z : Str} (hz : z = [] ∨ z = ['…']) : ∀ d ∈ C.lower z, d ∉ C.lower t := by
    intro d hd ht'
    rcases hz with rfl | rfl
    · cases hd
    · have hd' : d = '…' := by simpa [CaseMap.lower, C.fixed '…' rfl] using hd
      rw [hd'] at ht'
      exact hdots (lower_caseless C rfl ht')
  rw [lower_append, lower_append, infix_apart_right (lower_ne_nil C ht) (hout hpost),
    infix_apart_left (lower_ne_nil C ht) (hout hpre)]

section
variable {y : Str} (hsp : ∀ d ∈ y, Str.isSpace d = false)
include hsp

theorem lower_spaces_apart {v : Str} (hv : ∀ c ∈ v, Str.isSpace c = true) : ∀ d ∈ C.lower v, d ∉ y := by
  intro d hd hdy
  obtain ⟨c, hc, hdc⟩ := List.mem_flatMap.1 hd
  rw [C.fixed c (by simp [caseless, hv c hc])] at hdc
  obtain rfl := List.mem_singleton.1 hdc
  exact absurd (hsp d hdy) (by simp [hv d hc])

/-- White space at the start spells nothing. -/
theorem prefix_space {c : Char} (hc : Str.isSpace c = true) (hy : y ≠ []) (s : Str) : ¬y <+: C.lower (c :: s) := by
  intro h
  have hnil := prefix_of_apart hy (lower_spaces_apart (C := C) hsp (v := [c]) (by simpa using hc))
    (show y <+: C.lower [c] ++ C.lower s by rw [← lower_append]; exact h)
  exact lower_ne_nil C (List.cons_ne_nil c []) hnil

omit hsp in
theorem prefix_collapse : ∀ (s y : Str), (∀ d ∈ y, Str.isSpace d = false) →
    (y <+: C.lower (Compact.collapse s) ↔ y <+: C.lower s)
  | [], _, _ => by rw [Compact.collapse]
  | c :: s, y, hy => by
    by_cases hnil : y = []
    · simp [hnil]
    · by_cases hc : Str.isSpace c = true
      · rw [iff_false_right (prefix_space hy hc hnil s), Compact.collapse, if_pos hc]
        split
        · rw [prefix_collapse s y hy]
          cases s with
          | nil => next hs => cases hs
          | cons d s => exact prefix_space hy (by next hs => exact hs) hnil s
        · exact prefix_space hy (by decide) hnil _
      · rw [Compact.collapse, if_neg hc]
        exact prefix_append_congr (C.low c) fun v hv => prefix_collapse s v fun d hd => hy d (hv.subset hd)

theorem infix_collapse (hy : y ≠ []) : ∀ s : Str, y <:+: C.lower (Compact.collapse s) ↔ y <:+: C.lower s
  | [] => by rw [Compact.collapse]
  | c :: s => by
    by_cases hc : Str.isSpace c = true
    · have hskip {d : Char} (hd : Str.isSpace d = true) (r : Str) : y <:+: C.lower (d :: r) ↔ y <:+: C.lower r := by
        rw [← List.singleton_append, lower_append]
        exact infix_apart_left hy (lower_spaces_apart hsp (by simpa using hd))
      rw [hskip hc, ← infix_collapse hy s, Compact.collapse, if_pos hc]
      split
      · exact Iff.rfl
      · exact hskip (by decide) _
    · rw [Compact.collapse, if_neg hc]
      exact infix_append_congr (C.low c)
        (fun v hv => prefix_collapse s v fun d hd => hsp d (hv.subset hd)) (infix_collapse hy s)

end

/-- A term without white space is read in the folded content when it is read in
the content. -/
theorem read_folded {t : Str} (ht : t ≠ []) (hsp : ∀ c ∈ t, Str.isSpace c = false) (content : Str) :
    C.lower t <:+: C.lower (collapseWhitespace content) ↔ C.lower t <:+: C.lower content := by
  have hy : ∀ d ∈ C.lower t, Str.isSpace d = false := by
    intro d hd
    cases hds : Str.isSpace d with
    | false => rfl
    | true =>
      have := hsp d (lower_caseless C (by simp [caseless, hds]) hd)
      rw [hds] at this
      exact this
  have hne : C.lower t ≠ [] := lower_ne_nil C ht
  rw [← infix_collapse hy hne content]
  obtain ⟨v, hv, hvsp⟩ := Str.rstrip_append (Str.lstrip (Compact.collapse content))
  have hu := List.takeWhile_append_dropWhile (p := Str.isSpace) (l := Compact.collapse content)
  conv_rhs => rw [← hu, lower_append]
  rw [infix_apart_left hne (lower_spaces_apart hy fun c hc => List.all_eq_true.1 List.all_takeWhile c hc)]
  conv_rhs => rw [← Str.lstrip, hv, lower_append]
  rw [infix_apart_right hne (lower_spaces_apart hy hvsp)]
  rfl

end

/-! ## The terms of a query -/

section
variable (C : CaseMap)

theorem token_graphic {c : Char} (h : tokenChar c = true) : caseless c = false := by
  cases hc : caseless c with
  | false => rfl
  | true =>
    exfalso
    have hcase : Str.isSpace c = true ∨ c = '…' := by simpa [caseless] using hc
    rcases hcase with hsp | rfl
    · have hrange : ('A' ≤ c ∧ c ≤ 'Z') ∨ ('a' ≤ c ∧ c ≤ 'z') ∨ ('0' ≤ c ∧ c ≤ '9') ∨ c ∈ "_./:-".toList := by
        simpa [tokenChar] using h
      have hnat : Str.isSpace c = true → 33 ≤ c.toNat → 127 ≤ c.toNat := by
        intro hsp _
        simp only [Str.isSpace, decide_eq_true_eq] at hsp
        omega
      rcases hrange with ⟨hlow, hhigh⟩ | ⟨hlow, hhigh⟩ | ⟨hlow, hhigh⟩ | hmark
      · have h65 : 65 ≤ c.toNat := hlow
        have h90 : c.toNat ≤ 90 := hhigh
        have := hnat hsp (by omega)
        omega
      · have h97 : 97 ≤ c.toNat := hlow
        have h122 : c.toNat ≤ 122 := hhigh
        have := hnat hsp (by omega)
        omega
      · have h48 : 48 ≤ c.toNat := hlow
        have h57 : c.toNat ≤ 57 := hhigh
        have := hnat hsp (by omega)
        omega
      · have hmarks : c = '_' ∨ c = '.' ∨ c = '/' ∨ c = ':' ∨ c = '-' := by simpa using hmark
        rcases hmarks with rfl | rfl | rfl | rfl | rfl <;> cases hsp
    · revert h
      decide +kernel

theorem stripMarks_subset (s : Str) : stripMarks s ⊆ s := by
  intro c hc
  unfold stripMarks at hc
  have h := List.mem_reverse.1 hc
  have h' := List.mem_reverse.1 ((List.dropWhile_sublist _).subset h)
  exact (List.dropWhile_sublist _).subset h'

theorem termsFrom_mem {maxTerms : Int} {P : Str → Prop} : ∀ {raws terms : List Str},
    (∀ t ∈ terms, P t) → (∀ raw ∈ raws, 2 ≤ (stripMarks (C.lower raw)).length → P (stripMarks (C.lower raw))) →
      ∀ t ∈ termsFrom C maxTerms terms raws, P t
  | [], terms, hterms, _ => hterms
  | raw :: raws, terms, hterms, hraws => by
    have hrest : ∀ r ∈ raws, 2 ≤ (stripMarks (C.lower r)).length → P (stripMarks (C.lower r)) :=
      fun r hr => hraws r (List.mem_cons_of_mem raw hr)
    rw [termsFrom]
    split
    · exact termsFrom_mem hterms hrest
    · next hnew =>
      have hadd : ∀ t ∈ terms ++ [stripMarks (C.lower raw)], P t := by
        intro t ht
        rcases List.mem_append.1 ht with ht | ht
        · exact hterms t ht
        · rw [List.mem_singleton.1 ht]
          exact hraws raw List.mem_cons_self (by omega)
      split
      · exact hadd
      · exact termsFrom_mem hadd hrest

/-- A term of a query is no empty word, and has neither white space nor an
ellipsis. -/
theorem query_term_graphic {query : Str} {maxTerms : Int} :
    ∀ t ∈ extractQueryTerms C query maxTerms, t ≠ [] ∧ ∀ c ∈ t, caseless c = false := by
  refine termsFrom_mem C (P := fun t => t ≠ [] ∧ ∀ c ∈ t, caseless c = false) (fun t ht => by cases ht) ?_
  intro raw hraw hlen
  constructor
  · intro hnil
    rw [hnil] at hlen
    exact absurd hlen (by decide)
  · intro c hc
    cases hcase : caseless c with
    | false => rfl
    | true =>
      have hmem : c ∈ raw := lower_caseless C hcase (stripMarks_subset _ hc)
      have htok := splitOnP_mem raw (List.mem_filter.1 hraw).1 c hmem
      rw [← hcase]
      exact token_graphic (by simpa using htok)

end

/-! ## The first match -/

section
variable (C : CaseMap)

/-- The term that the text reads first, and its place in the lower case. -/
structure Earliest (text : Str) (terms : List Str) (t : Str) (m : Nat) : Prop where
  mem : t ∈ terms
  ne_nil : t ≠ []
  found : find (C.lower text) (C.lower t) = some m
  first : ∀ u ∈ terms, u ≠ [] → ∀ k, find (C.lower text) (C.lower u) = some k → m ≤ k

variable {C}

theorem nearer_ge {m : Nat} {first idx : Option Nat} (hfirst : ∀ k, first = some k → m ≤ k)
    (hidx : ∀ k, idx = some k → m ≤ k) : ∀ k, nearer first idx = some k → m ≤ k := by
  intro k hk
  unfold nearer at hk
  split at hk
  · exact hfirst k hk
  · exact hidx k hk
  · split at hk
    · exact hidx k hk
    · exact hfirst k hk

theorem nearer_least {m : Nat} {first idx : Option Nat} (hfirst : ∀ k, first = some k → m ≤ k)
    (hidx : ∀ k, idx = some k → m ≤ k) (h : first = some m ∨ idx = some m) : nearer first idx = some m := by
  cases idx with
  | none =>
    rcases h with h | h
    · cases first <;> exact h
    · cases h
  | some i =>
    have hi := hidx i rfl
    cases first with
    | none =>
      rcases h with h | h
      · cases h
      · exact h
    | some f =>
      have hf := hfirst f rfl
      have hm : f = m ∨ i = m := h.imp Option.some.inj Option.some.inj
      show (if i < f then some i else some f) = some m
      split
      · exact congrArg some (by omega)
      · exact congrArg some (by omega)

theorem firstMatch_least {lowered : Str} {m : Nat} : ∀ {terms : List Str} {first : Option Nat},
    (∀ k, first = some k → m ≤ k) → (∀ u ∈ terms, u ≠ [] → ∀ k, find lowered (C.lower u) = some k → m ≤ k) →
      (first = some m ∨ ∃ t ∈ terms, t ≠ [] ∧ find lowered (C.lower t) = some m) →
        firstMatch C lowered first terms = some m
  | [], first, _, _, h => by
    rcases h with h | h
    · exact h
    · obtain ⟨t, ht, _⟩ := h
      cases ht
  | u :: terms, first, hfirst, hmin, h => by
    have hrest : ∀ v ∈ terms, v ≠ [] → ∀ k, find lowered (C.lower v) = some k → m ≤ k :=
      fun v hv => hmin v (List.mem_cons_of_mem u hv)
    rw [firstMatch]
    split
    · next hu =>
      apply firstMatch_least hfirst hrest
      rcases h with h | h
      · exact Or.inl h
      · obtain ⟨t, ht, hne, hf⟩ := h
        rcases List.mem_cons.1 ht with rfl | ht
        · exact absurd hu hne
        · exact Or.inr ⟨t, ht, hne, hf⟩
    · next hu =>
      have hidx := hmin u List.mem_cons_self hu
      apply firstMatch_least (nearer_ge hfirst hidx) hrest
      rcases h with h | h
      · exact Or.inl (nearer_least hfirst hidx (Or.inl h))
      · obtain ⟨t, ht, hne, hf⟩ := h
        rcases List.mem_cons.1 ht with rfl | ht
        · exact Or.inl (nearer_least hfirst hidx (Or.inr hf))
        · exact Or.inr ⟨t, ht, hne, hf⟩

theorem Earliest.firstMatch {text t : Str} {terms : List Str} {m : Nat} (h : Earliest C text terms t m) :
    firstMatch C (C.lower text) none terms = some m :=
  firstMatch_least (fun _ hk => by cases hk) h.first (Or.inr ⟨t, h.mem, h.ne_nil, h.found⟩)

end

/-! ## The match in the excerpt -/

section
variable (C : CaseMap)

/-- The excerpt holds the term, and is a stretch of the folded content within
the budget, with its ellipses. -/
structure ShowsMatch (snippet text t : Str) (w : Nat) : Prop where
  contains : C.lower t <:+: C.lower snippet
  cut : ∃ pre body post, snippet = pre ++ body ++ post ∧ (pre = [] ∨ pre = ['…']) ∧ (post = [] ∨ post = ['…']) ∧
    body <:+: text ∧ body.length ≤ w

/-- Neither cut reaches the term where the lower case of the text has it at `k`. -/
def Spared (text t : Str) (w a k : Nat) : Prop :=
  (∃ j, TailLeaves text w a j ∧ k + (C.lower t).length ≤ C.past text (j + 1)) ∧
    ((C.past text a ≤ k ∧ ∀ f, ¬HeadCuts text w a f) ∨ ∃ f, HeadCuts text w a f ∧ C.past text (f + 1) ≤ k)

/-- The text fits, the cuts spare the first match at `m`, or they spare a later
one. -/
def InView (text t : Str) (w m : Nat) : Prop :=
  text.length ≤ w ∨ Spared C text t w (opens text.length w m) m ∨
    ∃ k, m < k ∧ C.lower t <+: (C.lower text).drop k ∧ Spared C text t w (opens text.length w m) k

variable {C} {text t : Str} {w a x y : Nat}

theorem spared_iff (hy : EndsAt text w a y) (hx : StartsAt text w a x) (hax : a ≤ x) (ht : t ≠ []) {k : Nat} :
    Spared C text t w a k ↔ C.past text x ≤ k ∧ k + (C.lower t).length ≤ C.past text y := by
  have hpos : 0 < (C.lower t).length := List.length_pos_of_ne_nil (lower_ne_nil C ht)
  constructor
  · intro h
    obtain ⟨hend, hstart⟩ := h
    constructor
    · rcases hx with ⟨rfl, hno⟩ | ⟨f, hf, rfl, hmin⟩
      · rcases hstart with hstart | ⟨g, hg, _⟩
        · exact hstart.1
        · exact absurd hg (hno g)
      · rcases hstart with hstart | ⟨g, hg, hgk⟩
        · exact absurd hf (hstart.2 f)
        · exact (past_mono C text (Nat.succ_le_succ (hmin g hg))).trans hgk
    · obtain ⟨j, hj, hjk⟩ := hend
      exact hjk.trans (past_mono C text (hy.below j hj))
  · intro h
    obtain ⟨hstart, hend⟩ := h
    constructor
    · have hay : a < y := by
        by_contra hle
        have := past_mono C text (show y ≤ x by omega)
        omega
      refine ⟨y - 1, hy.last hay, ?_⟩
      rw [Nat.sub_add_cancel (by omega)]
      exact hend
    · rcases hx with ⟨rfl, hno⟩ | ⟨f, hf, rfl, _⟩
      · exact Or.inl ⟨hstart, hno⟩
      · exact Or.inr ⟨f, hf, hstart⟩

theorem stretch_shows (hy : EndsAt text w a y) (hx : StartsAt text w a x) (hax : a ≤ x) (hxy : x ≤ y) (ht : t ≠ []) :
    C.lower t <:+: C.lower (stretch text x y) ↔
      ∃ k, C.lower t <+: (C.lower text).drop k ∧ Spared C text t w a k := by
  rw [lower_stretch C text hxy, infix_stretch (lower_ne_nil C ht)]
  constructor
  · intro h
    obtain ⟨k, hxk, hky, hk⟩ := h
    exact ⟨k, hk, (spared_iff hy hx hax ht).2 ⟨hxk, hky⟩⟩
  · intro h
    obtain ⟨k, hk, hsp⟩ := h
    obtain ⟨hxk, hky⟩ := (spared_iff hy hx hax ht).1 hsp
    exact ⟨k, hxk, hky, hk⟩

/-- No place comes before the first one. -/
theorem Earliest.places {terms : List Str} {m : Nat} (h : Earliest C text terms t m) (P : Nat → Prop) :
    (∃ k, C.lower t <+: (C.lower text).drop k ∧ P k) ↔
      P m ∨ ∃ k, m < k ∧ C.lower t <+: (C.lower text).drop k ∧ P k := by
  obtain ⟨_, hread, hmin⟩ := find_some.1 h.found
  constructor
  · intro hk
    obtain ⟨k, hk, hp⟩ := hk
    rcases Nat.lt_trichotomy k m with hlt | rfl | hgt
    · exact absurd hk (hmin k hlt)
    · exact Or.inl hp
    · exact Or.inr ⟨k, hgt, hk, hp⟩
  · intro hk
    rcases hk with hp | ⟨k, _, hk, hp⟩
    · exact ⟨m, hread, hp⟩
    · exact ⟨k, hk, hp⟩

end

section
variable {C : CaseMap}

theorem makeSnippet_fits {content : Option Str} {queryTerms : Option (List Str)} {chars : Int}
    (h : (collapseWhitespace (content.getD [])).length ≤ clamp chars) :
    (makeSnippet C content queryTerms chars).1 = collapseWhitespace (content.getD []) := by
  unfold makeSnippet
  dsimp only
  by_cases hraw : content.getD [] = []
  · rw [if_pos hraw, hraw]
    rfl
  · rw [if_neg hraw, if_pos h]

theorem clamp_pos (chars : Int) : 0 < clamp chars := by
  unfold clamp minSnippetChars maxSnippetChars
  omega

theorem makeSnippet_window {content : Option Str} {queryTerms : Option (List Str)} {chars : Int} {t : Str} {m : Nat}
    (h : Earliest C (collapseWhitespace (content.getD [])) (queryTerms.getD []) t m)
    (hlong : clamp chars < (collapseWhitespace (content.getD [])).length) :
    (makeSnippet C content queryTerms chars).1 = excerpt (collapseWhitespace (content.getD []))
      (opens (collapseWhitespace (content.getD [])).length (clamp chars) m)
      (opens (collapseWhitespace (content.getD [])).length (clamp chars) m + clamp chars) := by
  unfold makeSnippet
  dsimp only
  by_cases hraw : content.getD [] = []
  · rw [hraw] at hlong
    exact absurd hlong (Nat.not_lt_zero _)
  · rw [if_neg hraw, if_neg (by omega), h.firstMatch, window_some (clamp_pos chars) hlong]

/-- An excerpt shows the term the content reads first exactly when the cuts at
the ends of its window leave it in view. -/
theorem match_shown {content : Option Str} {queryTerms : Option (List Str)} {chars : Int} {t : Str} {m : Nat}
    (h : Earliest C (collapseWhitespace (content.getD [])) (queryTerms.getD []) t m) (hdots : '…' ∉ t) :
    ShowsMatch C (makeSnippet C content queryTerms chars).1 (collapseWhitespace (content.getD [])) t (clamp chars) ↔
      InView C (collapseWhitespace (content.getD [])) t (clamp chars) m := by
  have hF := folded_collapse (content.getD [])
  have ht := h.ne_nil
  by_cases hfits : (collapseWhitespace (content.getD [])).length ≤ clamp chars
  · rw [makeSnippet_fits hfits]
    refine iff_of_true ⟨?_, [], _, [], by simp, Or.inl rfl, Or.inl rfl, List.infix_rfl, hfits⟩ (Or.inl hfits)
    exact (infix_iff_place (lower_ne_nil C ht)).2 ⟨m, (find_some.1 h.found).2.1⟩
  · rw [makeSnippet_window h (by omega)]
    have hw := clamp_pos chars
    generalize collapseWhitespace (content.getD []) = text at *
    generalize clamp chars = w at *
    have hopen : opens text.length w m + w ≤ text.length := by
      unfold opens
      omega
    obtain ⟨x, y, hax, hxy, hy, hx, heq⟩ := excerpt_eq hF hw hopen
    have hpre : ∀ p : Prop, [Decidable p] → (if p then ['…'] else []) = [] ∨ (if p then ['…'] else []) = ['…'] := by
      intro p _
      split
      · exact Or.inr rfl
      · exact Or.inl rfl
    have hcontains := lower_infix_dots (C := C) ht hdots (hpre (0 < opens text.length w m))
      (hpre (opens text.length w m + w < text.length)) (stretch text x y)
    rw [stretch_shows hy hx hax hxy ht, h.places] at hcontains
    rw [heq]
    constructor
    · intro hshow
      exact Or.inr (hcontains.1 hshow.contains)
    · intro hview
      rcases hview with hview | hview
      · exact absurd hview hfits
      · refine ⟨hcontains.2 hview, _, _, _, rfl, hpre _, hpre _, stretch_inside text x y, ?_⟩
        have := hy.le_stop
        rw [stretch_length (by omega)]
        omega

end

/-! ### A match that is cut off -/

theorem caseless_not_alpha {c : Char} (h : caseless c = true) : c.isAlpha = false := by
  have hnat : c.toNat = c.val.toNat := rfl
  cases hal : c.isAlpha with
  | false => rfl
  | true =>
    have hrange : (65 ≤ c.val.toNat ∧ c.val.toNat ≤ 90) ∨ (97 ≤ c.val.toNat ∧ c.val.toNat ≤ 122) := by
      simpa [Char.isAlpha, Char.isUpper, Char.isLower, UInt32.le_iff_toNat_le] using hal
    have hcase : Str.isSpace c = true ∨ c = '…' := by simpa [caseless] using h
    rcases hcase with hsp | rfl
    · simp only [Str.isSpace, decide_eq_true_eq, hnat] at hsp
      omega
    · simp at hrange

theorem caseless_toLower {c : Char} (h : caseless c.toLower = true) : c.toLower = c := by
  apply Char.toLower_eq_of_not_isUpper
  intro hup
  have halpha : c.isAlpha = false := by
    have hlow : c.toLower.isAlpha = false := caseless_not_alpha h
    rw [Char.isAlpha_toLower_eq_isAlpha] at hlow
    exact hlow
  simp [Char.isAlpha, hup] at halpha

/-- The case map of `Str.lower`. -/
def letterCase : CaseMap where
  low c := Str.lower [c]
  nonempty := by
    intro c
    rw [Str.lower, List.flatMap_singleton]
    split
    · exact List.cons_ne_nil _ _
    · split <;> exact List.cons_ne_nil _ _
  fixed := by
    intro c hc
    rw [Str.lower, List.flatMap_singleton]
    split
    · next hi =>
      rw [hi] at hc
      cases hc
    · split
      · next hk =>
        rw [hk] at hc
        cases hc
      · rw [Char.toLower_eq_of_not_isUpper]
        intro hup
        have halpha := caseless_not_alpha hc
        simp [Char.isAlpha, hup] at halpha
  of_mem := by
    intro c d hd hcase
    rw [Str.lower, List.flatMap_singleton] at hd
    split at hd
    · rcases List.mem_cons.1 hd with rfl | hd
      · cases hcase
      · rw [List.mem_singleton.1 hd] at hcase
        cases hcase
    · split at hd
      · rw [List.mem_singleton.1 hd] at hcase
        cases hcase
      · rw [List.mem_singleton.1 hd] at hcase ⊢
        exact caseless_toLower hcase

/-- Short words, and one that is longer than the cut at the end looks back. -/
def longWord : Str := (List.replicate 20 ['x', ' ']).flatten ++ "auth".toList ++ List.replicate 70 'z'

theorem longWord_earliest :
    Earliest letterCase (collapseWhitespace longWord) ["auth".toList] "auth".toList 40 := by
  refine ⟨List.mem_singleton_self _, by decide, by decide +kernel, ?_⟩
  intro u hu _ k hk
  rw [List.mem_singleton.1 hu] at hk
  have hfound : find (letterCase.lower (collapseWhitespace longWord)) (letterCase.lower "auth".toList) = some 40 := by
    decide +kernel
  rw [hfound] at hk
  exact (Option.some.inj hk).le

theorem match_shown_longWord :
    ShowsMatch letterCase (makeSnippet letterCase (some longWord) (some ["auth".toList]) 80).1
        (collapseWhitespace longWord) "auth".toList (clamp 80) ↔
      InView letterCase (collapseWhitespace longWord) "auth".toList (clamp 80) 40 :=
  @match_shown letterCase (some longWord) (some ["auth".toList]) 80 _ _ longWord_earliest (by decide)

theorem longWord_cut_off :
    Earliest letterCase (collapseWhitespace longWord) ["auth".toList] "auth".toList 40 ∧
      ¬ShowsMatch letterCase (makeSnippet letterCase (some longWord) (some ["auth".toList]) 80).1
        (collapseWhitespace longWord) "auth".toList (clamp 80) := by
  refine ⟨longWord_earliest, ?_⟩
  intro h
  have hread := h.contains
  revert hread
  decide +kernel

end Cograph.Snippet
