import Cograph.LinkPatterns

/-!
# What the auto-linker changes

`auto_link_woven`: the page is cut at its fences, placeholders and links, which
stay; between them whole backticked spans and bare dotted names give way to the
placeholder of a node of the table, and nothing else changes.
-/

namespace Cograph.Wiki

open Regex

/-! ## Bare names -/

/-- `s` after `b` with `n` of its bare names linked, names of `K` at places of
`P`. -/
inductive Bared (letter : Char → Bool) (K P : Str → Prop) : Str → Str → Str → Nat → Prop
  | nil (b) : Bared letter K P b [] [] 0
  | keep {b c s s' n} : Bared letter K P (c :: b) s s' n → Bared letter K P b (c :: s) (c :: s') n
  | link {b name s s' n} : P b → Standing letter b name s → K name → Bared letter K P (name.reverse ++ b) s s' n →
    Bared letter K P b (name ++ s) (nodePlaceholder name ++ s') (n + 1)

section
variable {letter : Char → Bool} {K P P' : Str → Prop} {b s s' t t' w x y y' : Str} {n k : Nat}

theorem readsOn_append (h : readsOn letter s = false) (ht : t.head?.any (nameEdge letter) = false) :
    readsOn letter (s ++ t) = false := by
  have hedge : ∀ c u, t = c :: u → wordChar letter c = false ∧ ¬c = '.' := by
    intro c u hc
    simpa [hc, nameEdge] using ht
  match s with
  | [] =>
    cases t with
    | nil => rfl
    | cons c u => simp [readsOn, hedge c u rfl]
  | [d] =>
    cases t with
    | nil => exact h
    | cons c u =>
      have hd : wordChar letter d = false := by simpa [readsOn] using h
      simp [readsOn, hd, hedge c u rfl]
  | d :: e :: s => exact h

theorem readsOn_left (h : readsOn letter (s ++ t) = false) : readsOn letter s = false := by
  match s with
  | [] => rfl
  | [d] =>
    simp only [List.cons_append, readsOn, Bool.or_eq_false_iff] at h
    simp [readsOn, h.1]
  | d :: e :: s => exact h

theorem Bared.refl (b s : Str) : Bared letter K P b s s 0 := by
  induction s generalizing b with
  | nil => exact .nil b
  | cons c s ih => exact .keep (ih (c :: b))

theorem Bared.mono (hP : ∀ b, P b → P' b) (h : Bared letter K P b s s' n) : Bared letter K P' b s s' n := by
  induction h with
  | nil b => exact .nil b
  | keep _ ih => exact .keep ih
  | link hp hname hk _ ih => exact .link (hP _ hp) hname hk ih

theorem Bared.pass (x : Str) (h : Bared letter K P (x.reverse ++ b) s s' n) :
    Bared letter K P b (x ++ s) (x ++ s') n := by
  induction x generalizing b with
  | nil => exact h
  | cons c x ih =>
    refine .keep (ih ?_)
    simpa using h

theorem Bared.append (h : Bared letter K P b s s' n) (ht : t.head?.any (nameEdge letter) = false)
    (h' : Bared letter K P (s.reverse ++ b) t t' k) : Bared letter K P b (s ++ t) (s' ++ t') (n + k) := by
  induction h with
  | nil b =>
    rw [Nat.zero_add]
    exact h'
  | keep _ ih =>
    refine .keep (ih ?_)
    simpa using h'
  | link hp hname hk _ ih =>
    rw [List.append_assoc, List.append_assoc, Nat.add_right_comm]
    refine .link hp ⟨hname.1, hname.2.1, readsOn_append hname.2.2 ht⟩ hk (ih ?_)
    simpa using h'

theorem Bared.nil_inv (h : Bared letter K P b [] s' n) : s' = [] ∧ n = 0 := by
  generalize hs : ([] : Str) = s at h
  cases h with
  | nil => exact ⟨rfl, rfl⟩
  | keep => cases hs
  | link _ hname => exact absurd (List.append_eq_nil_iff.1 hs.symm).1 hname.1.ne_nil

/-- A character that no name has parts the text in two. -/
theorem Bared.split {d : Char} (hd : nameChar d = false) (h : Bared letter K P b (x ++ d :: y) s' n) :
    ∃ x' y' i j, s' = x' ++ d :: y' ∧ n = i + j ∧ Bared letter K P b x x' i ∧
      Bared letter K P (d :: (x.reverse ++ b)) y y' j := by
  generalize hs : x ++ d :: y = s at h
  induction h generalizing x with
  | nil b => simp at hs
  | @keep b c s s' n h ih =>
    cases x with
    | nil =>
      obtain ⟨rfl, rfl⟩ := List.cons.inj hs
      exact ⟨[], s', 0, n, rfl, (Nat.zero_add n).symm, .nil b, h⟩
    | cons e x =>
      obtain ⟨rfl, hrest⟩ := List.cons.inj hs
      obtain ⟨x', y', i, j, rfl, rfl, hx, hy⟩ := ih hrest
      refine ⟨e :: x', y', i, j, rfl, rfl, .keep hx, ?_⟩
      simpa using hy
  | @link b name s s' n hp hname hk h ih =>
    rcases List.append_eq_append_iff.1 hs with ⟨a, ha, hb⟩ | ⟨a, ha, hb⟩
    · -- the character is not within the name
      obtain rfl : a = [] := by
        cases a with
        | nil => rfl
        | cons e a =>
          obtain ⟨rfl, -⟩ := List.cons.inj hb
          have := hname.1.chars d (by rw [ha]; simp)
          rw [hd] at this
          cases this
      rw [List.append_nil] at ha
      rw [List.nil_append] at hb
      obtain ⟨x', y', i, j, rfl, rfl, hx, hy⟩ := @ih [] hb
      obtain ⟨rfl, rfl⟩ := hx.nil_inv
      subst ha
      refine ⟨nodePlaceholder name, y', 1, j, rfl, by omega, ?_, hy⟩
      have := Bared.link hp ⟨hname.1, hname.2.1, rfl⟩ hk (.nil (name.reverse ++ b))
      simpa using this
    · obtain ⟨x', y', i, j, rfl, rfl, hx, hy⟩ := ih hb.symm
      rw [ha]
      refine ⟨nodePlaceholder name ++ x', y', i + 1, j, by simp, by omega, ?_, by simpa using hy⟩
      rw [hb] at hname
      exact .link hp ⟨hname.1, hname.2.1, readsOn_left hname.2.2⟩ hk hx

/-- Where no place is one of `P` nothing is linked. -/
theorem Bared.quiet (hP : ∀ v c y, s = v ++ c :: y → ¬P (v.reverse ++ b)) (h : Bared letter K P b s s' n) : s' = s := by
  induction h with
  | nil => rfl
  | @keep b c s s' n _ ih =>
    rw [ih fun v d y hs hp => hP (c :: v) d y (by rw [hs]; rfl) (by simpa using hp)]
  | @link b name s s' n hp hname =>
    obtain ⟨c, t, rfl⟩ := List.exists_cons_of_ne_nil hname.1.ne_nil
    exact absurd hp (hP [] c (t ++ s) rfl)

theorem Bared.dotless (hs : '.' ∉ s) (h : Bared letter K P b s s' n) : s' = s ∧ n = 0 := by
  induction h with
  | nil => exact ⟨rfl, rfl⟩
  | keep _ ih =>
    obtain ⟨rfl, rfl⟩ := ih fun hmem => hs (List.mem_cons_of_mem _ hmem)
    exact ⟨rfl, rfl⟩
  | link _ hname => exact absurd (List.mem_append_left _ hname.1.dot) hs

end

/-! ## Spans -/

/-- `s` with `n` of its backticked spans linked, those that hold `raw` to a
target with `L raw target`. -/
inductive Spanned (L : Str → Str → Prop) : Str → Str → Nat → Prop
  | nil : Spanned L [] [] 0
  | char {c s t n} : (c = '`' → ∀ raw u, SpanText raw → s ≠ raw ++ '`' :: u) → Spanned L s t n →
    Spanned L (c :: s) (c :: t) n
  | code {raw s t n} : SpanText raw → Spanned L s t n → Spanned L ('`' :: (raw ++ '`' :: s)) ('`' :: (raw ++ '`' :: t)) n
  | span {raw target s t n} : SpanText raw → L raw target → Spanned L s t n →
    Spanned L ('`' :: (raw ++ '`' :: s)) (nodePlaceholder target ++ t) (n + 1)

section
variable {letter : Char → Bool} {L : Str → Str → Prop} {s t v rest : Str} {n : Nat}

theorem nodePlaceholder_eq (target : Str) :
    nodePlaceholder target = '[' :: '[' :: 'n' :: 'o' :: 'd' :: 'e' :: ':' :: (target ++ [']', ']']) := rfl

theorem wordChar_ascii {c : Char} (hc : c.toNat < 128) : wordChar letter c = (c.isAlphanum || c = '_') := if_pos hc

/-- What a pass leaves alone, one reads the same before a name as after it. -/
theorem Spanned.head (h : Spanned L s t n) : s.head?.any (wordChar letter) = t.head?.any (wordChar letter) := by
  cases h with
  | nil => rfl
  | char => rfl
  | code => rfl
  | span =>
    have htick : wordChar letter '`' = false := by rw [wordChar_ascii] <;> decide
    have hopen : wordChar letter '[' = false := by rw [wordChar_ascii] <;> decide
    simp only [nodePlaceholder_eq, List.cons_append, List.head?_cons, Option.any_some, htick, hopen]

theorem Spanned.readsOn (h : Spanned L s t n) : readsOn letter s = readsOn letter t := by
  have htick : wordChar letter '`' = false := by rw [wordChar_ascii] <;> decide
  have hopen : wordChar letter '[' = false := by rw [wordChar_ascii] <;> decide
  cases h with
  | nil => rfl
  | char _ h => simp only [Wiki.readsOn, h.head]
  | code => simp only [Wiki.readsOn, htick, Bool.false_or]; rfl
  | span => simp only [nodePlaceholder_eq, List.cons_append, Wiki.readsOn, htick, hopen, Bool.false_or]; rfl

/-- A dotted name was there before the pass. -/
theorem Spanned.name (hname : ∀ c ∈ v, nameChar c = true) (h : Spanned L s (v ++ rest) n) :
    ∃ s', s = v ++ s' ∧ Spanned L s' rest n := by
  induction v generalizing s with
  | nil => exact ⟨s, rfl, h⟩
  | cons c v ih =>
    have hc := hname c (by simp)
    generalize ht : c :: v ++ rest = t at h
    cases h with
    | nil => cases ht
    | char _ h =>
      obtain ⟨rfl, rfl⟩ := List.cons.inj ht
      obtain ⟨s', rfl, hrest⟩ := ih (fun d hd => hname d (by simp [hd])) h
      exact ⟨s', rfl, hrest⟩
    | code =>
      rw [(List.cons.inj ht).1] at hc
      cases hc
    | span =>
      rw [nodePlaceholder_eq] at ht
      rw [(List.cons.inj ht).1] at hc
      cases hc

end

/-! ## Both passes over a stretch -/

/-- Holds nothing that ends a placeholder or a link, and no line end. -/
def Quotable (target : Str) : Prop := ']' ∉ target ∧ ')' ∉ target ∧ '\n' ∉ target

/-- A stretch `s` after `b` with `n` links put into it: bare names of `K`, and
spans that hold `raw` for a target with `L raw target`. A span that is kept,
and a target that is not `Quotable`, may have bare names in them linked. -/
inductive Relinked (letter : Char → Bool) (K : Str → Prop) (L : Str → Str → Prop) : Str → Str → Str → Nat → Prop
  | nil (b) : Relinked letter K L b [] [] 0
  | char {b c s s' n} : (c = '`' → ∀ raw u, SpanText raw → s ≠ raw ++ '`' :: u) → Relinked letter K L (c :: b) s s' n →
    Relinked letter K L b (c :: s) (c :: s') n
  | bare {b name s s' n} : Standing letter b name s → K name → Relinked letter K L (name.reverse ++ b) s s' n →
    Relinked letter K L b (name ++ s) (nodePlaceholder name ++ s') (n + 1)
  | code {b raw raw' s s' k n} : SpanText raw → Bared letter K (fun _ => True) ['`'] raw raw' k →
    Relinked letter K L ('`' :: (raw.reverse ++ '`' :: b)) s s' n →
    Relinked letter K L b ('`' :: (raw ++ '`' :: s)) ('`' :: (raw' ++ '`' :: s')) (k + n)
  | span {b raw target target' s s' k n} : SpanText raw → L raw target →
    Bared letter K (fun _ => True) [] target target' k → (Quotable target → target' = target) →
    Relinked letter K L ('`' :: (raw.reverse ++ '`' :: b)) s s' n →
    Relinked letter K L b ('`' :: (raw ++ '`' :: s)) (nodePlaceholder target' ++ s') (k + n + 1)

section
variable {letter : Char → Bool} {K P : Str → Prop} {L : Str → Str → Prop} {b bm s t t' u w x mid out target : Str}
  {n k : Nat}

/-- The text before counts by its last character alone. -/
theorem Bared.rebase (h : Bared letter K P b s t n) : ∀ {b'}, b.head?.any (nameEdge letter) = b'.head?.any (nameEdge letter) →
    Bared letter K (fun _ => True) b' s t n := by
  induction h with
  | nil => exact fun _ => .nil _
  | keep _ ih =>
    intro b' hb
    exact .keep (ih rfl)
  | @link b name s s' n _ hname hk _ ih =>
    intro b' hb
    refine .link trivial ⟨hname.1, hb ▸ hname.2.1, hname.2.2⟩ hk (ih ?_)
    obtain ⟨c, v, hv⟩ := List.exists_cons_of_ne_nil (List.reverse_ne_nil_iff.2 hname.1.ne_nil)
    simp [hv]

theorem Guarded.tail (h : Guarded x) :
    (∃ y, x = y ++ "\n```".toList) ∨ (∃ y, x = y ++ "]]".toList) ∨ ∃ y, x = y ++ [')'] := by
  rcases h with ⟨info, body, -, rfl⟩ | ⟨kind, value, -, -, -, rfl⟩ | ⟨label, url, -, -, -, -, rfl⟩
  · exact .inl ⟨"```".toList ++ (info ++ ("\n".toList ++ body)), by simp⟩
  · exact .inr (.inl ⟨"[[".toList ++ (kind ++ (":".toList ++ value)), by simp⟩)
  · exact .inr (.inr ⟨"[".toList ++ (label ++ ("](".toList ++ url)), by simp⟩)

theorem mem_nodePlaceholder {d : Char} (hd : d ∈ nodePlaceholder target) : d ∈ target ∨ d ∈ ['[', 'n', 'o', 'd', 'e', ':', ']'] := by
  simp only [nodePlaceholder_eq, List.mem_cons, List.mem_append, List.not_mem_nil, or_false] at hd ⊢
  tauto

theorem count_nodePlaceholder (h : ']' ∉ target) : (nodePlaceholder target).count ']' = 2 := by
  simp [nodePlaceholder_eq, List.count_eq_zero.2 h]

/-- What a page is cut at does not end inside a placeholder. -/
theorem Guarded.across (h : Guarded x) (ht : Quotable target) (hx : x = u ++ w) (hw : nodePlaceholder target = w ++ t)
    (hne : w ≠ []) : t = [] := by
  obtain ⟨c, w', hc⟩ := List.exists_cons_of_ne_nil hne
  have hopen : '[' ∈ w := by
    rw [hc, nodePlaceholder_eq] at hw
    rw [hc, ← (List.cons.inj hw).1]
    simp
  have hplain : ∀ d ∈ w, d ∉ target → d ∈ ['[', 'n', 'o', 'd', 'e', ':', ']'] := by
    intro d hd hno
    have hin : d ∈ nodePlaceholder target := by rw [hw]; exact List.mem_append_left _ hd
    exact (mem_nodePlaceholder hin).resolve_left hno
  rcases h.tail with ⟨y, hy⟩ | ⟨y, hy⟩ | ⟨y, hy⟩
  · -- the placeholder would hold the closing fence's line end, or be ticks alone
    rw [hx] at hy
    rcases List.append_eq_append_iff.1 hy with ⟨a, ha, hb⟩ | ⟨a, ha, hb⟩
    · exact absurd (hplain '\n' (by rw [hb]; simp) ht.2.2) (by decide)
    · have hsuf : w <:+ "\n```".toList := ⟨a, hb.symm⟩
      exact absurd (hsuf.subset hopen) (by decide)
  · rw [hx] at hy
    obtain ⟨a, ha⟩ : ∃ a, w = a ++ [']', ']'] := by
      rcases List.append_eq_append_iff.1 hy with ⟨a, ha, hb⟩ | ⟨a, ha, hb⟩
      · exact ⟨a, hb⟩
      · have hsuf : w <:+ "]]".toList := ⟨a, hb.symm⟩
        exact absurd (hsuf.subset hopen) (by decide)
    rcases List.eq_nil_or_concat t with rfl | ⟨t₀, d, rfl⟩
    · rfl
    · -- the last bracket of the placeholder would be a third one
      have hd : d = ']' := by
        have hend : nodePlaceholder target = '[' :: '[' :: 'n' :: 'o' :: 'd' :: 'e' :: ':' :: (target ++ [']']) ++ [']'] := by
          simp [nodePlaceholder_eq]
        rw [hend, List.concat_eq_append, ← List.append_assoc] at hw
        exact (List.append_inj_right' hw rfl |> List.cons.inj |>.1).symm
      have hcount := count_nodePlaceholder ht.1
      rw [hw, ha, hd] at hcount
      simp [List.count_append] at hcount
      omega
  · have hin : ')' ∈ w := by
      have hlast := congrArg List.getLast? (hx.symm.trans hy)
      rw [List.getLast?_append_of_ne_nil _ hne, List.getLast?_concat] at hlast
      exact List.mem_of_getLast? hlast
    exact absurd (hplain _ hin ht.2.1) (by decide)

/-- No place inside a placeholder is exposed. -/
theorem sealed (ht : Quotable target) (hne : target ≠ []) (hx : x = u ++ (nodePlaceholder target ++ w))
    (h : Pattern.Exposed autoLinkSkipRe x b) :
    b.length < u.length ∨ u.length + (nodePlaceholder target).length ≤ b.length := by
  refine h.outside hx ?_ ?_
  · refine skip_isSome (.inr (.inl ⟨"node".toList, target, .inl rfl, hne, ht.1, ?_⟩))
    rfl
  · intro b v m hm
    obtain ⟨q, -, hr, -, -⟩ := Pattern.matchAt_some hm
    have htext : v ++ (nodePlaceholder target ++ w) = m.text ++ q.after := hr.1
    rcases List.append_eq_append_iff.1 htext with ⟨a, ha, hb⟩ | ⟨a, ha, hb⟩
    · by_cases hnil : a = []
      · left
        rw [ha, hnil, List.append_nil]
      · right
        rcases List.append_eq_append_iff.1 hb with ⟨z, hz, -⟩ | ⟨z, hz, -⟩
        · rw [ha, hz]
          simp
        · have := (skip_some hm).across ht ha hz hnil
          rw [ha, hz, this]
          simp
    · left
      rw [ha]
      simp

end

/-! ## A stretch after both passes -/

section
variable {letter : Char → Bool} {K : Str → Prop} {L : Str → Str → Prop} {b bm s mid out x target rest : Str}
  {n k : Nat}

/-- The bare pass over a placeholder and what follows. -/
theorem Bared.placeholder (hx : x = bm.reverse ++ (nodePlaceholder target ++ rest))
    (h : Bared letter K (Pattern.Exposed autoLinkSkipRe x) bm (nodePlaceholder target ++ rest) out k) :
    ∃ target' out' i j, out = nodePlaceholder target' ++ out' ∧ k = i + j ∧
      Bared letter K (fun _ => True) [] target target' i ∧ (Quotable target → target' = target) ∧
      Bared letter K (Pattern.Exposed autoLinkSkipRe x) ((nodePlaceholder target).reverse ++ bm) rest out' j := by
  have hparts : nodePlaceholder target ++ rest =
      ['[', '[', 'n', 'o', 'd', 'e'] ++ ':' :: (target ++ ']' :: ([] ++ ']' :: rest)) := by
    simp [nodePlaceholder_eq]
  rw [hparts] at h
  obtain ⟨v, w, i₁, j₁, rfl, rfl, hv, hw⟩ := h.split (by decide)
  obtain ⟨rfl, rfl⟩ := hv.dotless (by decide)
  obtain ⟨target', w', i, j₂, rfl, rfl, htarget, hw⟩ := hw.split (by decide)
  obtain ⟨v, out', i₃, j, rfl, rfl, hv, hrest⟩ := hw.split (by decide)
  obtain ⟨rfl, rfl⟩ := hv.nil_inv
  refine ⟨target', out', i, j, by simp [nodePlaceholder_eq], by omega, htarget.rebase ?_, ?_, ?_⟩
  · have hcolon : nameEdge letter ':' = false := by
      rw [nameEdge, wordChar_ascii (by decide)]
      decide
    simp [hcolon]
  · intro hquote
    refine htarget.quiet ?_
    intro v c y hv hexposed
    -- the place would lie inside the placeholder
    have hlen := congrArg List.length hv
    have hout := sealed hquote (by rw [hv]; simp) hx hexposed
    simp only [nodePlaceholder_eq, List.length_append, List.length_cons, List.length_reverse, List.length_nil] at hout hlen
    omega
  · simpa [nodePlaceholder_eq] using hrest

theorem relinked (hs : Spanned L s mid n) (hx : x = bm.reverse ++ mid)
    (hbare : Bared letter K (Pattern.Exposed autoLinkSkipRe x) bm mid out k)
    (hedge : b.head?.any (nameEdge letter) = bm.head?.any (nameEdge letter)) : Relinked letter K L b s out (n + k) := by
  have htick : nameEdge letter '`' = false := by
    rw [nameEdge, wordChar_ascii (by decide)]
    decide
  have hclose : nameEdge letter ']' = false := by
    rw [nameEdge, wordChar_ascii (by decide)]
    decide
  induction hlen : s.length using Nat.strongRecOn generalizing b bm s mid out n k with
  | _ len ih =>
    cases hs with
    | nil =>
      obtain ⟨rfl, rfl⟩ := hbare.nil_inv
      exact .nil b
    | @char c s t n hno h =>
      generalize ht : c :: t = mid at hbare
      cases hbare with
      | nil => cases ht
      | keep hbare =>
        obtain ⟨rfl, rfl⟩ := List.cons.inj ht
        refine .char hno (ih s.length (by simp at hlen; omega) h ?_ hbare rfl rfl)
        rw [hx]
        simp
      | @link _ v rest out k hp hname hk hbare =>
        have hspan : Spanned L (c :: s) (v ++ rest) n := by
          rw [← ht]
          exact .char hno h
        obtain ⟨s', hs', h'⟩ := hspan.name hname.1.chars
        have hpos := List.length_pos_iff.2 hname.1.ne_nil
        have hlen' := congrArg List.length hs'
        rw [List.length_append] at hlen'
        rw [hs', ← Nat.add_assoc]
        refine .bare ⟨hname.1, hedge.trans hname.2.1, h'.readsOn.trans hname.2.2⟩ hk
          (ih s'.length (by omega) h' ?_ hbare ?_ rfl)
        · rw [hx, ht]
          simp
        · rw [List.head?_append_of_ne_nil _ (by simpa using hname.1.ne_nil),
            List.head?_append_of_ne_nil _ (by simpa using hname.1.ne_nil)]
    | @code raw s t n hraw h =>
      obtain ⟨v, w, i, j, rfl, rfl, hv, hw⟩ := Bared.split (x := []) (by decide) hbare
      obtain ⟨rfl, rfl⟩ := hv.nil_inv
      obtain ⟨raw', out', i, j, rfl, rfl, hin, hrest⟩ := hw.split (by decide)
      rw [show n + (0 + (i + j)) = i + (n + j) by omega]
      refine .code hraw (hin.rebase ?_) (ih s.length (by simp at hlen; omega) h ?_ hrest ?_ rfl)
      · rfl
      · rw [hx]
        simp
      · rfl
    | @span raw target s t n hraw htarget h =>
      obtain ⟨target', out', i, j, rfl, rfl, hin, hquote, hrest⟩ := Bared.placeholder hx hbare
      rw [show n + 1 + (i + j) = i + (n + j) + 1 by omega]
      refine .span hraw htarget hin hquote (ih s.length (by simp at hlen; omega) h ?_ hrest ?_ rfl)
      · rw [hx]
        simp
      · simp [nodePlaceholder_eq, htick, hclose]

end

/-! ## The passes of the code -/

section
variable {letter : Char → Bool} {K P : Str → Prop} {L : Str → Str → Prop} {R : Resolved} {maxLinks : Int}
  {b b₀ s w : Str} {ts : List Token} {ps : List (Str × Bool)} {n : Nat}

theorem linkTo_cases (maxLinks : Int) (target : Match → Option Str) (n : Nat) (m : Match) :
    linkTo maxLinks target n m = (m.text, n) ∨
      ∃ t, target m = some t ∧ (n : Int) < maxLinks ∧ linkTo maxLinks target n m = (nodePlaceholder t, n + 1) := by
  unfold linkTo
  split
  · exact .inl rfl
  · next hroom =>
    split
    · exact .inl rfl
    · next t ht => exact .inr ⟨t, ht, by omega, rfl⟩

theorem subWith_room (target : Match → Option Str) (ts : List Token) {n : Nat} (hn : (n : Int) ≤ max maxLinks 0) :
    ((subWith (linkTo maxLinks target) n ts).2 : Int) ≤ max maxLinks 0 := by
  induction ts generalizing n with
  | nil => exact hn
  | cons t ts ih =>
    cases t with
    | plain c => exact ih hn
    | hit m =>
      refine ih ?_
      rcases linkTo_cases maxLinks target n m with h | ⟨t, -, hroom, h⟩
      · rw [h]
        exact hn
      · rw [h]
        push_cast
        omega

theorem spanned_scan (hL : ∀ m t, innerOf m ≠ [] → spanTarget R (innerOf m) = some t → L (m.group 1) t)
    (h : Pattern.Scans backtickRe b s ts) (n : Nat) : ∃ k, (subWith (onBacktick R maxLinks) n ts).2 = n + k ∧
      Spanned L s (subWith (onBacktick R maxLinks) n ts).1 k := by
  induction h generalizing n with
  | nil b => exact ⟨0, rfl, .nil⟩
  | @plain b c s ts hm _ ih =>
    obtain ⟨k, hk, hs⟩ := ih n
    refine ⟨k, hk, .char ?_ hs⟩
    rintro rfl raw u hraw
    exact backtick_none hm hraw
  | @hit b m t ts hm _ ih =>
    obtain ⟨raw, hraw, htext, hgroup⟩ := backtick_some hm
    have hsrc : m.text ++ t = '`' :: (raw ++ '`' :: t) := by
      rw [htext]
      simp
    rw [subWith, hsrc]
    rcases linkTo_cases maxLinks (fun m => if innerOf m = [] then none else spanTarget R (innerOf m)) n m with
      h | ⟨target, ht, -, h⟩
    · rw [onBacktick, h]
      obtain ⟨k, hk, hs⟩ := ih n
      refine ⟨k, hk, ?_⟩
      have hout : ∀ u, m.text ++ u = '`' :: (raw ++ '`' :: u) := by
        intro u
        rw [htext]
        simp
      rw [hout]
      exact .code hraw hs
    · rw [onBacktick, h]
      obtain ⟨k, hk, hs⟩ := ih (n + 1)
      split at ht
      · cases ht
      · next hne =>
        have hlink := hL m target hne ht
        rw [hgroup] at hlink
        exact ⟨k + 1, hk.trans (by omega), .span hraw hlink hs⟩

theorem bared_scan (hK : ∀ v t, Dict.get R.qns v = some t → t = v ∧ K v) (hb₀ : b₀.head?.any (nameEdge letter) = false)
    (h : Pattern.Scans (bareDottedRe letter) b s ts) (hP : ∀ v c y, s = v ++ c :: y → P (v.reverse ++ (b ++ b₀)))
    (n : Nat) : ∃ k, (subWith (onBare R maxLinks) n ts).2 = n + k ∧
      Bared letter K P (b ++ b₀) s (subWith (onBare R maxLinks) n ts).1 k := by
  induction h generalizing n with
  | nil b => exact ⟨0, rfl, .nil _⟩
  | @plain b c s ts _ _ ih =>
    obtain ⟨k, hk, hs⟩ := ih (fun v d y hs => by simpa using hP (c :: v) d y (by rw [hs]; rfl)) n
    exact ⟨k, hk, .keep hs⟩
  | @hit b m t ts hm _ ih =>
    have hstand := bare_some hm
    have hnext : ∀ v c y, t = v ++ c :: y → P (v.reverse ++ (m.text.reverse ++ b ++ b₀)) := by
      intro v d y ht
      simpa using hP (m.text ++ v) d y (by rw [ht]; simp)
    rw [subWith]
    rcases linkTo_cases maxLinks (fun m => Dict.get R.qns m.text) n m with h | ⟨target, ht, -, h⟩
    · rw [onBare, h]
      obtain ⟨k, hk, hs⟩ := ih hnext n
      refine ⟨k, hk, Bared.pass _ ?_⟩
      rwa [← List.append_assoc]
    · rw [onBare, h]
      obtain ⟨k, hk, hs⟩ := ih hnext (n + 1)
      obtain ⟨rfl, hk'⟩ := hK _ _ ht
      obtain ⟨c, v, hv⟩ := List.exists_cons_of_ne_nil hstand.1.ne_nil
      refine ⟨k + 1, hk.trans (by omega), .link ?_ ⟨hstand.1, ?_, hstand.2.2⟩ hk' (by rwa [← List.append_assoc])⟩
      · exact hP [] c (v ++ t) (by rw [hv]; rfl)
      · rw [List.head?_append]
        cases hb : b.head? with
        | none => simpa [hb] using hb₀
        | some c =>
          have := hstand.2.1
          rw [hb] at this
          exact this

/-! ## The parts of a text -/

theorem splitFrom_cut {r : Pattern} {b' : Str} (h : Pattern.Scans r b' s ts) : ∀ {markdown p run b},
    markdown = p ++ (run ++ s) → b' = run.reverse ++ b → Pattern.Silent r b run s →
      Pattern.Cut r b (run ++ s) (splitFrom markdown p.length (positions (p ++ run).length ts)) := by
  have hstretch : ∀ {markdown p run s : Str}, markdown = p ++ (run ++ s) →
      (if p.length < (p ++ run).length then [(slice markdown p.length (p ++ run).length, true)] else []) =
        Pattern.stretch run := by
    intro markdown p run s hm
    rw [Pattern.stretch]
    by_cases hrun : run = []
    · simp [hrun]
    · have hpos := List.length_pos_iff.2 hrun
      have htake : slice markdown p.length (p ++ run).length = run := by
        rw [slice, hm, ← List.append_assoc, List.take_left, List.drop_left]
      rw [if_neg hrun, if_pos (by rw [List.length_append]; omega), htake]
  induction h with
  | nil b' =>
    intro markdown p run b hm _ hquiet
    rw [List.append_nil] at hm ⊢
    have hpart := @hstretch markdown p run [] (by rw [List.append_nil]; exact hm)
    have hlast : splitFrom markdown p.length [] = Pattern.stretch run := by
      rw [splitFrom, ← hpart, hm]
      have hdrop : slice (p ++ run) p.length (p ++ run).length = (p ++ run).drop p.length := by
        rw [slice, List.take_length]
      rw [hdrop]
    rw [positions, hlast]
    exact .last hquiet
  | @plain b' c s ts hnone _ ih =>
    intro markdown p run b hm hb hquiet
    have hlen : (p ++ run).length + 1 = (p ++ (run ++ [c])).length := by
      simp only [List.length_append, List.length_cons, List.length_nil]
      omega
    rw [positions, hlen, List.append_cons]
    refine ih (by rw [hm]; simp) (by rw [hb]; simp) ?_
    intro v d y hv
    rcases List.eq_nil_or_concat y with rfl | ⟨y, e, rfl⟩
    · obtain ⟨rfl, hd⟩ := List.append_inj' hv rfl
      obtain rfl : c = d := (List.cons.inj hd).1
      rw [← hb]
      exact hnone
    · rw [List.concat_eq_append, ← List.cons_append, ← List.append_assoc] at hv
      obtain ⟨hrun, he⟩ := List.append_inj' hv rfl
      obtain rfl : c = e := (List.cons.inj he).1
      have := hquiet v d y hrun
      simpa using this
  | @hit b' m t ts hm' _ ih =>
    intro markdown p run b hm hb hquiet
    rw [positions, splitFrom, hstretch hm]
    rw [hb] at hm' ih
    refine .kept hquiet hm' ?_
    have hrest := @ih markdown (p ++ run ++ m.text) [] (m.text.reverse ++ (run.reverse ++ b)) (by rw [hm]; simp) rfl
      (by intro v c y hv; simp at hv)
    rw [List.length_append] at hrest
    simpa [Nat.add_assoc] using hrest

theorem split_cut (markdown : Str) : Pattern.Cut autoLinkSkipRe [] markdown (splitSafeUnsafe markdown) :=
  @splitFrom_cut _ _ autoLinkSkipRe [] (Pattern.scans autoLinkSkipRe [] markdown) markdown [] [] [] rfl rfl
    (by intro v c y hv; simp at hv)

theorem overSafe_stretch {f : Nat → Str → Str × Nat} (hf : ∀ n, f n [] = ([], n)) (w : Str) (ps : List (Str × Bool))
    (n : Nat) : overSafe f n (Pattern.stretch w ++ ps) =
      ((f n w).1 ++ (overSafe f (f n w).2 ps).1, (overSafe f (f n w).2 ps).2) := by
  unfold Pattern.stretch
  split
  · next hw => simp [hw, hf]
  · simp [overSafe]

theorem overSafe_kept (f : Nat → Str → Str × Nat) (n : Nat) (x : Str) (ps : List (Str × Bool)) :
    overSafe f n ((x, false) :: ps) = (x ++ (overSafe f n ps).1, (overSafe f n ps).2) := rfl

theorem Guarded.edges (h : ∃ x, Guarded x ∧ s = x) :
    s.head?.any (nameEdge letter) = false ∧ s.reverse.head?.any (nameEdge letter) = false := by
  have hedge : ∀ c, c = '`' ∨ c = '[' ∨ c = ']' ∨ c = ')' → nameEdge letter c = false := by
    intro c hc
    rcases hc with rfl | rfl | rfl | rfl
    all_goals
      rw [nameEdge, wordChar_ascii (by decide)]
      decide
  obtain ⟨x, hx, rfl⟩ := h
  constructor
  · rcases hx with ⟨info, body, -, rfl⟩ | ⟨kind, value, -, -, -, rfl⟩ | ⟨label, url, -, -, -, -, rfl⟩
    · exact hedge '`' (by simp)
    · exact hedge '[' (by simp)
    · exact hedge '[' (by simp)
  · rcases hx.tail with ⟨y, rfl⟩ | ⟨y, rfl⟩ | ⟨y, rfl⟩
    · rw [List.reverse_append]
      exact hedge '`' (by simp)
    · rw [List.reverse_append]
      exact hedge ']' (by simp)
    · rw [List.reverse_append]
      exact hedge ')' (by simp)

theorem linkBare_nil (n : Nat) : linkBare letter R maxLinks n [] = ([], n) := rfl

theorem replaceInSafe_nil (n : Nat) : replaceInSafe letter R maxLinks n [] = ([], n) := by
  have hspans : subWith (onBacktick R maxLinks) n (backtickRe.scan 0 [] []) = ([], n) := rfl
  have hparts : overSafe (linkBare letter R maxLinks) n (splitSafeUnsafe []) = ([], n) := rfl
  unfold replaceInSafe
  rw [hspans]
  dsimp only
  rw [hparts]
  simp

/-- The bare pass over the parts of a text. -/
theorem bared_parts {x : Str} (hK : ∀ v t, Dict.get R.qns v = some t → t = v ∧ K v)
    (h : Pattern.Cut autoLinkSkipRe b s ps) (hcomes : Pattern.Comes autoLinkSkipRe x b s)
    (hb : b.head?.any (nameEdge letter) = false) (n : Nat) :
    ∃ k, (overSafe (linkBare letter R maxLinks) n ps).2 = n + k ∧
      Bared letter K (Pattern.Exposed autoLinkSkipRe x) b s (overSafe (linkBare letter R maxLinks) n ps).1 k := by
  have hrun : ∀ {b w s n}, Pattern.Comes autoLinkSkipRe x b (w ++ s) → Pattern.Silent autoLinkSkipRe b w s →
      b.head?.any (nameEdge letter) = false → ∃ k, (linkBare letter R maxLinks n w).2 = n + k ∧
        Bared letter K (Pattern.Exposed autoLinkSkipRe x) b w (linkBare letter R maxLinks n w).1 k := by
    intro b w s n hcomes hquiet hb
    have hall : ∀ v c y, w = v ++ c :: y → Pattern.Exposed autoLinkSkipRe x (v.reverse ++ ([] ++ b)) :=
      fun v c y hv => hcomes.exposed hquiet hv
    exact bared_scan hK hb (Pattern.scans (bareDottedRe letter) [] w) hall n
  induction h generalizing n with
  | @last b w hquiet =>
    obtain ⟨k, hk, hw⟩ := hrun (n := n) (s := []) (by rwa [List.append_nil]) hquiet hb
    rw [← List.append_nil (Pattern.stretch w), overSafe_stretch linkBare_nil]
    refine ⟨k, hk, ?_⟩
    simpa [overSafe] using hw
  | @kept b w m s ps hquiet hm _ ih =>
    obtain ⟨k, hk, hw⟩ := hrun (n := n) hcomes hquiet hb
    obtain ⟨hhead, hlast⟩ := @Guarded.edges letter _ ⟨m.text, skip_some hm, rfl⟩
    obtain ⟨-, -, -, hne, -⟩ := Pattern.matchAt_some hm
    have hnext : (m.text.reverse ++ (w.reverse ++ b)).head?.any (nameEdge letter) = false := by
      rwa [List.head?_append_of_ne_nil _ (by simpa using hne)]
    obtain ⟨j, hj, hs⟩ := ih (.hit (hcomes.over hquiet) hm) hnext (linkBare letter R maxLinks n w).2
    rw [overSafe_stretch linkBare_nil, overSafe_kept]
    refine ⟨k + j, by rw [hj, hk]; omega, hw.append ?_ (hs.pass m.text)⟩
    rwa [List.head?_append_of_ne_nil _ hne]

theorem Spanned.refl (h : Pattern.Scans backtickRe b s ts) : Spanned L s s 0 := by
  induction h with
  | nil b => exact .nil
  | @plain b c s ts hm _ ih =>
    refine .char ?_ ih
    rintro rfl raw u hraw
    exact backtick_none hm hraw
  | @hit b m t ts hm _ ih =>
    obtain ⟨raw, hraw, htext, -⟩ := backtick_some hm
    have hsrc : m.text ++ t = '`' :: (raw ++ '`' :: t) := by
      rw [htext]
      simp
    rw [hsrc]
    exact .code hraw ih

theorem Relinked.refl (w : Str) : Relinked letter K L [] w w 0 :=
  relinked (Spanned.refl (Pattern.scans backtickRe [] w)) rfl (Bared.refl [] w) rfl

theorem relinked_stretch (hK : ∀ v t, Dict.get R.qns v = some t → t = v ∧ K v)
    (hL : ∀ m t, innerOf m ≠ [] → spanTarget R (innerOf m) = some t → L (m.group 1) t) (n : Nat) (w : Str) :
    ∃ k, (replaceInSafe letter R maxLinks n w).2 = n + k ∧
      Relinked letter K L [] w (replaceInSafe letter R maxLinks n w).1 k := by
  unfold replaceInSafe
  split
  · exact ⟨0, rfl, Relinked.refl w⟩
  · obtain ⟨k, hk, hs⟩ := @spanned_scan L R maxLinks [] w _ hL (Pattern.scans backtickRe [] w) n
    dsimp only
    split
    · exact ⟨k, hk, relinked hs rfl (Bared.refl [] _) rfl⟩
    · obtain ⟨j, hj, hbare⟩ := @bared_parts letter K R maxLinks _ _ _ _ hK
        (split_cut (subWith (onBacktick R maxLinks) n (backtickRe.scan 0 [] w)).1) .start rfl
        (subWith (onBacktick R maxLinks) n (backtickRe.scan 0 [] w)).2
      exact ⟨k + j, by rw [hj, hk]; omega, relinked hs (by simp) hbare rfl⟩

theorem overSafe_room {f : Nat → Str → Str × Nat}
    (hf : ∀ {n : Nat}, (n : Int) ≤ max maxLinks 0 → ∀ w, ((f n w).2 : Int) ≤ max maxLinks 0) (ps : List (Str × Bool)) :
    ∀ {n : Nat}, (n : Int) ≤ max maxLinks 0 → ((overSafe f n ps).2 : Int) ≤ max maxLinks 0 := by
  induction ps with
  | nil => exact fun hn => hn
  | cons part ps ih =>
    intro n hn
    rw [overSafe]
    refine ih ?_
    split
    · exact hf hn _
    · exact hn

theorem replaceInSafe_room (hn : (n : Int) ≤ max maxLinks 0) (w : Str) :
    ((replaceInSafe letter R maxLinks n w).2 : Int) ≤ max maxLinks 0 := by
  unfold replaceInSafe
  split
  · exact hn
  · dsimp only
    have hspans := subWith_room (fun m => if innerOf m = [] then none else spanTarget R (innerOf m))
      (backtickRe.scan 0 [] w) hn
    split
    · exact hspans
    · exact overSafe_room (fun hn w => subWith_room _ _ hn) _ hspans

end

/-! ## A page -/

/-- Nothing a page is cut at begins in `w`, read before `s`. -/
def Unguarded (w s : Str) : Prop := ∀ v c y, w = v ++ c :: y → ∀ x t, c :: (y ++ s) = x ++ t → ¬Guarded x

/-- A page read from left to right: what begins as a fence, a placeholder or a
link stays, and each stretch before, between and after is `Relinked`. -/
inductive Woven (letter : Char → Bool) (K : Str → Prop) (L : Str → Str → Prop) : Str → Str → Nat → Prop
  | last {w w' n} : Unguarded w [] → Relinked letter K L [] w w' n → Woven letter K L w w' n
  | kept {w w' x s s' n k} : Unguarded w (x ++ s) → Relinked letter K L [] w w' n → Guarded x →
    Woven letter K L s s' k → Woven letter K L (w ++ (x ++ s)) (w' ++ (x ++ s')) (n + k)

/-- The qualified name of a node of the repository. -/
def Known (nodes : List CodeNodeRow) (repositoryId : Nat) (name : Str) : Prop :=
  ∃ row ∈ nodes, row.repositoryId = repositoryId ∧ row.qualifiedName = name

/-- The qualified name of the page's nodes of this name, which all have it. -/
def OnlyNamed (nodes : List CodeNodeRow) (repositoryId : Nat) (pageNodeIds : List Nat) (name target : Str) : Prop :=
  (∃ row ∈ nodes, row.repositoryId = repositoryId ∧ row.id ∈ pageNodeIds ∧ row.name = name ∧ row.qualifiedName = target) ∧
    ∀ row ∈ nodes, row.repositoryId = repositoryId → row.id ∈ pageNodeIds → row.name = name → row.qualifiedName = target

/-- What a span that holds `raw` may be linked to: the dotted name it holds, or
the node that its one word names. -/
def SpanLink (nodes : List CodeNodeRow) (repositoryId : Nat) (pageNodeIds : List Nat) (raw target : Str) : Prop :=
  let inner := stripDecorator (Str.strip raw)
  dottedToken inner = true ∧ target = inner ∧ Known nodes repositoryId target ∨
    identToken inner = true ∧ inner ∉ autoLinkStoplist ∧ OnlyNamed nodes repositoryId pageNodeIds inner target

section
variable {nodes : List CodeNodeRow} {repositoryId : Nat} {pageNodeIds : List Nat} {qns singles : List Str} {R : Resolved}
  {inner name target raw : Str}

theorem qnToResolved_some (h : Dict.get (qnToResolved nodes repositoryId qns) name = some target) :
    target = name ∧ Known nodes repositoryId name := by
  have hall : ∀ (rows : List CodeNodeRow) (d : Dict.Items Str Str),
      (∀ k v, Dict.get d k = some v → v = k ∧ Known nodes repositoryId k) →
      (∀ row ∈ rows, Known nodes repositoryId row.qualifiedName) → ∀ k v,
      Dict.get (rows.foldl (fun d row => Dict.put d row.qualifiedName row.qualifiedName) d) k = some v →
        v = k ∧ Known nodes repositoryId k := by
    intro rows
    induction rows with
    | nil => exact fun d hd _ => hd
    | cons row rows ih =>
      intro d hd hrows
      refine ih _ ?_ fun r hr => hrows r (by simp [hr])
      intro k v hk
      by_cases he : row.qualifiedName = k
      · subst he
        rw [Dict.get_put_self] at hk
        exact ⟨(Option.some.inj hk).symm, hrows row (by simp)⟩
      · rw [Dict.get_put_ne _ _ he] at hk
        exact hd k v hk
  refine hall _ [] (by simp) ?_ _ _ h
  intro row hrow
  simp only [List.mem_filter, decide_eq_true_eq] at hrow
  exact ⟨row, hrow.1, hrow.2.1, rfl⟩

/-- The names seen hold the first qualified name of each, and a name with
another is among the ambiguous ones. -/
theorem seeName_fold (rows done : List CodeNodeRow) (seen : Dict.Items Str Str × List Str)
    (hseen : ∀ k v, Dict.get seen.1 k = some v → ∃ row ∈ done, row.name = k ∧ row.qualifiedName = v)
    (hall : ∀ row ∈ done, row.name ∈ seen.2 ∨ Dict.get seen.1 row.name = some row.qualifiedName) :
    (∀ k v, Dict.get (rows.foldl seeName seen).1 k = some v → ∃ row ∈ done ++ rows, row.name = k ∧ row.qualifiedName = v) ∧
      ∀ row ∈ done ++ rows, row.name ∈ (rows.foldl seeName seen).2 ∨
        Dict.get (rows.foldl seeName seen).1 row.name = some row.qualifiedName := by
  induction rows generalizing done seen with
  | nil => simpa using ⟨hseen, hall⟩
  | cons row rows ih =>
    rw [List.foldl_cons, List.append_cons]
    refine ih (done ++ [row]) (seeName seen row) ?_ ?_
    · intro k v hk
      unfold seeName at hk
      split at hk
      · obtain ⟨r, hr, h⟩ := hseen k v hk
        exact ⟨r, List.mem_append_left _ hr, h⟩
      · by_cases he : row.name = k
        · subst he
          rw [Dict.get_put_self] at hk
          exact ⟨row, by simp, rfl, Option.some.inj hk⟩
        · rw [Dict.get_put_ne _ _ he] at hk
          obtain ⟨r, hr, h⟩ := hseen k v hk
          exact ⟨r, List.mem_append_left _ hr, h⟩
    · intro r hr
      unfold seeName
      split
      · rcases List.mem_append.1 hr with hr | hr
        · exact (hall r hr).imp_left (List.mem_cons_of_mem _)
        · rw [List.mem_singleton.1 hr]
          exact .inl List.mem_cons_self
      · next hfirst =>
        by_cases he : row.name = r.name
        · rcases List.mem_append.1 hr with hr | hr
          · refine (hall r hr).imp_right fun hget => ?_
            rw [← he] at hget ⊢
            rw [hget] at hfirst
            have hsame : r.qualifiedName = row.qualifiedName := by simpa using hfirst
            rw [Dict.get_put_self, hsame]
          · rw [List.mem_singleton.1 hr, Dict.get_put_self]
            exact .inr rfl
        · rw [Dict.get_put_ne _ _ he]
          rcases List.mem_append.1 hr with hr | hr
          · exact hall r hr
          · exact absurd (by rw [List.mem_singleton.1 hr]) he

theorem get_of_filter {d : Dict.Items Str Str} {p : Str → Bool} (h : Dict.get (d.filter (p ·.1)) name = some target) :
    p name = true ∧ Dict.get d name = some target := by
  induction d with
  | nil => cases h
  | cons x d ih =>
    rw [Dict.get_cons]
    by_cases hx : p x.1 = true
    · rw [List.filter_cons, if_pos hx, Dict.get_cons] at h
      split at h
      · next he => exact ⟨he ▸ hx, by rw [if_pos he]; exact h⟩
      · next he => exact ⟨(ih h).1, by rw [if_neg he]; exact (ih h).2⟩
    · rw [List.filter_cons, if_neg hx] at h
      obtain ⟨hp, hget⟩ := ih h
      refine ⟨hp, ?_⟩
      rwa [if_neg fun he => hx (by rw [he]; exact hp)]

theorem nameToResolved_some (h : Dict.get (nameToResolved nodes repositoryId pageNodeIds singles) name = some target) :
    OnlyNamed nodes repositoryId pageNodeIds name target := by
  obtain ⟨hseen, hall⟩ := seeName_fold (nodes.filter fun row => row.repositoryId = repositoryId ∧ row.id ∈ pageNodeIds ∧
    row.name ∈ singles) [] ([], []) (by simp) (by simp)
  rw [List.nil_append] at hseen hall
  obtain ⟨hclear, hget⟩ := get_of_filter (p := fun k => decide (k ∉ _)) h
  obtain ⟨row, hrow, hn, hq⟩ := hseen _ _ hget
  simp only [List.mem_filter, decide_eq_true_eq] at hrow hall
  refine ⟨⟨row, hrow.1, hrow.2.1, hrow.2.2.1, hn, hq⟩, ?_⟩
  intro r hr hrepo hid hname
  rcases hall r ⟨hr, hrepo, hid, by rw [hname, ← hn]; exact hrow.2.2.2⟩ with hin | hget'
  · rw [hname] at hin
    exact absurd hin (by simpa using hclear)
  · rw [hname, hget] at hget'
    exact (Option.some.inj hget').symm

theorem resolve_qns (h : Dict.get (resolve nodes repositoryId pageNodeIds qns singles).qns name = some target) :
    target = name ∧ Known nodes repositoryId name := by
  unfold resolve at h
  dsimp only at h
  split at h
  · cases h
  · exact qnToResolved_some h

theorem resolve_names (h : Dict.get (resolve nodes repositoryId pageNodeIds qns singles).names name = some target) :
    OnlyNamed nodes repositoryId pageNodeIds name target := by
  unfold resolve at h
  dsimp only at h
  split at h
  · cases h
  · exact nameToResolved_some h

theorem spanTarget_some (hqns : ∀ v t, Dict.get R.qns v = some t → t = v ∧ Known nodes repositoryId v)
    (hnames : ∀ v t, Dict.get R.names v = some t → OnlyNamed nodes repositoryId pageNodeIds v t)
    (h : spanTarget R (stripDecorator (Str.strip raw)) = some target) :
    SpanLink nodes repositoryId pageNodeIds raw target := by
  unfold spanTarget at h
  split at h
  · next hdot =>
    obtain ⟨he, hk⟩ := hqns _ _ h
    exact .inl ⟨hdot, he, he ▸ hk⟩
  · split at h
    · next hident => exact .inr ⟨hident.1, hident.2, hnames _ _ h⟩
    · cases h

end

section
variable {letter : Char → Bool} {K : Str → Prop} {L : Str → Str → Prop} {b s : Str} {ps : List (Str × Bool)}

theorem skip_none {c : Char} {x t : Str} (h : autoLinkSkipRe.matchAt b (c :: s) = none) (hs : c :: s = x ++ t) :
    ¬Guarded x := by
  intro hx
  rw [hs] at h
  exact skip_isSome hx h

theorem woven_parts {f : Nat → Str → Str × Nat} (hnil : ∀ n, f n [] = ([], n))
    (hf : ∀ n w, ∃ k, (f n w).2 = n + k ∧ Relinked letter K L [] w (f n w).1 k)
    (h : Pattern.Cut autoLinkSkipRe b s ps) (n : Nat) :
    ∃ k, (overSafe f n ps).2 = n + k ∧ Woven letter K L s (overSafe f n ps).1 k := by
  induction h generalizing n with
  | @last b w hquiet =>
    obtain ⟨k, hk, hw⟩ := hf n w
    rw [← List.append_nil (Pattern.stretch w), overSafe_stretch hnil]
    refine ⟨k, hk, ?_⟩
    rw [overSafe, List.append_nil]
    exact .last (fun v c y hv x t hs => skip_none (hquiet v c y hv) hs) hw
  | @kept b w m s ps hquiet hm _ ih =>
    obtain ⟨k, hk, hw⟩ := hf n w
    obtain ⟨j, hj, hs⟩ := ih (f n w).2
    rw [overSafe_stretch hnil, overSafe_kept]
    exact ⟨k + j, by rw [hj, hk]; omega, .kept (fun v c y hv x t hs => skip_none (hquiet v c y hv) hs) hw (skip_some hm) hs⟩

theorem overSafe_id (ps : List (Str × Bool)) (n : Nat) :
    overSafe (fun n w => (w, n)) n ps = ((ps.map (·.1)).flatten, n) := by
  induction ps with
  | nil => rfl
  | cons part ps ih =>
    rw [overSafe, ite_self, ih]
    rfl

theorem cut_text {r : Pattern} (h : Pattern.Cut r b s ps) : (ps.map (·.1)).flatten = s := by
  have hstretch : ∀ w, ((Pattern.stretch w).map (·.1)).flatten = w := by
    intro w
    unfold Pattern.stretch
    split
    · next hw => simp [hw]
    · simp
  induction h with
  | last => exact hstretch _
  | kept _ _ _ ih => rw [List.map_append, List.flatten_append, hstretch, List.map_cons, List.flatten_cons, ih]

end

end Cograph.Wiki
