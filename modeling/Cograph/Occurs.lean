import Cograph.Regex
import Mathlib.Data.List.Forall2

/-!
# Patterns and where their matches stand

A pattern without `lineStart` does not look behind, and a fixed one finds the
same match whatever stands around it. Where the matches of a fixed pattern
begin with a character they have nowhere else, no two overlap, and `finditer`
lists every place that one stands at.
-/

namespace Regex

/-! ## Patterns that do not look behind -/

def unanchored : Regex → Bool
  | lineStart => false
  | empty | sat _ | lineEnd => true
  | seq r s | alt r s => unanchored r && unanchored s
  | star r | group _ r => unanchored r

/-- Points that differ in what stands before them only. -/
def Same (p q : Point) : Prop := p.after = q.after ∧ p.groups = q.groups

section
variable {r : Regex} {p q : Point} {ps qs : List Point}

theorem many_same {step : Point → List Point} (hstep : ∀ p q, Same p q → List.Forall₂ Same (step p) (step q)) (n : Nat)
    (h : Same p q) : List.Forall₂ Same (many step n p) (many step n q) := by
  induction n generalizing p q with
  | zero => exact .cons h .nil
  | succ n ih =>
    have hnext := List.rel_filter (R := Same) (p := (·.after.length < p.after.length))
      (q := (·.after.length < q.after.length)) (by
        intro a b hab
        simp only [hab.1, h.1]) (hstep p q h)
    exact List.rel_append (List.rel_flatMap hnext fun _ _ hpq => ih hpq) (.cons h .nil)

theorem ends_same (hr : r.unanchored = true) (h : Same p q) : List.Forall₂ Same (ends r p) (ends r q) := by
  induction r generalizing p q with
  | empty => exact .cons h .nil
  | sat f =>
    unfold ends
    rw [← h.1]
    cases p.after with
    | nil => exact .nil
    | cons c s =>
      dsimp only
      split
      · exact .cons ⟨rfl, h.2⟩ .nil
      · exact .nil
  | seq r s ihr ihs =>
    obtain ⟨hr, hs⟩ := Bool.and_eq_true_iff.1 hr
    exact List.rel_flatMap (ihr hr h) fun _ _ hpq => ihs hs hpq
  | alt r s ihr ihs =>
    obtain ⟨hr, hs⟩ := Bool.and_eq_true_iff.1 hr
    exact List.rel_append (ihr hr h) (ihs hs h)
  | star r ih =>
    unfold ends
    rw [← h.1]
    exact many_same (fun p q hpq => ih hr hpq) _ h
  | group n r ih =>
    unfold ends
    rw [List.forall₂_map_left_iff, List.forall₂_map_right_iff]
    refine (ih hr h).imp fun a b hab => ⟨hab.1, ?_⟩
    simp only [Point.upto, h.1, hab.1, hab.2]
  | lineStart => cases hr
  | lineEnd =>
    unfold ends
    rw [← h.1]
    split
    · exact .cons h .nil
    · exact .nil

theorem blind_of_unanchored (hr : r.unanchored = true) : r.Blind := by
  intro b b' s
  have hends := ends_same hr (p := ⟨b, s, []⟩) (q := ⟨b', s, []⟩) ⟨rfl, rfl⟩
  cases h : ends r ⟨b, s, []⟩ with
  | nil =>
    rw [h] at hends
    simp [matchAt, h, List.forall₂_nil_left_iff.1 hends]
  | cons x xs =>
    rw [h] at hends
    obtain ⟨y, ys, hxy, -, hys⟩ := List.forall₂_cons_left_iff.1 hends
    simp [matchAt, h, hys, Point.upto, hxy.1, hxy.2]

/-- Behind the start of a line it looks no further. -/
theorem matchAt_anchored (hr : r.unanchored = true) {b b' : List Char} (hb : b.head?.getD '\n' = b'.head?.getD '\n')
    (s : List Char) : matchAt (seq lineStart r) b s = matchAt (seq lineStart r) b' s := by
  have hline : ∀ b, matchAt (seq lineStart r) b s = if b.head?.getD '\n' = '\n' then matchAt r b s else none := by
    intro b
    unfold matchAt
    simp only [ends]
    split
    · simp
    · rfl
  rw [hline, hline, hb, blind_of_unanchored hr b b' s]

theorem scan_anchored (hr : r.unanchored = true) {b b' : List Char} (hb : b.head?.getD '\n' = b'.head?.getD '\n')
    (s : List Char) : scan (seq lineStart r) 0 b s = scan (seq lineStart r) 0 b' s := by
  revert b'
  apply scan_induct (r := seq lineStart r) (motive := fun b s ts => ∀ {b' : List Char},
    b.head?.getD '\n' = b'.head?.getD '\n' → ts = scan (seq lineStart r) 0 b' s)
  · intro b b' _
    rfl
  · intro b c s hm ih b' hb
    rw [matchAt_anchored hr hb] at hm
    rw [scan_plain hm, @ih (c :: b') rfl]
  · intro b m t hm ih b' hb
    obtain ⟨q, -, -, hne, -⟩ := matchAt_some hm
    have hlast : (m.text.reverse ++ b).head?.getD '\n' = (m.text.reverse ++ b').head?.getD '\n' := by
      rw [List.head?_append_of_ne_nil _ (by simpa using hne), List.head?_append_of_ne_nil _ (by simpa using hne)]
    rw [matchAt_anchored hr hb] at hm
    rw [scan_hit hm rfl, ih hlast]

end

/-! ## Patterns that look at nothing around them -/

/-- A match is found wherever its text stands. -/
def Fixed (r : Regex) : Prop :=
  ∀ {b s m}, matchAt r b s = some m → ∀ b' t, matchAt r b' (m.text ++ t) = some m

/-- A match begins with the character and does not hold it again. -/
def Solo (d : Char) (r : Regex) : Prop := ∀ {b s m}, matchAt r b s = some m → ∃ t, m.text = d :: t ∧ d ∉ t

/-- No match that begins in `x` runs on into `y`. -/
def Whole (r : Regex) (x y : List Char) : Prop :=
  ∀ t, t ≠ [] → t <:+ x → ∀ m, matchAt r [] (t ++ y) = some m → m.text.length ≤ t.length

section
variable {r : Regex} {d : Char} {s x y : List Char}

theorem Fixed.blind (hf : Fixed r) : r.Blind := by
  have hsome : ∀ {b b' s m}, matchAt r b s = some m → matchAt r b' s = some m := by
    intro b b' s m hm
    obtain ⟨q, -, hs, -, -⟩ := matchAt_some hm
    have h := hf hm b' q.after
    rwa [← hs] at h
  intro b b' s
  cases hm : matchAt r b s with
  | some m => exact (hsome hm).symm
  | none =>
    cases hm' : matchAt r b' s with
    | none => rfl
    | some m =>
      rw [hsome hm'] at hm
      cases hm

theorem Whole.suffix (h : Whole r (x ++ y) s) : Whole r y s := fun t ht hsuf =>
  h t ht (hsuf.trans (List.suffix_append x y))

theorem Fixed.scan_whole (hf : Fixed r) (h : Whole r x y) : scan r 0 [] (x ++ y) = scan r 0 [] x ++ scan r 0 [] y := by
  apply scan_append hf.blind
  intro t ht hsuf
  cases hm : matchAt r [] (t ++ y) with
  | none =>
    cases hm' : matchAt r [] t with
    | none => rfl
    | some m =>
      obtain ⟨q, -, hs, -, -⟩ := matchAt_some hm'
      have hlong := hf hm' [] (q.after ++ y)
      rw [← List.append_assoc, ← hs, hm] at hlong
      cases hlong
  | some m =>
    obtain ⟨q, -, hs, -, -⟩ := matchAt_some hm
    have hlen := h t ht hsuf m hm
    obtain ⟨v, rfl, -⟩ : ∃ v, t = m.text ++ v ∧ q.after = v ++ y := by
      rcases List.append_eq_append_iff.1 hs with ⟨v, hv, hq⟩ | ⟨v, hv, hq⟩
      · have hnil : v = [] := by
          have := congrArg List.length hv
          rw [List.length_append] at this
          exact List.length_eq_zero_iff.1 (by omega)
        rw [hnil, List.append_nil] at hv
        exact ⟨[], by rw [hv, List.append_nil], by simpa [hnil] using hq.symm⟩
      · exact ⟨v, hv, hq⟩
    exact (hf hm [] v).symm

/-- `finditer` lists every place where the text of a match stands. -/
theorem mem_finditer (hf : Fixed r) (hd : Solo d r) {z : Nat × Match} : z ∈ finditer r s ↔
    ∃ v w, s = v ++ (z.2.text ++ w) ∧ z.1 = v.length ∧ matchAt r [] z.2.text = some z.2 := by
  have htext : ∀ {b s m}, matchAt r b s = some m → matchAt r [] m.text = some m := by
    intro b s m hm
    have h := hf hm [] []
    rwa [List.append_nil] at h
  constructor
  · intro hz
    obtain ⟨v, w, hs, hv, hm⟩ := finditer_split hz
    exact ⟨v, w, hs, hv, htext hm⟩
  · intro ⟨v, w, hs, hv, hm⟩
    obtain ⟨i, m⟩ := z
    dsimp only at hs hv hm
    have hall : ∀ i v, s = v ++ (m.text ++ w) → (i + v.length, m) ∈ positions i (scan r 0 [] s) := by
      clear hs hv v i
      apply scan_induct (r := r) (motive := fun _ s ts => ∀ i v, s = v ++ (m.text ++ w) →
        (i + v.length, m) ∈ positions i ts) (b := []) (s := s)
      · intro b i v hs
        obtain ⟨t, ht, -⟩ := hd hm
        simp [ht] at hs
      · intro b c s hnone ih i v hs
        cases v with
        | nil =>
          have h := hf hm b w
          rw [← List.nil_append (m.text ++ w), ← hs, hnone] at h
          cases h
        | cons e v =>
          have h := ih (i + 1) v (List.cons.inj hs).2
          rw [positions]
          rwa [List.length_cons, Nat.add_comm v.length, ← Nat.add_assoc]
      · intro b m' t hm' ih i v hs
        cases v with
        | nil =>
          have h := hf hm b w
          rw [← List.nil_append (m.text ++ w), ← hs, hm'] at h
          rw [positions, Option.some.inj h]
          exact List.mem_cons_self
        | cons e v =>
          -- the next match begins after this one ends
          obtain ⟨u, hu, hno⟩ := hd hm'
          obtain ⟨t', ht', -⟩ := hd hm
          rw [hu, List.cons_append, List.cons_append] at hs
          obtain ⟨rfl, hrest⟩ := List.cons.inj hs
          obtain ⟨v', rfl, ht⟩ : ∃ v', v = u ++ v' ∧ t = v' ++ (m.text ++ w) := by
            rcases List.append_eq_append_iff.1 hrest with ⟨a, ha, hb⟩ | ⟨a, ha, hb⟩
            · exact ⟨a, ha, hb⟩
            · cases a with
              | nil => exact ⟨[], by simpa using ha.symm, by simpa using hb.symm⟩
              | cons c a =>
                rw [ht'] at hb
                obtain ⟨rfl, -⟩ := List.cons.inj hb
                exact absurd (by rw [ha]; simp) hno
          have h := ih (i + m'.text.length) v' ht
          rw [positions]
          refine List.mem_cons_of_mem _ ?_
          rw [hu] at h
          simpa [hu, Nat.add_assoc, Nat.add_comm, Nat.add_left_comm] using h
    have h := hall 0 v hs
    rw [finditer, hv]
    rwa [Nat.zero_add] at h

end

end Regex
