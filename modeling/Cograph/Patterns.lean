import Cograph.Regex

/-!
# Patterns that look around, and texts cut by them

A pattern is a function from a point to the points a match can end at, in the
order a backtracking matcher tries them. Beside those of `Regex` there are lazy
repetition and the assertions that look behind, ahead and at the end. `scan`
reads a text as before, `Scans` says how, and `subWith` rewrites the matches
with a state passed along.
-/

namespace Regex

structure Pattern where
  ends : Point → List Point
  reads : ∀ p, ∀ q ∈ ends p, ∃ w, Reads p w q

namespace Pattern

def ofRegex (r : Regex) : Pattern where
  ends := Regex.ends r
  reads p q h := by
    obtain ⟨w, hw, -⟩ := ends_reads (within_true r) h
    exact ⟨w, hw⟩

def lit (w : List Char) : Pattern := ofRegex (Regex.lit w)

def sat (f : Char → Bool) : Pattern := ofRegex (Regex.sat f)

def star (f : Char → Bool) : Pattern := ofRegex (Regex.star (Regex.sat f))

def plus (f : Char → Bool) : Pattern := ofRegex (Regex.plus (Regex.sat f))

def seq (r s : Pattern) : Pattern where
  ends p := (r.ends p).flatMap s.ends
  reads p q h := by
    obtain ⟨m, hm, hq⟩ := List.mem_flatMap.1 h
    obtain ⟨v, hv⟩ := r.reads p m hm
    obtain ⟨w, hw⟩ := s.reads m q hq
    exact ⟨v ++ w, hv.trans hw⟩

def alt (r s : Pattern) : Pattern where
  ends p := r.ends p ++ s.ends p
  reads p q h := by
    rcases List.mem_append.1 h with h | h
    · exact r.reads p q h
    · exact s.reads p q h

def group (n : Nat) (r : Pattern) : Pattern where
  ends p := (r.ends p).map fun q => { q with groups := (n, p.upto q) :: q.groups }
  reads p q h := by
    obtain ⟨m, hm, rfl⟩ := List.mem_map.1 h
    obtain ⟨w, hw⟩ := r.reads p m hm
    exact ⟨w, hw⟩

/-- The points along a run of characters, the nearest first. -/
def along (f : Char → Bool) (groups : List (Nat × List Char)) : List Char → List Char → List Point
  | b, [] => [⟨b, [], groups⟩]
  | b, c :: s => ⟨b, c :: s, groups⟩ :: if f c then along f groups (c :: b) s else []

theorem mem_along {f : Char → Bool} {groups : List (Nat × List Char)} {b s : List Char} {q : Point} :
    q ∈ along f groups b s ↔ ∃ w, Reaches ⟨b, s, groups⟩ w q ∧ ∀ c ∈ w, f c = true := by
  induction s generalizing b with
  | nil =>
    simp only [along, List.mem_singleton]
    constructor
    · intro h
      exact ⟨[], reaches_nil.2 h, by simp⟩
    · intro h
      obtain ⟨w, hq, -⟩ := h
      cases w with
      | nil => exact reaches_nil.1 hq
      | cons c w =>
        obtain ⟨t, ht, -⟩ := reaches_cons.1 hq
        cases ht
  | cons c s ih =>
    simp only [along, List.mem_cons]
    constructor
    · intro h
      rcases h with h | h
      · exact ⟨[], reaches_nil.2 h, by simp⟩
      · split at h
        · next hc =>
          obtain ⟨w, hq, hw⟩ := ih.1 h
          exact ⟨c :: w, reaches_cons.2 ⟨s, rfl, hq⟩, by simpa [hc] using hw⟩
        · cases h
    · intro h
      obtain ⟨w, hq, hw⟩ := h
      cases w with
      | nil => exact .inl (reaches_nil.1 hq)
      | cons d w =>
        obtain ⟨t, ht, hq⟩ := reaches_cons.1 hq
        obtain ⟨rfl, rfl⟩ := List.cons.inj ht
        right
        rw [if_pos (hw _ (by simp))]
        exact ih.2 ⟨w, hq, fun e he => hw e (by simp [he])⟩

/-- Lazy repetition of a character, `[..]*?`. -/
def lazyStar (f : Char → Bool) : Pattern where
  ends p := along f p.groups p.before p.after
  reads p q h := by
    obtain ⟨w, hw, -⟩ := mem_along.1 h
    exact ⟨w, hw.1⟩

def lazyPlus (f : Char → Bool) : Pattern := seq (sat f) (lazyStar f)

/-- Stays where it is, if at all. -/
def guarded (f : Point → Bool) : Pattern where
  ends p := if f p then [p] else []
  reads p q h := by
    split at h
    · exact ⟨[], by rw [List.mem_singleton.1 h]; exact Reads.refl p⟩
    · cases h

/-- `(?<![..])`. -/
def notBehind (f : Char → Bool) : Pattern := guarded fun p => !p.before.head?.any f

/-- `(?!..)`. -/
def notAhead (r : Pattern) : Pattern := guarded fun p => (r.ends p).isEmpty

/-- `$`, which passes over a last line feed. -/
def atEnd : Pattern := guarded fun p => p.after = [] ∨ p.after = ['\n']

def matchAt (r : Pattern) (before after : List Char) : Option Match :=
  let p := ⟨before, after, []⟩
  ((r.ends p).head?.map fun q => ⟨p.upto q, q.groups⟩).filter (·.text ≠ [])

/-- The tokens of the text after the first `n` characters, which belong to a
match. -/
def scan (r : Pattern) : Nat → List Char → List Char → List Token
  | _, _, [] => []
  | n + 1, before, c :: s => scan r n (c :: before) s
  | 0, before, c :: s =>
    match r.matchAt before (c :: s) with
    | some m => .hit m :: scan r (m.text.length - 1) (c :: before) s
    | none => .plain c :: scan r 0 (c :: before) s

def finditer (r : Pattern) (s : List Char) : List (Nat × Match) := positions 0 (r.scan 0 [] s)

def sub (r : Pattern) (f : Match → List Char) (s : List Char) : List Char := (r.scan 0 [] s).flatMap (Token.subst f)

end Pattern

/-- `re.sub` with a callback that keeps a state. -/
def subWith {σ : Type} (f : σ → Match → List Char × σ) : σ → List Token → List Char × σ
  | st, [] => ([], st)
  | st, .plain c :: ts => ((c :: (subWith f st ts).1), (subWith f st ts).2)
  | st, .hit m :: ts => ((f st m).1 ++ (subWith f (f st m).2 ts).1, (subWith f (f st m).2 ts).2)

/-! ## Where a match can end -/

namespace Pattern

section
variable {r s : Pattern} {p q : Point} {f : Char → Bool} {w : List Char}

@[simp] theorem mem_seq : q ∈ (seq r s).ends p ↔ ∃ m ∈ r.ends p, q ∈ s.ends m := List.mem_flatMap

@[simp] theorem mem_alt : q ∈ (alt r s).ends p ↔ q ∈ r.ends p ∨ q ∈ s.ends p := List.mem_append

@[simp] theorem mem_lit : q ∈ (lit w).ends p ↔ Reaches p w q := mem_ends_lit

@[simp] theorem mem_sat : q ∈ (sat f).ends p ↔ ∃ c, Reaches p [c] q ∧ f c = true := mem_ends_sat

@[simp] theorem mem_star : q ∈ (star f).ends p ↔ ∃ w, Reaches p w q ∧ ∀ c ∈ w, f c = true := mem_ends_star_sat

@[simp] theorem mem_plus : q ∈ (plus f).ends p ↔ ∃ w, w ≠ [] ∧ Reaches p w q ∧ ∀ c ∈ w, f c = true :=
  mem_ends_plus_sat

@[simp] theorem mem_lazyStar : q ∈ (lazyStar f).ends p ↔ ∃ w, Reaches p w q ∧ ∀ c ∈ w, f c = true := mem_along

@[simp] theorem mem_guarded {g : Point → Bool} : q ∈ (guarded g).ends p ↔ q = p ∧ g p = true := by
  simp only [guarded]
  split <;> simp_all

@[simp] theorem mem_group {n : Nat} : q ∈ (group n r).ends p ↔
    ∃ m ∈ r.ends p, q = { m with groups := (n, p.upto m) :: m.groups } := by
  simp [group, eq_comm]

end

/-! ## Scanning -/

/-- How a text is read: character by character where no match begins. -/
inductive Scans (r : Pattern) : List Char → List Char → List Token → Prop
  | nil (b) : Scans r b [] []
  | plain {b c s ts} : r.matchAt b (c :: s) = none → Scans r (c :: b) s ts → Scans r b (c :: s) (.plain c :: ts)
  | hit {b m t ts} : r.matchAt b (m.text ++ t) = some m → Scans r (m.text.reverse ++ b) t ts →
    Scans r b (m.text ++ t) (.hit m :: ts)

section
variable {r : Pattern} {b s : List Char} {m : Match}

theorem matchAt_some (h : r.matchAt b s = some m) :
    ∃ q ∈ r.ends ⟨b, s, []⟩, Reads ⟨b, s, []⟩ m.text q ∧ m.text ≠ [] ∧ m.groups = q.groups := by
  simp only [matchAt, Option.filter_eq_some_iff, Option.map_eq_some_iff] at h
  obtain ⟨⟨q, hq, rfl⟩, hne⟩ := h
  have hmem : q ∈ r.ends ⟨b, s, []⟩ := List.mem_of_head? hq
  obtain ⟨w, hw⟩ := r.reads _ _ hmem
  exact ⟨q, hmem, by rw [hw.upto_eq]; exact hw, by simpa using hne, rfl⟩

/-- A pattern that ends somewhere, and never where it began, has a match. -/
theorem matchAt_isSome (hne : ∀ q ∈ r.ends ⟨b, s, []⟩, q.after.length < s.length) (h : ∃ q, q ∈ r.ends ⟨b, s, []⟩) :
    r.matchAt b s ≠ none := by
  obtain ⟨q, hq⟩ := h
  cases hall : r.ends ⟨b, s, []⟩ with
  | nil =>
    rw [hall] at hq
    cases hq
  | cons x xs =>
    have hlt := hne x (by simp [hall])
    have htext : s.take (s.length - x.after.length) ≠ [] := by
      intro he
      have := congrArg List.length he
      simp at this
      omega
    simp [matchAt, hall, Point.upto, htext]

theorem scan_drop (n : Nat) (hn : n ≤ s.length) : r.scan n b s = r.scan 0 ((s.take n).reverse ++ b) (s.drop n) := by
  induction n generalizing b s with
  | zero => simp
  | succ n ih =>
    cases s with
    | nil => simp at hn
    | cons c s =>
      rw [scan, ih (by simpa using hn)]
      simp

theorem scans (r : Pattern) (b s : List Char) : Scans r b s (r.scan 0 b s) := by
  induction hn : s.length using Nat.strongRecOn generalizing b s with
  | _ n ih =>
    cases s with
    | nil => exact .nil b
    | cons c s =>
      cases h : r.matchAt b (c :: s) with
      | none =>
        rw [scan, h]
        exact .plain h (ih s.length (by simp at hn; omega) _ _ rfl)
      | some m =>
        obtain ⟨q, -, hr, hne, -⟩ := matchAt_some h
        obtain ⟨d, w, hm⟩ := List.exists_cons_of_ne_nil hne
        have hs : c :: s = m.text ++ q.after := hr.1
        obtain ⟨rfl, hsw⟩ : c = d ∧ s = w ++ q.after := by simpa [hm] using hs
        have hrest := ih q.after.length (by rw [hsw] at hn; simp at hn; omega) (m.text.reverse ++ b) q.after rfl
        have hscan : r.scan 0 b (c :: s) = .hit m :: r.scan 0 (m.text.reverse ++ b) q.after := by
          rw [scan, h]
          simp only [hm, List.length_cons, Nat.add_sub_cancel]
          rw [scan_drop _ (by simp [hsw]), hsw]
          simp
        rw [hscan, hs]
        rw [hs] at h
        exact .hit h hrest

end

/-! ## The first way a pattern ends -/

def first (r : Pattern) (p : Point) : Option Point := (r.ends p).head?

section
variable {r s : Pattern} {p m q : Point}

theorem first_alt : (alt r s).first p = (r.first p).or (s.first p) := List.head?_append

theorem first_group (n : Nat) :
    (group n r).first p = (r.first p).map fun q => { q with groups := (n, p.upto q) :: q.groups } :=
  List.head?_map

theorem first_seq (hm : r.first p = some m) (hq : s.first m = some q) : (seq r s).first p = some q := by
  unfold first at *
  cases h : r.ends p with
  | nil => simp [h] at hm
  | cons x xs =>
    obtain rfl : x = m := by simpa [h] using hm
    simp [seq, h, List.head?_append, hq]

theorem first_seq_none (hm : r.first p = none) : (seq r s).first p = none := by
  unfold first at *
  simp [seq, List.head?_eq_none_iff.1 hm]

theorem first_lit {w t : List Char} (h : p.after = w ++ t) :
    (lit w).first p = some ⟨w.reverse ++ p.before, t, p.groups⟩ := Regex.first_lit h

theorem first_lit_none {w : List Char} (h : ¬w <+: p.after) : (lit w).first p = none := Regex.first_lit_none h

theorem first_star {f : Char → Bool} {w t : List Char} (h : p.after = w ++ t) (hw : ∀ c ∈ w, f c = true)
    (ht : ∀ c, t.head? = some c → f c = false) : (star f).first p = some ⟨w.reverse ++ p.before, t, p.groups⟩ :=
  Regex.first_star h hw ht

/-- The lazy repetition that stops at the first `w`. -/
theorem first_lazy {w x t : List Char} {groups : List (Nat × List Char)} (b : List Char)
    (h : ∀ v y, x = v ++ y → y ≠ [] → ¬w <+: y ++ (w ++ t)) :
    (seq (lazyStar fun _ => true) (lit w)).first ⟨b, x ++ (w ++ t), groups⟩ =
      some ⟨w.reverse ++ (x.reverse ++ b), t, groups⟩ := by
  have hrun : ∀ (x b : List Char), (∀ v y, x = v ++ y → y ≠ [] → ¬w <+: y ++ (w ++ t)) →
      ((along (fun _ => true) groups b (x ++ (w ++ t))).flatMap (lit w).ends).head? =
        some ⟨w.reverse ++ (x.reverse ++ b), t, groups⟩ := by
    intro x
    induction x with
    | nil =>
      intro b _
      have hfirst : ((lit w).ends ⟨b, w ++ t, groups⟩).head? = some ⟨w.reverse ++ b, t, groups⟩ := first_lit rfl
      rw [List.nil_append, List.reverse_nil, List.nil_append]
      cases hwt : w ++ t with
      | nil =>
        rw [hwt] at hfirst
        simpa [along] using hfirst
      | cons c s =>
        rw [hwt] at hfirst
        simp [along, List.head?_append, hfirst]
    | cons c x ih =>
      intro b hx
      have hnone : (lit w).ends ⟨b, c :: (x ++ (w ++ t)), groups⟩ = [] := by
        have hn := hx [] (c :: x) rfl (by simp)
        exact List.head?_eq_none_iff.1 (first_lit_none hn)
      rw [List.cons_append, along, List.flatMap_cons, hnone, List.nil_append, if_pos rfl,
        ih (c :: b) fun v y hv hy => hx (c :: v) y (by rw [hv]; rfl) hy]
      simp
  exact hrun x b h

theorem matchAt_first {b v w : List Char} (h : r.first ⟨b, v ++ w, []⟩ = some q) (hq : q.after = w) (hv : v ≠ []) :
    r.matchAt b (v ++ w) = some ⟨v, q.groups⟩ := by
  unfold first at h
  simp [matchAt, h, Point.upto, hq, hv]

theorem matchAt_none {b w : List Char} (h : r.first ⟨b, w, []⟩ = none) : r.matchAt b w = none := by
  unfold first at h
  simp [matchAt, h]

theorem scan_plain {b w : List Char} {c : Char} (h : r.matchAt b (c :: w) = none) :
    r.scan 0 b (c :: w) = .plain c :: r.scan 0 (c :: b) w := by
  rw [scan, h]

theorem scan_hit {b t : List Char} {x : Match} (h : r.matchAt b (x.text ++ t) = some x) :
    r.scan 0 b (x.text ++ t) = .hit x :: r.scan 0 (x.text.reverse ++ b) t := by
  obtain ⟨-, -, -, hne, -⟩ := matchAt_some h
  cases hx : x.text with
  | nil => exact absurd hx hne
  | cons c w =>
    rw [hx, List.cons_append] at h
    rw [List.cons_append, scan, h]
    simp only [hx, List.length_cons, Nat.add_sub_cancel]
    rw [scan_drop _ (by simp)]
    simp

end

/-! ## Texts cut at their matches -/

/-- No match begins in `w`, read after `b` and before `s`. -/
def Silent (r : Pattern) (b w s : List Char) : Prop :=
  ∀ v c y, w = v ++ c :: y → r.matchAt (v.reverse ++ b) (c :: (y ++ s)) = none

def stretch (w : List Char) : List (List Char × Bool) := if w = [] then [] else [(w, true)]

/-- A text as the stretches between its matches and the matches. -/
inductive Cut (r : Pattern) : List Char → List Char → List (List Char × Bool) → Prop
  | last {b w} : Silent r b w [] → Cut r b w (stretch w)
  | kept {b w m s ps} : Silent r b w (m.text ++ s) → r.matchAt (w.reverse ++ b) (m.text ++ s) = some m →
    Cut r (m.text.reverse ++ (w.reverse ++ b)) s ps → Cut r b (w ++ (m.text ++ s)) (stretch w ++ (m.text, false) :: ps)

/-- The scan of `x` comes to where `b` is behind and `s` ahead. -/
inductive Comes (r : Pattern) (x : List Char) : List Char → List Char → Prop
  | start : Comes r x [] x
  | plain {b c s} : Comes r x b (c :: s) → r.matchAt b (c :: s) = none → Comes r x (c :: b) s
  | hit {b m s} : Comes r x b (m.text ++ s) → r.matchAt b (m.text ++ s) = some m → Comes r x (m.text.reverse ++ b) s

/-- The scan of `x` passes over a character after `b`, outside a match. -/
def Exposed (r : Pattern) (x b : List Char) : Prop := ∃ c s, Comes r x b (c :: s) ∧ r.matchAt b (c :: s) = none

section
variable {r : Pattern} {b s v w x y : List Char}

theorem Comes.text (h : Comes r x b s) : b.reverse ++ s = x := by
  induction h with
  | start => rfl
  | plain _ _ ih => rw [← ih]; simp
  | hit _ _ ih => rw [← ih]; simp

theorem Comes.over (h : Comes r x b (w ++ s)) (hw : Silent r b w s) : Comes r x (w.reverse ++ b) s := by
  induction w generalizing b with
  | nil => exact h
  | cons c w ih =>
    have hnext : Comes r x (c :: b) (w ++ s) := .plain h (hw [] c w rfl)
    have hrest : Silent r (c :: b) w s := by
      intro v d y hy
      have := hw (c :: v) d y (by rw [hy]; rfl)
      simpa using this
    simpa using ih hnext hrest

/-- Every place of a stretch is exposed. -/
theorem Comes.exposed (h : Comes r x b (w ++ s)) (hw : Silent r b w s) {c : Char} (hv : w = v ++ c :: y) :
    Exposed r x (v.reverse ++ b) := by
  have hquiet : Silent r b v (c :: (y ++ s)) := by
    intro v' d y' hd
    have := hw v' d (y' ++ c :: y) (by rw [hv, hd]; simp)
    simpa using this
  rw [hv, List.append_assoc] at h
  exact ⟨c, y ++ s, h.over hquiet, hw v c y hv⟩

/-- Where no match ends inside `y` and one begins at it, none of it is exposed. -/
theorem Exposed.outside (h : Exposed r x b) (hx : x = v ++ (y ++ w)) (hstart : r.matchAt v.reverse (y ++ w) ≠ none)
    (hover : ∀ b u m, r.matchAt b (u ++ (y ++ w)) = some m →
      m.text.length ≤ u.length ∨ u.length + y.length ≤ m.text.length) :
    b.length < v.length ∨ v.length + y.length ≤ b.length := by
  obtain ⟨c, s, hcomes, hnone⟩ := h
  have hall : ∀ {b s}, Comes r x b s → b.length ≤ v.length ∨ v.length + y.length ≤ b.length := by
    have hrest : ∀ {b s}, Comes r x b s → b.length ≤ v.length → ∃ u, v = b.reverse ++ u ∧ s = u ++ (y ++ w) := by
      intro b s h hle
      have htext := h.text
      rw [hx] at htext
      obtain ⟨u, hu⟩ : b.reverse <+: v := List.prefix_of_prefix_length_le ⟨s, htext⟩ ⟨y ++ w, rfl⟩ (by simpa using hle)
      refine ⟨u, hu.symm, ?_⟩
      rw [← hu, List.append_assoc] at htext
      exact List.append_cancel_left htext
    intro b s h
    induction h with
    | start => simp
    | @plain b c s h hm ih =>
      rw [List.length_cons]
      rcases ih with ih | ih
      · obtain ⟨u, hu, hs⟩ := hrest h ih
        cases u with
        | nil =>
          rw [List.append_nil] at hu
          rw [hs, List.nil_append, ← List.reverse_reverse b, ← hu] at hm
          exact absurd hm hstart
        | cons d u =>
          left
          simp [hu]
      · omega
    | @hit b m s h hm ih =>
      rw [List.length_append, List.length_reverse]
      rcases ih with ih | ih
      · obtain ⟨u, hu, hs⟩ := hrest h ih
        rw [hs] at hm
        have := hover _ _ _ hm
        have := congrArg List.length hu
        simp only [List.length_append, List.length_reverse] at this
        omega
      · omega
  rcases hall hcomes with hle | hle
  · rcases Nat.lt_or_eq_of_le hle with hlt | heq
    · exact .inl hlt
    · -- the scan is where `y` begins, and a match is found there
      have htext := hcomes.text
      rw [hx] at htext
      obtain ⟨hv, hs⟩ := List.append_inj htext (by simpa using heq)
      rw [hs, ← List.reverse_reverse b, hv] at hnone
      exact absurd hnone hstart
  · exact .inr hle

end

end Pattern

end Regex
