import Mathlib.Data.List.Basic

/-!
# Regular expressions, matched by backtracking

Patterns over characters with groups and line anchors. `ends` lists the points
where a match that starts at a point can end, in the order a backtracking
matcher tries them, so the match is the first of the list. `scan` cuts a text
into the characters outside a match and the matches, left to right and without
overlap; `finditer`, `search` and `sub` read it.

An empty match is passed over: this is meant for patterns that have none.
-/

inductive Regex where
  | empty
  | sat (p : Char → Bool)
  | seq (r s : Regex)
  | alt (r s : Regex)
  | star (r : Regex)
  | group (n : Nat) (r : Regex)
  | lineStart
  | lineEnd

namespace Regex

/-- The text before, last character first, the text after, the groups closed. -/
@[ext] structure Point where
  before : List Char
  after : List Char
  groups : List (Nat × List Char)

structure Match where
  text : List Char
  groups : List (Nat × List Char)
  deriving DecidableEq

inductive Token where
  | plain (c : Char)
  | hit (m : Match)
  deriving DecidableEq

def chr (c : Char) : Regex := sat (· = c)

def lit : List Char → Regex
  | [] => empty
  | c :: w => seq (chr c) (lit w)

def plus (r : Regex) : Regex := seq r (star r)

def opt (r : Regex) : Regex := alt r empty

/-- The text from `p` to a later point. -/
def Point.upto (p q : Point) : List Char := p.after.take (p.after.length - q.after.length)

/-- Greedy repetition of a step that moves on. -/
def many (step : Point → List Point) : Nat → Point → List Point
  | 0, p => [p]
  | n + 1, p => ((step p).filter (·.after.length < p.after.length)).flatMap (many step n) ++ [p]

def ends : Regex → Point → List Point
  | empty, p => [p]
  | sat f, p =>
    match p.after with
    | [] => []
    | c :: s => if f c then [⟨c :: p.before, s, p.groups⟩] else []
  | seq r s, p => (ends r p).flatMap (ends s)
  | alt r s, p => ends r p ++ ends s p
  | star r, p => many (ends r) p.after.length p
  | group n r, p => (ends r p).map fun q => { q with groups := (n, p.upto q) :: q.groups }
  | lineStart, p => if p.before.head?.getD '\n' = '\n' then [p] else []
  | lineEnd, p => if p.after.head?.getD '\n' = '\n' then [p] else []

namespace Match

def group (m : Match) (n : Nat) : List Char := (m.groups.lookup n).getD []

end Match

def matchAt (r : Regex) (before after : List Char) : Option Match :=
  let p := ⟨before, after, []⟩
  ((ends r p).head?.map fun q => ⟨p.upto q, q.groups⟩).filter (·.text ≠ [])

/-- The tokens of the text after the first `n` characters, which belong to a
match. -/
def scan (r : Regex) : Nat → List Char → List Char → List Token
  | _, _, [] => []
  | n + 1, before, c :: s => scan r n (c :: before) s
  | 0, before, c :: s =>
    match matchAt r before (c :: s) with
    | some m => .hit m :: scan r (m.text.length - 1) (c :: before) s
    | none => .plain c :: scan r 0 (c :: before) s

namespace Token

def text : Token → List Char
  | plain c => [c]
  | hit m => m.text

def subst (f : Match → List Char) : Token → List Char
  | plain c => [c]
  | hit m => f m

def hit? : Token → Option Match
  | plain _ => none
  | hit m => some m

end Token

/-- The matches among tokens, the first at position `i`. -/
def positions : Nat → List Token → List (Nat × Match)
  | _, [] => []
  | i, .plain _ :: ts => positions (i + 1) ts
  | i, .hit m :: ts => (i, m) :: positions (i + m.text.length) ts

def finditer (r : Regex) (s : List Char) : List (Nat × Match) := positions 0 (scan r 0 [] s)

/-- The first match that starts at position `i` or later. -/
def search (r : Regex) (s : List Char) (i : Nat) : Option (Nat × Match) :=
  (positions i (scan r 0 (s.take i).reverse (s.drop i))).head?

def sub (r : Regex) (f : Match → List Char) (s : List Char) : List Char :=
  (scan r 0 [] s).flatMap (Token.subst f)

/-! ## Where a match can end -/

section
variable {r s : Regex} {p q : Point} {f : Char → Bool}

@[simp] theorem mem_ends_seq : q ∈ ends (seq r s) p ↔ ∃ m ∈ ends r p, q ∈ ends s m := by
  simp [ends]

@[simp] theorem mem_ends_alt : q ∈ ends (alt r s) p ↔ q ∈ ends r p ∨ q ∈ ends s p := by
  simp [ends]

/-- `q` comes after `p`, with `w` read in between. -/
def Reads (p : Point) (w : List Char) (q : Point) : Prop :=
  p.after = w ++ q.after ∧ q.before = w.reverse ++ p.before

theorem Reads.refl (p : Point) : Reads p [] p := by simp [Reads]

theorem Reads.trans {m : Point} {v w : List Char} (h : Reads p v m) (h' : Reads m w q) : Reads p (v ++ w) q := by
  obtain ⟨h₁, h₂⟩ := h
  obtain ⟨h₃, h₄⟩ := h'
  exact ⟨by rw [h₁, h₃, List.append_assoc], by rw [h₄, h₂]; simp⟩

theorem Reads.upto_eq {w : List Char} (h : Reads p w q) : p.upto q = w := by
  simp [Point.upto, h.1]

/-- `q` is `p` with `w` read and no group closed. -/
def Reaches (p : Point) (w : List Char) (q : Point) : Prop := Reads p w q ∧ q.groups = p.groups

theorem reaches_nil : Reaches p [] q ↔ q = p := by
  constructor
  · intro ⟨⟨ha, hb⟩, hg⟩
    exact Point.ext (by simpa using hb) (by simpa using ha.symm) hg
  · intro h
    exact ⟨h ▸ Reads.refl p, by rw [h]⟩

theorem reaches_cons {c : Char} {w : List Char} :
    Reaches p (c :: w) q ↔ ∃ t, p.after = c :: t ∧ Reaches ⟨c :: p.before, t, p.groups⟩ w q := by
  simp only [Reaches, Reads, List.cons_append, List.reverse_cons, List.append_assoc, List.nil_append]
  constructor
  · intro ⟨⟨ha, hb⟩, hg⟩
    exact ⟨_, ha, ⟨rfl, hb⟩, hg⟩
  · intro ⟨t, ha, ⟨ht, hb⟩, hg⟩
    exact ⟨⟨by rw [ha, ht], hb⟩, hg⟩

/-- The point after `w`, where `w` comes next. -/
theorem reaches_of_after {w t : List Char} (h : p.after = w ++ t) : ∃ m, Reaches p w m ∧ m.after = t :=
  ⟨⟨w.reverse ++ p.before, t, p.groups⟩, ⟨⟨h, rfl⟩, rfl⟩, rfl⟩

theorem Reads.after {m : Point} {v w : List Char} (h : Reads p (v ++ w) q) (hm : Reads p v m) : Reads m w q := by
  constructor
  · exact List.append_cancel_left (hm.1.symm.trans (h.1.trans (List.append_assoc ..)))
  · rw [h.2, hm.2]
    simp

theorem mem_ends_sat : q ∈ ends (sat f) p ↔ ∃ c, Reaches p [c] q ∧ f c = true := by
  simp only [reaches_cons, reaches_nil]
  unfold ends
  cases h : p.after with
  | nil => simp
  | cons c s =>
    by_cases hc : f c = true
    · simp only [hc, if_true, List.mem_singleton]
      constructor
      · intro hq
        exact ⟨c, ⟨s, rfl, hq⟩, hc⟩
      · intro ⟨d, ⟨t, ht, hq⟩, _⟩
        obtain ⟨rfl, rfl⟩ := List.cons.inj ht
        exact hq
    · simp only [hc, Bool.false_eq_true, if_false, List.not_mem_nil, false_iff]
      intro ⟨d, ⟨t, ht, _⟩, hd⟩
      obtain ⟨rfl, _⟩ := List.cons.inj ht
      exact hc hd

/-- No character a pattern reads is `d`. -/
def avoids (d : Char) : Regex → Bool
  | empty | lineStart | lineEnd => true
  | sat f => !f d
  | seq r s | alt r s => avoids d r && avoids d s
  | star r | group _ r => avoids d r

/-- Every character a pattern reads satisfies `P`. -/
def Within (P : Char → Prop) : Regex → Prop
  | empty | lineStart | lineEnd => True
  | sat f => ∀ c, f c = true → P c
  | seq r s | alt r s => Within P r ∧ Within P s
  | star r | group _ r => Within P r

section
variable {P : Char → Prop}

theorem many_reads {step : Point → List Point}
    (h : ∀ p q, q ∈ step p → ∃ w, Reads p w q ∧ ∀ c ∈ w, P c) (n : Nat) (p q : Point) (hq : q ∈ many step n p) :
    ∃ w, Reads p w q ∧ ∀ c ∈ w, P c := by
  induction n generalizing p with
  | zero =>
    simp only [many, List.mem_singleton] at hq
    exact ⟨[], by rw [hq]; exact Reads.refl p, by simp⟩
  | succ n ih =>
    simp only [many, List.mem_append, List.mem_flatMap, List.mem_filter, List.mem_singleton] at hq
    rcases hq with ⟨m, ⟨hm, _⟩, hq⟩ | rfl
    · obtain ⟨v, hv, hP⟩ := h p m hm
      obtain ⟨w, hw, hQ⟩ := ih m hq
      exact ⟨v ++ w, hv.trans hw, by simpa [or_imp, forall_and] using ⟨hP, hQ⟩⟩
    · exact ⟨[], Reads.refl q, by simp⟩

theorem ends_reads (hr : r.Within P) (hq : q ∈ ends r p) : ∃ w, Reads p w q ∧ ∀ c ∈ w, P c := by
  induction r generalizing p q with
  | empty =>
    simp only [ends, List.mem_singleton] at hq
    exact ⟨[], by rw [hq]; exact Reads.refl p, by simp⟩
  | sat f =>
    obtain ⟨c, hc, hf⟩ := mem_ends_sat.1 hq
    exact ⟨[c], hc.1, by simpa using hr c hf⟩
  | seq r s ihr ihs =>
    obtain ⟨m, hm, hq⟩ := mem_ends_seq.1 hq
    obtain ⟨v, hv, hP⟩ := ihr hr.1 hm
    obtain ⟨w, hw, hQ⟩ := ihs hr.2 hq
    exact ⟨v ++ w, hv.trans hw, by simpa [or_imp, forall_and] using ⟨hP, hQ⟩⟩
  | alt r s ihr ihs =>
    rcases mem_ends_alt.1 hq with hq | hq
    · exact ihr hr.1 hq
    · exact ihs hr.2 hq
  | star r ih => exact many_reads (fun p q h => ih hr h) _ p q hq
  | group n r ih =>
    obtain ⟨m, hm, rfl⟩ := List.mem_map.1 hq
    obtain ⟨w, hw, hP⟩ := ih hr hm
    exact ⟨w, hw, hP⟩
  | lineStart =>
    simp only [ends] at hq
    split at hq
    · exact ⟨[], by rw [List.mem_singleton.1 hq]; exact Reads.refl p, by simp⟩
    · simp at hq
  | lineEnd =>
    simp only [ends] at hq
    split at hq
    · exact ⟨[], by rw [List.mem_singleton.1 hq]; exact Reads.refl p, by simp⟩
    · simp at hq

end

theorem within_of_avoids {d : Char} (h : r.avoids d = true) : r.Within (· ≠ d) := by
  induction r with
  | empty | lineStart | lineEnd => trivial
  | sat f =>
    intro c hc he
    rw [he] at hc
    simp [avoids, hc] at h
  | seq r s ihr ihs | alt r s ihr ihs =>
    simp only [avoids, Bool.and_eq_true] at h
    exact ⟨ihr h.1, ihs h.2⟩
  | star r ih | group n r ih => exact ih h

theorem within_true (r : Regex) : r.Within fun _ => True := by
  induction r with
  | empty | lineStart | lineEnd => trivial
  | sat f => exact fun _ _ => trivial
  | seq r s ihr ihs | alt r s ihr ihs => exact ⟨ihr, ihs⟩
  | star r ih | group n r ih => exact ih

theorem Reaches.trans {m : Point} {v w : List Char} (h : Reaches p v m) (h' : Reaches m w q) :
    Reaches p (v ++ w) q :=
  ⟨h.1.trans h'.1, h'.2.trans h.2⟩

theorem Reaches.split {v w : List Char} (h : Reaches p (v ++ w) q) : ∃ m, Reaches p v m ∧ Reaches m w q := by
  obtain ⟨m, hm, _⟩ := reaches_of_after (h.1.1.trans (List.append_assoc ..))
  exact ⟨m, hm, h.1.after hm.1, h.2.trans hm.2.symm⟩

theorem mem_ends_lit {w : List Char} : q ∈ ends (lit w) p ↔ Reaches p w q := by
  induction w generalizing p with
  | nil => simp [lit, ends, reaches_nil]
  | cons c w ih =>
    simp only [lit, chr, mem_ends_seq, mem_ends_sat, decide_eq_true_eq, ih]
    constructor
    · intro ⟨m, ⟨d, hm, hd⟩, hq⟩
      rw [hd] at hm
      exact hm.trans hq
    · intro h
      obtain ⟨m, hm, hq⟩ := Reaches.split (v := [c]) h
      exact ⟨m, ⟨c, hm, rfl⟩, hq⟩

theorem mem_many_sat (n : Nat) (p : Point) (hn : p.after.length ≤ n) :
    q ∈ many (ends (sat f)) n p ↔ ∃ w, Reaches p w q ∧ ∀ c ∈ w, f c = true := by
  induction n generalizing p with
  | zero =>
    have hp : p.after = [] := List.length_eq_zero_iff.1 (by omega)
    simp only [many, List.mem_singleton]
    constructor
    · intro h
      exact ⟨[], reaches_nil.2 h, by simp⟩
    · intro ⟨w, hq, _⟩
      cases w with
      | nil => exact reaches_nil.1 hq
      | cons c w =>
        obtain ⟨t, ha, _⟩ := reaches_cons.1 hq
        simp [hp] at ha
  | succ n ih =>
    simp only [many, List.mem_append, List.mem_flatMap, List.mem_filter, List.mem_singleton, mem_ends_sat]
    constructor
    · intro h
      rcases h with ⟨m, ⟨⟨c, hm, hc⟩, _⟩, hq⟩ | h
      · obtain ⟨w, hw, hf⟩ := (ih m (by simp [hm.1.1] at hn; omega)).1 hq
        exact ⟨c :: w, hm.trans hw, by simpa [hc] using hf⟩
      · exact ⟨[], reaches_nil.2 h, by simp⟩
    · intro ⟨w, hq, hf⟩
      cases w with
      | nil => exact .inr (reaches_nil.1 hq)
      | cons c w =>
        obtain ⟨m, hm, hq⟩ := Reaches.split (v := [c]) hq
        have hlt : m.after.length < p.after.length := by simp [hm.1.1]
        left
        refine ⟨m, ⟨⟨c, hm, hf c (by simp)⟩, by simpa using hlt⟩, ?_⟩
        exact (ih m (by omega)).2 ⟨w, hq, fun d hd => hf d (by simp [hd])⟩

theorem mem_ends_star_sat : q ∈ ends (star (sat f)) p ↔ ∃ w, Reaches p w q ∧ ∀ c ∈ w, f c = true :=
  mem_many_sat _ p (Nat.le_refl _)

theorem mem_ends_plus_sat : q ∈ ends (plus (sat f)) p ↔ ∃ w, w ≠ [] ∧ Reaches p w q ∧ ∀ c ∈ w, f c = true := by
  simp only [plus, mem_ends_seq, mem_ends_sat, mem_ends_star_sat]
  constructor
  · intro ⟨m, ⟨c, hm, hc⟩, w, hw, hf⟩
    exact ⟨c :: w, by simp, hm.trans hw, by simpa [hc] using hf⟩
  · intro ⟨w, hne, hw, hf⟩
    cases w with
    | nil => exact absurd rfl hne
    | cons c w =>
      obtain ⟨m, hm, hq⟩ := Reaches.split (v := [c]) hw
      exact ⟨m, ⟨c, hm, hf c (by simp)⟩, w, hq, fun d hd => hf d (by simp [hd])⟩

theorem mem_ends_group {n : Nat} : q ∈ ends (group n r) p ↔
    ∃ m ∈ ends r p, q = { m with groups := (n, p.upto m) :: m.groups } := by
  simp [ends, eq_comm]

end

/-! ## The match at a point -/

section
variable {r : Regex} {b s : List Char} {m : Match}

theorem matchAt_some (h : matchAt r b s = some m) :
    ∃ q ∈ ends r ⟨b, s, []⟩, s = m.text ++ q.after ∧ m.text ≠ [] ∧ m.groups = q.groups := by
  simp only [matchAt, Option.filter_eq_some_iff, Option.map_eq_some_iff] at h
  obtain ⟨⟨q, hq, rfl⟩, hne⟩ := h
  have hmem : q ∈ ends r ⟨b, s, []⟩ := List.mem_of_head? hq
  obtain ⟨w, hw, _⟩ := ends_reads (within_true r) hmem
  exact ⟨q, hmem, by rw [hw.upto_eq]; exact hw.1, by simpa using hne, rfl⟩

theorem matchAt_within {P : Char → Prop} (hr : r.Within P) (h : matchAt r b s = some m) : ∀ c ∈ m.text, P c := by
  obtain ⟨q, hq, hs, _, _⟩ := matchAt_some h
  obtain ⟨w, ⟨hw, _⟩, hP⟩ := ends_reads hr hq
  have : m.text = w := List.append_cancel_right (hs.symm.trans hw)
  rw [this]
  exact hP

theorem matchAt_avoids {d : Char} (hr : r.avoids d = true) (h : matchAt r b s = some m) : d ∉ m.text := fun hd =>
  matchAt_within (within_of_avoids hr) h d hd rfl

theorem matchAt_lit {w : List Char} {t : Regex} (h : matchAt (seq (lit w) t) b s = some m) : w <+: s := by
  obtain ⟨q, hq, _⟩ := matchAt_some h
  obtain ⟨p, hp, _⟩ := mem_ends_seq.1 hq
  exact ⟨p.after, (mem_ends_lit.1 hp).1.1.symm⟩

theorem matchAt_lineStart {t : Regex} (h : matchAt (seq lineStart t) b s = some m) : b.head?.getD '\n' = '\n' := by
  obtain ⟨q, hq, _⟩ := matchAt_some h
  obtain ⟨p, hp, _⟩ := mem_ends_seq.1 hq
  simp only [ends] at hp
  split at hp
  · assumption
  · simp at hp

theorem matchAt_of_unique {q : Point} (hq : q ∈ ends r ⟨b, s, []⟩) (hu : ∀ x ∈ ends r ⟨b, s, []⟩, x = q)
    (hne : q.after.length < s.length) : matchAt r b s = some ⟨s.take (s.length - q.after.length), q.groups⟩ := by
  cases h : ends r ⟨b, s, []⟩ with
  | nil => simp [h] at hq
  | cons x xs =>
    obtain rfl := hu x (by simp [h])
    have : s.take (s.length - x.after.length) ≠ [] := by
      intro he
      have := congrArg List.length he
      simp at this
      omega
    simp [matchAt, h, Point.upto, this]

theorem matchAt_none (h : ∀ q, q ∉ ends r ⟨b, s, []⟩) : matchAt r b s = none := by
  have : ends r ⟨b, s, []⟩ = [] := List.eq_nil_iff_forall_not_mem.2 h
  simp [matchAt, this]

@[simp] theorem matchAt_nil : matchAt r b [] = none := by
  cases h : matchAt r b [] with
  | none => rfl
  | some m =>
    obtain ⟨q, _, hs, hne, _⟩ := matchAt_some h
    exact absurd (List.append_eq_nil_iff.1 hs.symm).1 hne

/-! ## The first way a pattern ends -/

def first (r : Regex) (p : Point) : Option Point := (ends r p).head?

section
variable {r s : Regex} {p m q : Point} {f : Char → Bool}

theorem first_none : first r p = none ↔ ∀ q, q ∉ ends r p := by
  unfold first
  rw [List.head?_eq_none_iff, List.eq_nil_iff_forall_not_mem]

theorem first_alt : first (alt r s) p = (first r p).or (first s p) := by
  unfold first
  rw [ends, List.head?_append]

theorem first_group (n : Nat) :
    first (group n r) p = (first r p).map fun q => { q with groups := (n, p.upto q) :: q.groups } := by
  unfold first
  rw [ends, List.head?_map]

theorem first_seq (hm : first r p = some m) (hq : first s m = some q) : first (seq r s) p = some q := by
  unfold first at *
  cases h : ends r p with
  | nil => simp [h] at hm
  | cons x xs =>
    obtain rfl : x = m := by simpa [h] using hm
    simp [ends, h, List.head?_append, hq]

theorem first_sat : first (sat f) p =
    match p.after with
    | [] => none
    | c :: t => if f c then some ⟨c :: p.before, t, p.groups⟩ else none := by
  unfold first ends
  cases p.after with
  | nil => rfl
  | cons c t => by_cases hc : f c = true <;> simp [hc]

theorem first_lit {w t : List Char} (h : p.after = w ++ t) :
    first (lit w) p = some ⟨w.reverse ++ p.before, t, p.groups⟩ := by
  induction w generalizing p with
  | nil =>
    simp only [lit, first, ends, List.head?_cons]
    exact congrArg some (Point.ext rfl h rfl)
  | cons c w ih =>
    have hc : first (chr c) p = some ⟨c :: p.before, w ++ t, p.groups⟩ := by
      simp [chr, first_sat, h]
    rw [lit, first_seq hc (ih rfl)]
    simp

theorem first_lit_none {w : List Char} (h : ¬w <+: p.after) : first (lit w) p = none := by
  apply first_none.2
  intro q hq
  exact h ⟨q.after, (mem_ends_lit.1 hq).1.1.symm⟩

theorem many_first {w t : List Char} (n : Nat) (hn : w.length ≤ n) (h : p.after = w ++ t) (hw : ∀ c ∈ w, f c = true)
    (ht : ∀ c, t.head? = some c → f c = false) :
    (many (ends (sat f)) n p).head? = some ⟨w.reverse ++ p.before, t, p.groups⟩ := by
  induction n generalizing p w with
  | zero =>
    obtain rfl : w = [] := List.length_eq_zero_iff.1 (by omega)
    exact congrArg some (Point.ext rfl h rfl)
  | succ n ih =>
    cases w with
    | nil =>
      -- the run is over, so that no step is left
      have hstep : ends (sat f) p = [] := by
        have := ht
        unfold ends
        rw [h]
        cases t with
        | nil => rfl
        | cons c t => simp [ht c rfl]
      simp only [many, hstep]
      exact congrArg some (Point.ext rfl h rfl)
    | cons c w =>
      have hstep : ends (sat f) p = [⟨c :: p.before, w ++ t, p.groups⟩] := by
        unfold ends
        rw [h]
        simp [hw c (by simp)]
      have hrest := ih (p := ⟨c :: p.before, w ++ t, p.groups⟩) (by simpa using hn) rfl
        (fun d hd => hw d (by simp [hd]))
      simp [many, hstep, h, hrest]

theorem first_star {w t : List Char} (h : p.after = w ++ t) (hw : ∀ c ∈ w, f c = true)
    (ht : ∀ c, t.head? = some c → f c = false) :
    first (star (sat f)) p = some ⟨w.reverse ++ p.before, t, p.groups⟩ :=
  many_first _ (by simp [h]) h hw ht

theorem first_plus {w t : List Char} (hne : w ≠ []) (h : p.after = w ++ t) (hw : ∀ c ∈ w, f c = true)
    (ht : ∀ c, t.head? = some c → f c = false) :
    first (plus (sat f)) p = some ⟨w.reverse ++ p.before, t, p.groups⟩ := by
  cases w with
  | nil => exact absurd rfl hne
  | cons c w =>
    have hc : first (sat f) p = some ⟨c :: p.before, w ++ t, p.groups⟩ := by
      simp [first_sat, h, hw c (by simp)]
    have hrest := first_star (p := ⟨c :: p.before, w ++ t, p.groups⟩) rfl (fun d hd => hw d (by simp [hd])) ht
    rw [plus, first_seq hc hrest]
    simp

theorem matchAt_first {b v w : List Char} (h : first r ⟨b, v ++ w, []⟩ = some q) (hq : q.after = w) (hv : v ≠ []) :
    matchAt r b (v ++ w) = some ⟨v, q.groups⟩ := by
  unfold first at h
  simp [matchAt, h, Point.upto, hq, hv]

end

/-! ## Scanning -/

theorem scan_drop (n : Nat) (hn : n ≤ s.length) : scan r n b s = scan r 0 ((s.take n).reverse ++ b) (s.drop n) := by
  induction n generalizing b s with
  | zero => simp
  | succ n ih =>
    cases s with
    | nil => simp at hn
    | cons c s =>
      rw [scan, ih (by simpa using hn)]
      simp

theorem scan_plain {c : Char} (h : matchAt r b (c :: s) = none) :
    scan r 0 b (c :: s) = .plain c :: scan r 0 (c :: b) s := by
  rw [scan, h]

theorem scan_hit {t : List Char} (h : matchAt r b s = some m) (ht : s = m.text ++ t) :
    scan r 0 b s = .hit m :: scan r 0 (m.text.reverse ++ b) t := by
  obtain ⟨q, _, _, hne, _⟩ := matchAt_some h
  cases hm : m.text with
  | nil => exact absurd hm hne
  | cons c w =>
    rw [hm] at ht
    subst ht
    simp only [List.cons_append] at h ⊢
    rw [scan, h]
    simp only [hm, List.length_cons, Nat.add_sub_cancel]
    rw [scan_drop _ (by simp)]
    simp

theorem scan_induct {motive : List Char → List Char → List Token → Prop} (nil : ∀ b, motive b [] [])
    (plain : ∀ b c s, matchAt r b (c :: s) = none → motive (c :: b) s (scan r 0 (c :: b) s) →
      motive b (c :: s) (.plain c :: scan r 0 (c :: b) s))
    (hit : ∀ b m t, matchAt r b (m.text ++ t) = some m →
      motive (m.text.reverse ++ b) t (scan r 0 (m.text.reverse ++ b) t) →
      motive b (m.text ++ t) (.hit m :: scan r 0 (m.text.reverse ++ b) t)) (b s : List Char) :
    motive b s (scan r 0 b s) := by
  induction hn : s.length using Nat.strongRecOn generalizing b s with
  | _ n ih =>
    cases s with
    | nil => exact nil b
    | cons c s =>
      cases h : matchAt r b (c :: s) with
      | none =>
        rw [scan_plain h]
        exact plain b c s h (ih s.length (by simp at hn; omega) _ _ rfl)
      | some m =>
        obtain ⟨q, _, hs, hne, _⟩ := matchAt_some h
        have hlt : q.after.length < n := by
          have hp := List.length_pos_iff.2 hne
          have hl := congrArg List.length hs
          simp only [List.length_append] at hl
          omega
        rw [scan_hit h hs, hs]
        exact hit b m q.after (hs ▸ h) (ih _ hlt _ _ rfl)

theorem scan_text (r : Regex) (b s : List Char) : (scan r 0 b s).flatMap Token.text = s := by
  apply scan_induct (motive := fun _ s ts => ts.flatMap Token.text = s) (r := r)
  · intro b
    rfl
  · intro b c s _ ih
    simp [Token.text, ih]
  · intro b m t _ ih
    simp [Token.text, ih]

end

/-! ## Positions -/

theorem positions_map (ts : List Token) (i : Nat) : (positions i ts).map (·.2) = ts.filterMap Token.hit? := by
  induction ts generalizing i with
  | nil => rfl
  | cons t ts ih =>
    cases t with
    | plain c => exact ih (i + 1)
    | hit m => simp [positions, Token.hit?, ih]

theorem positions_add (ts : List Token) (i j : Nat) :
    positions (i + j) ts = (positions j ts).map fun x => (i + x.1, x.2) := by
  induction ts generalizing j with
  | nil => rfl
  | cons t ts ih =>
    cases t with
    | plain c => exact ih (j + 1)
    | hit m => simp [positions, Nat.add_assoc, ih]

theorem mem_positions_plain {ts : List Token} {x : Nat × Match} (c : Char) (h : x ∈ positions 0 ts) :
    (1 + x.1, x.2) ∈ positions 0 (.plain c :: ts) := by
  have : positions 0 (.plain c :: ts) = _ := positions_add ts 1 0
  rw [this]
  exact List.mem_map_of_mem h

theorem mem_positions_hit {ts : List Token} {x : Nat × Match} (m : Match) (h : x ∈ positions 0 ts) :
    (m.text.length + x.1, x.2) ∈ positions 0 (.hit m :: ts) := by
  have : positions m.text.length ts = _ := positions_add ts m.text.length 0
  rw [positions, Nat.zero_add, this]
  exact List.mem_cons_of_mem _ (List.mem_map_of_mem h)

theorem positions_scan (r : Regex) (b s : List Char) (i : Nat) {x : Nat × Match}
    (h : x ∈ positions i (scan r 0 b s)) :
    ∃ v w, s = v ++ (x.2.text ++ w) ∧ x.1 = i + v.length ∧ matchAt r (v.reverse ++ b) (x.2.text ++ w) = some x.2 := by
  revert i
  apply scan_induct (r := r) (motive := fun b s ts => ∀ i, x ∈ positions i ts → ∃ v w, s = v ++ (x.2.text ++ w) ∧
    x.1 = i + v.length ∧ matchAt r (v.reverse ++ b) (x.2.text ++ w) = some x.2)
  · intro b i h
    simp [positions] at h
  · intro b c s _ ih i h
    obtain ⟨v, w, hs, hi, hm⟩ := ih (i + 1) h
    exact ⟨c :: v, w, by rw [hs]; rfl, by simp [hi]; omega, by simpa using hm⟩
  · intro b m t hm ih i h
    simp only [positions, List.mem_cons] at h
    rcases h with rfl | h
    · exact ⟨[], t, rfl, rfl, hm⟩
    · obtain ⟨v, w, hs, hi, hx⟩ := ih _ h
      exact ⟨m.text ++ v, w, by rw [hs]; simp, by simp [hi]; omega, by simpa using hx⟩

theorem scan_first (r : Regex) (b s : List Char) {x : Nat × Match}
    (h : (positions 0 (scan r 0 b s)).head? = some x) : ∃ b' t, s = s.take x.1 ++ (x.2.text ++ t) ∧
      scan r 0 b s = (s.take x.1).map Token.plain ++ .hit x.2 :: scan r 0 b' t := by
  revert x
  apply scan_induct (r := r) (motive := fun _ s ts => ∀ {x : Nat × Match}, (positions 0 ts).head? = some x →
    ∃ b' t, s = s.take x.1 ++ (x.2.text ++ t) ∧ ts = (s.take x.1).map Token.plain ++ .hit x.2 :: scan r 0 b' t)
  · intro b x h
    simp [positions] at h
  · intro b c s _ ih x h
    rw [positions, Nat.zero_add, ← Nat.add_zero 1, positions_add, List.head?_map, Option.map_eq_some_iff] at h
    obtain ⟨y, hy, rfl⟩ := h
    obtain ⟨b', t, hs, ht⟩ := ih hy
    refine ⟨b', t, ?_, ?_⟩
    · rw [Nat.add_comm, List.take_succ_cons, List.cons_append, ← hs]
    · rw [Nat.add_comm, List.take_succ_cons, List.map_cons, List.cons_append, ← ht]
  · intro b m t _ _ x h
    obtain rfl : (0, m) = x := by simpa [positions] using h
    exact ⟨_, t, rfl, rfl⟩

theorem scan_plains (r : Regex) (b s : List Char) (h : positions 0 (scan r 0 b s) = []) :
    scan r 0 b s = s.map Token.plain := by
  revert h
  apply scan_induct (r := r) (motive := fun _ s ts => positions 0 ts = [] → ts = s.map Token.plain)
  · intro b _
    rfl
  · intro b c s _ ih h
    rw [positions, Nat.zero_add, ← Nat.add_zero 1, positions_add, List.map_eq_nil_iff] at h
    rw [List.map_cons, ← ih h]
  · intro b m t _ _ h
    simp [positions] at h

theorem subst_plains (f : Match → List Char) (w : List Char) : (w.map Token.plain).flatMap (Token.subst f) = w := by
  induction w with
  | nil => rfl
  | cons c w ih => simp [Token.subst, ih]

theorem hit_plains (w : List Char) : (w.map Token.plain).filterMap Token.hit? = [] := by
  induction w with
  | nil => rfl
  | cons c w ih => exact ih

theorem finditer_split {r : Regex} {s : List Char} {x : Nat × Match} (h : x ∈ finditer r s) :
    ∃ v w, s = v ++ (x.2.text ++ w) ∧ x.1 = v.length ∧ matchAt r v.reverse (x.2.text ++ w) = some x.2 := by
  obtain ⟨v, w, hs, hi, hm⟩ := positions_scan r [] s 0 h
  exact ⟨v, w, hs, by simpa using hi, by simpa using hm⟩

theorem search_split {r : Regex} {s : List Char} {i : Nat} {x : Nat × Match} (hi : i ≤ s.length)
    (h : search r s i = some x) :
    ∃ v w, s = v ++ (x.2.text ++ w) ∧ x.1 = v.length ∧ i ≤ x.1 ∧ matchAt r v.reverse (x.2.text ++ w) = some x.2 := by
  obtain ⟨v, w, hs, hx, hm⟩ := positions_scan r _ _ i (List.mem_of_head? h)
  refine ⟨s.take i ++ v, w, ?_, ?_, by omega, by simpa using hm⟩
  · rw [List.append_assoc, ← hs, List.take_append_drop]
  · rw [hx, List.length_append, List.length_take]
    omega

/-! ## Patterns that do not look behind -/

def Blind (r : Regex) : Prop := ∀ b b' s, matchAt r b s = matchAt r b' s

def hits (r : Regex) (s : List Char) : List Match := (scan r 0 [] s).filterMap Token.hit?

theorem finditer_map (r : Regex) (s : List Char) : (finditer r s).map (·.2) = hits r s := positions_map _ 0

section
variable {r : Regex} (hr : r.Blind)
include hr

theorem scan_blind (b b' s : List Char) : scan r 0 b s = scan r 0 b' s := by
  revert b'
  apply scan_induct (r := r) (motive := fun _ s ts => ∀ b', ts = scan r 0 b' s)
  · intro b b'
    simp [scan]
  · intro b c s hm ih b'
    rw [hr b b'] at hm
    rw [scan_plain hm, ih (c :: b')]
  · intro b m t hm ih b'
    rw [hr b b'] at hm
    rw [scan_hit hm rfl, ih (m.text.reverse ++ b')]

/-- Where no match runs over the joint, the halves are scanned each for itself. -/
theorem scan_append {x y : List Char}
    (hx : ∀ t, t ≠ [] → t <:+ x → matchAt r [] (t ++ y) = matchAt r [] t) :
    scan r 0 [] (x ++ y) = scan r 0 [] x ++ scan r 0 [] y := by
  revert hx
  apply scan_induct (r := r) (motive := fun _ x ts =>
    (∀ t, t ≠ [] → t <:+ x → matchAt r [] (t ++ y) = matchAt r [] t) →
      scan r 0 [] (x ++ y) = ts ++ scan r 0 [] y) (b := []) (s := x)
  · intro b _
    rfl
  · intro b c s hm ih hx
    rw [hr b []] at hm
    have hc : matchAt r [] (c :: (s ++ y)) = none := by
      rw [← hm]
      exact hx (c :: s) (by simp) (List.suffix_refl _)
    rw [List.cons_append, scan_plain hc, scan_blind hr _ [], ih fun t ht hs => hx t ht (hs.trans (List.suffix_cons c s))]
    rfl
  · intro b m t hm ih hx
    rw [hr b []] at hm
    have hne : m.text ++ t ≠ [] := by
      obtain ⟨_, _, _, hne, _⟩ := matchAt_some hm
      simp [hne]
    have hmy := hx (m.text ++ t) hne (List.suffix_refl _)
    rw [hm, List.append_assoc] at hmy
    rw [List.append_assoc, scan_hit hmy rfl, scan_blind hr _ [],
      ih fun u hu hs => hx u hu (hs.trans (List.suffix_append _ _))]
    rfl

end

end Regex
