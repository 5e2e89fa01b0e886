import Cograph.ChunkerPacks

/-!
# Code fences and chunk boundaries

A fenced block of a text stays whole under every limit exactly when one atomic
block holds it, or when it opens the text and no section goes on after it.
-/

namespace Cograph.MdChunks

open Cuts

/-! ## Fenced blocks -/

/-- The character and the length of an opening fence. -/
def openingFence (line : Str) : Option (Char × Nat) :=
  let ticks := (line.takeWhile (· = '`')).length
  let tildes := (line.takeWhile (· = '~')).length
  if 3 ≤ ticks ∧ '`' ∉ line.drop ticks then some ('`', ticks)
  else if 3 ≤ tildes then some ('~', tildes)
  else none

/-- A line that closes a fence: up to three spaces, at least as many of its
characters, and blanks. -/
def closesFence (fence : Char × Nat) (line : Str) : Bool :=
  let indent := (line.takeWhile (· = ' ')).length
  let rest := line.drop indent
  indent ≤ 3 ∧ fence.2 ≤ (rest.takeWhile (· = fence.1)).length ∧
    (rest.dropWhile (· = fence.1)).all fun c => c = ' ' ∨ c = '\t'

/-- The fenced blocks of the lines from position `i` on, each from its first
line up to the one after its last. A block that is not closed goes to the end. -/
def fencesFrom (i : Nat) (opened : Option (Nat × Char × Nat)) : List Str → List (Nat × Nat)
  | [] =>
    match opened with
    | none => []
    | some (a, _) => [(a, i)]
  | line :: rest =>
    match opened with
    | none =>
      match openingFence line with
      | none => fencesFrom (i + 1) none rest
      | some fence => fencesFrom (i + 1) (some (i, fence)) rest
    | some (a, fence) =>
      if closesFence fence line then (a, i + 1) :: fencesFrom (i + 1) none rest
      else fencesFrom (i + 1) (some (a, fence)) rest

def fences (lines : List Str) : List (Nat × Nat) := fencesFrom 0 none lines

/-- The lines from `a` up to `b`. -/
def between (lines : List Str) (a b : Nat) : List Str := (lines.drop a).take (b - a)

theorem opening_not_heading {line : Str} (h : (openingFence line).isSome) : (headingMatch line).isSome = false := by
  have hhash : line.head? ≠ some '#' := by
    intro hhead
    cases line with
    | nil => simp at hhead
    | cons c line =>
      obtain rfl : c = '#' := by simpa using hhead
      simp [openingFence] at h
  cases line with
  | nil => rfl
  | cons c line =>
    have hc : c ≠ '#' := by simpa using hhash
    unfold headingMatch
    simp only [List.takeWhile_cons, hc, decide_false, Bool.false_eq_true, if_false, List.length_nil]
    split
    · simp
    · rfl

/-- A fenced block lies in the text and its first line is an opening fence. -/
theorem fencesFrom_spec (lines before : List Str) (opened : Option (Nat × Char × Nat))
    (ho : ∀ o ∈ opened, o.1 < before.length ∧ ∃ line, before[o.1]? = some line ∧ (openingFence line).isSome) :
    ∀ f ∈ fencesFrom before.length opened lines, f.1 < f.2 ∧ f.2 ≤ before.length + lines.length ∧
      ∃ line, (before ++ lines)[f.1]? = some line ∧ (openingFence line).isSome := by
  induction lines generalizing before opened with
  | nil =>
    intro f hf
    cases opened with
    | none => simp [fencesFrom] at hf
    | some o =>
      obtain ⟨hlt, line, hl, hopen⟩ := ho o rfl
      simp only [fencesFrom, List.mem_singleton] at hf
      subst hf
      exact ⟨hlt, by simp, line, by simpa using hl, hopen⟩
  | cons line rest ih =>
    have hlen : (before ++ [line]).length = before.length + 1 := by simp
    have hget : ∀ i : Nat, (before ++ [line] ++ rest)[i]? = (before ++ line :: rest)[i]? := by simp
    have hold : ∀ (i : Nat) (l : Str), before[i]? = some l → (before ++ [line])[i]? = some l := by
      intro i l hl
      rw [List.getElem?_append_left (List.getElem?_eq_some_iff.mp hl).1]
      exact hl
    have hnext : ∀ opened : Option (Nat × Char × Nat), (∀ o ∈ opened, o.1 < (before ++ [line]).length ∧
        ∃ l, (before ++ [line])[o.1]? = some l ∧ (openingFence l).isSome) →
        ∀ f ∈ fencesFrom (before.length + 1) opened rest, f.1 < f.2 ∧ f.2 ≤ before.length + (line :: rest).length ∧
          ∃ l, (before ++ line :: rest)[f.1]? = some l ∧ (openingFence l).isSome := by
      intro opened ho f hf
      obtain ⟨hlt, hle, l, hl, hopen⟩ := ih (before ++ [line]) opened ho f (by rwa [hlen])
      refine ⟨hlt, ?_, l, by rwa [← hget], hopen⟩
      rw [hlen] at hle
      rw [List.length_cons]
      omega
    intro f hf
    unfold fencesFrom at hf
    cases opened with
    | none =>
      dsimp only at hf
      cases hopening : openingFence line with
      | none =>
        rw [hopening] at hf
        exact hnext none (by simp) f hf
      | some fence =>
        rw [hopening] at hf
        refine hnext _ ?_ f hf
        intro o ho
        obtain rfl := Option.some.inj ho
        exact ⟨by simp, line, by simp, by simp [hopening]⟩
    | some o =>
      obtain ⟨hlt, l, hl, hopen⟩ := ho o rfl
      obtain ⟨a, fence⟩ := o
      dsimp only at hf hlt hl
      by_cases hclose : closesFence fence line = true
      · rw [if_pos hclose] at hf
        rcases List.mem_cons.mp hf with rfl | hf
        · refine ⟨by dsimp only; omega, by simp, l, ?_, hopen⟩
          rw [List.getElem?_append_left hlt]
          exact hl
        · exact hnext none (by simp) f hf
      · rw [if_neg hclose] at hf
        refine hnext _ ?_ f hf
        intro o ho
        obtain rfl := Option.some.inj ho
        exact ⟨by simp; omega, l, hold _ _ hl, hopen⟩

theorem fences_spec {lines : List Str} {a b : Nat} (h : (a, b) ∈ fences lines) :
    a < b ∧ b ≤ lines.length ∧ ∃ line, lines[a]? = some line ∧ (headingMatch line).isSome = false := by
  obtain ⟨hlt, hle, line, hl, hopen⟩ := fencesFrom_spec lines [] none (by simp) (a, b) h
  exact ⟨hlt, by simpa using hle, line, by simpa using hl, opening_not_heading hopen⟩

theorem between_length {lines : List Str} {a b : Nat} (hb : b ≤ lines.length) : (between lines a b).length = b - a := by
  unfold between
  rw [List.length_take, List.length_drop]
  omega

theorem between_middle {x g y : List Str} {a b : Nat} (ha : x.length ≤ a) (hab : a ≤ b) (hb : b ≤ x.length + g.length) :
    ∃ g₁ g₂, g = g₁ ++ between (x ++ g ++ y) a b ++ g₂ ∧ g₁.length = a - x.length := by
  have hin : between (x ++ g ++ y) a b = (g.drop (a - x.length)).take (b - a) := by
    unfold between
    rw [List.append_assoc, List.drop_append, List.drop_of_length_le ha, List.nil_append, List.drop_append,
      List.take_append_of_le_length]
    rw [List.length_drop]
    omega
  refine ⟨g.take (a - x.length), (g.drop (a - x.length)).drop (b - a), ?_, ?_⟩
  · rw [hin, List.append_assoc, List.take_append_drop, List.take_append_drop]
  · rw [List.length_take]
    omega

theorem between_all {x g y : List Str} {a b : Nat} (ha : x.length ≤ a) (hab : a ≤ b) (hb : b ≤ x.length + g.length)
    (hw : weight g ≤ weight (between (x ++ g ++ y) a b)) : a = x.length ∧ b = x.length + g.length := by
  obtain ⟨g₁, g₂, hg, hlen⟩ := between_middle (y := y) ha hab hb
  have hF : (between (x ++ g ++ y) a b).length = b - a := between_length (by simp; omega)
  have hsum : weight g = weight g₁ + weight (between (x ++ g ++ y) a b) + weight g₂ := by
    conv_lhs => rw [hg]
    rw [weight_append, weight_append]
  have h₁ : g₁ = [] := by
    by_contra hne
    have := weight_pos hne
    omega
  have h₂ : g₂ = [] := by
    by_contra hne
    have := weight_pos hne
    omega
  have hglen := congrArg List.length hg
  simp only [h₁, h₂, List.nil_append, List.append_nil, List.length_nil] at hglen hlen
  omega

/-! ## Blocks that stay whole -/

section
variable {L : Limits}

theorem pack_all (ss done : List Section) (chars : Nat) (hne : ∀ s ∈ ss, s.lines ≠ [])
    (hc : chars = weight (done.flatMap (·.lines)))
    (hw : weight ((done ++ ss).flatMap (·.lines)) ≤ L.maxChars + 1) :
    ∃ chars', ss.foldl (Acc.add L) ⟨[], done, chars⟩ = ⟨[], done ++ ss, chars'⟩ := by
  induction ss generalizing done chars with
  | nil => exact ⟨chars, by simp⟩
  | cons s ss ih =>
    have hsize := size_succ (hne s List.mem_cons_self)
    have hsum : weight ((done ++ s :: ss).flatMap (·.lines)) =
        weight (done.flatMap (·.lines)) + weight s.lines + weight (ss.flatMap (·.lines)) := by
      simp [Nat.add_assoc]
    have hadd : Acc.add L ⟨[], done, chars⟩ s = ⟨[], done ++ [s], chars + size s.lines + 1⟩ := by
      unfold Acc.add
      rw [if_neg (by omega)]
      simp only [show ¬L.maxChars < chars + size s.lines from by omega, if_false]
    rw [List.foldl_cons, hadd]
    have hchars : chars + size s.lines + 1 = weight ((done ++ [s]).flatMap (·.lines)) := by
      simp only [List.flatMap_append, weight_append, List.flatMap_cons, List.flatMap_nil, List.append_nil]
      omega
    obtain ⟨chars', h⟩ := ih (done ++ [s]) _ (fun x hx => hne x (List.mem_cons_of_mem _ hx)) hchars (by simpa using hw)
    exact ⟨chars', by simpa using h⟩

/-- The first chunk, or the buffer before any chunk, begins with the lines. -/
def Leads (F : List Str) (acc : Acc) : Prop :=
  (∃ p more, linesOf acc.chunks = (F ++ p) :: more) ∨ acc.chunks = [] ∧ ∃ p, acc.buffer = F ++ p

theorem leads_flush {F : List Str} {acc : Acc} (h : Leads F acc) (hF : F ≠ []) :
    ∃ p more, linesOf acc.flush.chunks = (F ++ p) :: more := by
  unfold Acc.flush
  rcases h with ⟨p, more, h⟩ | ⟨h, p, hp⟩
  · split
    · exact ⟨p, more, h⟩
    · exact ⟨p, more ++ [acc.buffer], by rw [linesOf_append, h]; rfl⟩
  · rw [if_neg (by simp [hp, hF])]
    exact ⟨p, [], by simp [h, linesOf, Acc.draft, hp]⟩

theorem leads_add {F : List Str} {acc : Acc} (h : Leads F acc) (hF : F ≠ []) (s : Section) : Leads F (acc.add L s) := by
  unfold Acc.add
  split
  · obtain ⟨p, more, hflush⟩ := leads_flush h hF
    exact .inl ⟨p, more ++ linesOf (splitSection L s), by simp [push_lines, hflush]⟩
  · split
    · exact .inl (leads_flush h hF)
    · rcases h with h | ⟨h, p, hp⟩
      · exact .inl h
      · refine .inr ⟨h, p ++ s.lines, ?_⟩
        unfold Acc.buffer at hp ⊢
        simp [hp]

theorem leads_close {F : List Str} {acc : Acc} (h : Leads F acc) (hF : F ≠ []) :
    ∃ p more, linesOf (closeTail L acc.chunks acc.buffer acc.chars acc.draft) = (F ++ p) :: more := by
  by_cases hbuf : acc.buffer = []
  · rcases h with h | ⟨-, p, hp⟩
    · simpa [closeTail, hbuf] using h
    · simp [hbuf, hF] at hp
  · have hd : acc.draft.lines = acc.buffer := rfl
    rcases @closeTail_cases L acc.chunks acc.buffer acc.chars acc.draft hd hbuf with he | ⟨init, last, hinit, he⟩
    · rw [he]
      rcases h with ⟨p, more, h⟩ | ⟨h, p, hp⟩
      · exact ⟨p, more ++ [acc.buffer], by simp [h]⟩
      · exact ⟨p, [], by simp [h, hp, linesOf]⟩
    · rw [he]
      rcases h with ⟨p, more, h⟩ | ⟨h, -⟩
      · cases init with
        | nil =>
          obtain ⟨rfl, -⟩ := List.cons.inj (hinit.symm.trans h)
          exact ⟨p ++ acc.buffer, [], by simp⟩
        | cons i init =>
          obtain ⟨rfl, -⟩ := List.cons.inj (hinit.symm.trans h)
          exact ⟨p, init ++ [last ++ acc.buffer], by simp⟩
      · simp [h, linesOf] at hinit

end

/-! ## The chunks of a text -/

section
variable (P : Py) (text : Str)

/-- **Fences are kept** under the limits: no chunk boundary falls strictly
inside a fenced block that fits a chunk, and one chunk holds it unless the cap
on chunks was reached before it. -/
def KeepsFences (L : Limits) : Prop :=
  ∀ a b, (a, b) ∈ fences (Str.splitlines text) → size (between (Str.splitlines text) a b) ≤ L.maxChars →
    ¬Splits (linesOf (chunk P L text)) a b ∧
      (InOne (linesOf (chunk P L text)) a b ∨
        (chunk P L text).length = L.maxChunks ∧ (linesOf (chunk P L text)).flatten.length ≤ a)

/-- Every fenced block is held by one atomic block of its section, or it opens
the text and a heading or nothing comes after it. -/
def FencesAtomic : Prop :=
  ∀ a b, (a, b) ∈ fences (Str.splitlines text) → InOne (units P text) a b ∨
    a = 0 ∧ ∀ line, (Str.splitlines text)[b]? = some line → (headingMatch line).isSome

theorem sections_cut {b : Nat}
    (h : ∀ line, (Str.splitlines text)[b]? = some line → (headingMatch line).isSome) :
    ∃ before after, sectionsOf P text = before ++ after ∧
      before.flatMap (·.lines) = (Str.splitlines text).take b := by
  cases hrest : (Str.splitlines text).drop b with
  | nil =>
    refine ⟨sectionsOf P text, [], by simp, ?_⟩
    rw [sectionsOf_lines, List.take_of_length_le (List.drop_eq_nil_iff.mp hrest)]
  | cons line rest =>
    have hline : (Str.splitlines text)[b]? = some line := by
      rw [← List.head?_drop, hrest, List.head?_cons]
    obtain ⟨before, after, he, hlines⟩ :=
      splitFrom_heading P ⟨[], [], none, none⟩ ((Str.splitlines text).take b) (h line hline) rest
    rw [← hrest, List.take_append_drop] at he
    exact ⟨before, after, he, by simpa using hlines⟩

theorem opening_holds {L : Limits} {b : Nat} (hpos : 0 < b) (hb : b ≤ (Str.splitlines text).length)
    (hfit : size (between (Str.splitlines text) 0 b) ≤ L.maxChars)
    (h : ∀ line, (Str.splitlines text)[b]? = some line → (headingMatch line).isSome) :
    InOne (linesOf (allChunks P L text)) 0 b := by
  obtain ⟨before, after, hsec, hlines⟩ := sections_cut P text h
  have hF : (Str.splitlines text).take b ≠ [] := by
    rw [← List.length_pos_iff, List.length_take]
    omega
  have hne := splitFrom_ne_nil P ⟨[], [], none, none⟩ (Str.splitlines text)
  have hwhole : between (Str.splitlines text) 0 b = (Str.splitlines text).take b := by simp [between]
  rw [hwhole] at hfit
  have hw := size_succ hF
  obtain ⟨chars, hpack⟩ := @pack_all L before [] 0
    (fun s hs => hne s (by rw [show splitFrom P _ _ = before ++ after from hsec]; simp [hs])) rfl
    (by rw [List.nil_append, hlines]; omega)
  have hleads : Leads ((Str.splitlines text).take b) ((sectionsOf P text).foldl (Acc.add L) ⟨[], [], 0⟩) := by
    rw [hsec, List.foldl_append, hpack]
    have hstart : Leads ((Str.splitlines text).take b) ⟨[], [] ++ before, chars⟩ :=
      .inr ⟨rfl, [], by simpa [Acc.buffer] using hlines⟩
    exact List.foldlRecOn after (Acc.add L) hstart fun acc hacc s _ => leads_add hacc hF s
  obtain ⟨p, more, hchunks⟩ := leads_close (L := L) hleads hF
  refine ⟨[], (Str.splitlines text).take b ++ p, more, hchunks, by simp, ?_⟩
  rw [List.length_append, List.length_take]
  simp only [List.flatten_nil, List.length_nil]
  omega

theorem atomic_holds {L : Limits} (h : FencesAtomic P text) {a b : Nat} (hf : (a, b) ∈ fences (Str.splitlines text))
    (hfit : size (between (Str.splitlines text) a b) ≤ L.maxChars) : InOne (linesOf (allChunks P L text)) a b := by
  obtain ⟨hab, hb, -⟩ := fences_spec hf
  rcases h a b hf with hunit | ⟨rfl, hnext⟩
  · refine inOne_of_not_splits (fun hs => ?_) hab (by rwa [allChunks_flatten])
    exact not_splits_of_inOne hunit ((allChunks_coarsen P L text).splits hs)
  · exact opening_holds P text hab hb hfit hnext

theorem keeps_of_atomic (h : FencesAtomic P text) (L : Limits) : KeepsFences P text L := by
  intro a b hf hfit
  have hholds := atomic_holds P text h hf hfit
  have htake : linesOf (chunk P L text) = (linesOf (allChunks P L text)).take L.maxChunks := List.map_take
  have hlen : (chunk P L text).length = ((linesOf (allChunks P L text)).take L.maxChunks).length := by
    rw [← htake]
    simp [linesOf]
  rw [hlen, htake]
  exact ⟨fun hs => not_splits_of_inOne hholds (splits_of_take _ hs), inOne_take _ hholds⟩

end

/-! ## Blocks that some limit cuts -/

theorem flatMap_split {α β : Type} {f : α → List β} {xs : List α} {ps qs : List β} {g : β}
    (h : xs.flatMap f = ps ++ g :: qs) :
    ∃ before x after p₁ p₂, xs = before ++ x :: after ∧ f x = p₁ ++ g :: p₂ ∧ ps = before.flatMap f ++ p₁ := by
  induction xs generalizing ps with
  | nil => simp at h
  | cons x xs ih =>
    rw [List.flatMap_cons] at h
    rcases List.append_eq_append_iff.mp h with ⟨as, rfl, has⟩ | ⟨as, hfx, has⟩
    · obtain ⟨before, y, after, p₁, p₂, rfl, hy, rfl⟩ := ih has
      exact ⟨x :: before, y, after, p₁, p₂, rfl, hy, by simp⟩
    · cases as with
      | nil =>
        have hnil : xs.flatMap f = [] ++ g :: qs := by simpa using has.symm
        obtain ⟨before, y, after, p₁, p₂, rfl, hy, hp⟩ := ih hnil
        exact ⟨x :: before, y, after, p₁, p₂, rfl, hy, by simp [← hp, hfx]⟩
      | cons z as =>
        obtain ⟨rfl, -⟩ := List.cons.inj has
        exact ⟨[], x, xs, ps, as, rfl, hfx, by simp⟩

section
variable {P : Py} {text : Str} {L : Limits} {a b : Nat}

theorem headed_after {before after : List Section} (hsec : sectionsOf P text = before ++ after)
    (hne : before ≠ []) : ∀ s ∈ after, Headed s := by
  intro s hs
  refine splitFrom_tail P ⟨[], [], none, none⟩ (Str.splitlines text) s ?_
  obtain ⟨x, xs, rfl⟩ := List.exists_cons_of_ne_nil hne
  rw [show splitFrom P _ _ = x :: xs ++ after from hsec]
  simp [hs]

theorem line_headed {before after : List Section} (hsec : sectionsOf P text = before ++ after)
    (hne : before ≠ []) {line : Str} (hline : (Str.splitlines text)[(before.flatMap (·.lines)).length]? = some line) :
    (headingMatch line).isSome := by
  rw [← sectionsOf_lines P text, hsec, List.flatMap_append, List.getElem?_append_right (le_refl _),
    Nat.sub_self] at hline
  cases after with
  | nil => simp at hline
  | cons s after =>
    obtain ⟨l, rest, hl, hm⟩ := headed_after hsec hne s (List.mem_cons_self ..)
    rw [List.flatMap_cons, hl] at hline
    obtain rfl : l = line := by simpa using hline
    exact hm

theorem runs_lines (L : Limits) (runs : List Run) :
    (runs.flatMap (·.groups L)).flatten = (runs.flatMap (·.sections)).flatMap (·.lines) := by
  rw [(runs_coarsen L runs).flatten, unitsOf_flatten]

theorem small_holds {before ss after : List Section} (hsec : sectionsOf P text = before ++ ss ++ after)
    (ha : (before.flatMap (·.lines)).length ≤ a)
    (hab : a < b) (hb : b ≤ (before.flatMap (·.lines)).length + (ss.flatMap (·.lines)).length)
    (hw : weight (ss.flatMap (·.lines)) ≤ weight (between (Str.splitlines text) a b))
    (hopen : ∃ line, (Str.splitlines text)[a]? = some line ∧ (headingMatch line).isSome = false) :
    a = 0 ∧ ∀ line, (Str.splitlines text)[b]? = some line → (headingMatch line).isSome := by
  have htext : Str.splitlines text =
      before.flatMap (·.lines) ++ ss.flatMap (·.lines) ++ after.flatMap (·.lines) := by
    rw [← sectionsOf_lines P text, hsec]
    simp
  have hss : ss ≠ [] := by
    rintro rfl
    rw [List.flatMap_nil, List.length_nil] at hb
    omega
  rw [htext] at hw
  obtain ⟨rfl, rfl⟩ := between_all ha hab.le hb hw
  constructor
  · by_contra hpos
    have hbefore : before ≠ [] := by
      rintro rfl
      simp at hpos
    obtain ⟨line, hline, hnot⟩ := hopen
    have := line_headed (hsec.trans (List.append_assoc ..)) hbefore hline
    rw [this] at hnot
    cases hnot
  · intro line hline
    refine line_headed hsec (by simp [hss]) ?_
    rwa [List.flatMap_append, List.length_append]

/-- A block that no part of its section's blocks is longer than is held by one
of them. -/
theorem big_holds {before after : List Section} {s : Section} (hsec : sectionsOf P text = before ++ s :: after)
    {parts : List (List (List Str))} (hparts : parts.flatten = groupAtomicBlocks s.lines)
    {p₁ p₂ : List (List Str)} {g : List Str} (hg : p₁ ++ g :: p₂ = parts.map List.flatten)
    (hfit : ∀ part ∈ parts, Fits L part) (hmax : L.maxChars = size (between (Str.splitlines text) a b))
    (ha : (before.flatMap (·.lines)).length + p₁.flatten.length ≤ a) (hab : a < b)
    (hb : b ≤ (before.flatMap (·.lines)).length + p₁.flatten.length + g.length) : InOne (units P text) a b := by
  obtain ⟨q₁, q, hq, rfl, hq₂⟩ := List.map_eq_append_iff.mp hg.symm
  obtain ⟨part, q₂, rfl, rfl, rfl⟩ := List.map_eq_cons_iff.mp hq₂
  subst hq
  have hblocks : groupAtomicBlocks s.lines = q₁.flatten ++ (part ++ q₂.flatten) := by rw [← hparts]; simp
  have hs : s.lines = q₁.flatten.flatten ++ (part.flatten ++ q₂.flatten.flatten) := by
    rw [← groupAtomicBlocks_flatten s.lines, hblocks]
    simp
  rw [← List.flatten_flatten] at ha hb
  rcases hfit part (by simp) with hone | hchars
  · -- The part is the block itself.
    match part, hone with
    | [], _ =>
      rw [List.flatten_nil, List.length_nil] at hb
      omega
    | [u], _ =>
      refine ⟨unitsOf before ++ q₁.flatten, u, q₂.flatten ++ unitsOf after, ?_, ?_, ?_⟩
      · have hunits : units P text = unitsOf before ++ (groupAtomicBlocks s.lines ++ unitsOf after) := by
          rw [units, hsec]
          simp [unitsOf]
        rw [hunits, hblocks]
        simp
      · rw [List.flatten_append, unitsOf_flatten, List.length_append]
        exact ha
      · rw [List.flatten_append, unitsOf_flatten, List.length_append]
        simpa using hb
  · -- The part is shorter than the block, which is inside it.
    have htext : Str.splitlines text = (before.flatMap (·.lines) ++ q₁.flatten.flatten) ++ part.flatten ++
        (q₂.flatten.flatten ++ after.flatMap (·.lines)) := by
      rw [← sectionsOf_lines P text, hsec, List.flatMap_append, List.flatMap_cons, hs]
      simp
    rw [← List.length_append] at ha hb
    obtain ⟨g₁, g₂, hpart, -⟩ := between_middle
      (y := q₂.flatten.flatten ++ after.flatMap (·.lines)) ha hab.le hb
    rw [← htext] at hpart
    have hle : weight (between (Str.splitlines text) a b) ≤ weight part.flatten := by
      rw [hpart, weight_append, weight_append]
      omega
    have hne : between (Str.splitlines text) a b ≠ [] := by
      rw [← List.length_pos_iff, between_length]
      · omega
      · rw [htext, List.length_append, List.length_append]
        omega
    have hsize := size_succ hne
    have hflat : weight part.flatten ≤ charsOf part := weight_flatten part
    omega

/-- The limit that a block just fits, with no floor and no cap. -/
def tight (P : Py) (text : Str) (a b : Nat) : Limits :=
  let L : Limits := ⟨size (between (Str.splitlines text) a b), 0, 0⟩
  { L with maxChunks := (allChunks P L text).length }

theorem tight_chunk (P : Py) (text : Str) (a b : Nat) :
    chunk P (tight P text a b) text = allChunks P (tight P text a b) text := by
  have hcap : (allChunks P (tight P text a b) text).length = (tight P text a b).maxChunks := rfl
  unfold chunk
  rw [← hcap, List.take_length]

theorem atomic_of_keeps (h : ∀ L, KeepsFences P text L) : FencesAtomic P text := by
  intro a b hf
  obtain ⟨hab, hb, hopen⟩ := fences_spec hf
  have hsplit := (h (tight P text a b) a b hf (le_refl _)).1
  rw [tight_chunk] at hsplit
  obtain ⟨ps, g, qs, hgroups, ha', hb'⟩ := inOne_of_not_splits hsplit hab (by rwa [allChunks_flatten])
  obtain ⟨runs, hsec, hchunks, hlight⟩ := allChunks_runs P (tight P text a b) text rfl
  obtain ⟨before, run, after, p₁, p₂, rfl, hrun, rfl⟩ := flatMap_split (hchunks.symm.trans hgroups)
  rw [List.flatten_append, List.length_append, runs_lines] at ha' hb'
  rw [List.flatMap_append, List.flatMap_cons] at hsec
  cases run with
  | small ss =>
    right
    have hnil : p₁ = [] ∧ g = ss.flatMap (·.lines) := by
      cases p₁ with
      | nil =>
        obtain ⟨rfl, -⟩ := List.cons.inj hrun
        exact ⟨rfl, rfl⟩
      | cons x p₁ => simp at hrun
    obtain ⟨rfl, rfl⟩ := hnil
    rw [List.flatten_nil, List.length_nil, Nat.add_zero] at ha' hb'
    have hw : weight (ss.flatMap (·.lines)) ≤ size (between (Str.splitlines text) a b) + 1 := hlight (.small ss) (by simp)
    have hne : between (Str.splitlines text) a b ≠ [] := by
      rw [← List.length_pos_iff, between_length hb]
      omega
    rw [size_succ hne] at hw
    exact small_holds (by simpa using hsec.symm) ha' hab hb' hw hopen
  | big s =>
    left
    obtain ⟨parts, hparts, hlines, hfit⟩ := @splitSection_fits (tight P text a b) rfl s
    exact big_holds hsec.symm hparts (hrun.symm.trans hlines) hfit rfl ha' hab hb'

end

/-- A shell block with a comment, between a long line and another. -/
def shellText : Str := List.replicate 3995 'x' ++ "\n```\n# c\n```\n".toList ++ List.replicate 400 'y'

set_option maxRecDepth 100000 in
theorem shellText_lines : linesOf (chunk ⟨id, fun _ => true⟩ {} shellText) =
    [[List.replicate 3995 'x', ['`', '`', '`']], [['#', ' ', 'c'], ['`', '`', '`'], List.replicate 400 'y']] := by
  decide +kernel

end Cograph.MdChunks
