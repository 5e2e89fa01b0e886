import Cograph.Patterns

/-!
# Passes that take out parts of a text

A pass leaves a stretch of each match of its pattern. The characters that are
left keep the places they had, so that a stretch of what is left either stood
together in the text or runs over a gap. A match that stood together is not left
by its pass: what the passes leave is left as it is by another round of them
just when no match in it runs over a gap.
-/

namespace Regex

/-- The pattern matches the texts of `L`, whatever is before and behind them. -/
structure Spells (r : Pattern) (L : List Char → Prop) : Prop where
  sound : ∀ {p q : Point}, q ∈ r.ends p → ∃ w, L w ∧ Reads p w q
  complete : ∀ {p : Point} {w t : List Char}, L w → p.after = w ++ t → ∃ q, q ∈ r.ends p

section
variable {r : Pattern} {L : List Char → Prop} {b s : List Char} {m : Match}

theorem Spells.text (h : Spells r L) (hm : r.matchAt b s = some m) : L m.text := by
  obtain ⟨q, hq, hread, -, -⟩ := Pattern.matchAt_some hm
  obtain ⟨w, hw, hread'⟩ := h.sound hq
  rwa [List.append_cancel_right (hread.1.symm.trans hread'.1)]

theorem Spells.anywhere (h : Spells r L) (hne : ¬L []) (hm : r.matchAt b s = some m) (b' t : List Char) :
    r.matchAt b' (m.text ++ t) ≠ none := by
  refine Pattern.matchAt_isSome (fun q hq => ?_) (h.complete (h.text hm) rfl)
  obtain ⟨w, hw, hread⟩ := h.sound hq
  have hpos : 0 < w.length := List.length_pos_of_ne_nil fun he => hne (he ▸ hw)
  have : (m.text ++ t).length = w.length + q.after.length := by rw [← List.length_append, ← hread.1]
  omega

end

theorem subst_congr {r : Pattern} {b x : List Char} {ts : List Token} {f g : Match → List Char}
    (hscan : r.Scans b x ts) (h : ∀ b s m, r.matchAt b s = some m → f m = g m) :
    ts.flatMap (Token.subst f) = ts.flatMap (Token.subst g) := by
  induction hscan with
  | nil => rfl
  | plain _ _ ih => exact congrArg _ ih
  | hit hm _ ih => exact congrArg₂ (· ++ ·) (h _ _ _ hm) ih

/-- Of each match `stays` characters behind the first `lead` are left. -/
structure Pass where
  pattern : Pattern
  lead : Match → Nat
  stays : Match → Nat
  /-- Something is taken out at the end of a match. -/
  shorter : ∀ {b s m}, pattern.matchAt b s = some m → lead m + stays m < m.text.length
  /-- What is matched somewhere is the beginning of something to match anywhere. -/
  anywhere : ∀ {b s m}, pattern.matchAt b s = some m → ∀ b' t, pattern.matchAt b' (m.text ++ t) ≠ none
  /-- What is left of a match holds no match. -/
  open_left : ∀ {b s m b' s' m'}, pattern.matchAt b s = some m → pattern.matchAt b' s' = some m' →
    ∃ c ∈ m.text, c ∉ (m'.text.drop (lead m')).take (stays m')

namespace Pass

/-- What is left of `s`, which the tokens read. -/
def leave {α : Type} (P : Pass) : List Token → List α → List α
  | [], _ => []
  | .plain _ :: ts, s => s.take 1 ++ leave P ts (s.drop 1)
  | .hit m :: ts, s => (s.drop (P.lead m)).take (P.stays m) ++ leave P ts (s.drop m.text.length)

def sub (P : Pass) (s : List Char) : List Char := P.pattern.sub (fun m => (m.text.drop (P.lead m)).take (P.stays m)) s

/-- The characters left, with their places. -/
def left (P : Pass) (s : List (Char × Nat)) : List (Char × Nat) := P.leave (P.pattern.scan 0 [] (s.map Prod.fst)) s

end Pass

/-- The characters of a text that the passes leave, with their places in it. -/
def remains (passes : List Pass) (s : List Char) : List (Char × Nat) := passes.foldl (fun s P => P.left s) s.zipIdx

/-- The places from `n` on, one by one. -/
def Run : Nat → List (Char × Nat) → Prop
  | _, [] => True
  | n, a :: s => a.2 = n ∧ Run (n + 1) s

/-- There is a match that runs over a gap. -/
def Bridged (r : Pattern) (s : List (Char × Nat)) : Prop :=
  ∃ u v w m, s = u ++ (v ++ w) ∧ r.matchAt (u.map Prod.fst).reverse ((v ++ w).map Prod.fst) = some m ∧
    m.text = v.map Prod.fst ∧ ∀ n, ¬Run n v

/-! ## Stretches that stood together -/

/-- The places go up. -/
def Ordered (s : List (Char × Nat)) : Prop := s.Pairwise fun a b => a.2 < b.2

section
variable {s t u v w : List (Char × Nat)} {n : Nat}

theorem ordered_zipIdx (x : List Char) (n : Nat) : Ordered (x.zipIdx n) := by
  induction x generalizing n with
  | nil => exact .nil
  | cons c x ih =>
    rw [List.zipIdx_cons]
    refine List.pairwise_cons.2 ⟨fun a ha => ?_, ih (n + 1)⟩
    have := List.le_snd_of_mem_zipIdx ha
    exact this

/-- A run that a thinned text begins with is one the text itself begins with. -/
theorem prefix_of_run (hsub : List.Sublist t s) (hs : Ordered s) (hfrom : ∀ a ∈ s, n ≤ a.2) (hv : v <+: t)
    (hrun : Run n v) : v <+: s := by
  induction hsub generalizing v n with
  | slnil => exact hv
  | @cons t s a hsub ih =>
    cases v with
    | nil => exact List.nil_prefix
    | cons b v =>
      have hb : b ∈ s := hsub.subset (hv.subset List.mem_cons_self)
      have hlt := (List.pairwise_cons.1 hs).1 b hb
      have hle := hfrom a List.mem_cons_self
      have := hrun.1
      omega
  | @cons_cons t s a hsub ih =>
    cases v with
    | nil => exact List.nil_prefix
    | cons b v =>
      obtain ⟨hab, htail⟩ := List.cons_prefix_cons.1 hv
      subst hab
      obtain ⟨hhead, hrest⟩ := List.pairwise_cons.1 hs
      refine List.cons_prefix_cons.2 ⟨rfl, ih hrest (fun a ha => ?_) htail hrun.2⟩
      have := hhead a ha
      have := hrun.1
      omega

/-- A run in a thinned text stood together in the text. -/
theorem infix_of_run (hsub : List.Sublist t s) (hs : Ordered s) (hv : v <:+: t) (hrun : Run n v) : v <:+: s := by
  induction hsub generalizing v with
  | slnil => exact hv
  | cons a _ ih => exact List.infix_cons (ih (List.pairwise_cons.1 hs).2 hv hrun)
  | @cons_cons t s a hsub ih =>
    rcases List.infix_cons_iff.1 hv with hv | hv
    · cases v with
      | nil => exact List.nil_infix
      | cons b v =>
        refine (prefix_of_run (hsub.cons_cons a) hs (fun c hc => ?_) hv hrun).isInfix
        obtain ⟨rfl, -⟩ := List.cons_prefix_cons.1 hv
        have hle : b.2 ≤ c.2 := by
          rcases List.mem_cons.1 hc with rfl | hc
          · exact Nat.le_refl _
          · exact Nat.le_of_lt ((List.pairwise_cons.1 hs).1 c hc)
        rwa [← hrun.1]
    · exact List.infix_cons (ih (List.pairwise_cons.1 hs).2 hv hrun)

end

/-! ## One pass -/

namespace Pass

section
variable {P : Pass} {b b' x y : List Char} {m : Match} {ts : List Token} {s u v w : List (Char × Nat)}

/-- The characters of a match, before what is left of the rest. -/
theorem leave_hit {α : Type} {k s : List α} (hk : k.length = m.text.length) (hlead : P.lead m + P.stays m < m.text.length) :
    P.leave (.hit m :: ts) (k ++ s) = (k.drop (P.lead m)).take (P.stays m) ++ P.leave ts s := by
  rw [leave, ← hk, List.drop_left, List.drop_append_of_le_length (by omega),
    List.take_append_of_le_length (by rw [List.length_drop]; omega)]

theorem leave_sublist (hscan : Pattern.Scans P.pattern b x ts) (hx : s.map Prod.fst = x) : List.Sublist (P.leave ts s) s := by
  induction hscan generalizing s with
  | nil => exact List.nil_sublist s
  | plain _ _ ih =>
    obtain ⟨a, s, rfl, -, hs⟩ := List.map_eq_cons_iff.1 hx
    exact (ih hs).cons_cons a
  | @hit b m t ts hm _ ih =>
    obtain ⟨k, s, rfl, hk, hs⟩ := List.map_eq_append_iff.1 hx
    have hlen : k.length = m.text.length := by rw [← hk, List.length_map]
    rw [leave_hit hlen (P.shorter hm)]
    exact (((List.take_sublist _ _).trans (List.drop_sublist _ _))).append (ih hs)

theorem leave_map (hscan : Pattern.Scans P.pattern b x ts) (hx : s.map Prod.fst = x) : (P.leave ts s).map Prod.fst =
    ts.flatMap (Token.subst fun m => (m.text.drop (P.lead m)).take (P.stays m)) := by
  induction hscan generalizing s with
  | nil => rfl
  | plain _ _ ih =>
    obtain ⟨a, s, rfl, rfl, hs⟩ := List.map_eq_cons_iff.1 hx
    exact congrArg _ (ih hs)
  | @hit b m t ts hm _ ih =>
    obtain ⟨k, s, rfl, hk, hs⟩ := List.map_eq_append_iff.1 hx
    have hlen : k.length = m.text.length := by rw [← hk, List.length_map]
    rw [leave_hit hlen (P.shorter hm), List.map_append, ih hs, List.map_take, List.map_drop, hk]
    rfl

theorem Ordered.apart {k s : List (Char × Nat)} (h : Ordered (k ++ s)) {a : Char × Nat} (hk : a ∈ k) : a ∉ s := fun hs =>
  Nat.lt_irrefl _ ((List.pairwise_append.1 h).2.2 a hk a hs)

/-- A stretch that stood together and is left is no match. -/
theorem left_no_match (hscan : Pattern.Scans P.pattern b x ts) (hx : s.map Prod.fst = x) (hs : Ordered s)
    (hsplit : s = u ++ (v ++ w)) (hleft : ∀ a ∈ v, a ∈ P.leave ts s) (hm : P.pattern.matchAt b' y = some m)
    (htext : m.text = v.map Prod.fst) : False := by
  induction hscan generalizing s u with
  | nil =>
    obtain rfl := List.map_eq_nil_iff.1 hx
    obtain ⟨-, hvw⟩ := List.nil_eq_append_iff.1 hsplit
    obtain ⟨rfl, -⟩ := List.append_eq_nil_iff.1 hvw
    obtain ⟨-, -, -, hne, -⟩ := Pattern.matchAt_some hm
    exact hne htext
  | @plain b c t ts hnone hscan ih =>
    cases u with
    | nil =>
      rw [List.nil_append] at hsplit
      rw [← hx, hsplit, List.map_append, ← htext] at hnone
      exact P.anywhere hm _ _ hnone
    | cons a u =>
      obtain ⟨a', s', rfl, -, hs'⟩ := List.map_eq_cons_iff.1 hx
      obtain ⟨rfl, hbehind⟩ := List.cons.inj hsplit
      refine ih hs' hs.tail hbehind fun d hd => ?_
      have hd' : d ∈ s' := by simp [hbehind, hd]
      rcases List.mem_cons.1 (hleft d hd) with rfl | h
      · exact absurd hd' (Ordered.apart (k := [d]) hs List.mem_cons_self)
      · exact h
  | @hit b m' t ts hm' hscan ih =>
    obtain ⟨k, s', rfl, hk, hs'⟩ := List.map_eq_append_iff.1 hx
    have hlen : k.length = m'.text.length := by rw [← hk, List.length_map]
    have hshort := P.shorter hm'
    have hrest : List.Sublist (P.leave ts s') s' := leave_sublist hscan hs'
    rw [leave_hit hlen hshort] at hleft
    have hkept : ∀ a ∈ v, a ∈ k → a ∈ (k.drop (P.lead m')).take (P.stays m') := by
      intro a ha hak
      rcases List.mem_append.1 (hleft a ha) with h | h
      · exact h
      · exact absurd (hrest.subset h) (Ordered.apart hs hak)
    have hbehind : ∀ u', s' = u' ++ (v ++ w) → False := by
      intro u' hsplit'
      refine ih hs' (List.pairwise_append.1 hs).2.1 hsplit' fun a ha => ?_
      have ha' : a ∈ s' := by simp [hsplit', ha]
      rcases List.mem_append.1 (hleft a ha) with h | h
      · have hak : a ∈ k := List.mem_of_mem_drop (List.mem_of_mem_take h)
        exact absurd ha' (Ordered.apart hs hak)
      · exact h
    rcases List.append_eq_append_iff.1 hsplit with ⟨u', -, hsplit'⟩ | ⟨p, hp, hsplit'⟩
    · exact hbehind u' hsplit'
    rcases List.append_eq_append_iff.1 hsplit' with ⟨q, hq, -⟩ | ⟨q, hq, hsplit'⟩
    · -- the stretch is in what is left of the match
      obtain ⟨c, hc, hnot⟩ := P.open_left hm hm'
      rw [htext] at hc
      obtain ⟨a, ha, rfl⟩ := List.mem_map.1 hc
      have hak : a ∈ k := by simp [hp, hq, ha]
      rw [← hk, ← List.map_drop, ← List.map_take] at hnot
      exact hnot (List.mem_map_of_mem (hkept a ha hak))
    · rcases List.eq_nil_or_concat p with rfl | ⟨p, z, rfl⟩
      · exact hbehind [] (by simpa [hq] using hsplit'.symm)
      · -- the end of the match is taken out
        rw [List.concat_eq_append] at hp hq
        have hkz : k = (u ++ p) ++ [z] := by rw [hp, List.append_assoc]
        have hz := hkept z (by simp [hq]) (by simp [hkz])
        have hpos : P.lead m' + P.stays m' ≤ (u ++ p).length := by
          have : k.length = (u ++ p).length + 1 := by rw [hkz, List.length_append]; rfl
          omega
        rw [hkz, List.drop_append_of_le_length (by omega),
          List.take_append_of_le_length (by rw [List.length_drop]; omega)] at hz
        have hzk : z ∈ u ++ p := List.mem_of_mem_drop (List.mem_of_mem_take hz)
        rw [hkz] at hs
        exact Ordered.apart (List.pairwise_append.1 hs).1 hzk List.mem_cons_self

theorem left_map (P : Pass) (s : List (Char × Nat)) : (P.left s).map Prod.fst = P.sub (s.map Prod.fst) :=
  leave_map (Pattern.scans _ _ _) rfl

theorem left_sublist (P : Pass) (s : List (Char × Nat)) : List.Sublist (P.left s) s :=
  leave_sublist (Pattern.scans _ _ _) rfl

/-! ## Texts a pass leaves as they are -/

theorem subst_length (hscan : Pattern.Scans P.pattern b x ts) :
    (ts.flatMap (Token.subst fun m => (m.text.drop (P.lead m)).take (P.stays m))).length ≤ x.length := by
  rw [← leave_map (s := x.zipIdx) hscan (List.zipIdx_map_fst 0 x), List.length_map]
  have := (leave_sublist hscan (List.zipIdx_map_fst 0 x)).length_le
  rwa [List.length_zipIdx] at this

theorem subst_fixed (hscan : Pattern.Scans P.pattern b x ts)
    (hfull : x.length ≤ (ts.flatMap (Token.subst fun m => (m.text.drop (P.lead m)).take (P.stays m))).length) :
    ∀ u w, x = u ++ w → P.pattern.matchAt (u.reverse ++ b) w = none := by
  induction hscan with
  | nil b =>
    intro u w hx
    obtain ⟨-, rfl⟩ := List.nil_eq_append_iff.1 hx
    refine Option.eq_none_iff_forall_ne_some.2 fun m hm => ?_
    obtain ⟨q, -, hread, hne, -⟩ := Pattern.matchAt_some hm
    exact hne (List.append_eq_nil_iff.1 hread.1.symm).1
  | @plain b c s ts hnone _ ih =>
    intro u w hx
    cases u with
    | nil =>
      obtain rfl : c :: s = w := hx
      exact hnone
    | cons d u =>
      obtain ⟨rfl, hs⟩ := List.cons.inj hx
      have := ih (by simpa [Token.subst] using hfull) u w hs
      simpa using this
  | @hit b m t ts hm hscan ih =>
    have hshort := P.shorter hm
    have hrest := subst_length hscan
    rw [List.flatMap_cons, List.length_append, List.length_append, Token.subst, List.length_take] at hfull
    omega

theorem subst_self (hscan : Pattern.Scans P.pattern b x ts)
    (hnone : ∀ u w, x = u ++ w → P.pattern.matchAt (u.reverse ++ b) w = none) (f : Match → List Char) :
    ts.flatMap (Token.subst f) = x := by
  induction hscan with
  | nil => rfl
  | @plain b c s ts _ _ ih =>
    have hrest := ih fun u w hs => by simpa using hnone (c :: u) w (by rw [hs]; rfl)
    rw [List.flatMap_cons, hrest]
    rfl
  | @hit b m t ts hm =>
    have := hnone [] (m.text ++ t) rfl
    rw [List.reverse_nil, List.nil_append, hm] at this
    cases this

theorem sub_self_iff : P.sub x = x ↔ ∀ u w, x = u ++ w → P.pattern.matchAt u.reverse w = none := by
  constructor
  · intro h u w hx
    have := subst_fixed (Pattern.scans P.pattern [] x) (Nat.le_of_eq (congrArg List.length h).symm) u w hx
    rwa [List.append_nil] at this
  · intro h
    exact subst_self (Pattern.scans P.pattern [] x) (fun u w hx => by rw [List.append_nil]; exact h u w hx) _

end

end Pass

/-! ## All passes -/

section
variable {passes : List Pass} {P : Pass} {b x y : List Char} {m : Match} {s v : List (Char × Nat)} {n : Nat}

theorem passes_sublist (passes : List Pass) (s : List (Char × Nat)) :
    List.Sublist (passes.foldl (fun s P => P.left s) s) s := by
  induction passes generalizing s with
  | nil => exact List.Sublist.refl s
  | cons P passes ih => exact (ih _).trans (P.left_sublist s)

theorem passes_map (passes : List Pass) (s : List (Char × Nat)) :
    (passes.foldl (fun s P => P.left s) s).map Prod.fst = passes.foldl (fun x P => P.sub x) (s.map Prod.fst) := by
  induction passes generalizing s with
  | nil => rfl
  | cons P passes ih => rw [List.foldl_cons, ih, P.left_map, List.foldl_cons]

/-- A match in what is left did not stand together. -/
theorem match_not_run (hP : P ∈ passes) (hs : Ordered s) (hv : v <:+: passes.foldl (fun s P => P.left s) s)
    (hrun : Run n v) (hm : P.pattern.matchAt b y = some m) (htext : m.text = v.map Prod.fst) : False := by
  induction passes generalizing s with
  | nil => cases hP
  | cons Q passes ih =>
    have hleft : Ordered (Q.left s) := hs.sublist (Q.left_sublist s)
    rcases List.mem_cons.1 hP with rfl | hP
    · have hv : v <:+: P.left s := infix_of_run (passes_sublist passes _) hleft hv hrun
      obtain ⟨u, w, hsplit⟩ := infix_of_run (P.left_sublist s) hs hv hrun
      rw [List.append_assoc] at hsplit
      exact Pass.left_no_match (Pattern.scans _ _ _) rfl hs hsplit.symm (fun a ha => hv.subset ha) hm htext
    · exact ih hP hleft hv

theorem passes_shorten (passes : List Pass) (x : List Char) :
    (passes.foldl (fun x P => P.sub x) x).length ≤ x.length := by
  induction passes generalizing x with
  | nil => exact Nat.le_refl _
  | cons P passes ih => exact Nat.le_trans (ih _) (Pass.subst_length (Pattern.scans P.pattern [] x))

theorem passes_self_iff : passes.foldl (fun x P => P.sub x) x = x ↔ ∀ P ∈ passes, P.sub x = x := by
  induction passes with
  | nil => simp
  | cons P passes ih =>
    rw [List.foldl_cons, List.forall_mem_cons]
    constructor
    · intro h
      have hP : P.sub x = x := by
        refine Pass.sub_self_iff.2 fun u w hx => ?_
        have hlen := passes_shorten passes (P.sub x)
        rw [h] at hlen
        have := Pass.subst_fixed (Pattern.scans P.pattern [] x) hlen u w hx
        rwa [List.append_nil] at this
      rw [hP] at h
      exact ⟨hP, ih.1 h⟩
    · intro h
      rw [h.1]
      exact ih.2 h.2

/-- Another round of the passes changes nothing just when no match runs over a
gap. -/
theorem remains_self_iff (passes : List Pass) (x : List Char) :
    passes.foldl (fun x P => P.sub x) (passes.foldl (fun x P => P.sub x) x) = passes.foldl (fun x P => P.sub x) x ↔
      ∀ P ∈ passes, ¬Bridged P.pattern (remains passes x) := by
  have hx : (remains passes x).map Prod.fst = passes.foldl (fun x P => P.sub x) x := by
    unfold remains
    rw [passes_map, List.zipIdx_map_fst]
  rw [← hx, passes_self_iff]
  refine forall₂_congr fun P hP => ?_
  rw [Pass.sub_self_iff]
  constructor
  · intro h hbridged
    obtain ⟨u, v, w, m, hsplit, hm, -⟩ := hbridged
    have := h _ _ ((congrArg (List.map Prod.fst) hsplit).trans List.map_append)
    rw [hm] at this
    cases this
  · intro h a c hac
    by_contra hsome
    obtain ⟨m, hm⟩ := Option.ne_none_iff_exists'.1 hsome
    obtain ⟨q, -, hread, -, -⟩ := Pattern.matchAt_some hm
    obtain ⟨u, s, hus, rfl, hs⟩ := List.map_eq_append_iff.1 hac
    have hc : c = m.text ++ q.after := hread.1
    obtain ⟨v, w, rfl, hv, -⟩ := List.map_eq_append_iff.1 (hs.trans hc)
    rw [← hs] at hm
    refine h ⟨u, v, w, m, hus, hm, hv.symm, fun n hrun => ?_⟩
    have hinfix : v <:+: remains passes x := by
      rw [hus]
      exact ⟨u, w, by simp⟩
    exact match_not_run hP (ordered_zipIdx x 0) hinfix hrun hm hv.symm

end

end Regex
