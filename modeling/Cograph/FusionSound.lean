import Cograph.Fusion

/-!
# What fusion ranks by

The fused list is the ids of the streams, once each, by their scores and then
by themselves. A score weighs the places of an id in the streams with a weight
that falls with the rank, so it grows when the places move to the front.
-/

namespace Cograph.Fusion

/-! ## Places in a list -/

section
variable {α : Type} [DecidableEq α] {x : α} {s s' t : List α}

/-- The places of `x`, weighed, the first being `n`. -/
def weigh (f : Nat → ℚ) (x : α) : Nat → List α → ℚ
  | _, [] => 0
  | n, a :: s => (if a = x then f n else 0) + weigh f x (n + 1) s

/-- With `c` occurrences in advance, `t` has at every place at least as many as
`s`. -/
theorem weigh_le {f : Nat → ℚ} (hpos : ∀ n, 0 ≤ f n) (hanti : Antitone f) {c n : Nat}
    (h : ∀ m, (s.take m).count x ≤ c + (t.take m).count x) : weigh f x n s ≤ c * f n + weigh f x n t := by
  have hstep : f (n + 1) ≤ f n := hanti (Nat.le_succ n)
  induction s generalizing t c n with
  | nil =>
    have hw : ∀ (t : List α) (n : Nat), 0 ≤ weigh f x n t := by
      intro t
      induction t with
      | nil => exact fun _ => le_rfl
      | cons b t ih =>
        intro n
        rw [weigh]
        have := ih (n + 1)
        have := hpos n
        split <;> linarith
    have := mul_nonneg (Nat.cast_nonneg (α := ℚ) c) (hpos n)
    have := hw t n
    simpa [weigh] using by linarith
  | cons a s ih =>
    -- the advance that is left behind the first place
    obtain ⟨b, t', hb, ht⟩ : ∃ (b : Nat) (t' : List α), weigh f x n t = b * f n + weigh f x (n + 1) t' ∧
        ∀ m, (t.take (m + 1)).count x = b + (t'.take m).count x := by
      cases t with
      | nil => exact ⟨0, [], by simp [weigh], by simp⟩
      | cons b t =>
        by_cases hbx : b = x
        · exact ⟨1, t, by simp [weigh, hbx], fun m => by simp [hbx, Nat.add_comm]⟩
        · exact ⟨0, t, by simp [weigh, hbx], fun m => by simp [hbx]⟩
    have hnext : ∀ m, (if a = x then 1 else 0) + (s.take m).count x ≤ c + b + (t'.take m).count x := by
      intro m
      have := h (m + 1)
      rw [ht m, List.take_succ_cons, List.count_cons] at this
      simp only [beq_iff_eq] at this
      omega
    rw [weigh, hb]
    by_cases hax : a = x
    · simp only [hax, if_true] at hnext ⊢
      have hone : 1 ≤ c + b := by simpa using hnext 0
      have := ih (t := t') (c := c + b - 1) (n := n + 1) (fun m => by have := hnext m; omega) (hanti (Nat.le_succ _))
      rw [Nat.cast_sub hone] at this
      push_cast at this
      have hc : (0 : ℚ) ≤ c + b - 1 := by
        have : (1 : ℚ) ≤ c + b := by exact_mod_cast hone
        linarith
      have := mul_le_mul_of_nonneg_left hstep hc
      linarith
    · simp only [hax, if_false] at hnext ⊢
      have := ih (t := t') (c := c + b) (n := n + 1) (fun m => by have := hnext m; omega) (hanti (Nat.le_succ _))
      push_cast at this
      have hc : (0 : ℚ) ≤ c + b := by positivity
      have := mul_le_mul_of_nonneg_left hstep hc
      linarith

/-- `x` stands as far to the front in `s'` as in `s`, and every other as far to
the back. -/
def Improves (x : α) (s s' : List α) : Prop :=
  (∀ n, (s.take n).count x ≤ (s'.take n).count x) ∧ ∀ y, y ≠ x → ∀ n, (s'.take n).count y ≤ (s.take n).count y

theorem Improves.trans (h : Improves x s s') (h' : Improves x s' t) : Improves x s t :=
  ⟨fun n => (h.1 n).trans (h'.1 n), fun y hy n => (h'.2 y hy n).trans (h.2 y hy n)⟩

theorem Improves.refl (x : α) (s : List α) : Improves x s s := ⟨fun _ => le_rfl, fun _ _ _ => le_rfl⟩

theorem Improves.cons (a : α) (h : Improves x s s') : Improves x (a :: s) (a :: s') := by
  refine ⟨fun n => ?_, fun y hy n => ?_⟩
  · cases n with
    | zero => simp
    | succ n =>
      have := h.1 n
      simp only [List.take_succ_cons, List.count_cons]
      omega
  · cases n with
    | zero => simp
    | succ n =>
      have := h.2 y hy n
      simp only [List.take_succ_cons, List.count_cons]
      omega

theorem Improves.append (p : List α) (h : Improves x s s') : Improves x (p ++ s) (p ++ s') := by
  induction p with
  | nil => exact h
  | cons a p ih => exact ih.cons a

theorem improves_swap (x a : α) (s : List α) : Improves x (a :: x :: s) (x :: a :: s) := by
  refine ⟨fun n => ?_, fun y hy n => ?_⟩
  · match n with
    | 0 => simp
    | 1 => by_cases hax : a = x <;> simp [hax]
    | n + 2 => simp only [List.take_succ_cons, List.count_cons]; omega
  · match n with
    | 0 => simp
    | 1 => simp [List.count_cons, Ne.symm hy]
    | n + 2 => simp only [List.take_succ_cons, List.count_cons]; omega

/-- An occurrence that moves to the front, past `q`. -/
theorem improves_move (x : α) (p q r : List α) : Improves x (p ++ (q ++ x :: r)) (p ++ (x :: (q ++ r))) := by
  apply Improves.append
  induction q with
  | nil => exact .refl x _
  | cons a q ih => exact (ih.cons a).trans (improves_swap x a _)

/-- An occurrence that is put in. -/
theorem improves_insert (x : α) (p r : List α) : Improves x (p ++ r) (p ++ x :: r) := by
  apply Improves.append
  refine ⟨fun n => ?_, fun y hy n => ?_⟩
  · cases n with
    | zero => simp
    | succ n =>
      rw [List.take_succ_cons, List.count_cons_self]
      have hle : (r.take (n + 1)).count x ≤ (r.take n).count x + 1 := by
        rw [List.take_add_one, List.count_append]
        refine Nat.add_le_add_left (List.count_le_length.trans ?_) _
        cases r[n]? <;> simp
      exact hle
  · cases n with
    | zero => simp
    | succ n =>
      rw [List.take_succ_cons, List.count_cons_of_ne (Ne.symm hy)]
      exact ((List.take_sublist_take_left (Nat.le_succ n)).count_le y)

theorem Improves.take (h : Improves x s s') (c : Nat) : Improves x (s.take c) (s'.take c) := by
  refine ⟨fun n => ?_, fun y hy n => ?_⟩
  · simpa only [List.take_take] using h.1 (min n c)
  · simpa only [List.take_take] using h.2 y hy (min n c)

theorem Improves.count_le (h : Improves x s s') : s.count x ≤ s'.count x := by
  have := h.1 (max s.length s'.length)
  rwa [List.take_of_length_le (le_max_left _ _), List.take_of_length_le (le_max_right _ _)] at this

theorem Improves.other_count_le (h : Improves x s s') {y : α} (hy : y ≠ x) : s'.count y ≤ s.count y := by
  have := h.2 y hy (max s.length s'.length)
  rwa [List.take_of_length_le (le_max_left _ _), List.take_of_length_le (le_max_right _ _)] at this

end

/-- Where an element stands in a list that a relation sorts. -/
theorem idxOf_sorted {α : Type} [DecidableEq α] {r : α → α → Prop} [DecidableRel r] {l : List α} {x : α}
    (hasymm : ∀ a b, r a b → ¬r b a) (h : l.Pairwise r) (hx : x ∈ l) : l.idxOf x = l.countP (r · x) := by
  induction l with
  | nil => cases hx
  | cons a l ih =>
    obtain ⟨ha, hl⟩ := List.pairwise_cons.1 h
    by_cases hax : a = x
    · subst hax
      have hzero : (a :: l).countP (r · a) = 0 := by
        rw [List.countP_eq_zero]
        intro b hb
        rcases List.mem_cons.1 hb with rfl | hb
        · simpa using fun hr : r b b => hasymm b b hr hr
        · simpa using hasymm a b (ha b hb)
      rw [List.idxOf_cons_self, hzero]
    · have hx' := (List.mem_cons.1 hx).resolve_left (Ne.symm hax)
      rw [List.idxOf_cons_ne _ hax, ih hl hx', List.countP_cons_of_pos (by simpa using ha x hx')]

/-! ## The scores -/

section
variable {ι : Type} [LinearOrder ι]

/-- What a stream gives an id: `1 / (k + rank)` for each of its ranks. -/
def streamScore (k : Int) (id : ι) (stream : List ι) : ℚ :=
  ((stream.zipIdx 1).map fun p => if p.1 = id then 1 / ((k : ℚ) + p.2) else 0).sum

/-- The sum over the streams. -/
def fusedScore (k : Int) (streams : List (List ι)) (id : ι) : ℚ := (streams.map (streamScore k id)).sum

/-- The ids that the streams rank. -/
def idStreams (cap : Option Int) (streams : List (List (RetrievedChunk ι))) : List (List ι) :=
  streams.map fun s => (capped cap s).map (·.chunkId)

/-- The order of the fused list. -/
def Ahead (score : ι → ℚ) (a b : ι) : Prop := score b < score a ∨ score a = score b ∧ a < b

/-- The hits with their ranks and the labels of their streams. -/
def entries (streams : List (List (RetrievedChunk ι) × Option Str)) : List ((RetrievedChunk ι × Nat) × Option Str) :=
  streams.flatMap fun s => (s.1.zipIdx 1).map fun h => (h, s.2)

def addEntry (k : Int) (f : Fused ι) (e : (RetrievedChunk ι × Nat) × Option Str) : Fused ι := addHit k e.2 f e.1.1 e.1.2

def entryScore (k : Int) (id : ι) (es : List ((RetrievedChunk ι × Nat) × Option Str)) : ℚ :=
  (es.map fun e => if e.1.1.chunkId = id then 1 / ((k : ℚ) + e.1.2) else 0).sum

theorem foldl_entries (k : Int) (streams : List (List (RetrievedChunk ι) × Option Str)) (f : Fused ι) :
    streams.foldl (addStream k) f = (entries streams).foldl (addEntry k) f := by
  rw [entries, List.foldl_flatMap]
  congr
  funext f s
  rw [List.foldl_map]
  rfl

/-- Of the dictionaries, each id of the scores once, and a chunk of each. -/
structure Filled (f : Fused ι) : Prop where
  keys : (f.scores.map (·.1)).Nodup
  chunks : ∀ id, (Dict.get f.scores id).isSome → (Dict.get f.chunksById id).isSome
  ids : ∀ id c, Dict.get f.chunksById id = some c → c.chunkId = id

theorem get_put (d : Dict.Items ι ℚ) (id id' : ι) (v : ℚ) :
    Dict.get (Dict.put d id v) id' = if id = id' then some v else Dict.get d id' := by
  split
  · next h => rw [h, Dict.get_put_self]
  · next h => rw [Dict.get_put_ne d v h]

theorem filled_addEntry {k : Int} {f : Fused ι} {e : (RetrievedChunk ι × Nat) × Option Str} (h : Filled f) :
    Filled (addEntry k f e) where
  keys := Dict.put_nodup h.keys _ _
  chunks id hid := by
    unfold addEntry addHit at hid ⊢
    dsimp only at hid ⊢
    by_cases hin : (Dict.get f.chunksById e.1.1.chunkId).isSome
    · rw [if_pos hin]
      by_cases hsame : e.1.1.chunkId = id
      · exact hsame ▸ hin
      · rw [Dict.get_put_ne _ _ hsame] at hid
        exact h.chunks id hid
    · rw [if_neg hin]
      by_cases hsame : e.1.1.chunkId = id
      · rw [hsame, Dict.get_put_self]
        rfl
      · rw [Dict.get_put_ne _ _ hsame] at hid ⊢
        exact h.chunks id hid
  ids id c hc := by
    unfold addEntry addHit at hc
    dsimp only at hc
    by_cases hin : (Dict.get f.chunksById e.1.1.chunkId).isSome
    · rw [if_pos hin] at hc
      exact h.ids id c hc
    · rw [if_neg hin] at hc
      by_cases hsame : e.1.1.chunkId = id
      · rw [hsame, Dict.get_put_self] at hc
        rw [← Option.some.inj hc, hsame]
      · rw [Dict.get_put_ne _ _ hsame] at hc
        exact h.ids id c hc

theorem filled_entries {k : Int} {f : Fused ι} (es : List ((RetrievedChunk ι × Nat) × Option Str)) (h : Filled f) :
    Filled (es.foldl (addEntry k) f) := by
  induction es generalizing f with
  | nil => exact h
  | cons e es ih => exact ih (filled_addEntry h)

theorem get_addEntry (k : Int) (f : Fused ι) (e : (RetrievedChunk ι × Nat) × Option Str) (id : ι) :
    Dict.get (addEntry k f e).scores id = if e.1.1.chunkId = id then
      some ((Dict.get f.scores e.1.1.chunkId).getD 0 + 1 / (k + e.1.2)) else Dict.get f.scores id :=
  get_put _ _ _ _

theorem score_entries {k : Int} (es : List ((RetrievedChunk ι × Nat) × Option Str)) (f : Fused ι) (id : ι) :
    (Dict.get (es.foldl (addEntry k) f).scores id).getD 0 = (Dict.get f.scores id).getD 0 + entryScore k id es := by
  induction es generalizing f with
  | nil => simp [entryScore]
  | cons e es ih =>
    have hcons : entryScore k id (e :: es) = (if e.1.1.chunkId = id then 1 / ((k : ℚ) + e.1.2) else 0) + entryScore k id es :=
      List.sum_cons
    rw [List.foldl_cons, ih, get_addEntry, hcons, ← add_assoc]
    congr 1
    split
    · next h => rw [Option.getD_some, h]
    · rw [add_zero]

theorem mem_entries {k : Int} (es : List ((RetrievedChunk ι × Nat) × Option Str)) (f : Fused ι) (id : ι) :
    (Dict.get (es.foldl (addEntry k) f).scores id).isSome ↔
      (Dict.get f.scores id).isSome ∨ id ∈ es.map (·.1.1.chunkId) := by
  induction es generalizing f with
  | nil => simp
  | cons e es ih =>
    rw [List.foldl_cons, ih, get_addEntry, List.map_cons, List.mem_cons]
    split
    · next h => simp [h]
    · next h => simp [Ne.symm h]

theorem filled_init : Filled ({} : Fused ι) where
  keys := List.nodup_nil
  chunks _ h := by cases h
  ids _ _ h := by cases h

omit [LinearOrder ι] in
theorem entries_ids (streams : List (List (RetrievedChunk ι) × Option Str)) :
    (entries streams).map (·.1.1.chunkId) = (streams.map fun s => s.1.map (·.chunkId)).flatten := by
  unfold entries
  rw [List.map_flatMap, List.flatMap_def]
  congr 1
  refine List.map_congr_left fun s _ => ?_
  conv_rhs => rw [← List.zipIdx_map_fst 1 s.1]
  rw [List.map_map, List.map_map]
  rfl

theorem entries_score (k : Int) (id : ι) (streams : List (List (RetrievedChunk ι) × Option Str)) :
    entryScore k id (entries streams) = fusedScore k (streams.map fun s => s.1.map (·.chunkId)) id := by
  unfold entryScore entries fusedScore
  induction streams with
  | nil => rfl
  | cons s streams ih =>
    rw [List.flatMap_cons, List.map_append, List.sum_append, ih, List.map_cons, List.map_cons, List.sum_cons]
    congr 1
    unfold streamScore
    rw [List.zipIdx_map, List.map_map, List.map_map]
    rfl

omit [LinearOrder ι] in
theorem labelled_streams {streams : List (List (RetrievedChunk ι))} {names : Option (List Str)} (cap : Option Int)
    (h : ∀ ns ∈ names, ns.length = streams.length) :
    ((streams.map (capped cap)).zip (labels streams.length names)).map (fun s => s.1.map (·.chunkId)) =
      idStreams cap streams := by
  have hlen : (labels streams.length names).length = streams.length := by
    unfold labels
    cases names with
    | none => exact List.length_replicate
    | some ns => rw [List.length_map, h ns rfl]
  have hle : (streams.map (capped cap)).length ≤ (labels streams.length names).length := by rw [hlen, List.length_map]
  have hfst := List.map_fst_zip hle
  have hmap := congrArg (List.map fun s : List (RetrievedChunk ι) => s.map (·.chunkId)) hfst
  rw [List.map_map, List.map_map] at hmap
  exact hmap

section
variable {k : Int} {streams : List (List (RetrievedChunk ι))} {cap : Option Int} {names : Option (List Str)}

theorem fuse_score (h : ∀ ns ∈ names, ns.length = streams.length) (id : ι) :
    (Dict.get (fuse k streams cap names).scores id).getD 0 = fusedScore k (idStreams cap streams) id := by
  rw [fuse, foldl_entries, score_entries, entries_score, labelled_streams cap h]
  exact zero_add _

theorem mem_fuse (h : ∀ ns ∈ names, ns.length = streams.length) (id : ι) :
    (Dict.get (fuse k streams cap names).scores id).isSome ↔ id ∈ (idStreams cap streams).flatten := by
  rw [fuse, foldl_entries, mem_entries, entries_ids, labelled_streams cap h]
  simp

theorem fuse_filled : Filled (fuse k streams cap names) := by
  rw [fuse, foldl_entries]
  exact filled_entries _ filled_init

/-! ## The fused list -/

/-- What a fused list is: the ids of the streams, once each, with their scores
and in the order of these. -/
structure Ranking (k : Int) (streams : List (List ι)) (out : List (ι × ℚ)) : Prop where
  ids : ∀ id, id ∈ out.map (·.1) ↔ id ∈ streams.flatten
  scores : ∀ r ∈ out, r.2 = fusedScore k streams r.1
  sorted : (out.map (·.1)).Pairwise (Ahead (fusedScore k streams))

theorem merged_items {f : Fused ι} (h : Filled f) : (rrfMergeStreams.merged f).map (fun c => (c.chunkId, c.score)) =
    Ranked.ranked (fun item : ι × ℚ => toLex (-item.2, item.1)) f.scores := by
  have hall : ∀ items : List (ι × ℚ), (∀ item ∈ items, item ∈ f.scores) →
      (items.filterMap (mergedChunk f)).map (fun c => (c.chunkId, c.score)) = items := by
    intro items hitems
    induction items with
    | nil => rfl
    | cons item items ih =>
      have hin := Dict.get_isSome (hitems item List.mem_cons_self)
      obtain ⟨c, hc⟩ := Option.isSome_iff_exists.1 (h.chunks _ hin)
      have hmerged : ∃ c', mergedChunk f item = some c' ∧ (c'.chunkId, c'.score) = item := by
        unfold mergedChunk
        rw [hc]
        exact ⟨_, rfl, by rw [h.ids _ c hc]⟩
      obtain ⟨c', hc', hitem⟩ := hmerged
      rw [List.filterMap_cons_some hc', List.map_cons, hitem]
      exact congrArg (item :: ·) (ih fun i hi => hitems i (List.mem_cons_of_mem item hi))
  exact hall _ fun item hitem => (Ranked.ranked_perm _).mem_iff.1 hitem

theorem merged_ranking (h : ∀ ns ∈ names, ns.length = streams.length) :
    Ranking k (idStreams cap streams)
      ((rrfMergeStreams.merged (fuse k streams cap names)).map fun c => (c.chunkId, c.score)) := by
  have hfilled : Filled (fuse k streams cap names) := fuse_filled
  have hscore : ∀ item ∈ (fuse k streams cap names).scores, item.2 = fusedScore k (idStreams cap streams) item.1 := by
    intro item hitem
    rw [← fuse_score h, Dict.get_of_nodup hfilled.keys hitem]
    rfl
  have hperm := @Ranked.ranked_perm _ _ _ (fun item : ι × ℚ => toLex (-item.2, item.1)) (fuse k streams cap names).scores
  rw [merged_items hfilled]
  refine ⟨fun id => ?_, fun r hr => hscore r (hperm.mem_iff.1 hr), ?_⟩
  · rw [(hperm.map (·.1)).mem_iff, ← mem_fuse h, List.mem_map]
    constructor
    · intro hid
      obtain ⟨item, hitem, rfl⟩ := hid
      exact Dict.get_isSome hitem
    · intro hid
      obtain ⟨v, hv⟩ := Option.isSome_iff_exists.1 hid
      exact ⟨(id, v), Dict.mem_of_get hv, rfl⟩
  · have hkeys : ((fuse k streams cap names).scores.map fun item : ι × ℚ => toLex (-item.2, item.1)).Nodup := by
      refine List.Nodup.of_map (fun key => (ofLex key).2) ?_
      rw [List.map_map]
      exact hfilled.keys
    rw [List.pairwise_map]
    refine List.Pairwise.imp_of_mem (fun {a b} ha hb hlt => ?_) (Ranked.ranked_pairwise hkeys)
    rw [Ahead, ← hscore a (hperm.mem_iff.1 ha), ← hscore b (hperm.mem_iff.1 hb)]
    rcases Prod.Lex.toLex_lt_toLex.1 hlt with hlt | ⟨heq, hlt⟩
    · exact .inl (neg_lt_neg_iff.1 hlt)
    · exact .inr ⟨neg_inj.1 heq, hlt⟩

end

variable {k : Int} {streams streams' : List (List ι)} {out out' : List (ι × ℚ)}

theorem ahead_asymm {score : ι → ℚ} (a b : ι) (h : Ahead score a b) : ¬Ahead score b a := by
  unfold Ahead at *
  rcases h with h | ⟨h, hlt⟩
  · rintro (h' | ⟨h', -⟩)
    · exact lt_asymm h h'
    · exact (h'.symm ▸ h).false
  · rintro (h' | ⟨-, hlt'⟩)
    · exact (h ▸ h').false
    · exact lt_asymm hlt hlt'

theorem Ranking.nodup (h : Ranking k streams out) : (out.map (·.1)).Nodup := by
  refine h.sorted.imp fun {a b} hab hne => ?_
  subst hne
  exact ahead_asymm a a hab hab

/-- The ids and their scores say what the list is. -/
theorem Ranking.eq (h : Ranking k streams out) (h' : Ranking k streams' out')
    (hscore : fusedScore k streams' = fusedScore k streams)
    (hids : ∀ id, id ∈ streams'.flatten ↔ id ∈ streams.flatten) : out' = out := by
  have hsame : out'.map (·.1) = out.map (·.1) := by
    have hperm : (out'.map (·.1)).Perm (out.map (·.1)) := by
      rw [List.perm_ext_iff_of_nodup h'.nodup h.nodup]
      intro id
      rw [h.ids, h'.ids, hids]
    refine hperm.eq_of_pairwise (fun a b _ _ hab hba => ?_) (hscore ▸ h'.sorted) h.sorted
    exact absurd hba (ahead_asymm a b hab)
  have hback : ∀ {streams : List (List ι)} {out : List (ι × ℚ)}, Ranking k streams out →
      out = (out.map (·.1)).map fun id => (id, fusedScore k streams id) := by
    intro streams out hr
    rw [List.map_map]
    conv_lhs => rw [← List.map_id out]
    refine List.map_congr_left fun r hmem => ?_
    rw [id, Function.comp_apply, ← hr.scores r hmem]
  rw [hback h, hback h', hsame, hscore]

/-- No id but `x` comes to stand before `x`. -/
theorem Ranking.position (h : Ranking k streams out) (h' : Ranking k streams' out') {x : ι}
    (hx : fusedScore k streams x ≤ fusedScore k streams' x)
    (hother : ∀ y, y ≠ x → fusedScore k streams' y ≤ fusedScore k streams y)
    (hxin : x ∈ streams.flatten → x ∈ streams'.flatten)
    (hin : ∀ y, y ≠ x → y ∈ streams'.flatten → y ∈ streams.flatten) :
    (out'.map (·.1)).idxOf x ≤ (out.map (·.1)).idxOf x := by
  classical
  by_cases hmem : x ∈ out.map (·.1)
  · have hmem' := (h'.ids x).2 (hxin ((h.ids x).1 hmem))
    rw [idxOf_sorted ahead_asymm h.sorted hmem, idxOf_sorted ahead_asymm h'.sorted hmem', List.countP_eq_length_filter,
      List.countP_eq_length_filter]
    refine (List.subperm_of_subset (h'.nodup.filter _) fun y hy => ?_).length_le
    obtain ⟨hy, hahead⟩ := List.mem_filter.1 hy
    have hahead' : Ahead (fusedScore k streams') y x := of_decide_eq_true hahead
    have hne : y ≠ x := by
      rintro rfl
      exact ahead_asymm y y hahead' hahead'
    have hle := hother y hne
    refine List.mem_filter.2 ⟨(h.ids y).2 (hin y hne ((h'.ids y).1 hy)), decide_eq_true ?_⟩
    rcases hahead' with hlt | ⟨heq, hlt⟩
    · exact .inl (by linarith)
    · rcases (hx.trans (heq ▸ hle)).lt_or_eq with hlt' | heq'
      · exact .inl hlt'
      · exact .inr ⟨heq'.symm, hlt⟩
  · have hle : (out'.map (·.1)).idxOf x ≤ ((out'.map (·.1)).erase x).length := by
      by_cases hmem' : x ∈ out'.map (·.1)
      · have hlt := List.idxOf_lt_length_of_mem hmem'
        rw [List.length_erase_of_mem hmem']
        omega
      · rw [List.erase_of_not_mem hmem']
        exact List.idxOf_le_length
    rw [List.idxOf_of_notMem hmem]
    refine hle.trans (List.subperm_of_subset (h'.nodup.erase x) fun y hy => ?_).length_le
    obtain ⟨hne, hy⟩ := (h'.nodup.mem_erase_iff).1 hy
    exact (h.ids y).2 (hin y hne ((h'.ids y).1 hy))

end

section
variable {ι : Type} [LinearOrder ι] {k : Int}

theorem streamScore_weigh (id : ι) (stream : List ι) :
    streamScore k id stream = weigh (fun r => 1 / ((k : ℚ) + r)) id 1 stream := by
  have hfrom : ∀ n, ((stream.zipIdx n).map fun p => if p.1 = id then 1 / ((k : ℚ) + p.2) else 0).sum =
      weigh (fun r => 1 / ((k : ℚ) + r)) id n stream := by
    induction stream with
    | nil => exact fun _ => rfl
    | cons a stream ih =>
      intro n
      rw [List.zipIdx_cons, List.map_cons, List.sum_cons, ih, weigh]
  exact hfrom 1

theorem streamScore_le (hk : 0 < k) {id : ι} {s t : List ι} (h : ∀ m, (s.take m).count id ≤ (t.take m).count id) :
    streamScore k id s ≤ streamScore k id t := by
  have hk' : (0 : ℚ) < k := by exact_mod_cast hk
  rw [streamScore_weigh, streamScore_weigh]
  have hle := weigh_le (f := fun r : Nat => 1 / ((k : ℚ) + r)) (c := 0) (n := 1) (fun n => by positivity)
    (fun m n hmn => one_div_le_one_div_of_le (by positivity) (by simpa using hmn)) (fun m => by simpa using h m)
  simpa using hle

theorem fusedScore_split (id : ι) (before after : List (List ι)) (s : List ι) :
    fusedScore k (before ++ s :: after) id = fusedScore k before id + (streamScore k id s + fusedScore k after id) := by
  simp [fusedScore]

theorem fusedScore_perm {streams streams' : List (List ι)} (h : streams'.Perm streams) :
    fusedScore k streams' = fusedScore k streams :=
  funext fun _ => (h.map _).sum_eq

end

section
variable {ι : Type} [LinearOrder ι] {k : Int} {cap : Option Int} {streams : List (List (RetrievedChunk ι))}
  {names : Option (List Str)} {out : List (RetrievedChunk ι)}

theorem rrf_ok (h : rrfMergeStreams streams k cap names = .ok out) :
    0 < k ∧ Ranking k (idStreams cap streams) (out.map fun c => (c.chunkId, c.score)) := by
  unfold rrfMergeStreams at h
  split at h
  · cases h
  · next hk =>
    refine ⟨not_le.1 hk, ?_⟩
    split at h
    · next hnil =>
      obtain rfl := Except.ok.inj h
      subst hnil
      exact ⟨by simp [idStreams], by simp, by simp⟩
    · split at h
      · next ns =>
        split at h
        · cases h
        · next hlen =>
          obtain rfl := Except.ok.inj h
          exact merged_ranking fun ns' hns' => Option.some.inj hns' ▸ not_not.1 hlen
      · obtain rfl := Except.ok.inj h
        exact merged_ranking fun _ hns => by cases hns

/-- The names fit the streams, or there are none. -/
theorem rrf_defined : (∃ out, rrfMergeStreams streams k cap names = .ok out) ↔
    0 < k ∧ (streams = [] ∨ ∀ ns ∈ names, ns.length = streams.length) := by
  unfold rrfMergeStreams
  by_cases hk : k ≤ 0
  · simp [hk]
  · rw [if_neg hk]
    have hpos := not_le.1 hk
    by_cases hnil : streams = []
    · simp [hnil, hpos]
    · rw [if_neg hnil]
      cases names with
      | none => simp [hpos]
      | some ns => by_cases hlen : ns.length = streams.length <;> simp [hlen, hpos, hnil]

omit [LinearOrder ι] in
theorem ids_capped (s : List (RetrievedChunk ι)) : (capped cap s).map (·.chunkId) = capped cap (s.map (·.chunkId)) := by
  unfold capped
  cases cap with
  | none => rfl
  | some n => rw [List.map_take, List.length_map]

theorem Improves.capped {x : ι} {s s' : List ι} (h : Improves x s s')
    (hcap : s'.length = s.length ∨ ∀ n ∈ cap, 0 ≤ n) : Improves x (capped cap s) (capped cap s') := by
  unfold Fusion.capped
  cases cap with
  | none => exact h
  | some n =>
    dsimp only
    rcases hcap with hlen | hn
    · rw [hlen]
      exact h.take _
    · rw [if_neg (not_lt.2 (hn n rfl)), if_neg (not_lt.2 (hn n rfl))]
      exact h.take _

end

/-- Where one stream improves a place of `x`, the fused list does not lower
`x`. -/
theorem ranking_improves {ι : Type} [LinearOrder ι] {k : Int} (hk : 0 < k) {x : ι} {before after : List (List ι)}
    {s s' : List ι} {out out' : List (ι × ℚ)} (h : Ranking k (before ++ s :: after) out)
    (h' : Ranking k (before ++ s' :: after) out') (hs : Improves x s s') :
    (out'.map (·.1)).idxOf x ≤ (out.map (·.1)).idxOf x := by
  refine h.position h' ?_ (fun y hy => ?_) (fun hx => ?_) (fun y hy hin => ?_)
  · rw [fusedScore_split, fusedScore_split]
    have := streamScore_le hk hs.1
    linarith
  · rw [fusedScore_split, fusedScore_split]
    have := streamScore_le hk (hs.2 y hy)
    linarith
  · rw [← List.count_pos_iff] at hx ⊢
    have := hs.count_le
    simp only [List.flatten_append, List.flatten_cons, List.count_append] at hx ⊢
    omega
  · rw [← List.count_pos_iff] at hin ⊢
    have := hs.other_count_le hy
    simp only [List.flatten_append, List.flatten_cons, List.count_append] at hin ⊢
    omega

/-- The fused list has each id of the streams once, by the sums of `1 / (k +
rank)` and then by the ids; it is the same for the streams in any order; and an
id whose places in one stream move to the front does not come later. -/
theorem rrf_laws {ι : Type} [LinearOrder ι] {streams : List (List (RetrievedChunk ι))} {k : Int} {cap : Option Int}
    {names : Option (List Str)} {out : List (RetrievedChunk ι)} (h : rrfMergeStreams streams k cap names = .ok out) :
    ((out.map (·.chunkId)).Nodup ∧
      ∀ id, id ∈ out.map (·.chunkId) ↔ ∃ s ∈ streams, id ∈ (capped cap s).map (·.chunkId)) ∧
    ((∀ c ∈ out, c.score = fusedScore k (idStreams cap streams) c.chunkId) ∧
      (out.map (·.chunkId)).Pairwise (Ahead (fusedScore k (idStreams cap streams)))) ∧
    (∀ streams' names', streams'.Perm streams → names'.map List.length = names.map List.length →
      ∃ out', rrfMergeStreams streams' k cap names' = .ok out' ∧
        out'.map (fun c => (c.chunkId, c.score)) = out.map fun c => (c.chunkId, c.score)) ∧
    ∀ x before s s' after, streams = before ++ s :: after →
      Improves x (s.map (·.chunkId)) (s'.map (·.chunkId)) → (s'.length = s.length ∨ ∀ n ∈ cap, 0 ≤ n) →
      ∃ out', rrfMergeStreams (before ++ s' :: after) k cap names = .ok out' ∧
        (out'.map (·.chunkId)).idxOf x ≤ (out.map (·.chunkId)).idxOf x := by
  obtain ⟨hk, hrank⟩ := rrf_ok h
  have hnames := (rrf_defined.1 ⟨out, h⟩).2
  have hids : ∀ out : List (RetrievedChunk ι), (out.map fun c => (c.chunkId, c.score)).map (·.1) = out.map (·.chunkId) := by
    intro out
    rw [List.map_map]
    rfl
  refine ⟨⟨?_, fun id => ?_⟩, ⟨fun c hc => ?_, ?_⟩, fun streams' names' hperm hlen => ?_,
    fun x before s s' after hsplit himp hcap => ?_⟩
  · rw [← hids]
    exact hrank.nodup
  · rw [← hids, hrank.ids]
    simp [idStreams]
  · exact hrank.scores _ (List.mem_map_of_mem hc)
  · rw [← hids]
    exact hrank.sorted
  · have hdef : ∃ out', rrfMergeStreams streams' k cap names' = .ok out' := by
      refine rrf_defined.2 ⟨hk, hnames.imp (fun hnil => ?_) fun hns ns hmem => ?_⟩
      · exact (hnil ▸ hperm).eq_nil
      · rw [Option.mem_def.1 hmem, Option.map_some] at hlen
        obtain ⟨ns', hns', hlen'⟩ := Option.map_eq_some_iff.1 hlen.symm
        rw [hperm.length_eq, ← hns ns' hns', hlen']
    obtain ⟨out', h'⟩ := hdef
    have hstreams : (idStreams cap streams').Perm (idStreams cap streams) := hperm.map _
    exact ⟨out', h', hrank.eq (rrf_ok h').2 (fusedScore_perm hstreams) fun id => (hstreams.flatten).mem_iff⟩
  · subst hsplit
    have hdef : ∃ out', rrfMergeStreams (before ++ s' :: after) k cap names = .ok out' := by
      refine rrf_defined.2 ⟨hk, .inr fun ns hns => ?_⟩
      rw [(hnames.resolve_left (by simp)) ns hns]
      simp
    obtain ⟨out', h'⟩ := hdef
    refine ⟨out', h', ?_⟩
    rw [← hids, ← hids]
    have hrank' := (rrf_ok h').2
    unfold idStreams at hrank hrank'
    rw [List.map_append, List.map_cons, ids_capped] at hrank hrank'
    exact ranking_improves hk hrank hrank' (himp.capped (by simpa using hcap))

def sampleChunk (id : Nat) : RetrievedChunk Nat := ⟨.code, id, [], 0, []⟩

def sampleStreams : List (List (RetrievedChunk Nat)) := [[1, 2, 3].map sampleChunk, [3, 1].map sampleChunk]

def sampleMerged : List (RetrievedChunk Nat) :=
  [{ sampleChunk 1 with score := 1 / 61 + 1 / 62 }, { sampleChunk 3 with score := 1 / 63 + 1 / 61 },
    { sampleChunk 2 with score := 1 / 62 }]

/-- The third of the first stream is moved before the others. -/
theorem rrf_laws_sample : (sampleMerged.map (·.chunkId)).Nodup ∧
    ∃ out', rrfMergeStreams ([] ++ [3, 1, 2].map sampleChunk :: [[3, 1].map sampleChunk]) 60 none none = .ok out' ∧
      (out'.map (·.chunkId)).idxOf 3 ≤ (sampleMerged.map (·.chunkId)).idxOf 3 := by
  have hmerged : rrfMergeStreams sampleStreams 60 none none = .ok sampleMerged := by decide +kernel
  have h := rrf_laws hmerged
  exact ⟨h.1.1, h.2.2.2 3 [] ([1, 2, 3].map sampleChunk) _ _ rfl (improves_move 3 [] [1, 2] []) (.inl rfl)⟩

/-! ## The stores -/

/-- The merge of the stores has their chunks by score and keeps the order of
each store's fused list. -/
theorem crossStore_keeps {ι : Type} [LinearOrder ι] {k : Int} {cap : Option Int} (merged : List (List (RetrievedChunk ι)))
    (h : ∀ m ∈ merged, ∃ streams names, rrfMergeStreams streams k cap names = .ok m) :
    (crossStore merged).Perm merged.flatten ∧ (crossStore merged).Pairwise (fun c d => d.score ≤ c.score) ∧
      ∀ m ∈ merged, m.Sublist (crossStore merged) := by
  have htrans : ∀ a b c : RetrievedChunk ι,
      decide (b.score ≤ a.score) = true → decide (c.score ≤ b.score) = true → decide (c.score ≤ a.score) = true := by
    intro a b c hab hbc
    simp only [decide_eq_true_eq] at *
    exact hbc.trans hab
  have htotal : ∀ a b : RetrievedChunk ι, (decide (b.score ≤ a.score) || decide (a.score ≤ b.score)) = true := by
    intro a b
    simpa using le_total b.score a.score
  unfold crossStore
  refine ⟨List.mergeSort_perm _ _, ?_, fun m hm => ?_⟩
  · simpa using List.pairwise_mergeSort htrans htotal merged.flatten
  · obtain ⟨streams, names, hrrf⟩ := h m hm
    obtain ⟨-, hrank⟩ := rrf_ok hrrf
    refine List.sublist_mergeSort htrans htotal ?_ (List.sublist_flatten_of_mem hm)
    have hsorted := hrank.sorted
    rw [List.map_map, List.pairwise_map] at hsorted
    refine hsorted.imp_of_mem fun {c d} hc hd hahead => ?_
    have hc' := hrank.scores _ (List.mem_map_of_mem hc)
    have hd' := hrank.scores _ (List.mem_map_of_mem hd)
    simp only [Function.comp_apply] at hahead hc' hd'
    rw [Ahead, ← hc', ← hd'] at hahead
    rw [decide_eq_true_eq]
    exact hahead.elim le_of_lt fun h => h.1.ge

end Cograph.Fusion
