import Cograph.CacheSound
import Cograph.Machine

/-!
# The callers and callees arrays

The arrays of a row mirror the resolved CALLS edges. A call rebuilds the arrays
of its own rows and swaps entries in those of its peers; any other row keeps
what it had. That is exact unless such a row called, or was called by, a row
the call deleted.
-/

namespace Cograph

/-! ## Arrays and edges -/

/-- The resolved CALLS edges, as a relation on ids. -/
def Calls (edges : List CodeEdge) (a b : Nat) : Prop := (a, b) ∈ callPairs edges

instance (edges : List CodeEdge) (a b : Nat) : Decidable (Calls edges a b) :=
  inferInstanceAs (Decidable ((a, b) ∈ callPairs edges))

theorem calls_iff {edges : List CodeEdge} {a b : Nat} :
    Calls edges a b ↔ ∃ e ∈ edges, e.edgeType = .calls ∧ e.sourceNodeId = a ∧ e.targetNodeId = some b := by
  simp only [Calls, callPairs, List.mem_filterMap]
  apply exists_congr
  intro e
  apply and_congr_right
  intro _
  by_cases ht : e.edgeType = .calls
  · simp only [ht, if_true, Option.map_eq_some_iff, Prod.mk.injEq, true_and]
    constructor
    · rintro ⟨t, ht, rfl, rfl⟩
      exact ⟨rfl, ht⟩
    · rintro ⟨rfl, ht⟩
      exact ⟨b, ht, rfl, rfl⟩
  · simp [ht]

def CodeNode.arrays (n : CodeNode) : Nat × List Nat × List Nat := (n.id, n.callees, n.callers)

theorem arrays_blind : Blind CodeNode.arrays := ⟨fun _ _ => rfl, fun _ _ _ => rfl⟩

/-- The arrays of a row hold its callees and its callers. -/
def Holds (edges : List CodeEdge) (t : Nat × List Nat × List Nat) : Prop :=
  Mirror.Lists (Calls edges) t.1 t.2.1 ∧ Mirror.Lists (fun a b => Calls edges b a) t.1 t.2.2

/-- Every row's arrays mirror the resolved CALLS edges. -/
def Db.Mirrors (db : Db) : Prop := ∀ n ∈ db.nodes, Holds db.edges n.arrays

theorem holds_iff {edges : List CodeEdge} {t : Nat × List Nat × List Nat} : Holds edges t ↔
    ((∀ m ∈ t.2.1, (t.1, m) ∈ callPairs edges) ∧ ∀ p ∈ callPairs edges, p.1 = t.1 → p.2 ∈ t.2.1) ∧
      (∀ m ∈ t.2.2, (m, t.1) ∈ callPairs edges) ∧ ∀ p ∈ callPairs edges, p.2 = t.1 → p.1 ∈ t.2.2 := by
  unfold Holds Mirror.Lists Calls
  constructor
  · rintro ⟨hout, hin⟩
    refine ⟨⟨fun m => (hout m).mp, ?_⟩, fun m => (hin m).mp, ?_⟩
    · rintro ⟨a, b⟩ hp rfl
      exact (hout b).mpr hp
    · rintro ⟨a, b⟩ hp rfl
      exact (hin a).mpr hp
  · rintro ⟨⟨hout, hout'⟩, hin, hin'⟩
    exact ⟨fun m => ⟨hout m, fun hp => hout' _ hp rfl⟩, fun m => ⟨hin m, fun hp => hin' _ hp rfl⟩⟩

local instance lawfulBEqPair : LawfulBEq (Nat × Nat) := inferInstance

instance (edges : List CodeEdge) (t : Nat × List Nat × List Nat) : Decidable (Holds edges t) :=
  decidable_of_iff' _ holds_iff

instance (db : Db) : Decidable db.Mirrors := inferInstanceAs (Decidable (∀ n ∈ db.nodes, Holds db.edges n.arrays))

theorem mirrors_arrays {db : Db} : db.Mirrors ↔ ∀ t ∈ db.nodes.map CodeNode.arrays, Holds db.edges t := by
  simp [Db.Mirrors]

/-- What the scoped rebuild does to the arrays of a row. -/
def rebuildArrays (ids : List Nat) (edges : List CodeEdge) (touched peers dropped : List Nat)
    (t : Nat × List Nat × List Nat) : Nat × List Nat × List Nat :=
  let pairs := (callPairs edges).filter fun p => (p.1 ∈ touched ∨ p.2 ∈ touched) ∧ p.1 ∈ ids ∧ p.2 ∈ ids
  let callees := ((pairs.filter (·.1 = t.1)).map (·.2)).eraseDups
  let callers := ((pairs.filter (·.2 = t.1)).map (·.1)).eraseDups
  if t.1 ∉ ids then t
  else if t.1 ∈ touched then (t.1, callees, callers)
  else if t.1 ∈ peers then
    (t.1, Mirror.swapped t.2.1 (touched ++ dropped) callees, Mirror.swapped t.2.2 (touched ++ dropped) callers)
  else t

theorem rebuild_arrays {ids : List Nat} {edges : List CodeEdge} {touched peers dropped : List Nat}
    (ht : touched ≠ []) (rows : List CodeNode) :
    (rebuildBackCompatArrays ids edges touched peers dropped rows).map CodeNode.arrays =
      (rows.map CodeNode.arrays).map (rebuildArrays ids edges touched peers dropped) := by
  simp only [rebuildBackCompatArrays, ht, if_false, List.map_map]
  apply List.map_congr_left
  intro n _
  by_cases hi : n.id ∈ ids
  · by_cases ht : n.id ∈ touched
    · simp only [Function.comp, CodeNode.arrays, rebuildArrays, hi, ht, not_true, if_false, if_true]
      rfl
    · by_cases hp : n.id ∈ peers
      · simp only [Function.comp, CodeNode.arrays, rebuildArrays, hi, ht, hp, not_true, if_false, if_true]
        rfl
      · simp only [Function.comp, CodeNode.arrays, rebuildArrays, hi, ht, hp, not_true, if_false]
  · simp only [Function.comp, CodeNode.arrays, rebuildArrays, hi, not_false_eq_true, if_true]

section
variable {ids touched : List Nat} {edges : List CodeEdge}

theorem mem_seconds {α β : Type} [DecidableEq α] [DecidableEq β] {pairs : List (α × β)} {a : α} {b : β} :
    b ∈ ((pairs.filter (·.1 = a)).map (·.2)).eraseDups ↔ (a, b) ∈ pairs := by
  simp only [List.mem_eraseDups, List.mem_map, List.mem_filter, decide_eq_true_eq]
  constructor
  · rintro ⟨⟨x, y⟩, ⟨hp, rfl⟩, rfl⟩
    exact hp
  · intro hp
    exact ⟨(a, b), ⟨hp, rfl⟩, rfl⟩

theorem mem_firsts {α β : Type} [DecidableEq α] [DecidableEq β] {pairs : List (α × β)} {a : α} {b : β} :
    a ∈ ((pairs.filter (·.2 = b)).map (·.1)).eraseDups ↔ (a, b) ∈ pairs := by
  simp only [List.mem_eraseDups, List.mem_map, List.mem_filter, decide_eq_true_eq]
  constructor
  · rintro ⟨⟨x, y⟩, ⟨hp, rfl⟩, rfl⟩
    exact hp
  · intro hp
    exact ⟨(a, b), ⟨hp, rfl⟩, rfl⟩

theorem mem_rebuiltCallees {i m : Nat} :
    m ∈ ((((callPairs edges).filter fun p => (p.1 ∈ touched ∨ p.2 ∈ touched) ∧ p.1 ∈ ids ∧ p.2 ∈ ids).filter
      (·.1 = i)).map (·.2)).eraseDups ↔ Calls edges i m ∧ (i ∈ touched ∨ m ∈ touched) ∧ i ∈ ids ∧ m ∈ ids := by
  rw [mem_seconds, List.mem_filter, decide_eq_true_eq]
  rfl

theorem mem_rebuiltCallers {i m : Nat} :
    m ∈ ((((callPairs edges).filter fun p => (p.1 ∈ touched ∨ p.2 ∈ touched) ∧ p.1 ∈ ids ∧ p.2 ∈ ids).filter
      (·.2 = i)).map (·.1)).eraseDups ↔ Calls edges m i ∧ (m ∈ touched ∨ i ∈ touched) ∧ m ∈ ids ∧ i ∈ ids := by
  rw [mem_firsts, List.mem_filter, decide_eq_true_eq]
  rfl

end

/-- **The scoped rebuild.** Where the CALLS edges changed only at `touched` and
`dropped` nodes, a row's arrays come out right, or as the second clause says
for a row out of scope. -/
theorem rebuildArrays_holds {ids touched peers dropped : List Nat} {old edges : List CodeEdge}
    {t : Nat × List Nat × List Nat} (hch : Mirror.Changed (Calls old) (Calls edges) touched dropped)
    (hids : ∀ a b, Calls edges a b → a ∈ ids ∧ b ∈ ids) (ht : t.1 ∈ ids) (hd : t.1 ∉ dropped)
    (hold : t.1 ∉ touched → Holds old t)
    (hsame : t.1 ∉ touched → t.1 ∉ peers → ∀ m ∈ touched, m ∉ dropped →
      (Calls edges t.1 m ↔ Calls old t.1 m) ∧ (Calls edges m t.1 ↔ Calls old m t.1)) :
    Holds edges (rebuildArrays ids edges touched peers dropped t) ↔
      (t.1 ∉ touched → t.1 ∉ peers → ∀ d ∈ dropped, ¬ Calls old t.1 d ∧ ¬ Calls old d t.1) := by
  simp only [rebuildArrays, not_not.mpr ht, if_false]
  by_cases htouched : t.1 ∈ touched
  · simp only [htouched, if_true, not_true, false_implies, iff_true]
    constructor
    · intro m
      rw [mem_rebuiltCallees]
      exact ⟨And.left, fun he => ⟨he, Or.inl htouched, hids _ _ he⟩⟩
    · intro m
      rw [mem_rebuiltCallers]
      exact ⟨And.left, fun he => ⟨he, Or.inr htouched, hids _ _ he⟩⟩
  · obtain ⟨hout, hin⟩ := hold htouched
    by_cases hpeer : t.1 ∈ peers
    · simp only [htouched, if_false, hpeer, if_true, not_true, false_implies, implies_true, iff_true]
      constructor
      · apply Mirror.swapped_mirrors hch htouched hd hout
        intro m
        rw [mem_rebuiltCallees]
        constructor
        · rintro ⟨he, hs, -⟩
          exact ⟨he, hs.resolve_left htouched⟩
        · rintro ⟨he, hm⟩
          exact ⟨he, Or.inr hm, hids _ _ he⟩
      · apply Mirror.swapped_mirrors hch.converse htouched hd hin
        intro m
        rw [mem_rebuiltCallers]
        constructor
        · rintro ⟨he, hs, -⟩
          exact ⟨he, hs.resolve_right htouched⟩
        · rintro ⟨he, hm⟩
          exact ⟨he, Or.inl hm, hids _ _ he⟩
    · simp only [htouched, if_false, hpeer, not_false_eq_true, true_implies]
      have hs := hsame htouched hpeer
      have hleft := Mirror.kept_mirrors_iff hch htouched hd hout fun m hm hmd => (hs m hm hmd).1
      have hright := Mirror.kept_mirrors_iff hch.converse htouched hd hin fun m hm hmd => (hs m hm hmd).2
      rw [Holds, hleft, hright]
      constructor
      · intro hboth d hdd
        exact ⟨hboth.1 d hdd, hboth.2 d hdd⟩
      · intro hall
        exact ⟨fun d hdd => (hall d hdd).1, fun d hdd => (hall d hdd).2⟩

/-! ## The edges a call leaves -/

variable {h : Host} {db mid : Db} {g : ExtractedGraph} {view : Cache}

theorem findNode_some {rows : List CodeNode} {i : Nat} {n : CodeNode} (hf : findNode rows i = some n) :
    n ∈ rows ∧ n.id = i :=
  ByKey.find_mem hf

theorem resolve_named {rows : List CodeNode} {t : EdgeType} {name : String} {i : Nat}
    (hr : resolveEdgeTarget rows view t name = some i) : ∃ q, (q, i) ∈ view.nodesByQn := by
  unfold resolveEdgeTarget at hr
  split at hr
  · rename_i j hj
    cases hr
    exact ⟨name, Dict.mem_of_get hj⟩
  · split at hr
    · cases hr
    · dsimp only at hr
      split at hr
      · rename_i x hx
        cases hr
        have hmem : x ∈ view.nodesByQn := List.mem_of_mem_filter (hx ▸ List.mem_singleton_self x)
        exact ⟨x.1, hmem⟩
      · cases hr

theorem resolve_calls {rows : List CodeNode} {name : String} :
    resolveEdgeTarget rows view .calls name = Dict.get view.nodesByQn name := by
  unfold resolveEdgeTarget
  cases Dict.get view.nodesByQn name <;> simp

theorem resolve_mem (hv : view.Ok mid.nodes) {rows : List CodeNode} {t : EdgeType} {name : String} {i : Nat}
    (hr : resolveEdgeTarget rows view t name = some i) : i ∈ mid.nodes.map (·.id) := by
  obtain ⟨q, hq⟩ := resolve_named hr
  obtain ⟨n, hn, hid, -⟩ := hv.named _ hq
  exact List.mem_map.mpr ⟨n, hn, hid⟩

theorem edgeRow_some {rows : List CodeNode} {named : Dict.Items String Nat} {x : ExtractedEdge}
    {y : ExtractedEdge × CodeEdge} (hr : edgeRow h rows view named x = some y) : y.1 = x ∧
      y.2.sourceNodeId ∈ named.map (·.2) ∧
      y.2.targetNodeId = resolveEdgeTarget rows view y.2.edgeType y.2.targetQualifiedName := by
  simp only [edgeRow, Option.map_eq_some_iff, Option.bind_eq_some_iff] at hr
  obtain ⟨source, ⟨i, hi, hf⟩, rfl⟩ := hr
  exact ⟨rfl, List.mem_map.mpr ⟨_, Dict.mem_of_get hi, (findNode_some hf).2.symm⟩, rfl⟩

theorem mem_addEdge {new : List (ExtractedEdge × CodeEdge)} {x y : ExtractedEdge × CodeEdge}
    (hy : y ∈ addEdge new x) : y ∈ new ∨ y = x := by
  unfold addEdge at hy
  split at hy
  · exact Or.inl hy
  · simpa using hy

theorem key_addEdge {new : List (ExtractedEdge × CodeEdge)} {x : ExtractedEdge × CodeEdge}
    {k : Nat × EdgeType × String} : k ∈ (addEdge new x).map (·.2.key) ↔ k ∈ new.map (·.2.key) ∨ k = x.2.key := by
  unfold addEdge
  split
  · rename_i hx
    constructor
    · exact Or.inl
    · rintro (hk | rfl)
      · exact hk
      · exact hx
  · simp

theorem newEdges_mem {rows : List CodeNode} {named : Dict.Items String Nat} {edges : List ExtractedEdge}
    {y : ExtractedEdge × CodeEdge} (hy : y ∈ newEdges h rows view named edges) :
    y ∈ edges.filterMap (edgeRow h rows view named) := by
  have hfold : ∀ (xs new : List (ExtractedEdge × CodeEdge)), y ∈ xs.foldl addEdge new → y ∈ new ∨ y ∈ xs := by
    intro xs
    induction xs with
    | nil => intro new hy; exact Or.inl hy
    | cons x xs ih =>
      intro new hy
      rcases ih _ hy with hy | hy
      · rcases mem_addEdge hy with hy | rfl
        · exact Or.inl hy
        · exact Or.inr (List.mem_cons_self ..)
      · exact Or.inr (List.mem_cons_of_mem _ hy)
  simpa using hfold _ [] hy

theorem newEdges_key {rows : List CodeNode} {named : Dict.Items String Nat} {edges : List ExtractedEdge}
    {y : ExtractedEdge × CodeEdge} (hy : y ∈ edges.filterMap (edgeRow h rows view named)) :
    ∃ z ∈ newEdges h rows view named edges, z.2.key = y.2.key := by
  have hfold : ∀ (xs new : List (ExtractedEdge × CodeEdge)), y ∈ xs ∨ y.2.key ∈ new.map (·.2.key) →
      y.2.key ∈ (xs.foldl addEdge new).map (·.2.key) := by
    intro xs
    induction xs with
    | nil =>
      intro new hy
      simpa using hy
    | cons x xs ih =>
      intro new hy
      apply ih
      rw [key_addEdge]
      rcases hy with hy | hy
      · rcases List.mem_cons.mp hy with rfl | hy
        · exact Or.inr (Or.inr rfl)
        · exact Or.inl hy
      · exact Or.inr (Or.inl hy)
  obtain ⟨z, hz, he⟩ := List.mem_map.mp (hfold _ [] (Or.inl hy))
  exact ⟨z, hz, he⟩

theorem callEdges_row {y : ExtractedEdge × CodeEdge} (hy : y ∈ callEdges h db g view mid) :
    y.1 ∈ g.edges ∧ edgeRow h (linkedRows h db g view mid.nodes) view (namedIds db g) y.1 = some y := by
  obtain ⟨x, hx, hr⟩ := List.mem_filterMap.mp (newEdges_mem hy)
  have he : y.1 = x := (edgeRow_some hr).1
  subst he
  exact ⟨hx, hr⟩

theorem mem_written {e : CodeEdge} : e ∈ writtenEdges h db g view mid ↔
    e ∈ mid.edges ∧ e.sourceNodeId ∉ preservedIds db g ∨ ∃ y ∈ callEdges h db g view mid, y.2 = e := by
  simp [writtenEdges]

abbrev Named (db : Db) (g : ExtractedGraph) (i : Nat) : Prop := i ∈ (namedIds db g).map (·.2)

theorem named_preserved {i : Nat} (hi : i ∈ preservedIds db g) : Named db g i := mem_namedIds.mpr (Or.inl hi)

theorem named_mem (hp : persistNodes h db g = some mid) {i : Nat} (hi : Named db g i) : i ∈ mid.nodes.map (·.id) := by
  apply (persistNodes_ids hp).mpr
  rcases mem_namedIds.mp hi with hi | hi
  · left
    obtain ⟨n, hn, rfl⟩ := preserved_own hi
    exact ⟨List.mem_map_of_mem (mem_existing.mp hn).1, fun hd => (mem_doomedIds.mp hd).2 hi⟩
  · exact Or.inr hi

theorem doomed_old {d : Nat} (hd : d ∈ doomedIds db g) : d ∈ db.nodes.map (·.id) := by
  obtain ⟨⟨n, hn, rfl⟩, -⟩ := mem_doomedIds.mp hd
  exact List.mem_map_of_mem (mem_existing.mp hn).1

theorem mid_not_doomed (hok : db.Ok) (hp : persistNodes h db g = some mid) {i : Nat} (hi : i ∈ mid.nodes.map (·.id)) :
    i ∉ doomedIds db g := by
  rcases (persistNodes_ids hp).mp hi with ⟨-, hd⟩ | ⟨hle, -⟩
  · exact hd
  · intro hd
    obtain ⟨n, hn, rfl⟩ := List.mem_map.mp (doomed_old hd)
    have := hok.fresh n hn
    omega

theorem reresolve_fields (rows : List CodeNode) (affected : List String) (e : CodeEdge) :
    (reresolve rows view affected e).sourceNodeId = e.sourceNodeId ∧
      (reresolve rows view affected e).edgeType = e.edgeType := by
  unfold reresolve
  split <;> exact ⟨rfl, rfl⟩

/-- The CALLS edges after the call: those written resolved, and those bound by
the second try. -/
theorem calls_final {a b : Nat} : Calls (finalEdges h db g view mid) a b ↔
    Calls (writtenEdges h db g view mid) a b ∨
      ∃ e ∈ writtenEdges h db g view mid, e.edgeType = .calls ∧ e.sourceNodeId = a ∧
        isCandidate view (affectedQualifiedNames db g) e ∧
        resolveEdgeTarget (linkedRows h db g view mid.nodes) view .calls e.targetQualifiedName = some b := by
  rw [calls_iff, calls_iff]
  simp only [finalEdges, List.mem_map]
  constructor
  · rintro ⟨_, ⟨e, he, rfl⟩, ht, hs, hb⟩
    rw [(reresolve_fields _ _ e).2] at ht
    rw [(reresolve_fields _ _ e).1] at hs
    unfold reresolve at hb
    split at hb
    · rename_i hc
      exact Or.inr ⟨e, he, ht, hs, hc, by rw [← ht]; exact hb⟩
    · exact Or.inl ⟨e, he, ht, hs, hb⟩
  · rintro (⟨e, he, ht, hs, hb⟩ | ⟨e, he, ht, hs, hc, hb⟩)
    · refine ⟨e, ⟨e, he, ?_⟩, ht, hs, hb⟩
      unfold reresolve
      rw [if_neg]
      simp [isCandidate, hb]
    · refine ⟨_, ⟨e, he, rfl⟩, ?_, ?_, ?_⟩
      · rw [(reresolve_fields _ _ e).2, ht]
      · rw [(reresolve_fields _ _ e).1, hs]
      · unfold reresolve
        rw [if_pos hc, ht]
        exact hb

/-- A CALLS edge is written resolved if it was there and both ends and its
source's edges were left, or if it is a new one. -/
theorem calls_written (hp : persistNodes h db g = some mid) {a b : Nat} : Calls (writtenEdges h db g view mid) a b ↔
    (Calls db.edges a b ∧ a ∉ doomedIds db g ∧ b ∉ doomedIds db g ∧ a ∉ preservedIds db g) ∨
      ∃ y ∈ callEdges h db g view mid, y.2.edgeType = .calls ∧ y.2.sourceNodeId = a ∧ y.2.targetNodeId = some b := by
  simp only [calls_iff, mem_written, mem_midEdges hp]
  constructor
  · rintro ⟨e, ⟨⟨e₀, he₀, hd, rfl⟩, hk⟩ | ⟨y, hy, rfl⟩, ht, rfl, hb⟩
    · obtain ⟨hb, hbd⟩ := nulled_target.mp hb
      exact Or.inl ⟨⟨e₀, he₀, ht, rfl, hb⟩, hd, hbd, hk⟩
    · exact Or.inr ⟨y, hy, ht, rfl, hb⟩
  · rintro (⟨⟨e₀, he₀, ht, rfl, hb⟩, hd, hbd, hk⟩ | ⟨y, hy, ht, rfl, hb⟩)
    · exact ⟨e₀.nulled (doomedIds db g), Or.inl ⟨⟨e₀, he₀, hd, rfl⟩, hk⟩, ht, rfl, nulled_target.mpr ⟨hb, hbd⟩⟩
    · exact ⟨y.2, Or.inr ⟨y, hy, rfl⟩, ht, rfl, hb⟩

theorem named_rebuilt {i : Nat} (hi : Named db g i) : i ∈ rebuiltIds h db g view mid := List.mem_append_left _ hi

theorem named_touched {i : Nat} (hi : Named db g i) : i ∈ touchedIds h db g view mid := by
  simp only [touchedIds, List.append_assoc, List.mem_append]
  exact Or.inl hi

theorem callEdges_source {y : ExtractedEdge × CodeEdge} (hy : y ∈ callEdges h db g view mid) :
    Named db g y.2.sourceNodeId :=
  (edgeRow_some (callEdges_row hy).2).2.1

theorem mem_reresolved {b : Nat} : b ∈ reresolvedTargetIds (linkedRows h db g view mid.nodes) view
    (affectedQualifiedNames db g) (writtenEdges h db g view mid) ↔
    ∃ e ∈ writtenEdges h db g view mid, e.edgeType = .calls ∧ isCandidate view (affectedQualifiedNames db g) e ∧
      resolveEdgeTarget (linkedRows h db g view mid.nodes) view .calls e.targetQualifiedName = some b := by
  simp only [reresolvedTargetIds, List.mem_filterMap, List.mem_filter, decide_eq_true_eq]
  constructor
  · rintro ⟨e, ⟨he, hc, ht⟩, hr⟩
    exact ⟨e, he, ht, hc, hr⟩
  · rintro ⟨e, he, ht, hc, hr⟩
    exact ⟨e, ⟨he, hc, ht⟩, hr⟩

theorem reresolved_rebuilt {e : CodeEdge} {b : Nat} (he : e ∈ writtenEdges h db g view mid) (ht : e.edgeType = .calls)
    (hc : isCandidate view (affectedQualifiedNames db g) e)
    (hr : resolveEdgeTarget (linkedRows h db g view mid.nodes) view .calls e.targetQualifiedName = some b) :
    b ∈ rebuiltIds h db g view mid :=
  List.mem_append_right _ (mem_reresolved.mpr ⟨e, he, ht, hc, hr⟩)

/-- The rows in scope of a call: its own, the targets of edges it deletes or
writes, and the sources of the edges it tries again. -/
theorem mem_touched {i : Nat} : i ∈ touchedIds h db g view mid ↔ Named db g i ∨
    (∃ e ∈ mid.edges, e.sourceNodeId ∈ preservedIds db g ∧ e.targetNodeId = some i) ∨
    (∃ e ∈ writtenEdges h db g view mid, isCandidate view (affectedQualifiedNames db g) e ∧ e.sourceNodeId = i) ∨
    ∃ y ∈ callEdges h db g view mid, y.2.targetNodeId = some i := by
  have hdel : i ∈ (mid.edges.filter (·.sourceNodeId ∈ preservedIds db g)).filterMap (·.targetNodeId) ↔
      ∃ e ∈ mid.edges, e.sourceNodeId ∈ preservedIds db g ∧ e.targetNodeId = some i := by simp [and_assoc]
  have hcand : i ∈ ((writtenEdges h db g view mid).filter
      (isCandidate view (affectedQualifiedNames db g))).map (·.sourceNodeId) ↔
      ∃ e ∈ writtenEdges h db g view mid, isCandidate view (affectedQualifiedNames db g) e ∧ e.sourceNodeId = i := by
    simp [and_assoc]
  have hnew : i ∈ (callEdges h db g view mid).filterMap (·.2.targetNodeId) ↔
      ∃ y ∈ callEdges h db g view mid, y.2.targetNodeId = some i := by simp
  rw [touchedIds, List.mem_append, List.mem_append, List.mem_append, List.mem_append, hdel, hcand, hnew]
  constructor
  · rintro ((((hi | hi) | hi) | hi) | hi)
    · exact Or.inl hi
    · exact Or.inl (named_preserved hi)
    · exact Or.inr (Or.inl hi)
    · exact Or.inr (Or.inr (Or.inl hi))
    · exact Or.inr (Or.inr (Or.inr hi))
  · rintro (hi | hi | hi | hi)
    · exact Or.inl (Or.inl (Or.inl (Or.inl hi)))
    · exact Or.inl (Or.inl (Or.inr hi))
    · exact Or.inl (Or.inr hi)
    · exact Or.inr hi

section
variable (hok : db.Ok) (hp : persistNodes h db g = some mid) (hv : view.Ok mid.nodes)
include hok hp hv

theorem final_ids {a b : Nat} (hab : Calls (finalEdges h db g view mid) a b) :
    a ∈ mid.nodes.map (·.id) ∧ b ∈ mid.nodes.map (·.id) := by
  have hmid := persistNodes_ok hok hp
  have hsource : ∀ e ∈ writtenEdges h db g view mid, e.sourceNodeId ∈ mid.nodes.map (·.id) := by
    intro e he
    rcases mem_written.mp he with ⟨he, -⟩ | ⟨y, hy, rfl⟩
    · exact hmid.sources e he
    · exact named_mem hp (callEdges_source hy)
  rcases calls_final.mp hab with hw | ⟨e, he, -, rfl, -, hr⟩
  · obtain ⟨e, he, -, rfl, hb⟩ := calls_iff.mp hw
    refine ⟨hsource e he, ?_⟩
    rcases mem_written.mp he with ⟨he, -⟩ | ⟨y, hy, rfl⟩
    · exact hmid.targets e he b hb
    · rw [(edgeRow_some (callEdges_row hy).2).2.2] at hb
      exact resolve_mem hv hb
  · exact ⟨hsource e he, resolve_mem hv hr⟩

theorem calls_changed : Mirror.Changed (Calls db.edges) (Calls (finalEdges h db g view mid))
    (rebuiltIds h db g view mid) (doomedIds db g) where
  kept a b ha hb hda hdb := by
    have hna : ¬ Named db g a := fun hn => ha (named_rebuilt hn)
    rw [calls_final, calls_written hp]
    constructor
    · rintro ((⟨hc, -⟩ | ⟨y, hy, -, rfl, -⟩) | ⟨e, he, ht, -, hc, hr⟩)
      · exact hc
      · exact absurd (callEdges_source hy) hna
      · exact absurd (reresolved_rebuilt he ht hc hr) hb
    · intro hc
      exact Or.inl (Or.inl ⟨hc, hda, hdb, fun hk => hna (named_preserved hk)⟩)
  source a b hab := mid_not_doomed hok hp (final_ids hok hp hv hab).1
  target a b hab := mid_not_doomed hok hp (final_ids hok hp hv hab).2

omit hv in
theorem calls_same {i : Nat} (hi : i ∈ mid.nodes.map (·.id)) (hr : i ∉ rebuiltIds h db g view mid)
    (ht : i ∉ touchedIds h db g view mid) {m : Nat} (hm : m ∉ doomedIds db g) :
    (Calls (finalEdges h db g view mid) i m ↔ Calls db.edges i m) ∧
      (Calls (finalEdges h db g view mid) m i ↔ Calls db.edges m i) := by
  have hid := mid_not_doomed hok hp hi
  have hni : ¬ Named db g i := fun hn => hr (named_rebuilt hn)
  rw [mem_touched] at ht
  simp only [not_or] at ht
  obtain ⟨-, hdel, hcand, hnew⟩ := ht
  rw [calls_final, calls_final, calls_written hp, calls_written hp]
  constructor
  · constructor
    · rintro ((⟨hc, -⟩ | ⟨y, hy, -, rfl, -⟩) | ⟨e, he, -, hs, hc, -⟩)
      · exact hc
      · exact absurd (callEdges_source hy) hni
      · exact absurd ⟨e, he, hc, hs⟩ hcand
    · intro hc
      exact Or.inl (Or.inl ⟨hc, hid, hm, fun hk => hni (named_preserved hk)⟩)
  · constructor
    · rintro ((⟨hc, -⟩ | ⟨y, hy, -, -, hb⟩) | ⟨e, he, ht, -, hc, hres⟩)
      · exact hc
      · exact absurd ⟨y, hy, hb⟩ hnew
      · exact absurd (reresolved_rebuilt he ht hc hres) hr
    · intro hc
      refine Or.inl (Or.inl ⟨hc, hm, hid, ?_⟩)
      intro hk
      obtain ⟨e, he, -, rfl, hb⟩ := calls_iff.mp hc
      exact hdel ⟨e.nulled (doomedIds db g), (mem_midEdges hp).mpr ⟨e, he, hm, rfl⟩, hk,
        nulled_target.mpr ⟨hb, hid⟩⟩

end

/-! ## Which calls keep the arrays right -/

/-- The arrays after the node half are old ones, or empty ones under a new id. -/
theorem midArrays_cases (hp : persistNodes h db g = some mid) {t : Nat × List Nat × List Nat}
    (ht : t ∈ mid.nodes.map CodeNode.arrays) : t ∈ db.nodes.map CodeNode.arrays ∨ Named db g t.1 ∧ t.2 = ([], []) := by
  rw [persistNodes_eq hp, List.map_append, List.mem_append] at ht
  rcases ht with ht | ht
  · left
    rw [← keptRows_map (h := h) CodeNode.arrays (fun _ _ => rfl) db g,
      ← detach_map arrays_blind (doomedIds db g)]
    exact List.map_subset _ (List.filter_subset_self _) ht
  · right
    obtain ⟨n, hn, rfl⟩ := List.mem_map.mp ht
    simp only [insertedRows, List.mem_map] at hn
    obtain ⟨x, hx, rfl⟩ := hn
    have := List.snd_lt_of_mem_zipIdx hx
    refine ⟨mem_namedIds.mpr (Or.inr ?_), rfl⟩
    simp only [CodeNode.arrays, newNode]
    omega

theorem midArrays (hp : persistNodes h db g = some mid) {t : Nat × List Nat × List Nat}
    (ht : t ∈ mid.nodes.map CodeNode.arrays) : t ∈ db.nodes.map CodeNode.arrays ∨ Named db g t.1 :=
  (midArrays_cases hp ht).imp_right And.left

theorem persistEdges_arrays (hne : rebuiltIds h db g view mid ≠ []) :
    (persistEdges h db g view mid).nodes.map CodeNode.arrays = (mid.nodes.map CodeNode.arrays).map
      (rebuildArrays view.nodeById (finalEdges h db g view mid) (rebuiltIds h db g view mid)
        ((touchedIds h db g view mid).filter (· ∉ rebuiltIds h db g view mid)) (doomedIds db g)) := by
  simp only [persistEdges]
  rw [setUnresolved_map arrays_blind.metadata, rebuild_arrays hne, refreshUnresolved_map arrays_blind.metadata,
    linkedRows_map arrays_blind]

theorem mirrors_iff_untouched (hok : db.Ok) (hm : db.Mirrors) (hp : persistNodes h db g = some mid)
    (hv : view.Ok mid.nodes) (hne : rebuiltIds h db g view mid ≠ []) :
    (persistEdges h db g view mid).Mirrors ↔ ∀ i ∈ mid.nodes.map (·.id), i ∉ rebuiltIds h db g view mid →
      i ∉ touchedIds h db g view mid → ∀ d ∈ doomedIds db g, ¬ Calls db.edges i d ∧ ¬ Calls db.edges d i := by
  have hids : ∀ a b, Calls (finalEdges h db g view mid) a b → a ∈ view.nodeById ∧ b ∈ view.nodeById := fun a b hab =>
    ⟨(hv.ids a).mpr (final_ids hok hp hv hab).1, (hv.ids b).mpr (final_ids hok hp hv hab).2⟩
  have hrow : ∀ t ∈ mid.nodes.map CodeNode.arrays,
      Holds (finalEdges h db g view mid) (rebuildArrays view.nodeById (finalEdges h db g view mid)
        (rebuiltIds h db g view mid) ((touchedIds h db g view mid).filter (· ∉ rebuiltIds h db g view mid))
        (doomedIds db g) t) ↔ (t.1 ∉ rebuiltIds h db g view mid → t.1 ∉ touchedIds h db g view mid →
          ∀ d ∈ doomedIds db g, ¬ Calls db.edges t.1 d ∧ ¬ Calls db.edges d t.1) := by
    intro t ht
    have hid : t.1 ∈ mid.nodes.map (·.id) := by
      obtain ⟨n, hn, rfl⟩ := List.mem_map.mp ht
      exact List.mem_map_of_mem hn
    have hpeer : t.1 ∉ rebuiltIds h db g view mid →
        (t.1 ∉ (touchedIds h db g view mid).filter (· ∉ rebuiltIds h db g view mid) ↔
          t.1 ∉ touchedIds h db g view mid) := by
      intro hr
      simp [hr]
    rw [rebuildArrays_holds (calls_changed hok hp hv) hids ((hv.ids _).mpr hid) (mid_not_doomed hok hp hid)]
    · apply forall_congr'
      intro hr
      rw [hpeer hr]
    · intro hr
      rcases midArrays hp ht with hold | hn
      · exact mirrors_arrays.mp hm t hold
      · exact absurd (named_rebuilt hn) hr
    · intro hr ht m _ hmd
      exact calls_same hok hp hid hr ((hpeer hr).mp ht) hmd
  rw [mirrors_arrays, persistEdges_arrays hne]
  simp only [List.forall_mem_map]
  constructor
  · intro hall n hn
    exact (hrow n.arrays (List.mem_map_of_mem hn)).mp (hall n hn)
  · intro hall n hn
    exact (hrow n.arrays (List.mem_map_of_mem hn)).mpr (hall n hn)

section
variable (h : Host) (db : Db) (cache : Option Cache) (g : ExtractedGraph)

/-- The call reaches row `i` of another file: an edge of a kept row ended
there, it has an unresolved edge the call tries again, such an edge resolves to
it, or one of the extracted edges does. -/
def InScope (i : Nat) : Prop :=
  (∃ e ∈ db.edges, e.sourceNodeId ∈ preservedIds db g ∧ e.targetNodeId = some i) ∨
    (∃ e ∈ db.edges, e.sourceNodeId = i ∧ e.targetQualifiedName ∈ affectedQualifiedNames db g ∧
      ∀ t, e.targetNodeId = some t → t ∈ doomedIds db g) ∨
    ∃ mid, persistNodes h db g = some mid ∧
      let view := viewOf (cache.map (updateCache h db g)) mid
      let rows := linkedRows h db g view mid.nodes
      (∃ e ∈ mid.edges, e.sourceNodeId ∉ preservedIds db g ∧ e.edgeType = .calls ∧ e.targetNodeId = none ∧
        e.targetQualifiedName ∈ affectedQualifiedNames db g ∧
        resolveEdgeTarget rows view .calls e.targetQualifiedName = some i) ∨
      ∃ x ∈ g.edges, ∃ y, edgeRow h rows view (namedIds db g) x = some y ∧ y.2.targetNodeId = some i

end

theorem callEdges_resolved {i : Nat} : (∃ y ∈ callEdges h db g view mid, y.2.targetNodeId = some i) ↔
    ∃ x ∈ g.edges, ∃ y, edgeRow h (linkedRows h db g view mid.nodes) view (namedIds db g) x = some y ∧
      y.2.targetNodeId = some i := by
  constructor
  · rintro ⟨y, hy, hi⟩
    obtain ⟨hx, hr⟩ := callEdges_row hy
    exact ⟨y.1, hx, y, hr, hi⟩
  · rintro ⟨x, hx, y, hr, hi⟩
    obtain ⟨z, hz, hkey⟩ := newEdges_key (List.mem_filterMap.mpr ⟨x, hx, hr⟩)
    simp only [CodeEdge.key, Prod.mk.injEq] at hkey
    -- edges of one key resolve alike
    refine ⟨z, hz, ?_⟩
    rw [(edgeRow_some (callEdges_row hz).2).2.2, hkey.2.1, hkey.2.2, ← (edgeRow_some hr).2.2, hi]

theorem candidate_unresolved (hv : view.Ok mid.nodes) (hmid : mid.Ok) {e : CodeEdge} (he : e ∈ mid.edges) :
    isCandidate view (affectedQualifiedNames db g) e ↔
      e.targetNodeId = none ∧ e.targetQualifiedName ∈ affectedQualifiedNames db g := by
  have hs : e.sourceNodeId ∈ view.nodeById := (hv.ids _).mpr (hmid.sources e he)
  simp [isCandidate, hs]

/-- A row of another file is rebuilt or touched exactly where it is in scope. -/
theorem inScope_iff {cache : Option Cache} (hok : db.Ok) (hp : persistNodes h db g = some mid)
    (hview : view = viewOf (cache.map (updateCache h db g)) mid) (hv : view.Ok mid.nodes) {n : CodeNode}
    (hn : n ∈ db.nodes) (hfile : n.filePath ∉ g.changedFilePaths) :
    InScope h db cache g n.id ↔ n.id ∈ rebuiltIds h db g view mid ∨ n.id ∈ touchedIds h db g view mid := by
  have hmid := persistNodes_ok hok hp
  have hother : ¬ ∃ m ∈ existingNodes db g, m.id = n.id := by
    rintro ⟨m, hm, hid⟩
    obtain ⟨hm, hmf⟩ := mem_existing.mp hm
    exact hfile (hok.unique hm hn hid ▸ hmf)
  have hk : n.id ∉ preservedIds db g := fun hk => hother (preserved_own hk)
  have hd : n.id ∉ doomedIds db g := fun hd => hother (mem_doomedIds.mp hd).1
  have hnn : ¬ Named db g n.id := by
    intro hnamed
    rcases mem_namedIds.mp hnamed with hk' | ⟨hle, -⟩
    · exact hk hk'
    · have := hok.fresh n hn
      omega
  have hdel : (∃ e ∈ mid.edges, e.sourceNodeId ∈ preservedIds db g ∧ e.targetNodeId = some n.id) ↔
      ∃ e ∈ db.edges, e.sourceNodeId ∈ preservedIds db g ∧ e.targetNodeId = some n.id := by
    constructor
    · rintro ⟨e, he, hs, ht⟩
      obtain ⟨e₀, he₀, -, rfl⟩ := (mem_midEdges hp).mp he
      exact ⟨e₀, he₀, hs, (nulled_target.mp ht).1⟩
    · rintro ⟨e, he, hs, ht⟩
      have hsd : e.sourceNodeId ∉ doomedIds db g := fun hx => (mem_doomedIds.mp hx).2 hs
      exact ⟨_, (mem_midEdges hp).mpr ⟨e, he, hsd, rfl⟩, hs, nulled_target.mpr ⟨ht, hd⟩⟩
  have hcand : (∃ e ∈ writtenEdges h db g view mid, isCandidate view (affectedQualifiedNames db g) e ∧
        e.sourceNodeId = n.id) ↔
      ∃ e ∈ db.edges, e.sourceNodeId = n.id ∧ e.targetQualifiedName ∈ affectedQualifiedNames db g ∧
        ∀ t, e.targetNodeId = some t → t ∈ doomedIds db g := by
    constructor
    · rintro ⟨e, he, hc, hs⟩
      rcases mem_written.mp he with ⟨he, -⟩ | ⟨y, hy, rfl⟩
      · obtain ⟨hnone, hq⟩ := (candidate_unresolved hv hmid he).mp hc
        obtain ⟨e₀, he₀, -, rfl⟩ := (mem_midEdges hp).mp he
        exact ⟨e₀, he₀, hs, hq, nulled_none.mp hnone⟩
      · exact absurd (hs ▸ callEdges_source hy) hnn
    · rintro ⟨e, he, hs, hq, ht⟩
      have hmem : e.nulled (doomedIds db g) ∈ mid.edges := (mem_midEdges hp).mpr ⟨e, he, hs ▸ hd, rfl⟩
      exact ⟨_, mem_written.mpr (Or.inl ⟨hmem, hs ▸ hk⟩),
        (candidate_unresolved hv hmid hmem).mpr ⟨nulled_none.mpr ht, hq⟩, hs⟩
  have hre : n.id ∈ rebuiltIds h db g view mid ↔
      ∃ e ∈ mid.edges, e.sourceNodeId ∉ preservedIds db g ∧ e.edgeType = .calls ∧ e.targetNodeId = none ∧
        e.targetQualifiedName ∈ affectedQualifiedNames db g ∧
        resolveEdgeTarget (linkedRows h db g view mid.nodes) view .calls e.targetQualifiedName = some n.id := by
    rw [rebuiltIds, List.mem_append, mem_reresolved]
    constructor
    · rintro (hnamed | ⟨e, he, ht, hc, hr⟩)
      · exact absurd hnamed hnn
      · rcases mem_written.mp he with ⟨he, hke⟩ | ⟨y, hy, rfl⟩
        · obtain ⟨hnone, hq⟩ := (candidate_unresolved hv hmid he).mp hc
          exact ⟨e, he, hke, ht, hnone, hq, hr⟩
        · -- a new edge that did not resolve does not resolve on a second try
          have hsame := (edgeRow_some (callEdges_row hy).2).2.2
          rw [ht, hr] at hsame
          simp [isCandidate, hsame] at hc
    · rintro ⟨e, he, hke, ht, hnone, hq, hr⟩
      exact Or.inr ⟨e, mem_written.mpr (Or.inl ⟨he, hke⟩), ht, (candidate_unresolved hv hmid he).mpr ⟨hnone, hq⟩, hr⟩
  rw [hre, mem_touched, hdel, hcand, callEdges_resolved]
  unfold InScope
  constructor
  · rintro (hs | hs | ⟨mid', hp', hs⟩)
    · exact Or.inr (Or.inr (Or.inl hs))
    · exact Or.inr (Or.inr (Or.inr (Or.inl hs)))
    · cases hp.symm.trans hp'
      subst hview
      rcases hs with hs | hs
      · exact Or.inl hs
      · exact Or.inr (Or.inr (Or.inr (Or.inr hs)))
  · subst hview
    rintro (hs | hs | hs | hs | hs)
    · exact Or.inr (Or.inr ⟨mid, hp, Or.inl hs⟩)
    · exact absurd hs hnn
    · exact Or.inl hs
    · exact Or.inr (Or.inl hs)
    · exact Or.inr (Or.inr ⟨mid, hp, Or.inr hs⟩)

theorem dedupe_ne_nil {nodes : List ExtractedNode} (hne : nodes ≠ []) : dedupeNodesByQualifiedName nodes ≠ [] := by
  cases nodes with
  | nil => exact absurd rfl hne
  | cons x xs =>
    have hput : ∀ (ys d : Dict.Items String ExtractedNode), d ≠ [] →
        ys.foldl (fun d y => Dict.put d y.1 y.2) d ≠ [] := by
      intro ys
      induction ys with
      | nil => intro d hd; exact hd
      | cons y ys ih =>
        intro d _
        apply ih
        cases d with
        | nil => simp [Dict.put]
        | cons z d => by_cases hz : z.1 = y.1 <;> simp [Dict.put, hz]
    simp only [dedupeNodesByQualifiedName, Dict.ofItems, ne_eq, List.map_eq_nil_iff]
    exact hput (xs.map fun x => (x.qualifiedName, x)) (Dict.put [] x.qualifiedName x) (by simp [Dict.put])

theorem rebuilt_ne_nil (hne : g.nodes ≠ []) : rebuiltIds h db g view mid ≠ [] := by
  obtain ⟨x, hx⟩ := List.exists_mem_of_ne_nil _ (dedupe_ne_nil hne)
  have hnamed : ∃ i, Named db g i := by
    rcases (matchNodes_ok.all x).mp hx with hk | hpend
    · obtain ⟨k, hk, -⟩ := List.mem_map.mp hk
      exact ⟨k.2, named_preserved (List.mem_map_of_mem hk)⟩
    · have := List.length_pos_of_mem hpend
      exact ⟨db.nextId, mem_namedIds.mpr (Or.inr ⟨Nat.le_refl _, by omega⟩)⟩
  obtain ⟨i, hi⟩ := hnamed
  exact List.ne_nil_of_mem (named_rebuilt hi)

theorem viewOf_ok {cache : Option Cache} (hok : db.Ok) (hc : ∀ c, cache = some c → c.Ok db.nodes)
    (hp : persistNodes h db g = some mid) : (viewOf (cache.map (updateCache h db g)) mid).Ok mid.nodes := by
  cases cache with
  | none => exact Cache.fromNodes_ok
  | some c => exact updateCache_ok hok (hc c rfl) hp

/-- **When the arrays stay right.** After a call every row's arrays mirror the
resolved CALLS edges, if and only if the call reaches each row of another file
that called, or was called by, a row it deleted. -/
theorem persist_mirrors_iff {db' : Db} {cache cache' : Option Cache} (hok : db.Ok) (hm : db.Mirrors)
    (hc : ∀ c, cache = some c → c.Ok db.nodes) (hp : persistGraph h db cache g = some (db', cache')) :
    db'.Mirrors ↔ ∀ n ∈ db.nodes, n.filePath ∉ g.changedFilePaths →
      (∃ d ∈ doomedIds db g, Calls db.edges n.id d ∨ Calls db.edges d n.id) → InScope h db cache g n.id := by
  unfold persistGraph at hp
  split at hp
  · rename_i hnil
    cases hp
    have hpaths : g.changedFilePaths = [] := by
      simp [ExtractedGraph.changedFilePaths, ExtractedGraph.deduped, hnil, dedupeNodesByQualifiedName, Dict.ofItems]
    have hdoomed : doomedIds db g = [] := by simp [doomedIds, doomedNodes, existingNodes, hpaths]
    simp [hm, hdoomed]
  · rename_i hne
    simp only [Option.map_eq_some_iff, Prod.mk.injEq] at hp
    obtain ⟨mid, hp, rfl, -⟩ := hp
    have hv := viewOf_ok hok hc hp
    rw [mirrors_iff_untouched hok hm hp hv (rebuilt_ne_nil hne)]
    constructor
    · intro hall n hn hfile hcall
      rw [inScope_iff hok hp rfl hv hn hfile]
      by_contra hout
      obtain ⟨d, hd, hcall⟩ := hcall
      have hself : n.id ∉ doomedIds db g := by
        intro hx
        obtain ⟨⟨m, hm, hid⟩, -⟩ := mem_doomedIds.mp hx
        obtain ⟨hm, hmf⟩ := mem_existing.mp hm
        exact hfile (hok.unique hm hn hid ▸ hmf)
      have hid := (persistNodes_ids hp).mpr (Or.inl ⟨List.mem_map_of_mem hn, hself⟩)
      have := hall n.id hid (fun hr => hout (Or.inl hr)) (fun ht => hout (Or.inr ht)) d hd
      exact hcall.elim this.1 this.2
    · intro hall i hi hr ht d hd
      rcases (persistNodes_ids hp).mp hi with ⟨hold, hself⟩ | hnew
      · obtain ⟨n, hn, rfl⟩ := List.mem_map.mp hold
        have hfile : n.filePath ∉ g.changedFilePaths := by
          intro hx
          have hex := mem_existing.mpr ⟨hn, hx⟩
          have hk : n.id ∈ preservedIds db g := by
            by_contra hk
            exact hself (mem_doomedIds.mpr ⟨⟨n, hex, rfl⟩, hk⟩)
          exact hr (named_rebuilt (named_preserved hk))
        have hscope := fun hcall => (inScope_iff hok hp rfl hv hn hfile).mp (hall n hn hfile ⟨d, hd, hcall⟩)
        exact ⟨fun hcall => (hscope (Or.inl hcall)).elim hr ht, fun hcall => (hscope (Or.inr hcall)).elim hr ht⟩
      · exact absurd (named_rebuilt (mem_namedIds.mpr (Or.inr hnew))) hr

/-- A full rebuild always mirrors, so that is what a call leaves exactly where
its own arrays mirror. -/
theorem rebuildRelationships_mirrors (hok : db.Ok) : (rebuildRelationships db).Mirrors := by
  have hids : ∀ a b, (a, b) ∈ callPairs db.edges → a ∈ db.nodes.map (·.id) ∧ b ∈ db.nodes.map (·.id) := by
    intro a b hab
    obtain ⟨e, he, -, rfl, hb⟩ := calls_iff.mp hab
    exact ⟨hok.sources e he, hok.targets e he b hb⟩
  intro n hn
  obtain ⟨n₀, -, rfl⟩ := List.mem_map.mp hn
  constructor
  · intro m
    rw [CodeNode.arrays, mem_seconds, List.mem_filter, decide_eq_true_eq]
    exact and_iff_left_of_imp (hids _ _)
  · intro m
    rw [CodeNode.arrays, mem_firsts, List.mem_filter, decide_eq_true_eq]
    exact and_iff_left_of_imp (hids _ _)

/-! ## Runs of calls -/

section
variable {β : Type} {π : CodeNode → β} (hπ : Blind π)
  (harrays : ∀ n callees callers, π { n with callees := callees, callers := callers } = π n)
include hπ harrays

omit hπ in
theorem rebuild_map (ids : List Nat) (edges : List CodeEdge) (touched peers dropped : List Nat)
    (rows : List CodeNode) : (rebuildBackCompatArrays ids edges touched peers dropped rows).map π = rows.map π := by
  unfold rebuildBackCompatArrays
  split
  · rfl
  · rw [List.map_map]
    apply List.map_congr_left
    intro n _
    simp only [Function.comp]
    split
    · rfl
    · split
      · exact harrays n _ _
      · split
        · exact harrays n _ _
        · rfl

theorem persistEdges_map : (persistEdges h db g view mid).nodes.map π = mid.nodes.map π := by
  simp only [persistEdges]
  rw [setUnresolved_map hπ.metadata, rebuild_map harrays, refreshUnresolved_map hπ.metadata, linkedRows_map hπ]

end

theorem persistEdges_ok (hok : db.Ok) (hp : persistNodes h db g = some mid) (hv : view.Ok mid.nodes) :
    (persistEdges h db g view mid).Ok := by
  have hmid := persistNodes_ok hok hp
  have hids : (persistEdges h db g view mid).nodes.map CodeNode.id = mid.nodes.map CodeNode.id :=
    persistEdges_map blind_id fun _ _ _ => rfl
  have hwritten : ∀ e ∈ writtenEdges h db g view mid, e.sourceNodeId ∈ mid.nodes.map (·.id) ∧
      ∀ i, e.targetNodeId = some i → i ∈ mid.nodes.map (·.id) := by
    intro e he
    rcases mem_written.mp he with ⟨he, -⟩ | ⟨y, hy, rfl⟩
    · exact ⟨hmid.sources e he, hmid.targets e he⟩
    · refine ⟨named_mem hp (callEdges_source hy), ?_⟩
      intro i hi
      rw [(edgeRow_some (callEdges_row hy).2).2.2] at hi
      exact resolve_mem hv hi
  refine ⟨?_, ?_, ?_, ?_, ?_⟩
  · rw [hids]
    exact hmid.ids
  · intro n hn
    have hmem : n.id ∈ mid.nodes.map CodeNode.id := hids ▸ List.mem_map_of_mem hn
    obtain ⟨m, hm, hid⟩ := List.mem_map.mp hmem
    exact hid ▸ hmid.fresh m hm
  · rw [show (persistEdges h db g view mid).nodes.map CodeNode.qualifiedName = mid.nodes.map CodeNode.qualifiedName
      from persistEdges_map blind_name fun _ _ _ => rfl]
    exact hmid.names
  · intro e he
    obtain ⟨e₀, he₀, rfl⟩ := List.mem_map.mp he
    rw [(reresolve_fields _ _ e₀).1, hids]
    exact (hwritten e₀ he₀).1
  · intro e he i hi
    obtain ⟨e₀, he₀, rfl⟩ := List.mem_map.mp he
    rw [hids]
    unfold reresolve at hi
    split at hi
    · exact resolve_mem hv hi
    · exact (hwritten e₀ he₀).2 i hi

/-- **Calls keep the graph well-formed**, and a cache that mirrors it goes on
doing so. -/
theorem persistGraph_ok {db' : Db} {cache cache' : Option Cache} (hok : db.Ok)
    (hc : ∀ c, cache = some c → c.Ok db.nodes) (hp : persistGraph h db cache g = some (db', cache')) :
    db'.Ok ∧ ∀ c, cache' = some c → c.Ok db'.nodes := by
  unfold persistGraph at hp
  split at hp
  · cases hp
    exact ⟨hok, hc⟩
  · simp only [Option.map_eq_some_iff, Prod.mk.injEq] at hp
    obtain ⟨mid, hp, rfl, rfl⟩ := hp
    refine ⟨persistEdges_ok hok hp (viewOf_ok hok hc hp), ?_⟩
    intro c hcache
    cases cache with
    | none => cases hcache
    | some c₀ =>
      cases hcache
      apply (updateCache_ok hok (hc c₀ rfl) hp).congr
      exact persistEdges_map ⟨fun _ _ => rfl, fun _ _ _ => rfl⟩ fun _ _ _ => rfl

def emptyDb : Db := ⟨[], [], 0⟩

theorem emptyDb_ok : emptyDb.Ok := by
  constructor <;> simp [emptyDb]

def persistAll (h : Host) : Db → List ExtractedGraph → Option Db :=
  Machine.run fun db g => (persistGraph h db none g).map (·.1)

theorem persistAll_ok {db' : Db} {gs : List ExtractedGraph} (hok : db.Ok) (hr : persistAll h db gs = some db') :
    db'.Ok := by
  have hstep : ∀ s g s', s.Ok → True → (persistGraph h s none g).map (·.1) = some s' → s'.Ok := by
    intro s g s' hs _ hn
    obtain ⟨⟨db', c'⟩, hp, rfl⟩ := Option.map_eq_some_iff.mp hn
    exact (persistGraph_ok hs (by simp) hp).1
  exact Machine.run_inv _ hstep hok (fun _ _ => trivial) hr

/-! ## Two small calls -/

/-- A host whose digests are the texts. -/
def plainHost : Host := ⟨id, id, fun _ => false⟩

def extracted (file : String) (name : String) (t : NodeType) : ExtractedNode where
  nodeType := t
  name := name
  qualifiedName := name
  filePath := ⟨[], file⟩
  language := .python
  content := ""
  signature := none
  parentQualifiedName := none
  metadata := {}
  symbolKey := "python:" ++ name

/-- `b.py` defines `t`. -/
def calleeFile : ExtractedGraph := ⟨[extracted "b.py" "b" .module, extracted "b.py" "b.t" .function], []⟩

/-- `a.py` imports `b` and calls `b.t` from `f` and from `g`. -/
def callerFile : ExtractedGraph where
  nodes := [extracted "a.py" "a" .module, extracted "a.py" "a.f" .function, extracted "a.py" "a.g" .function]
  edges := [⟨.imports, "a", "b"⟩, ⟨.calls, "a.f", "b.t"⟩, ⟨.calls, "a.g", "b.t"⟩]

def twoCallers : Db := (persistAll plainHost emptyDb [calleeFile, callerFile]).getD emptyDb

example : twoCallers.edges =
    [⟨2, some 0, "b", .imports⟩, ⟨3, some 1, "b.t", .calls⟩, ⟨4, some 1, "b.t", .calls⟩] := by decide

theorem twoCallers_reached : persistAll plainHost emptyDb [calleeFile, callerFile] = some twoCallers := by decide

/-- `a.py` without any function. -/
def noFunctions : ExtractedGraph := ⟨[extracted "a.py" "a" .module], []⟩

/-- `a.py` with `a.g` alone, which calls nothing. -/
def oneFunction : ExtractedGraph := ⟨[extracted "a.py" "a" .module, extracted "a.py" "a.g" .function], []⟩

def afterCall (g : ExtractedGraph) : Db := ((persistGraph plainHost twoCallers none g).map (·.1)).getD twoCallers

/-- With both callers deleted, `b.t` keeps them among its callers. -/
theorem persist_keeps_deleted_caller : persistAll plainHost emptyDb [calleeFile, callerFile] = some twoCallers ∧
    twoCallers.Mirrors ∧ persistGraph plainHost twoCallers none noFunctions = some (afterCall noFunctions, none) ∧
    ¬ (afterCall noFunctions).Mirrors :=
  ⟨twoCallers_reached, by decide, by decide, by decide⟩

/-- With one caller kept, its deleted edge puts `b.t` in scope. -/
theorem persist_mirrors_in_scope : (afterCall oneFunction).Mirrors := by
  have hok : twoCallers.Ok := persistAll_ok emptyDb_ok twoCallers_reached
  have hp : persistGraph plainHost twoCallers none oneFunction = some (afterCall oneFunction, none) := by decide
  refine (persist_mirrors_iff hok (by decide) (by simp) hp).mpr ?_
  intro n hn hfile hcall
  left
  revert n
  decide

end Cograph
