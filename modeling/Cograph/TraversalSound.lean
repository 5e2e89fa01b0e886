import Cograph.Bfs
import Cograph.ByKey
import Cograph.Traversal

/-!
# What a traversal returns

The search visits the ids in breadth-first order, up to the cap, and marks the
result truncated when the order has more. A response is exact unless ids of no
node stand for all that is cut off.
-/

namespace Cograph.Traversal

open Bfs

section
variable (N : Nat → List Neighbour) (maxNodes : Option Nat)

def next (u : Nat) : List Nat := (N u).map (·.1)

/-- The root and as many more as the cap allows. -/
def trim {α : Type} (xs : List α) : List α :=
  match maxNodes with
  | none => xs
  | some c => xs.take (c + 1)

/-- More than the root and the cap. -/
def exceeds (n : Nat) : Bool := maxNodes.any (· + 1 < n)

variable {N maxNodes}

theorem trim_of_within {α : Type} {xs : List α} (h : exceeds maxNodes xs.length = false) : trim maxNodes xs = xs := by
  cases maxNodes with
  | none => rfl
  | some c => exact List.take_of_length_le (by simpa [exceeds] using h)

theorem trim_append {α : Type} {xs : List α} (h : exceeds maxNodes xs.length = true) (ys : List α) :
    trim maxNodes (xs ++ ys) = trim maxNodes xs := by
  cases maxNodes with
  | none => cases h
  | some c =>
    have hlt : c + 1 < xs.length := by simpa [exceeds] using h
    exact List.take_append_of_le_length (Nat.le_of_lt hlt)

theorem exceeds_append {α : Type} {xs : List α} (h : exceeds maxNodes xs.length = true) (ys : List α) :
    exceeds maxNodes (xs ++ ys).length = true := by
  cases maxNodes with
  | none => cases h
  | some c =>
    have hlt : c + 1 < xs.length := by simpa [exceeds] using h
    simp [exceeds]
    omega

theorem trim_full {α : Type} {c : Nat} {xs : List α} (h : xs.length = c + 1) (ys : List α) :
    trim (some c) (xs ++ ys) = xs := by
  change (xs ++ ys).take (c + 1) = xs
  rw [← h, List.take_left]

/-! ## One hop -/

theorem visit_edges (hop : Nat) (st : Search) (n : Neighbour) :
    (visit maxNodes hop st n).edgeDistance = setdefault st.edgeDistance n.2 hop := by
  unfold visit
  dsimp only
  split
  · rfl
  · split <;> rfl

theorem fold_edges (hop : Nat) (ns : List Neighbour) : ∀ st : Search,
    (ns.foldl (visit maxNodes hop) st).edgeDistance =
      st.edgeDistance ++ (fresh (st.edgeDistance.map (·.1)) (ns.map (·.2))).map (·, hop) := by
  induction ns with
  | nil => simp [fresh]
  | cons n ns ih =>
    intro st
    rw [List.foldl_cons, ih, visit_edges, List.map_cons, fresh]
    by_cases h : n.2 ∈ st.edgeDistance.map (·.1)
    · rw [if_pos h, setdefault, if_pos h]
    · rw [if_neg h, setdefault, if_neg h, Dict.put_new h]
      simp

theorem fold_visited (hop : Nat) (ns : List Neighbour) : ∀ st : Search, st.visitedDistance ≠ [] →
    (∀ c, maxNodes = some c → st.visitedDistance.length ≤ c + 1) →
    let new := fresh (st.visitedDistance.map (·.1)) (ns.map (·.1))
    let all := st.visitedDistance ++ new.map (·, hop)
    let st' := ns.foldl (visit maxNodes hop) st
    st'.visitedDistance = trim maxNodes all ∧ st'.truncated = (st.truncated || exceeds maxNodes all.length) ∧
      (exceeds maxNodes all.length = false → st'.nextFrontier = st.nextFrontier ++ new) := by
  induction ns with
  | nil =>
    intro st hne hlen
    have hexc : exceeds maxNodes st.visitedDistance.length = false := by
      cases maxNodes with
      | none => rfl
      | some c => simpa [exceeds] using hlen c rfl
    simp [fresh, hexc, trim_of_within hexc]
  | cons n ns ih =>
    intro st hne hlen
    have hpos : 0 < st.visitedDistance.length := List.length_pos_iff.2 hne
    simp only [List.foldl_cons, List.map_cons]
    by_cases hmem : n.1 ∈ st.visitedDistance.map (·.1)
    · have hstep : visit maxNodes hop st n = { st with edgeDistance := setdefault st.edgeDistance n.2 hop } := by
        simp only [visit, if_pos hmem]
      rw [hstep, fresh, if_pos hmem]
      exact ih _ hne hlen
    · by_cases hcap : maxNodes.any (· ≤ st.visitedDistance.length - 1) = true
      · -- the cap is reached, so that the list ends here
        have hstep : visit maxNodes hop st n =
            { st with edgeDistance := setdefault st.edgeDistance n.2 hop, truncated := true } := by
          simp only [visit, if_neg hmem, if_pos hcap]
        rw [hstep, fresh, if_neg hmem]
        obtain ⟨c, hc⟩ : ∃ c, maxNodes = some c := by
          cases hm : maxNodes with
          | none => simp [hm] at hcap
          | some c => exact ⟨c, rfl⟩
        subst hc
        have hfull : st.visitedDistance.length = c + 1 := by
          have hle := hlen c rfl
          simp at hcap
          omega
        obtain ⟨hvisited, htrunc, -⟩ := ih { st with
          edgeDistance := setdefault st.edgeDistance n.2 hop
          truncated := true } hne hlen
        have hexc : exceeds (some c) (st.visitedDistance ++
            (n.1 :: fresh (st.visitedDistance.map (·.1) ++ [n.1]) (ns.map (·.1))).map (·, hop)).length = true := by
          simp [exceeds]
          omega
        refine ⟨?_, ?_, ?_⟩
        · rw [trim_full hfull] at hvisited ⊢
          exact hvisited
        · rw [htrunc, hexc]
          simp
        · rw [hexc]
          simp
      · have hstep : visit maxNodes hop st n =
            { st with
              edgeDistance := setdefault st.edgeDistance n.2 hop
              visitedDistance := st.visitedDistance ++ [(n.1, hop)]
              nextFrontier := st.nextFrontier ++ [n.1] } := by
          simp only [visit, if_neg hmem, hcap, Dict.put_new hmem]
          rfl
        rw [hstep, fresh, if_neg hmem]
        have hroom : ∀ c, maxNodes = some c → (st.visitedDistance ++ [(n.1, hop)]).length ≤ c + 1 := by
          intro c hc
          rw [hc] at hcap
          simp at hcap
          simp
          omega
        have := ih { st with
          edgeDistance := setdefault st.edgeDistance n.2 hop
          visitedDistance := st.visitedDistance ++ [(n.1, hop)]
          nextFrontier := st.nextFrontier ++ [n.1] } (by simp) hroom
        simpa using this

/-! ## A whole search -/

variable {root : Nat}

/-- The breadth-first order of the ids within a depth, with their levels. -/
abbrev order (N : Nat → List Neighbour) (root depth : Nat) : List (Nat × Nat) := (rounds (next N) root depth).1

/-- What holds after `h` hops. -/
structure After (N : Nat → List Neighbour) (maxNodes : Option Nat) (root h : Nat) (frontier : List Nat) (st : Search) :
    Prop where
  visited : st.visitedDistance = trim maxNodes (order N root h)
  truncated : st.truncated = exceeds maxNodes (order N root h).length
  frontier : exceeds maxNodes (order N root h).length = false → frontier = (rounds (next N) root h).2

theorem order_ne_nil (N : Nat → List Neighbour) (root h : Nat) : order N root h ≠ [] := by
  have hroot : (root, 0) ∈ order N root h := mem_rounds.2 ⟨Nat.zero_le h, dist_zero.2 rfl⟩
  exact List.ne_nil_of_mem hroot

theorem trim_length {α : Type} (xs : List α) (c : Nat) (h : maxNodes = some c) :
    (trim maxNodes xs).length ≤ c + 1 := by
  rw [h]
  exact List.length_take_le _ _

theorem After.step {h : Nat} {frontier : List Nat} {st : Search} (hst : After N maxNodes root h frontier st) :
    let st' := (frontier.flatMap N).foldl (visit maxNodes (h + 1)) { st with nextFrontier := [] }
    After N maxNodes root (h + 1) st'.nextFrontier st' := by
  intro st'
  have hne : st.visitedDistance ≠ [] := by
    rw [hst.visited]
    cases maxNodes with
    | none => exact order_ne_nil N root h
    | some c => simp [trim, order_ne_nil]
  obtain ⟨hvisited, htrunc, hnext⟩ := fold_visited (h + 1) (frontier.flatMap N) { st with nextFrontier := [] } hne
    (by
      intro c hc
      rw [hst.visited]
      exact trim_length _ c hc)
  obtain ⟨ys, hys⟩ : ∃ ys, order N root (h + 1) = order N root h ++ ys := rounds_append h 1
  by_cases hexc : exceeds maxNodes (order N root h).length = true
  · -- nothing is visited any more
    have hgrown : exceeds maxNodes (order N root (h + 1)).length = true := by
      rw [hys]
      exact exceeds_append hexc ys
    refine ⟨?_, ?_, fun hno => by rw [hgrown] at hno; cases hno⟩
    · rw [hvisited, hys, trim_append hexc, ← hst.visited]
      cases hm : maxNodes with
      | none => simp [hm, exceeds] at hexc
      | some c =>
        subst hm
        apply trim_full
        rw [hst.visited]
        have hlt : c + 1 < (order N root h).length := by simpa [exceeds] using hexc
        simp [trim]
        omega
    · rw [hgrown, htrunc, hst.truncated, hexc, Bool.true_or]
  · have hwithin : exceeds maxNodes (order N root h).length = false := by simpa using hexc
    have hall : st.visitedDistance ++ (fresh (st.visitedDistance.map (·.1)) ((frontier.flatMap N).map (·.1))).map
        (·, h + 1) = order N root (h + 1) := by
      rw [hst.visited, trim_of_within hwithin, hst.frontier hwithin]
      simp only [order, rounds, List.map_flatMap]
      rfl
    rw [hall] at hvisited htrunc hnext
    refine ⟨hvisited, by rw [htrunc, hst.truncated, hwithin, Bool.false_or], ?_⟩
    intro hno
    rw [hnext hno, hst.visited, trim_of_within hwithin, hst.frontier hwithin]
    simp only [rounds, List.map_flatMap, List.nil_append]
    rfl

theorem hops_spec (left : Nat) : ∀ {h : Nat} {frontier : List Nat} {st : Search}, After N maxNodes root h frontier st →
    (hops N maxNodes left (h + 1) frontier st).visitedDistance = trim maxNodes (order N root (h + left)) ∧
      (hops N maxNodes left (h + 1) frontier st).truncated = exceeds maxNodes (order N root (h + left)).length := by
  induction left with
  | zero => exact fun hst => ⟨hst.visited, hst.truncated⟩
  | succ left ih =>
    intro h frontier st hst
    rw [hops]
    split
    · rename_i hnil
      by_cases hexc : exceeds maxNodes (order N root h).length = true
      · obtain ⟨ys, hys⟩ : ∃ ys, order N root (h + (left + 1)) = order N root h ++ ys := rounds_append h (left + 1)
        rw [hys, trim_append hexc, exceeds_append hexc ys, ← hexc]
        exact ⟨hst.visited, hst.truncated⟩
      · have hwithin : exceeds maxNodes (order N root h).length = false := by simpa using hexc
        have hend := rounds_end ((hst.frontier hwithin).symm.trans hnil) (left + 1)
        rw [order, hend]
        exact ⟨hst.visited, hst.truncated⟩
    · have := ih hst.step
      rwa [show h + 1 + left = h + (left + 1) by omega] at this

theorem search_spec (depth : Nat) :
    (search N maxNodes depth root).visitedDistance = trim maxNodes (order N root depth) ∧
      (search N maxNodes depth root).truncated = exceeds maxNodes (order N root depth).length := by
  have hstart : After N maxNodes root 0 [root] ⟨[(root, 0)], [], [], false⟩ := by
    refine ⟨?_, ?_, fun _ => rfl⟩
    · cases maxNodes <;> simp [trim, order, rounds]
    · cases maxNodes <;> simp [exceeds, order, rounds]
  have := hops_spec depth hstart
  simp only [Nat.zero_add] at this
  exact this

/-! ## Edges -/

variable (N root) in
/-- A hop comes by the edge from a node of level `h`. -/
def Seen (h : Nat) (e : Nat × Nat) : Prop := ∃ u, AtDistance (next N) root h u ∧ e ∈ (N u).map (·.2)

variable (N root) in
def FirstSeen (h : Nat) (e : Nat × Nat) : Prop := Seen N root h e ∧ ∀ m < h, ¬Seen N root m e

/-- The edges found within `h` hops, each with the hop that finds it. -/
def Found (N : Nat → List Neighbour) (root h : Nat) (d : Dict.Items (Nat × Nat) Nat) : Prop :=
  (d.map (·.1)).Nodup ∧ ∀ e k, (e, k) ∈ d ↔ ∃ m < h, k = m + 1 ∧ FirstSeen N root m e

theorem found_step {h : Nat} {d : Dict.Items (Nat × Nat) Nat} (hd : Found N root h d) :
    Found N root (h + 1)
      (d ++ (fresh (d.map (·.1)) (((rounds (next N) root h).2.flatMap N).map (·.2))).map (·, h + 1)) := by
  have hkeys : ∀ e, e ∈ d.map (·.1) ↔ ∃ m < h, Seen N root m e := by
    intro e
    constructor
    · intro he
      obtain ⟨x, hx, rfl⟩ := List.mem_map.1 he
      obtain ⟨m, hm, -, hs⟩ := (hd.2 x.1 x.2).1 hx
      exact ⟨m, hm, hs.1⟩
    · intro ⟨m, hm, hs⟩
      classical
      have hex : ∃ m, Seen N root m e := ⟨m, hs⟩
      have hfirst : FirstSeen N root (Nat.find hex) e := ⟨Nat.find_spec hex, fun k hk => Nat.find_min hex hk⟩
      exact List.mem_map.2 ⟨_, (hd.2 e _).2 ⟨_, lt_of_le_of_lt (Nat.find_min' hex hs) hm, rfl, hfirst⟩, rfl⟩
  have hlevel : ∀ e, e ∈ ((rounds (next N) root h).2.flatMap N).map (·.2) ↔ Seen N root h e := by
    intro e
    simp only [List.mem_map, List.mem_flatMap, mem_level, Seen]
    grind
  constructor
  · rw [List.map_append, List.map_map, List.nodup_append]
    refine ⟨hd.1, by simpa [Function.comp_def] using fresh_nodup _ _, ?_⟩
    intro e he e' he' heq
    simp only [Function.comp_def, List.map_id'] at he'
    exact (mem_fresh.1 he').2 (heq ▸ he)
  · intro e k
    rw [List.mem_append, hd.2]
    simp only [List.mem_map, Prod.mk.injEq, mem_fresh, hlevel, hkeys]
    constructor
    · rintro (⟨m, hm, hk, hs⟩ | ⟨e', ⟨hs, hnew⟩, rfl, rfl⟩)
      · exact ⟨m, by omega, hk, hs⟩
      · exact ⟨h, by omega, rfl, hs, fun m hm hsm => hnew ⟨m, hm, hsm⟩⟩
    · intro ⟨m, hm, hk, hs⟩
      by_cases hlt : m < h
      · exact .inl ⟨m, hlt, hk, hs⟩
      · obtain rfl : m = h := by omega
        exact .inr ⟨e, ⟨hs.1, fun ⟨j, hj, hsj⟩ => hs.2 j hj hsj⟩, rfl, hk.symm⟩

theorem hops_edges (left : Nat) : ∀ {h : Nat} {frontier : List Nat} {st : Search}, After N none root h frontier st →
    Found N root h st.edgeDistance → Found N root (h + left) (hops N none left (h + 1) frontier st).edgeDistance := by
  induction left with
  | zero => exact fun _ hd => hd
  | succ left ih =>
    intro h frontier st hst hd
    have hfront := hst.frontier rfl
    rw [hops]
    split
    · rename_i hnil
      -- no level is left to see an edge from
      have hend : ∀ m ≥ h, ∀ e, ¬Seen N root m e := by
        intro m hm e hs
        obtain ⟨u, hu, -⟩ := hs
        have := rounds_end (hfront.symm.trans hnil) (m - h)
        rw [← mem_level, show m = h + (m - h) by omega, this] at hu
        cases hu
      refine ⟨hd.1, ?_⟩
      intro e k
      rw [hd.2]
      constructor
      · intro ⟨m, hm, hk, hs⟩
        exact ⟨m, by omega, hk, hs⟩
      · intro ⟨m, hm, hk, hs⟩
        by_cases hlt : m < h
        · exact ⟨m, hlt, hk, hs⟩
        · exact absurd hs.1 (hend m (by omega) e)
    · have hstep := found_step hd
      have := ih hst.step (by
        rw [fold_edges, hfront]
        exact hstep)
      rwa [show h + 1 + left = h + (left + 1) by omega] at this

theorem search_edges (depth : Nat) : Found N root depth (search N none depth root).edgeDistance := by
  have hstart : After N none root 0 [root] ⟨[(root, 0)], [], [], false⟩ := ⟨rfl, rfl, fun _ => rfl⟩
  have := hops_edges depth hstart ⟨List.nodup_nil, by simp⟩
  simp only [Nat.zero_add] at this
  exact this

end

/-! ## The response -/

section
variable {s : Snapshot} {N : Nat → List Neighbour} {maxNodes : Option Nat} {direction : TraversalDirection} {depth root : Nat}

theorem trim_sublist {α : Type} (maxNodes : Option Nat) (xs : List α) : List.Sublist (trim maxNodes xs) xs := by
  cases maxNodes with
  | none => exact List.Sublist.refl xs
  | some c => exact List.take_sublist _ _

theorem visited_nodup (N : Nat → List Neighbour) (maxNodes : Option Nat) (depth root : Nat) :
    ((search N maxNodes depth root).visitedDistance.map (·.1)).Nodup := by
  rw [(search_spec depth).1]
  exact (rounds_nodup depth).sublist ((trim_sublist maxNodes _).map _)

theorem mem_related {st : Search} (hnd : (st.visitedDistance.map (·.1)).Nodup) {tn : TraversalNode} :
    tn ∈ relatedNodes s root st ↔
      ∃ row ∈ s.nodes, row.id ≠ root ∧ ∃ d, (row.id, d) ∈ st.visitedDistance ∧ tn = traversalNode row d := by
  simp only [relatedNodes, (List.perm_insertionSort _ _).mem_iff, List.mem_map, visibleRows, List.mem_filter,
    decide_eq_true_eq]
  constructor
  · intro h
    obtain ⟨row, ⟨⟨hrow, x, hx, hid⟩, hne⟩, htn⟩ := h
    have hget : Dict.get st.visitedDistance row.id = some x.2 := Dict.get_of_nodup hnd (hid ▸ hx)
    refine ⟨row, hrow, hne, x.2, hid ▸ hx, ?_⟩
    rw [← htn, hget]
    rfl
  · intro h
    obtain ⟨row, hrow, hne, d, hd, htn⟩ := h
    refine ⟨row, ⟨⟨hrow, _, hd, rfl⟩, hne⟩, ?_⟩
    rw [htn, Dict.get_of_nodup hnd hd]
    rfl

theorem related_ids {st : Search} : (relatedNodes s root st).map (·.id) |>.Perm
    (((visibleRows s st).filter (·.id ≠ root)).map (·.id)) := by
  refine ((List.perm_insertionSort _ _).map _).trans ?_
  rw [List.map_map]
  exact List.Perm.refl _

theorem related_nodup (st : Search) : ((relatedNodes s root st).map (·.id)).Nodup := by
  rw [related_ids.nodup_iff]
  exact s.ids.sublist ((List.filter_sublist.trans List.filter_sublist).map _)

def Reached (s : Snapshot) (N : Nat → List Neighbour) (depth root x : Nat) : Prop :=
  x ∈ s.nodes.map (·.id) ∧ ∃ d ≤ depth, AtDistance (next N) root d x

/-- A response without a cap: the nodes within the depth with their distances,
and the edges between them that a hop comes by. -/
structure Uncapped (s : Snapshot) (N : Nat → List Neighbour) (depth root : Nat) (r : TraversalResponse) : Prop where
  nodes : ∀ tn, tn ∈ r.nodes ↔ ∃ row ∈ s.nodes, row.id ≠ root ∧ ∃ d ≤ depth, AtDistance (next N) root d row.id ∧
    tn = traversalNode row d
  distinct : (r.nodes.map (·.id)).Nodup
  edges : ∀ te, te ∈ r.edges ↔ ∃ e h, h < depth ∧ FirstSeen N root h e ∧ Reached s N depth root e.1 ∧
    Reached s N depth root e.2 ∧ te = ⟨e.1, e.2, .calls, h + 1⟩
  whole : r.truncated = false

structure Capped (s : Snapshot) (N : Nat → List Neighbour) (depth root c : Nat) (r : TraversalResponse) : Prop where
  few : r.nodes.length ≤ c
  distances : ∀ tn ∈ r.nodes, tn.distance ≤ depth ∧ AtDistance (next N) root tn.distance tn.id
  flagged : r.truncated = true ↔ ∃ x, x ≠ root ∧ Reached s N depth root x ∧ x ∉ r.nodes.map (·.id)

/-- A node of the snapshot has a response, with its root first and exact up to
the cap. -/
def Traverses (s : Snapshot) (direction : TraversalDirection) (N : Nat → List Neighbour) (maxNodes : Option Nat)
    (depth root : Nat) : Prop :=
  root ∈ s.nodes.map (·.id) → ∃ r, traverseOver s direction depth root N maxNodes = some r ∧ r.root.id = root ∧
    (maxNodes = none → Uncapped s N depth root r) ∧ ∀ c, maxNodes = some c → Capped s N depth root c r

/-- The ids in breadth-first order fit the cap, or one past it is a node's. -/
def Counted (s : Snapshot) (N : Nat → List Neighbour) (maxNodes : Option Nat) (depth root : Nat) : Prop :=
  root ∈ s.nodes.map (·.id) → ∀ c, maxNodes = some c → (order N root depth).length ≤ c + 1 ∨
    ∃ x ∈ (order N root depth).drop (c + 1), x.1 ∈ s.nodes.map (·.id)

theorem traverseOver_some (h : root ∈ s.nodes.map (·.id)) : ∃ row, row.id = root ∧
    traverseOver s direction depth root N maxNodes = some ⟨traversalNode row 0, direction, depth,
      relatedNodes s root (search N maxNodes depth root), visibleEdges s (search N maxNodes depth root),
      (search N maxNodes depth root).truncated⟩ := by
  obtain ⟨row, hrow, hid⟩ := List.mem_map.1 h
  obtain ⟨found, hfound⟩ : ∃ found, s.nodes.find? (·.id = root) = some found := by
    apply Option.isSome_iff_exists.1
    rw [List.find?_isSome]
    exact ⟨row, hrow, by simpa using hid⟩
  refine ⟨found, by simpa using List.find?_some hfound, ?_⟩
  unfold traverseOver
  rw [hfound]

theorem uncapped_response (row : NodeRow) : Uncapped s N depth root
    ⟨traversalNode row 0, direction, depth, relatedNodes s root (search N none depth root),
      visibleEdges s (search N none depth root), (search N none depth root).truncated⟩ := by
  obtain ⟨hvisited, htrunc⟩ := @search_spec N none root depth
  have hmem : ∀ x d, (x, d) ∈ (search N none depth root).visitedDistance ↔ d ≤ depth ∧ AtDistance (next N) root d x := by
    intro x d
    rw [hvisited]
    exact mem_rounds
  have hvisible : ∀ x, x ∈ (visibleRows s (search N none depth root)).map (·.id) ↔ Reached s N depth root x := by
    intro x
    simp only [visibleRows, List.mem_map, List.mem_filter, decide_eq_true_eq, Reached]
    constructor
    · intro ⟨row, ⟨hrow, y, hy, hid⟩, hx⟩
      subst hx
      exact ⟨⟨row, hrow, rfl⟩, y.2, (hmem row.id y.2).1 (hid ▸ hy)⟩
    · intro ⟨⟨row, hrow, hx⟩, d, hd⟩
      subst hx
      exact ⟨row, ⟨hrow, _, (hmem row.id d).2 hd, rfl⟩, rfl⟩
  refine ⟨?_, related_nodup _, ?_, htrunc⟩
  · intro tn
    rw [mem_related (visited_nodup N none depth root)]
    simp only [hmem]
    grind
  · intro te
    have hfound := @search_edges N root depth
    simp only [visibleEdges, (List.perm_insertionSort _ _).mem_iff, List.mem_map, List.mem_filter, decide_eq_true_eq,
      hvisible]
    constructor
    · intro ⟨x, ⟨hx, h₁, h₂⟩, hte⟩
      obtain ⟨h, hh, hk, hs⟩ := (hfound.2 x.1 x.2).1 hx
      exact ⟨x.1, h, hh, hs, h₁, h₂, by rw [← hte, hk]⟩
    · intro ⟨e, h, hh, hs, h₁, h₂, hte⟩
      exact ⟨(e, h + 1), ⟨(hfound.2 e (h + 1)).2 ⟨h, hh, rfl, hs⟩, h₁, h₂⟩, hte.symm⟩

theorem root_first (N : Nat → List Neighbour) (root depth : Nat) : ∃ ys, order N root depth = (root, 0) :: ys := by
  obtain ⟨ys, hys⟩ := @rounds_append _ _ (next N) root 0 depth
  rw [Nat.zero_add] at hys
  exact ⟨ys, hys⟩

theorem missing_iff (c : Nat) : (∃ x, x ≠ root ∧ Reached s N depth root x ∧
      x ∉ (relatedNodes s root (search N (some c) depth root)).map (·.id)) ↔
    ∃ x ∈ (order N root depth).drop (c + 1), x.1 ∈ s.nodes.map (·.id) := by
  have hnd := visited_nodup N (some c) depth root
  have hvisited : (search N (some c) depth root).visitedDistance = (order N root depth).take (c + 1) :=
    (search_spec depth).1
  have hkeys : (((order N root depth).take (c + 1)).map (·.1) ++ ((order N root depth).drop (c + 1)).map (·.1)).Nodup := by
    rw [← List.map_append, List.take_append_drop]
    exact rounds_nodup depth
  constructor
  · intro ⟨x, hne, ⟨hx, d, hd, hdist⟩, hmiss⟩
    have hmem : (x, d) ∈ (order N root depth).take (c + 1) ++ (order N root depth).drop (c + 1) := by
      rw [List.take_append_drop]
      exact mem_rounds.2 ⟨hd, hdist⟩
    rcases List.mem_append.1 hmem with hmem | hmem
    · obtain ⟨row, hrow, rfl⟩ := List.mem_map.1 hx
      refine absurd (List.mem_map.2 ⟨_, (mem_related hnd).2 ⟨row, hrow, hne, d, ?_, rfl⟩, rfl⟩) hmiss
      rw [hvisited]
      exact hmem
    · exact ⟨(x, d), hmem, hx⟩
  · intro ⟨x, hx, hid⟩
    have hdisj : x.1 ∉ ((order N root depth).take (c + 1)).map (·.1) := by
      intro hmem
      exact (List.nodup_append.1 hkeys).2.2 _ hmem _ (List.mem_map.2 ⟨x, hx, rfl⟩) rfl
    refine ⟨x.1, ?_, ⟨hid, x.2, mem_rounds.1 (List.mem_of_mem_drop hx)⟩, ?_⟩
    · intro hroot
      obtain ⟨ys, hys⟩ := root_first N root depth
      apply hdisj
      rw [hys, hroot]
      simp
    · intro hmem
      obtain ⟨tn, htn, hid'⟩ := List.mem_map.1 hmem
      obtain ⟨row, -, -, d, hd, rfl⟩ := (mem_related hnd).1 htn
      rw [hvisited] at hd
      apply hdisj
      rw [← hid']
      exact List.mem_map.2 ⟨_, hd, rfl⟩

theorem few_nodes (c : Nat) : (relatedNodes s root (search N (some c) depth root)).length ≤ c := by
  have hnd := visited_nodup N (some c) depth root
  have hvisited : (search N (some c) depth root).visitedDistance = (order N root depth).take (c + 1) :=
    (search_spec depth).1
  have hroot : root ∈ (search N (some c) depth root).visitedDistance.map (·.1) := by
    obtain ⟨ys, hys⟩ := root_first N root depth
    rw [hvisited, hys]
    simp
  have hsub : root :: (relatedNodes s root (search N (some c) depth root)).map (·.id) ⊆
      (search N (some c) depth root).visitedDistance.map (·.1) := by
    intro x hx
    rcases List.mem_cons.1 hx with rfl | hx
    · exact hroot
    · obtain ⟨tn, htn, rfl⟩ := List.mem_map.1 hx
      obtain ⟨row, -, -, d, hd, rfl⟩ := (mem_related hnd).1 htn
      exact List.mem_map.2 ⟨_, hd, rfl⟩
  have hown : (root :: (relatedNodes s root (search N (some c) depth root)).map (·.id)).Nodup := by
    refine List.nodup_cons.2 ⟨?_, related_nodup _⟩
    intro hx
    obtain ⟨tn, htn, hid⟩ := List.mem_map.1 hx
    obtain ⟨row, -, hne, d, -, rfl⟩ := (mem_related hnd).1 htn
    exact hne hid
  have hle := (hown.subperm hsub).length_le
  rw [hvisited] at hle
  simp only [List.length_cons, List.length_map, List.length_take] at hle
  omega

theorem capped_iff (c : Nat) (row : NodeRow) : Capped s N depth root c
    ⟨traversalNode row 0, direction, depth, relatedNodes s root (search N (some c) depth root),
      visibleEdges s (search N (some c) depth root), (search N (some c) depth root).truncated⟩ ↔
    (order N root depth).length ≤ c + 1 ∨ ∃ x ∈ (order N root depth).drop (c + 1), x.1 ∈ s.nodes.map (·.id) := by
  have hnd := visited_nodup N (some c) depth root
  have htrunc : (search N (some c) depth root).truncated = true ↔ c + 1 < (order N root depth).length := by
    rw [(search_spec depth).2]
    simp [exceeds]
  constructor
  · intro h
    have hflag := h.flagged
    rw [htrunc, missing_iff] at hflag
    by_cases hlt : c + 1 < (order N root depth).length
    · exact .inr (hflag.1 hlt)
    · exact .inl (by omega)
  · intro h
    refine ⟨few_nodes c, ?_, ?_⟩
    · intro tn htn
      obtain ⟨row, -, -, d, hd, rfl⟩ := (mem_related hnd).1 htn
      rw [(search_spec depth).1] at hd
      exact mem_rounds.1 (List.mem_of_mem_take hd)
    · rw [htrunc, missing_iff]
      constructor
      · intro hlt
        exact h.resolve_left (by omega)
      · intro hmiss
        obtain ⟨x, hx, -⟩ := hmiss
        have := List.length_pos_of_mem hx
        rw [List.length_drop] at this
        omega

theorem traverses_iff : Traverses s direction N maxNodes depth root ↔ Counted s N maxNodes depth root := by
  refine imp_congr_right fun hroot => ?_
  obtain ⟨row, hid, hrun⟩ := @traverseOver_some s N maxNodes direction depth root hroot
  constructor
  · intro h c hc
    obtain ⟨r, hr, -, -, hcap⟩ := h
    rw [hrun] at hr
    obtain rfl := Option.some.inj hr
    subst hc
    exact (capped_iff c row).1 (hcap c rfl)
  · intro h
    refine ⟨_, hrun, hid, ?_, ?_⟩
    · rintro rfl
      exact uncapped_response row
    · rintro c rfl
      exact (capped_iff c row).2 (h c rfl)

end

/-! ## Two back-ends -/

section
variable {s : Snapshot} {direction : TraversalDirection} {parseUuid : Str → Option Nat} {depth root : Nat}

/-- The id lists of the nodes mirror the resolved call edges. -/
def Mirrored (s : Snapshot) (parseUuid : Str → Option Nat) : Prop :=
  ∀ node ∈ s.nodes,
    (∀ t, t ∈ node.callees.filterMap parseUuid ↔
      ∃ e ∈ s.edges, e.edgeType = .calls ∧ e.sourceNodeId = node.id ∧ e.targetNodeId = some t) ∧
    ∀ x, x ∈ node.callers.filterMap parseUuid ↔
      ∃ e ∈ s.edges, e.edgeType = .calls ∧ e.targetNodeId = some node.id ∧ e.sourceNodeId = x

theorem next_v2 {u x : Nat} : x ∈ next (neighboursV2 s direction) u ↔
    (direction = .callees ∨ direction = .both) ∧
      (∃ e ∈ s.edges, e.edgeType = .calls ∧ e.sourceNodeId = u ∧ e.targetNodeId = some x) ∨
    (direction = .callers ∨ direction = .both) ∧
      ∃ e ∈ s.edges, e.edgeType = .calls ∧ e.targetNodeId = some u ∧ e.sourceNodeId = x := by
  have htargets : x ∈ s.edges.filterMap (fun e =>
      if e.edgeType = .calls ∧ e.sourceNodeId = u then e.targetNodeId else none) ↔
      ∃ e ∈ s.edges, e.edgeType = .calls ∧ e.sourceNodeId = u ∧ e.targetNodeId = some x := by
    rw [List.mem_filterMap]
    refine exists_congr fun e => and_congr_right fun _ => ?_
    split
    · rename_i h
      simp [h]
    · rename_i h
      simp only [reduceCtorEq, false_iff]
      exact fun he => h ⟨he.1, he.2.1⟩
  have hsources : x ∈ s.edges.filterMap (fun e =>
      if e.edgeType = .calls ∧ e.targetNodeId = some u then some e.sourceNodeId else none) ↔
      ∃ e ∈ s.edges, e.edgeType = .calls ∧ e.targetNodeId = some u ∧ e.sourceNodeId = x := by
    rw [List.mem_filterMap]
    refine exists_congr fun e => and_congr_right fun _ => ?_
    split
    · rename_i h
      simp [h]
    · rename_i h
      simp only [reduceCtorEq, false_iff]
      exact fun he => h ⟨he.1, he.2.1⟩
  rw [← htargets, ← hsources]
  unfold next neighboursV2
  simp only [List.map_append, List.mem_append]
  refine or_congr ?_ ?_
  · split
    · rename_i h
      simp [h, Function.comp_def]
    · rename_i h
      simp [h]
  · split
    · rename_i h
      simp [h, Function.comp_def]
    · rename_i h
      simp [h]

theorem next_legacy {u x : Nat} : x ∈ next (neighboursLegacy s direction parseUuid) u ↔ ∃ node ∈ s.nodes, node.id = u ∧
    ((direction = .callees ∨ direction = .both) ∧ x ∈ node.callees.filterMap parseUuid ∨
      (direction = .callers ∨ direction = .both) ∧ x ∈ node.callers.filterMap parseUuid) := by
  unfold next neighboursLegacy
  cases hfind : s.nodes.find? (·.id = u) with
  | none =>
    simp only [List.map_nil, List.not_mem_nil, false_iff]
    intro h
    obtain ⟨node, hnode, hid, -⟩ := h
    have := List.find?_eq_none.1 hfind node hnode
    simp [hid] at this
  | some found =>
    obtain ⟨hmem, hid⟩ := ByKey.find_mem hfind
    have hone : ∀ node ∈ s.nodes, node.id = u → node = found := by
      intro node hnode hnu
      exact List.inj_on_of_nodup_map s.ids hnode hmem (hnu.trans hid.symm)
    have hside {p : Prop} [Decidable p] {ids : List Nat} {f : Nat → Neighbour} (hf : ∀ t, (f t).1 = t) :
        x ∈ (if p then ids.map f else []).map (·.1) ↔ p ∧ x ∈ ids := by
      split
      · rename_i h
        simp [h, hf]
      · rename_i h
        simp [h]
    simp only [List.map_append, List.mem_append]
    rw [hside fun _ => rfl, hside fun _ => rfl]
    constructor
    · intro h
      exact ⟨found, hmem, hid, h⟩
    · intro h
      obtain ⟨node, hnode, hnu, h⟩ := h
      rwa [hone node hnode hnu] at h

theorem next_agree (h : Mirrored s parseUuid) (u x : Nat) :
    x ∈ next (neighboursV2 s direction) u ↔ x ∈ next (neighboursLegacy s direction parseUuid) u := by
  rw [next_v2, next_legacy]
  constructor
  · intro hx
    -- an edge joins nodes that are there
    obtain ⟨node, hnode, rfl⟩ : ∃ node ∈ s.nodes, node.id = u := by
      rw [← List.mem_map]
      rcases hx with ⟨-, e, he, -, hs, -⟩ | ⟨-, e, he, -, ht, -⟩
      · exact hs ▸ (s.joined e he).1
      · exact (s.joined e he).2 u ht
    refine ⟨node, hnode, rfl, ?_⟩
    rwa [(h node hnode).1, (h node hnode).2]
  · intro hx
    obtain ⟨node, hnode, rfl, hx⟩ := hx
    rwa [(h node hnode).1, (h node hnode).2] at hx

theorem steps_congr {f g : Nat → List Nat} (h : ∀ u x, x ∈ f u ↔ x ∈ g u) (n x : Nat) :
    Steps f root n x ↔ Steps g root n x := by
  induction n generalizing x with
  | zero => exact Iff.rfl
  | succ n ih => simp only [Steps, ih, h]

theorem visited_agree (h : Mirrored s parseUuid) (x d : Nat) :
    (x, d) ∈ (search (neighboursV2 s direction) none depth root).visitedDistance ↔
      (x, d) ∈ (search (neighboursLegacy s direction parseUuid) none depth root).visitedDistance := by
  rw [(search_spec depth).1, (search_spec depth).1]
  change (x, d) ∈ order _ _ _ ↔ (x, d) ∈ order _ _ _
  simp only [order, mem_rounds, AtDistance, steps_congr (next_agree h)]

theorem related_congr {st st' : Search} (hnd : (st.visitedDistance.map (·.1)).Nodup)
    (hnd' : (st'.visitedDistance.map (·.1)).Nodup)
    (h : ∀ x d, (x, d) ∈ st.visitedDistance ↔ (x, d) ∈ st'.visitedDistance) :
    relatedNodes s root st = relatedNodes s root st' := by
  have hkeys : ∀ x, x ∈ st.visitedDistance.map (·.1) ↔ x ∈ st'.visitedDistance.map (·.1) := by
    intro x
    simp [h]
  have hget : ∀ x, Dict.get st.visitedDistance x = Dict.get st'.visitedDistance x := by
    intro x
    apply Option.ext
    intro d
    rw [Dict.get_iff hnd, Dict.get_iff hnd', h]
  simp only [relatedNodes, visibleRows, hkeys, hget]

theorem backends_agree (h : Mirrored s parseUuid) :
    (traverseOver s direction depth root (neighbours s direction parseUuid true) none).map (·.nodes) =
      (traverseOver s direction depth root (neighbours s direction parseUuid false) none).map (·.nodes) := by
  unfold traverseOver
  cases s.nodes.find? (·.id = root) with
  | none => rfl
  | some row =>
    have hrelated : relatedNodes s root (search (neighboursV2 s direction) none depth root) =
        relatedNodes s root (search (neighboursLegacy s direction parseUuid) none depth root) :=
      related_congr (visited_nodup _ none depth root) (visited_nodup _ none depth root) (visited_agree h)
    exact congrArg some hrelated

theorem counted_v2 (maxNodes : Option Nat) : Counted s (neighboursV2 s direction) maxNodes depth root := by
  intro hroot c _
  by_cases hlen : (order (neighboursV2 s direction) root depth).length ≤ c + 1
  · exact .inl hlen
  · right
    obtain ⟨x, hx⟩ : ∃ x, x ∈ (order (neighboursV2 s direction) root depth).drop (c + 1) := by
      apply List.exists_mem_of_ne_nil
      simp
      omega
    refine ⟨x, hx, ?_⟩
    obtain ⟨-, hdist⟩ := mem_rounds.1 (List.mem_of_mem_drop hx)
    cases hd : x.2 with
    | zero =>
      rw [hd] at hdist
      exact dist_zero.1 hdist ▸ hroot
    | succ d =>
      rw [hd] at hdist
      obtain ⟨u, -, hnext⟩ := hdist.1
      rcases next_v2.1 hnext with ⟨-, e, he, -, -, ht⟩ | ⟨-, e, he, -, -, hs⟩
      · exact (s.joined e he).2 x.1 ht
      · exact hs ▸ (s.joined e he).1

/-- **When a traversal is exact.** Where the lists mirror the edges the two
back-ends return the same nodes; and a traversal is exact, over either
back-end, if and only if its ids fit the cap or a node is cut off. -/
theorem traversal_exact_iff (parseUuid : Str → Option Nat) :
    (∀ (s : Snapshot) (direction : TraversalDirection) (depth root : Nat), Mirrored s parseUuid →
      (traverseOver s direction depth root (neighbours s direction parseUuid true) none).map (·.nodes) =
        (traverseOver s direction depth root (neighbours s direction parseUuid false) none).map (·.nodes)) ∧
    ∀ (s : Snapshot) (direction : TraversalDirection) (maxNodes : Option Nat) (depth root : Nat) (v2 : Bool),
      Traverses s direction (neighbours s direction parseUuid v2) maxNodes depth root ↔
        Counted s (neighbours s direction parseUuid v2) maxNodes depth root :=
  ⟨fun _ _ _ _ h => backends_agree h, fun _ _ _ _ _ _ => traverses_iff⟩

end

namespace Sample

def row (id : Nat) (callees : List Str) : NodeRow := ⟨id, [], .function, [], 0, 0, none, [], callees⟩

/-- A node that calls another and lists the id of one that is gone. -/
def dangling : Snapshot :=
  ⟨[row 1 ["2".toList, "3".toList], row 2 []], [], some 1, by decide, fun _ h => absurd h List.not_mem_nil⟩

def parse (s : Str) : Option Nat := if s = "2".toList then some 2 else if s = "3".toList then some 3 else none

end Sample

theorem dangling_id_truncates : ¬ ∀ (s : Snapshot) (direction : TraversalDirection) (maxNodes : Option Nat)
    (depth root : Nat), Traverses s direction (neighbours s direction Sample.parse (useV2 s)) maxNodes depth root := by
  intro h
  obtain ⟨r, hr, -, -, hcap⟩ := h Sample.dangling .callees (some 1) 1 1 (by decide)
  have hrun : traverseOver Sample.dangling .callees 1 1 (neighbours Sample.dangling .callees Sample.parse false) (some 1) =
      some ⟨traversalNode (Sample.row 1 []) 0, .callees, 1, [traversalNode (Sample.row 2 []) 1],
        [⟨1, 2, .calls, 1⟩], true⟩ := by decide
  change traverseOver Sample.dangling .callees 1 1 (neighbours Sample.dangling .callees Sample.parse false) (some 1) =
    some r at hr
  rw [hrun] at hr
  obtain rfl := Option.some.inj hr
  obtain ⟨x, hne, ⟨hx, -⟩, hmiss⟩ := (hcap 1 rfl).flagged.1 rfl
  have : x = 1 ∨ x = 2 := by simpa [Sample.dangling, Sample.row, eq_comm] using hx
  rcases this with rfl | rfl
  · exact hne rfl
  · exact hmiss (by decide)

end Cograph.Traversal
