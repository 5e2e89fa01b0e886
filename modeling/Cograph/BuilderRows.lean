import Cograph.Builder

/-!
# What persist_graph does to the rows

The node half of a call keeps, deletes and inserts rows; the edge half writes
parents, metadata and arrays only. The columns that neither half touches are
followed through the call by a projection of the row.
-/

namespace Cograph

/-! ## Well-formed graphs -/

/-- What the tables' keys promise: ids are unique and grow, qualified names are
unique, an edge starts at a row and ends at a row or nowhere. -/
structure Db.Ok (db : Db) : Prop where
  ids : (db.nodes.map (·.id)).Pairwise (· < ·)
  fresh : ∀ n ∈ db.nodes, n.id < db.nextId
  names : (db.nodes.map (·.qualifiedName)).Nodup
  sources : ∀ e ∈ db.edges, e.sourceNodeId ∈ db.nodes.map (·.id)
  targets : ∀ e ∈ db.edges, ∀ i, e.targetNodeId = some i → i ∈ db.nodes.map (·.id)

theorem Db.Ok.nodup {db : Db} (hok : db.Ok) : (db.nodes.map (·.id)).Nodup := hok.ids.imp fun hlt => Nat.ne_of_lt hlt

theorem Db.Ok.unique {db : Db} (hok : db.Ok) {n m : CodeNode} (hn : n ∈ db.nodes) (hm : m ∈ db.nodes)
    (h : n.id = m.id) : n = m :=
  List.inj_on_of_nodup_map hok.nodup hn hm h

theorem Db.Ok.uniqueName {db : Db} (hok : db.Ok) {n m : CodeNode} (hn : n ∈ db.nodes) (hm : m ∈ db.nodes)
    (h : n.qualifiedName = m.qualifiedName) : n = m :=
  List.inj_on_of_nodup_map hok.names hn hm h

/-! ## The nodes of a graph -/

/-- The duplicates of a name leave the last node, which takes on their
overloads. -/
theorem mem_deduped {g : ExtractedGraph} {x : ExtractedNode} (hx : x ∈ g.deduped) :
    ∃ y ∈ g.nodes, ∃ metadata, x = { y with metadata } := by
  simp only [ExtractedGraph.deduped, dedupeNodesByQualifiedName, List.mem_map] at hx
  obtain ⟨⟨q, y⟩, hy, rfl⟩ := hx
  have := Dict.mem_ofItems hy
  simp only [List.mem_map, Prod.mk.injEq] at this
  obtain ⟨z, hz, -, rfl⟩ := this
  exact ⟨z, hz, _, rfl⟩

theorem names_deduped (g : ExtractedGraph) : g.deduped.map (·.qualifiedName) =
    (Dict.ofItems (g.nodes.map fun x => (x.qualifiedName, x))).map (·.1) := by
  simp only [ExtractedGraph.deduped, dedupeNodesByQualifiedName, List.map_map]
  apply List.map_congr_left
  intro y hy
  have := Dict.mem_ofItems hy
  simp only [List.mem_map] at this
  obtain ⟨z, -, rfl⟩ := this
  rfl

/-! ## Projections -/

section
variable {β : Type} {π : CodeNode → β}

theorem map_ite {c : CodeNode → Prop} [DecidablePred c] {f : CodeNode → CodeNode} (hf : ∀ n, π (f n) = π n)
    (rows : List CodeNode) : (rows.map fun n => if c n then f n else n).map π = rows.map π := by
  rw [List.map_map]
  apply List.map_congr_left
  intro n _
  by_cases hc : c n <;> simp [hc, hf]

theorem setRow_map {f : CodeNode → CodeNode} (hf : ∀ n, π (f n) = π n) (i : Nat) (rows : List CodeNode) :
    (setRow i f rows).map π = rows.map π :=
  map_ite hf rows

theorem foldl_map {ι : Type} {step : List CodeNode → ι → List CodeNode}
    (hstep : ∀ rows x, (step rows x).map π = rows.map π) (xs : List ι) (rows : List CodeNode) :
    (xs.foldl step rows).map π = rows.map π := by
  induction xs generalizing rows with
  | nil => rfl
  | cons x xs ih => rw [List.foldl_cons, ih, hstep]

/-- A projection that sees neither the parent nor the metadata, the stamp
apart. -/
structure Blind (π : CodeNode → β) : Prop where
  parent : ∀ n p, π { n with parentId := p } = π n
  metadata : ∀ n m, m.extractorStamp = n.metadata.extractorStamp → π { n with metadata := m } = π n

theorem blind_id : Blind CodeNode.id := ⟨fun _ _ => rfl, fun _ _ _ => rfl⟩

theorem blind_name : Blind CodeNode.qualifiedName := ⟨fun _ _ => rfl, fun _ _ _ => rfl⟩

theorem setList_stamp (m : Metadata) (t : EdgeType) (targets : List String) :
    (m.setList t targets).extractorStamp = m.extractorStamp := by
  cases t <;> rfl

section
variable (hm : ∀ n m, m.extractorStamp = n.metadata.extractorStamp → π { n with metadata := m } = π n)
include hm

theorem setTargets_map (named : Dict.Items String Nat) (edges : List ExtractedEdge) (rows : List CodeNode)
    (t : EdgeType) : (setTargets named edges rows t).map π = rows.map π := by
  unfold setTargets
  apply foldl_map
  intro rows source
  dsimp only
  split
  · rfl
  · exact setRow_map (fun n => hm n _ (setList_stamp _ _ _)) _ rows

theorem refreshUnresolved_map (rows : List CodeNode) (view : Cache) (affected : List String)
    (edges after : List CodeEdge) : (refreshUnresolved rows view affected edges after).map π = rows.map π := by
  unfold refreshUnresolved
  exact map_ite (fun n => hm n _ (by rfl)) rows

theorem setUnresolved_map (named : Dict.Items String Nat) (new : List (ExtractedEdge × CodeEdge))
    (rows : List CodeNode) : (setUnresolved named new rows).map π = rows.map π := by
  unfold setUnresolved
  apply foldl_map
  intro rows source
  dsimp only
  split
  · rfl
  · exact setRow_map (fun n => hm n _ (by rfl)) _ rows

end

section
variable (hπ : Blind π)
include hπ

theorem setParent_map (named : Dict.Items String Nat) (rows : List CodeNode) (x : ExtractedNode) :
    (setParent named rows x).map π = rows.map π := by
  unfold setParent
  split
  · rfl
  · split
    · exact setRow_map (fun n => hπ.parent n none) _ rows
    · split
      · rfl
      · exact setRow_map (fun n => hπ.parent n _) _ rows

theorem refreshMethodParents_map (view : Cache) (scope : List Nat) (rows : List CodeNode) :
    (refreshMethodParents view scope rows).map π = rows.map π :=
  map_ite (fun n => hπ.parent n _) rows

theorem linkedRows_map (h : Host) (db : Db) (g : ExtractedGraph) (view : Cache) (rows : List CodeNode) :
    (linkedRows h db g view rows).map π = rows.map π := by
  simp only [linkedRows]
  rw [refreshMethodParents_map hπ, foldl_map (setTargets_map hπ.metadata _ _), foldl_map (setParent_map hπ _)]

theorem detach_map (doomed : List Nat) (rows : List CodeNode) :
    (detachSurvivingChildren doomed rows).map π = rows.map π := by
  unfold detachSurvivingChildren
  exact map_ite (fun n => hπ.parent n none) rows

end

end

/-! ## The node half -/

section
variable (h : Host)

def keptRows (db : Db) (g : ExtractedGraph) : List CodeNode := (matchNodes db g).kept.foldl (keepNode h) db.nodes

def insertedRows (db : Db) (g : ExtractedGraph) : List CodeNode :=
  (matchNodes db g).pending.zipIdx.map fun x => newNode h (db.nextId + x.2) x.1

end

variable {h : Host} {db mid : Db} {g : ExtractedGraph}

theorem flushUpdates_eq {done rows : List CodeNode} {todo : List (CodeNode × CodeNode)}
    (hf : flushUpdates done todo = some rows) : rows = done ++ todo.map (·.2) := by
  induction todo generalizing done with
  | nil =>
    rw [flushUpdates, Option.some.injEq] at hf
    simp [← hf]
  | cons t todo ih =>
    rw [flushUpdates] at hf
    split at hf
    · rw [ih hf]
      simp
    · cases hf

theorem flushUpdates_names {done rows : List CodeNode} {todo : List (CodeNode × CodeNode)}
    (hn : (done.map (·.qualifiedName) ++ todo.map (·.1.qualifiedName)).Nodup)
    (hf : flushUpdates done todo = some rows) : (rows.map (·.qualifiedName)).Nodup := by
  induction todo generalizing done with
  | nil =>
    rw [flushUpdates, Option.some.injEq] at hf
    simpa [← hf] using hn
  | cons t todo ih =>
    rw [flushUpdates] at hf
    split at hf
    · rename_i hfree
      apply ih _ hf
      rw [List.map_cons, List.nodup_middle, List.nodup_cons] at hn
      rw [List.map_append, List.append_assoc, List.map_cons, List.map_nil, List.singleton_append, List.nodup_middle,
        List.nodup_cons]
      refine ⟨?_, hn.2⟩
      rcases hfree with he | hfree
      · rw [he]; exact hn.1
      · exact hfree
    · cases hf

theorem keepNode_map {β : Type} (π : CodeNode → β) (hπ : ∀ n x, π (n.assign h x) = π n) (rows : List CodeNode)
    (k : ExtractedNode × Nat) : (keepNode h rows k).map π = rows.map π :=
  map_ite (fun n => hπ n k.1) rows

theorem keptRows_map {β : Type} (π : CodeNode → β) (hπ : ∀ n x, π (n.assign h x) = π n) (db : Db)
    (g : ExtractedGraph) : (keptRows h db g).map π = db.nodes.map π :=
  foldl_map (keepNode_map π hπ) _ _

theorem keptRows_length : (keptRows h db g).length = db.nodes.length := by
  have := congrArg List.length (keptRows_map (h := h) CodeNode.id (fun _ _ => rfl) db g)
  simpa using this

theorem insertNodes_eq {db db' : Db} {xs : List ExtractedNode} (hi : insertNodes h db xs = some db') :
    db' = { db with
      nodes := db.nodes ++ xs.zipIdx.map fun x => newNode h (db.nextId + x.2) x.1
      nextId := db.nextId + xs.length } := by
  induction xs generalizing db with
  | nil =>
    rw [insertNodes, Option.some.injEq] at hi
    simp [← hi]
  | cons x xs ih =>
    rw [insertNodes, insertNode] at hi
    split at hi
    · cases hi
    · rw [ih hi]
      simp only [List.append_assoc, List.zipIdx_cons, List.map_cons, List.singleton_append, List.length_cons,
        Nat.add_zero, Nat.zero_add, Db.mk.injEq, List.append_cancel_left_eq, List.cons.injEq, true_and]
      refine ⟨?_, by omega⟩
      rw [List.zipIdx_succ, List.map_map]
      apply List.map_congr_left
      intro y _
      simp [Nat.add_assoc, Nat.add_comm 1]

theorem insertNodes_names {db db' : Db} {xs : List ExtractedNode} (hn : (db.nodes.map (·.qualifiedName)).Nodup)
    (hi : insertNodes h db xs = some db') : (db'.nodes.map (·.qualifiedName)).Nodup := by
  induction xs generalizing db with
  | nil =>
    rw [insertNodes, Option.some.injEq] at hi
    rw [← hi]
    exact hn
  | cons x xs ih =>
    rw [insertNodes, insertNode] at hi
    split at hi
    · cases hi
    · rename_i hfree
      apply ih _ hi
      simp only [List.map_append, List.map_cons, List.map_nil]
      rw [List.nodup_append]
      refine ⟨hn, List.nodup_singleton _, ?_⟩
      intro a ha b hb
      rw [List.mem_singleton.mp hb]
      rintro rfl
      exact hfree ha

/-- **The node half.** What it leaves when the unique index lets it through. -/
theorem persistNodes_eq (hp : persistNodes h db g = some mid) : mid =
    { nodes := (detachSurvivingChildren (doomedIds db g) (keptRows h db g)).filter (·.id ∉ doomedIds db g) ++
        insertedRows h db g
      edges := (db.edges.filter (·.sourceNodeId ∉ doomedIds db g)).map (CodeEdge.nulled (doomedIds db g))
      nextId := db.nextId + (matchNodes db g).pending.length } := by
  simp only [persistNodes, Option.bind_eq_some_iff] at hp
  obtain ⟨rows, hf, hi⟩ := hp
  have hrows : rows = keptRows h db g := by
    rw [flushUpdates_eq hf, List.nil_append, List.map_snd_zip]
    · rfl
    · exact Nat.le_of_eq keptRows_length
  subst hrows
  exact insertNodes_eq hi

theorem flushed_rows {rows : List CodeNode} (hf : flushUpdates [] (db.nodes.zip (keptRows h db g)) = some rows) :
    rows = keptRows h db g := by
  rw [flushUpdates_eq hf, List.nil_append, List.map_snd_zip (Nat.le_of_eq keptRows_length)]

theorem keptRows_names (hok : db.Ok) (hp : persistNodes h db g = some mid) :
    ((keptRows h db g).map (·.qualifiedName)).Nodup := by
  simp only [persistNodes, Option.bind_eq_some_iff] at hp
  obtain ⟨rows, hf, -⟩ := hp
  have hrows : rows = keptRows h db g := flushed_rows hf
  rw [← hrows]
  apply flushUpdates_names _ hf
  rw [List.map_nil, List.nil_append]
  have hold : (db.nodes.zip (keptRows h db g)).map (·.1.qualifiedName) = db.nodes.map (·.qualifiedName) :=
    calc (db.nodes.zip (keptRows h db g)).map (·.1.qualifiedName)
        = ((db.nodes.zip (keptRows h db g)).map (·.1)).map (·.qualifiedName) := by rw [List.map_map]; rfl
      _ = db.nodes.map (·.qualifiedName) := by rw [List.map_fst_zip (Nat.le_of_eq keptRows_length.symm)]
  exact hold ▸ hok.names

theorem persistNodes_names (hok : db.Ok) (hp : persistNodes h db g = some mid) :
    (mid.nodes.map (·.qualifiedName)).Nodup := by
  have hkept := keptRows_names hok hp
  simp only [persistNodes, Option.bind_eq_some_iff] at hp
  obtain ⟨rows, hf, hi⟩ := hp
  have hrows : rows = keptRows h db g := flushed_rows hf
  apply insertNodes_names _ hi
  simp only [deleteNodes]
  apply List.Nodup.sublist (List.filter_sublist.map _)
  rw [show (detachSurvivingChildren _ rows).map (·.qualifiedName) = rows.map (·.qualifiedName) from
    detach_map blind_name _ rows, hrows]
  exact hkept

/-! ## Which rows a call keeps -/

theorem mem_existing {n : CodeNode} : n ∈ existingNodes db g ↔ n ∈ db.nodes ∧ n.filePath ∈ g.changedFilePaths := by
  simp [existingNodes]

theorem mem_paths {p : Path} : p ∈ g.changedFilePaths ↔ ∃ x ∈ g.deduped, x.filePath = p := by
  simp [ExtractedGraph.changedFilePaths]

/-- A row named by the dictionaries of the matching loop is a row of the file. -/
def Own (db : Db) (g : ExtractedGraph) (p : Path) (i : Nat) : Prop :=
  ∃ n ∈ existingNodes db g, n.id = i ∧ n.filePath = p

theorem existingByKey_own {p : Path} {k : String} {i : Nat} (hi : ((p, k), i) ∈ existingByKey db g) : Own db g p i := by
  have hmem := Dict.mem_ofItems hi
  simp only [List.mem_filterMap, Option.map_eq_some_iff] at hmem
  obtain ⟨n, hn, k', -, he⟩ := hmem
  cases he
  exact ⟨n, hn, rfl, rfl⟩

theorem orphan_own {p : Path} {i : Nat} (hi : (p, i) ∈ orphanModuleByFile db g) : Own db g p i := by
  have hmem := Dict.mem_ofItems hi
  simp only [List.mem_map, List.mem_filter] at hmem
  obtain ⟨n, hn, he⟩ := hmem
  cases he
  exact ⟨n, hn.1, rfl, rfl⟩

/-- What holds of the matching loop after any number of nodes. -/
structure Matched.Ok (db : Db) (g : ExtractedGraph) (seen : List ExtractedNode) (m : Matched) : Prop where
  orphans : ∀ x ∈ m.orphans, Own db g x.1 x.2
  kept : ∀ k ∈ m.kept, k.1 ∈ seen ∧ Own db g k.1.filePath k.2
  all : ∀ x, x ∈ seen ↔ x ∈ m.kept.map (·.1) ∨ x ∈ m.pending

theorem matchNode_ok {seen : List ExtractedNode} {m : Matched} (hm : m.Ok db g seen) (x : ExtractedNode) :
    (matchNode (existingByKey db g) m x).Ok db g (seen ++ [x]) := by
  have keep : ∀ i orphans, (∀ y ∈ orphans, Own db g y.1 y.2) → Own db g x.filePath i →
      Matched.Ok db g (seen ++ [x]) { m with orphans := orphans, kept := m.kept ++ [(x, i)] } := by
    intro i orphans horphans hown
    refine ⟨horphans, ?_, ?_⟩
    · intro k hk
      rcases List.mem_append.mp hk with hk | hk
      · exact ⟨List.mem_append_left _ (hm.kept k hk).1, (hm.kept k hk).2⟩
      · rw [List.mem_singleton.mp hk]
        exact ⟨by simp, hown⟩
    · intro y
      have := hm.all y
      simp only [List.mem_append, List.mem_singleton, List.map_append, List.map_cons, List.map_nil, this]
      tauto
  unfold matchNode
  split
  · rename_i i hi
    exact keep i m.orphans hm.orphans (existingByKey_own (Dict.mem_of_get hi))
  · split
    · rename_i i hi
      have hget : Dict.get m.orphans x.filePath = some i := by
        by_cases ht : x.nodeType = .module
        · simpa [ht] using hi
        · simp [ht] at hi
      exact keep i _ (fun y hy => hm.orphans y (Dict.mem_drop.mp hy).1) (hm.orphans _ (Dict.mem_of_get hget))
    · refine ⟨hm.orphans, fun k hk => ⟨List.mem_append_left _ (hm.kept k hk).1, (hm.kept k hk).2⟩, ?_⟩
      intro y
      have := hm.all y
      simp only [List.mem_append, List.mem_singleton, this]
      tauto

theorem matchNodes_ok : (matchNodes db g).Ok db g g.deduped := by
  have hfold : ∀ (xs seen : List ExtractedNode) (m : Matched), m.Ok db g seen →
      (xs.foldl (matchNode (existingByKey db g)) m).Ok db g (seen ++ xs) := by
    intro xs
    induction xs with
    | nil => intro seen m hm; simpa using hm
    | cons x xs ih =>
      intro seen m hm
      have := ih _ _ (matchNode_ok hm x)
      simpa [List.append_assoc] using this
  have := hfold g.deduped [] ⟨orphanModuleByFile db g, [], []⟩ ⟨fun x hx => orphan_own hx, by simp, by simp⟩
  simpa [matchNodes] using this

theorem preserved_own {i : Nat} (hi : i ∈ preservedIds db g) : ∃ n ∈ existingNodes db g, n.id = i := by
  obtain ⟨k, hk, rfl⟩ := List.mem_map.mp hi
  obtain ⟨n, hn, hid, -⟩ := (matchNodes_ok.kept k hk).2
  exact ⟨n, hn, hid⟩

theorem mem_doomedIds {i : Nat} : i ∈ doomedIds db g ↔ (∃ n ∈ existingNodes db g, n.id = i) ∧ i ∉ preservedIds db g := by
  simp only [doomedIds, doomedNodes, List.mem_map, List.mem_filter, decide_eq_true_eq]
  constructor
  · rintro ⟨n, ⟨hn, hi⟩, rfl⟩
    exact ⟨⟨n, hn, rfl⟩, hi⟩
  · rintro ⟨⟨n, hn, rfl⟩, hi⟩
    exact ⟨n, ⟨hn, hi⟩, rfl⟩

theorem mem_numbered {α : Type} {xs : List α} {first i : Nat} :
    i ∈ xs.zipIdx.map (fun x => first + x.2) ↔ first ≤ i ∧ i < first + xs.length := by
  simp only [List.mem_map, List.mem_zipIdx_iff_getElem?]
  constructor
  · rintro ⟨⟨x, j⟩, hj, rfl⟩
    have := (List.getElem?_eq_some_iff.mp hj).1
    dsimp only
    omega
  · rintro ⟨hle, hlt⟩
    obtain ⟨j, rfl⟩ := Nat.exists_eq_add_of_le hle
    have hj : j < xs.length := by omega
    exact ⟨(xs[j], j), List.getElem?_eq_getElem hj, rfl⟩

theorem mem_namedIds {i : Nat} : i ∈ (namedIds db g).map (·.2) ↔
    i ∈ preservedIds db g ∨ db.nextId ≤ i ∧ i < db.nextId + (matchNodes db g).pending.length := by
  simp only [namedIds, preservedIds, List.map_append, List.map_map, List.mem_append]
  exact or_congr Iff.rfl mem_numbered

/-- The ids the node half leaves: the old ones without the doomed, and the new
ones. -/
theorem persistNodes_ids (hp : persistNodes h db g = some mid) {i : Nat} : i ∈ mid.nodes.map (·.id) ↔
    i ∈ db.nodes.map (·.id) ∧ i ∉ doomedIds db g ∨
      db.nextId ≤ i ∧ i < db.nextId + (matchNodes db g).pending.length := by
  rw [persistNodes_eq hp]
  have hkept : (detachSurvivingChildren (doomedIds db g) (keptRows h db g)).map (·.id) = db.nodes.map (·.id) := by
    rw [detach_map blind_id, keptRows_map CodeNode.id fun _ _ => rfl]
  simp only [List.map_append, List.mem_append]
  apply or_congr
  · rw [← hkept]
    simp only [List.mem_map, List.mem_filter, decide_eq_true_eq]
    constructor
    · rintro ⟨n, ⟨hn, hd⟩, rfl⟩
      exact ⟨⟨n, hn, rfl⟩, hd⟩
    · rintro ⟨⟨n, hn, rfl⟩, hd⟩
      exact ⟨n, ⟨hn, hd⟩, rfl⟩
  · rw [insertedRows, List.map_map]
    exact mem_numbered

theorem mem_midEdges (hp : persistNodes h db g = some mid) {e : CodeEdge} : e ∈ mid.edges ↔
    ∃ e₀ ∈ db.edges, e₀.sourceNodeId ∉ doomedIds db g ∧ e₀.nulled (doomedIds db g) = e := by
  rw [persistNodes_eq hp]
  simp [and_assoc]

theorem nulled_target {doomed : List Nat} {e : CodeEdge} {i : Nat} :
    (e.nulled doomed).targetNodeId = some i ↔ e.targetNodeId = some i ∧ i ∉ doomed := by
  cases hd : e.targetNodeId with
  | none => simp [CodeEdge.nulled, hd]
  | some t =>
    simp only [CodeEdge.nulled, hd, Option.filter_eq_some_iff, Option.some.injEq, decide_eq_true_eq]

theorem nulled_none {doomed : List Nat} {e : CodeEdge} :
    (e.nulled doomed).targetNodeId = none ↔ ∀ i, e.targetNodeId = some i → i ∈ doomed := by
  cases hd : e.targetNodeId with
  | none => simp [CodeEdge.nulled, hd]
  | some t => simp [CodeEdge.nulled, hd, Option.filter_eq_none_iff]

theorem persistNodes_sorted (hok : db.Ok) (hp : persistNodes h db g = some mid) :
    (mid.nodes.map (·.id)).Pairwise (· < ·) := by
  have hids : mid.nodes.map (·.id) = (db.nodes.map (·.id)).filter (· ∉ doomedIds db g) ++
      (List.range' 0 (matchNodes db g).pending.length).map (db.nextId + ·) := by
    rw [persistNodes_eq hp, List.map_append]
    congr 1
    · rw [← keptRows_map (h := h) CodeNode.id (fun _ _ => rfl) db g,
        ← detach_map blind_id (doomedIds db g) (keptRows h db g),
        List.filter_map]
      rfl
    · rw [insertedRows, List.map_map, ← List.zipIdx_map_snd, List.map_map]
      rfl
  rw [hids, List.pairwise_append]
  refine ⟨hok.ids.filter _, ?_, ?_⟩
  · rw [List.pairwise_map]
    exact (List.pairwise_lt_range' ..).imp fun hlt => by omega
  · intro a ha b hb
    obtain ⟨n, hn, rfl⟩ := List.mem_map.mp (List.mem_of_mem_filter ha)
    obtain ⟨j, -, rfl⟩ := List.mem_map.mp hb
    have := hok.fresh n hn
    omega

theorem persistNodes_ok (hok : db.Ok) (hp : persistNodes h db g = some mid) : mid.Ok where
  ids := persistNodes_sorted hok hp
  names := persistNodes_names hok hp
  fresh n hn := by
    have hnext : mid.nextId = db.nextId + (matchNodes db g).pending.length := by rw [persistNodes_eq hp]
    rcases (persistNodes_ids hp).mp (List.mem_map_of_mem hn) with ⟨hold, -⟩ | ⟨-, hlt⟩
    · obtain ⟨m, hm, he⟩ := List.mem_map.mp hold
      have := hok.fresh m hm
      omega
    · omega
  sources e he := by
    obtain ⟨e₀, he₀, hd, rfl⟩ := (mem_midEdges hp).mp he
    exact (persistNodes_ids hp).mpr (Or.inl ⟨hok.sources e₀ he₀, hd⟩)
  targets e he i hi := by
    obtain ⟨e₀, he₀, -, rfl⟩ := (mem_midEdges hp).mp he
    obtain ⟨ht, hd⟩ := nulled_target.mp hi
    exact (persistNodes_ids hp).mpr (Or.inl ⟨hok.targets e₀ he₀ i ht, hd⟩)

end Cograph
