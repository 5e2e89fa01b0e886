import Cograph.Ingest
import Cograph.IngestRows
import Cograph.ParentsSound

/-!
# The lists of unresolved calls

`unresolved_calls` in the metadata of a row is written with the extracted names
when the row's file is persisted, and again with the names of the edges when a
second try binds one of them. The runs here are those of an ingest: deletions of
files, the load of the cache, and calls of `persist_graph`, each in a savepoint.
Beside the tables a run keeps, for each row, what the edges call the entries of
its list.
-/

namespace Cograph.CallLists

/-- The targets of a row's CALLS edges to no row. -/
def openCalls (edges : List CodeEdge) (i : Nat) : List String :=
  (edges.filter fun e => e.sourceNodeId = i ∧ e.edgeType = .calls ∧ e.targetNodeId = none).map (·.targetQualifiedName)

/-- The key is there exactly when a call is open, and lists the open calls. -/
structure Lists (edges : List CodeEdge) (naming : Nat → String → String) (n : CodeNode) : Prop where
  present : n.metadata.unresolvedCalls ≠ [] ↔ openCalls edges n.id ≠ []
  targets : ∀ q, q ∈ n.metadata.unresolvedCalls.map (naming n.id) ↔ q ∈ openCalls edges n.id

/-! ## What a call writes -/

section
variable (h : Host) (db : Db) (g : ExtractedGraph) (view : Cache) (mid : Db)

/-- A second try binds a CALLS edge of the row. -/
def Bound (i : Nat) : Prop :=
  ∃ e ∈ writtenEdges h db g view mid, e.sourceNodeId = i ∧ isCandidate view (affectedQualifiedNames db g) e ∧
    e.edgeType = .calls ∧ (resolveEdgeTarget (linkedRows h db g view mid.nodes) view .calls e.targetQualifiedName).isSome

instance (i : Nat) : Decidable (Bound h db g view mid i) :=
  inferInstanceAs (Decidable (∃ e ∈ writtenEdges h db g view mid, e.sourceNodeId = i ∧
    isCandidate view (affectedQualifiedNames db g) e ∧ e.edgeType = .calls ∧
      (resolveEdgeTarget (linkedRows h db g view mid.nodes) view .calls e.targetQualifiedName).isSome))

/-- A list that the edges refresh has their names, that of a row of the call the
names the call makes canonical. -/
def namesWritten (naming : Nat → String → String) (i : Nat) (raw : String) : String :=
  if Bound h db g view mid i then raw
  else if i ∈ (namedIds db g).map (·.2) then
    let rows := linkedRows h db g view mid.nodes
    ((findNode rows i).map (canonicalTargetName h rows view .calls raw)).getD raw
  else naming i raw

end

/-! ## Runs -/

structure History where
  db : Db
  cache : Option Cache
  naming : Nat → String → String

def History.Listed (s : History) : Prop := ∀ n ∈ s.db.nodes, Lists s.db.edges s.naming n

/-- A run deletes the rows of files, loads the cache and persists graphs. A
deletion stands before the load, or in a run that has no cache. -/
inductive Act where
  | delete (doomed : Path → Bool)
  | load
  | persist (g : ExtractedGraph)

def History.view (h : Host) (s : History) (g : ExtractedGraph) (mid : Db) : Cache :=
  viewOf (s.cache.map (updateCache h s.db g)) mid

def namingAfter (h : Host) (s : History) (g : ExtractedGraph) : Nat → String → String :=
  match if g.nodes = [] then none else persistNodes h s.db g with
  | none => s.naming
  | some mid => namesWritten h s.db g (s.view h g mid) mid s.naming

def step (h : Host) (s : History) : Act → History
  | .delete doomed => { s with db := deleteFiles doomed s.db, cache := none }
  | .load => { s with cache := some (Cache.fromNodes s.db.nodes) }
  | .persist g =>
    match persistGraph h s.db s.cache g with
    | some (db, cache) => ⟨db, cache, namingAfter h s g⟩
    | none => { s with cache := s.cache.map fun _ => Cache.fromNodes s.db.nodes }

def start : History := ⟨⟨[], [], 0⟩, none, fun _ raw => raw⟩

/-! ## Which steps open no call unseen -/

/-- A CALLS edge that ends nowhere, or at a row about to go. -/
def isOpened (doomed : List Nat) (e : CodeEdge) : Bool :=
  e.edgeType = .calls ∧ e.targetNodeId.all (· ∈ doomed)

def fileIds (doomed : Path → Bool) (db : Db) : List Nat := (db.nodes.filter (doomed ·.filePath)).map (·.id)

/-- A row of another file that calls a row the call deletes has an open call of
a name the call defines. -/
def Reaches (db : Db) (g : ExtractedGraph) : Prop :=
  ∀ e ∈ db.edges, e.edgeType = .calls → e.targetNodeId.any (· ∈ doomedIds db g) →
    e.sourceNodeId ∉ (existingNodes db g).map (·.id) →
      ∃ e' ∈ db.edges, e'.sourceNodeId = e.sourceNodeId ∧ isOpened (doomedIds db g) e' ∧
        e'.targetQualifiedName ∈ g.nodes.map (·.qualifiedName)

/-- What the extractors hand over: nodes with keys of their own, and no lists of
unresolved calls. -/
structure Extracted (g : ExtractedGraph) : Prop where
  keys : g.keys.Nodup
  lists : ∀ x ∈ g.nodes, x.metadata.unresolvedCalls = []

/-- No row that stays calls a row of a deleted file, and a call that the unique
index lets through reaches the callers of the rows it deletes. -/
def Closes (h : Host) (s : History) : Act → Prop
  | .delete doomed => ∀ e ∈ s.db.edges, e.edgeType = .calls → e.targetNodeId.any (· ∈ fileIds doomed s.db) →
      e.sourceNodeId ∈ fileIds doomed s.db
  | .load => True
  | .persist g => Extracted g ∧ ((persistNodes h s.db g).isSome → Reaches s.db g)

def Along (h : Host) : History → List Act → Prop
  | _, [] => True
  | s, a :: as => Closes h s a ∧ Along h (step h s a) as

end Cograph.CallLists

/-!
## What the lists of unresolved calls hold

A row of the call has the list its own new edges leave, a row that a second try
reaches has the names of its open edges, and any other row keeps its list. That
is right unless a deletion opened an edge of such a row.
-/

namespace Cograph.CallLists

/-! ## Rows and their lists -/

/-- A row with its list. -/
def entry (n : CodeNode) : Nat × List String := (n.id, n.metadata.unresolvedCalls)

theorem setList_unresolved (m : Metadata) (t : EdgeType) (targets : List String) :
    (m.setList t targets).unresolvedCalls = m.unresolvedCalls := by
  cases t <;> rfl

section
variable {h : Host} {db mid : Db} {g : ExtractedGraph} {view : Cache} {naming : Nat → String → String}

theorem setParent_entry (named : Dict.Items String Nat) (rows : List CodeNode) (x : ExtractedNode) :
    (setParent named rows x).map entry = rows.map entry := by
  unfold setParent
  split
  · rfl
  · split
    · exact setRow_map (fun n => by rfl) _ rows
    · split
      · rfl
      · exact setRow_map (fun n => by rfl) _ rows

theorem setTargets_entry (named : Dict.Items String Nat) (edges : List ExtractedEdge) (rows : List CodeNode)
    (t : EdgeType) : (setTargets named edges rows t).map entry = rows.map entry := by
  unfold setTargets
  apply foldl_map
  intro rows source
  dsimp only
  split
  · rfl
  · exact setRow_map (fun n => by simp [entry, setList_unresolved]) _ rows

theorem linkedRows_entry : (linkedRows h db g view mid.nodes).map entry = mid.nodes.map entry := by
  simp only [linkedRows]
  have hparents : ∀ scope rows, (refreshMethodParents view scope rows).map entry = rows.map entry :=
    fun scope rows => map_ite (fun n => by rfl) rows
  rw [hparents, foldl_map (setTargets_entry _ _), foldl_map (setParent_entry _)]

theorem entry_of_map {rows rows' : List CodeNode} (hsame : rows.map entry = rows'.map entry) {n : CodeNode}
    (hn : n ∈ rows) : ∃ m ∈ rows', m.id = n.id ∧ m.metadata.unresolvedCalls = n.metadata.unresolvedCalls := by
  obtain ⟨m, hm, he⟩ := List.mem_map.1 (hsame ▸ List.mem_map_of_mem hn)
  exact ⟨m, hm, congrArg Prod.fst he, congrArg Prod.snd he⟩

theorem openCalls_iff {edges : List CodeEdge} {i : Nat} {q : String} : q ∈ openCalls edges i ↔
    ∃ e ∈ edges, e.sourceNodeId = i ∧ e.edgeType = .calls ∧ e.targetNodeId = none ∧ e.targetQualifiedName = q := by
  simp [openCalls, and_assoc]

/-- The key follows from what it lists. -/
theorem lists_of_targets {edges : List CodeEdge} {n : CodeNode}
    (ht : ∀ q, q ∈ n.metadata.unresolvedCalls.map (naming n.id) ↔ q ∈ openCalls edges n.id) :
    Lists edges naming n := by
  refine ⟨?_, ht⟩
  apply not_congr
  rw [List.eq_nil_iff_forall_not_mem, List.eq_nil_iff_forall_not_mem]
  constructor
  · intro hnone q hq
    obtain ⟨raw, hraw, -⟩ := List.mem_map.1 ((ht q).2 hq)
    exact hnone raw hraw
  · intro hnone raw hraw
    exact hnone _ ((ht _).1 (List.mem_map_of_mem hraw))

/-! ## The two writers -/

/-- The row of a source gets its new list. -/
def setLists (named : Dict.Items String Nat) (lists : String → List String) (rows : List CodeNode) (source : String) :
    List CodeNode :=
  match Dict.get named source with
  | none => rows
  | some i => setRow i (fun n => { n with metadata := { n.metadata with unresolvedCalls := lists source } }) rows

/-- The rows of a set of sources get new lists, each its own. -/
theorem mem_setLists {named : Dict.Items String Nat} {lists : String → List String} {n : CodeNode}
    (sources : List String) {rows : List CodeNode} (hn : n ∈ sources.foldl (setLists named lists) rows) :
    ∃ m ∈ rows, m.id = n.id ∧
      ((∃ s ∈ sources, Dict.get named s = some n.id ∧ n.metadata.unresolvedCalls = lists s) ∨
        (∀ s ∈ sources, Dict.get named s ≠ some n.id) ∧
          n.metadata.unresolvedCalls = m.metadata.unresolvedCalls) := by
  induction sources using List.reverseRecOn generalizing n with
  | nil => exact ⟨n, hn, rfl, .inr ⟨by simp, rfl⟩⟩
  | append_singleton sources s ih =>
    rw [List.foldl_append, List.foldl_cons, List.foldl_nil, setLists] at hn
    -- a row that the last source leaves alone is as the others have left it
    have hkeep : ∀ {x : CodeNode}, x ∈ sources.foldl (setLists named lists) rows → Dict.get named s ≠ some x.id →
        ∃ m ∈ rows, m.id = x.id ∧
          ((∃ s' ∈ sources ++ [s], Dict.get named s' = some x.id ∧ x.metadata.unresolvedCalls = lists s') ∨
            (∀ s' ∈ sources ++ [s], Dict.get named s' ≠ some x.id) ∧
              x.metadata.unresolvedCalls = m.metadata.unresolvedCalls) := by
      intro x hx hne
      obtain ⟨m, hm, hid, hor⟩ := ih hx
      refine ⟨m, hm, hid, hor.imp ?_ ?_⟩
      · intro hs
        obtain ⟨s', hs', hrest⟩ := hs
        exact ⟨s', List.mem_append_left _ hs', hrest⟩
      · intro hother
        rw [List.forall_mem_append, List.forall_mem_singleton]
        exact ⟨⟨hother.1, hne⟩, hother.2⟩
    cases hget : Dict.get named s with
    | none =>
      rw [hget] at hn
      exact hkeep hn (by simp [hget])
    | some i =>
      rw [hget] at hn
      obtain ⟨n₁, hn₁, rfl⟩ := List.mem_map.1 hn
      by_cases hi : n₁.id = i
      · rw [if_pos hi]
        obtain ⟨m, hm, hid, -⟩ := ih hn₁
        exact ⟨m, hm, hid, .inl ⟨s, by simp, hi ▸ hget, rfl⟩⟩
      · rw [if_neg hi]
        exact hkeep hn₁ (by rw [hget]; exact fun he => hi (Option.some.inj he).symm)

/-- The extracted names of the calls from `s` that the call leaves open. -/
def rawCalls (new : List (ExtractedEdge × CodeEdge)) (s : String) : List String :=
  ((((new.filter fun x => x.1.edgeType = .calls ∧ x.2.targetNodeId = none).map (·.1)).filter
    (·.source = s)).map (·.target)).eraseDups

theorem mem_rawCalls {new : List (ExtractedEdge × CodeEdge)} {s raw : String} : raw ∈ rawCalls new s ↔
    ∃ y ∈ new, y.1.edgeType = .calls ∧ y.2.targetNodeId = none ∧ y.1.source = s ∧ y.1.target = raw := by
  simp only [rawCalls, List.mem_eraseDups, List.mem_map, List.mem_filter, decide_eq_true_eq]
  constructor
  · rintro ⟨x, ⟨⟨y, ⟨hy, ht, hnone⟩, rfl⟩, rfl⟩, rfl⟩
    exact ⟨y, hy, ht, hnone, rfl, rfl⟩
  · rintro ⟨y, hy, ht, hnone, rfl, rfl⟩
    exact ⟨y.1, ⟨⟨y, ⟨hy, ht, hnone⟩, rfl⟩, rfl⟩, rfl⟩

/-- A row after the call: with the list of its own new edges, with the names of
its open edges, or with the list it had after the node half. -/
theorem mem_final {n : CodeNode} (hn : n ∈ (persistEdges h db g view mid).nodes) : ∃ m ∈ mid.nodes, m.id = n.id ∧
    ((∃ s, Dict.get (namedIds db g) s = some n.id ∧
        n.metadata.unresolvedCalls = rawCalls (callEdges h db g view mid) s) ∨
      (∀ s, Dict.get (namedIds db g) s = some n.id → ∀ raw, raw ∉ rawCalls (callEdges h db g view mid) s) ∧
        n.metadata.unresolvedCalls =
          if Bound h db g view mid n.id then (openCalls (finalEdges h db g view mid) n.id).eraseDups
          else m.metadata.unresolvedCalls) := by
  have hsource : ∀ s, s ∈ ((((callEdges h db g view mid).filter fun x =>
      x.1.edgeType = .calls ∧ x.2.targetNodeId = none).map (·.1)).map (·.source)).eraseDups ↔
        ∃ raw, raw ∈ rawCalls (callEdges h db g view mid) s := by
    intro s
    simp only [mem_rawCalls, List.mem_eraseDups, List.mem_map, List.mem_filter, decide_eq_true_eq]
    constructor
    · rintro ⟨x, ⟨y, ⟨hy, ht, hnone⟩, rfl⟩, rfl⟩
      exact ⟨_, y, hy, ht, hnone, rfl, rfl⟩
    · rintro ⟨_, y, hy, ht, hnone, rfl, rfl⟩
      exact ⟨y.1, ⟨y, ⟨hy, ht, hnone⟩, rfl⟩, rfl⟩
  obtain ⟨n₁, hn₁, hid₁, hor⟩ := @mem_setLists _ (rawCalls (callEdges h db g view mid)) _ _ _ hn
  obtain ⟨n₂, hn₂, hid₂, hlist₂⟩ := entry_of_map (rebuild_map (fun _ _ _ => rfl) _ _ _ _ _ _) hn₁
  obtain ⟨l, hl, rfl⟩ := List.mem_map.1 hn₂
  obtain ⟨m, hm, hid, hlist⟩ := entry_of_map linkedRows_entry hl
  have hbound : l.id ∈ ((writtenEdges h db g view mid).filter fun e =>
      isCandidate view (affectedQualifiedNames db g) e ∧ e.edgeType = .calls ∧
        (resolveEdgeTarget (linkedRows h db g view mid.nodes) view .calls e.targetQualifiedName).isSome).map
          (·.sourceNodeId) ↔ Bound h db g view mid l.id := by
    simp only [Bound, List.mem_map, List.mem_filter, decide_eq_true_eq]
    constructor
    · rintro ⟨e, ⟨he, hrest⟩, hs⟩
      exact ⟨e, he, hs, hrest⟩
    · rintro ⟨e, he, hs, hrest⟩
      exact ⟨e, ⟨he, hrest⟩, hs⟩
  have hlid : l.id = n.id := by
    rw [← hid₁, ← hid₂]
    split <;> rfl
  refine ⟨m, hm, hid.trans hlid, hor.imp ?_ ?_⟩
  · rintro ⟨s, -, hget, hlists⟩
    exact ⟨s, hget, hlists⟩
  · rintro ⟨hnone, hkeep⟩
    refine ⟨fun s hget raw hraw => hnone s ((hsource s).2 ⟨raw, hraw⟩) hget, ?_⟩
    · rw [hkeep, ← hlist₂, hlist, ← hlid]
      by_cases hb : Bound h db g view mid l.id
      · rw [if_pos hb, if_pos (hbound.2 hb)]
        rfl
      · rw [if_neg hb, if_neg fun hin => hb (hbound.1 hin)]

/-! ## The rows of the call -/

theorem deduped_lists (hx : Extracted g) {x : ExtractedNode} (hmem : x ∈ g.deduped) :
    x.metadata.unresolvedCalls = [] := by
  simp only [ExtractedGraph.deduped, dedupeNodesByQualifiedName, List.mem_map] at hmem
  obtain ⟨⟨q, y⟩, hy, rfl⟩ := hmem
  obtain ⟨z, hz, he⟩ := List.mem_map.1 (Dict.mem_ofItems hy)
  obtain rfl := (Prod.mk.inj he).2
  exact hx.lists z hz

theorem deduped_name {q : String} (hq : q ∈ g.nodes.map (·.qualifiedName)) : ∃ x ∈ g.deduped, x.qualifiedName = q := by
  have hmem : q ∈ g.deduped.map (·.qualifiedName) := by
    rw [names_deduped, Dict.mem_keys_ofItems, List.map_map]
    exact hq
  exact List.mem_map.1 hmem

theorem namedIds_keys (hok : db.Ok) (hkeys : g.keys.Nodup) : ((namedIds db g).map (·.1)).Nodup := by
  have hnames : (namedIds db g).map (·.1) =
      ((matchNodes db g).kept.map (·.1) ++ (matchNodes db g).pending).map (·.qualifiedName) := by
    simp only [namedIds, List.map_append, List.map_map]
    congr 1
    calc (matchNodes db g).pending.zipIdx.map ((·.1) ∘ fun x => (x.1.qualifiedName, db.nextId + x.2))
        = ((matchNodes db g).pending.zipIdx.map (·.1)).map (·.qualifiedName) := by rw [List.map_map]; rfl
      _ = (matchNodes db g).pending.map (·.qualifiedName) := by rw [List.zipIdx_map_fst]
  rw [hnames]
  exact kept_names hok hkeys

theorem namedIds_ids (hok : db.Ok) (hkeys : g.keys.Nodup) : ((namedIds db g).map (·.2)).Nodup := by
  have hids : (namedIds db g).map (·.2) = (matchNodes db g).kept.map (·.2) ++
      (List.range' 0 (matchNodes db g).pending.length).map (db.nextId + ·) := by
    simp only [namedIds, List.map_append, List.map_map]
    congr 1
    rw [← List.zipIdx_map_snd, List.map_map]
    rfl
  rw [hids, List.nodup_append]
  refine ⟨(matchNodes_once hok hkeys).ids, ?_, ?_⟩
  · exact List.Nodup.map (fun a b hab => Nat.add_left_cancel hab) List.nodup_range'
  · intro a ha b hb
    have hkept : a ∈ preservedIds db g := ha
    obtain ⟨n, hn, rfl⟩ := preserved_own hkept
    obtain ⟨j, -, rfl⟩ := List.mem_map.1 hb
    have := hok.fresh n (mem_existing.1 hn).1
    omega

theorem named_inj (hok : db.Ok) (hkeys : g.keys.Nodup) {s s' : String} {i : Nat}
    (hs : Dict.get (namedIds db g) s = some i) (hs' : Dict.get (namedIds db g) s' = some i) : s = s' :=
  congrArg Prod.fst (List.inj_on_of_nodup_map (namedIds_ids hok hkeys) (Dict.mem_of_get hs) (Dict.mem_of_get hs') rfl)

/-- Every node of the call has its row. -/
theorem mid_named (hok : db.Ok) (hkeys : g.keys.Nodup) (hp : persistNodes h db g = some mid) {q : String}
    (hq : q ∈ g.nodes.map (·.qualifiedName)) : ∃ n ∈ mid.nodes, n.qualifiedName = q := by
  obtain ⟨x, hx, rfl⟩ := deduped_name hq
  obtain ⟨n, hn, -, hfact⟩ := (persistNodes_has hok hkeys hp).2 (.inl ⟨x, hx, rfl, rfl⟩)
  exact ⟨n, hn, congrArg Prod.fst hfact⟩

/-- A row of the call has no list before the edges are written. -/
theorem mid_own (hok : db.Ok) (hx : Extracted g) (hp : persistNodes h db g = some mid) {n : CodeNode}
    (hn : n ∈ mid.nodes) (hid : Named db g n.id) : n.metadata.unresolvedCalls = [] := by
  rw [persistNodes_eq hp] at hn
  rcases List.mem_append.1 hn with hn | hn
  · obtain ⟨m', hm', rfl⟩ := List.mem_map.1 (List.mem_of_mem_filter hn)
    have hsame : entry (if m'.parentId.any (· ∈ doomedIds db g) then { m' with parentId := none } else m') = entry m' := by
      split <;> rfl
    have hrow := congrArg Prod.fst hsame
    have hlist := congrArg Prod.snd hsame
    simp only [entry] at hrow hlist
    rw [hrow] at hid
    rw [hlist]
    rw [keptRows, keepAll_eq _ _ (matchNodes_once hok hx.keys).ids] at hm'
    obtain ⟨m, hm, rfl⟩ := List.mem_map.1 hm'
    rw [takenOver_id] at hid
    cases hfind : (matchNodes db g).kept.find? (·.2 = m.id) with
    | some k =>
      simp only [takenOver, hfind, CodeNode.assign]
      exact deduped_lists hx (matchNodes_ok.kept k (List.mem_of_find?_eq_some hfind)).1
    | none =>
      rcases mem_namedIds.1 hid with hkept | hnew
      · obtain ⟨k, hk, hki⟩ := List.mem_map.1 hkept
        exact absurd (by simpa using hki) (List.find?_eq_none.1 hfind k hk)
      · have := hok.fresh m hm
        omega
  · obtain ⟨x, hmem, rfl⟩ := List.mem_map.1 hn
    have hpending : x.1 ∈ (matchNodes db g).pending := List.fst_mem_of_mem_zipIdx hmem
    exact deduped_lists hx ((matchNodes_ok.all x.1).2 (.inr hpending))

/-! ## The open calls a call leaves -/

/-- A new edge has the row of its source and the name canonical there. -/
theorem callEdges_named {y : ExtractedEdge × CodeEdge} (hy : y ∈ callEdges h db g view mid) :
    Dict.get (namedIds db g) y.1.source = some y.2.sourceNodeId ∧ y.2.edgeType = y.1.edgeType ∧
      (findNode (linkedRows h db g view mid.nodes) y.2.sourceNodeId).map
        (canonicalTargetName h (linkedRows h db g view mid.nodes) view y.1.edgeType y.1.target) =
          some y.2.targetQualifiedName := by
  have hrow := (callEdges_row hy).2
  simp only [edgeRow, Option.map_eq_some_iff, Option.bind_eq_some_iff] at hrow
  obtain ⟨source, ⟨i, hi, hf⟩, he⟩ := hrow
  obtain ⟨-, hid⟩ := findNode_some hf
  rw [← he, hid]
  refine ⟨hi, rfl, ?_⟩
  rw [hf]
  rfl

/-- The edges of a row of the call are new ones. -/
theorem written_named (hok : db.Ok) (hp : persistNodes h db g = some mid) {e : CodeEdge}
    (he : e ∈ writtenEdges h db g view mid) (hn : Named db g e.sourceNodeId) :
    ∃ y ∈ callEdges h db g view mid, y.2 = e := by
  rcases mem_written.1 he with hold | hnew
  · obtain ⟨hmid, hkept⟩ := hold
    obtain ⟨e₀, he₀, -, rfl⟩ := (mem_midEdges hp).1 hmid
    obtain ⟨n, hrow, hid⟩ := List.mem_map.1 (hok.sources e₀ he₀)
    have hid : n.id = (e₀.nulled (doomedIds db g)).sourceNodeId := hid
    have := hok.fresh n hrow
    rcases mem_namedIds.1 hn with hin | hfresh
    · exact absurd hin hkept
    · omega
  · exact hnew

theorem open_final {i : Nat} {q : String} : q ∈ openCalls (finalEdges h db g view mid) i ↔
    ∃ e ∈ writtenEdges h db g view mid, e.sourceNodeId = i ∧ e.edgeType = .calls ∧ e.targetNodeId = none ∧
      e.targetQualifiedName = q ∧ ¬(isCandidate view (affectedQualifiedNames db g) e ∧
        (resolveEdgeTarget (linkedRows h db g view mid.nodes) view .calls e.targetQualifiedName).isSome) := by
  rw [openCalls_iff]
  simp only [finalEdges, List.mem_map]
  constructor
  · rintro ⟨_, ⟨e, he, rfl⟩, hs, ht, hnone, hq⟩
    rw [(reresolve_fields _ _ e).1] at hs
    rw [(reresolve_fields _ _ e).2] at ht
    by_cases hc : isCandidate view (affectedQualifiedNames db g) e
    · simp only [reresolve, hc, if_true, ht] at hnone hq
      exact ⟨e, he, hs, ht, by simp [isCandidate] at hc; exact hc.1, hq, by simp [hnone]⟩
    · simp only [reresolve, hc, if_false, Bool.false_eq_true] at hnone hq
      exact ⟨e, he, hs, ht, hnone, hq, fun hb => hc hb.1⟩
  · rintro ⟨e, he, hs, ht, hnone, hq, hopen⟩
    refine ⟨_, ⟨e, he, rfl⟩, ?_, ?_, ?_, ?_⟩
    · rw [(reresolve_fields _ _ e).1, hs]
    · rw [(reresolve_fields _ _ e).2, ht]
    · unfold reresolve
      split
      · rename_i hc
        rw [ht]
        simpa using fun hb => hopen ⟨hc, hb⟩
      · exact hnone
    · unfold reresolve
      split <;> exact hq

/-- What a new edge does not find the second try does not find either. -/
theorem new_open {y : ExtractedEdge × CodeEdge} (hy : y ∈ callEdges h db g view mid) (ht : y.2.edgeType = .calls)
    (hnone : y.2.targetNodeId = none) :
    resolveEdgeTarget (linkedRows h db g view mid.nodes) view .calls y.2.targetQualifiedName = none := by
  have hsame := (edgeRow_some (callEdges_row hy).2).2.2
  rw [← hnone, hsame, ht]

theorem not_bound_named (hok : db.Ok) (hp : persistNodes h db g = some mid) {i : Nat} (hn : Named db g i) :
    ¬Bound h db g view mid i := by
  rintro ⟨e, he, rfl, hc, ht, hsome⟩
  obtain ⟨y, hy, rfl⟩ := written_named hok hp he hn
  have hnone : y.2.targetNodeId = none := by
    simp only [isCandidate, decide_eq_true_eq] at hc
    exact hc.1
  rw [new_open hy ht hnone] at hsome
  cases hsome

theorem open_named (hok : db.Ok) (hp : persistNodes h db g = some mid) {i : Nat} {q : String} (hn : Named db g i) :
    q ∈ openCalls (finalEdges h db g view mid) i ↔ ∃ y ∈ callEdges h db g view mid,
      y.2.sourceNodeId = i ∧ y.2.edgeType = .calls ∧ y.2.targetNodeId = none ∧ y.2.targetQualifiedName = q := by
  rw [open_final]
  constructor
  · rintro ⟨e, he, rfl, ht, hnone, hq, -⟩
    obtain ⟨y, hy, rfl⟩ := written_named hok hp he hn
    exact ⟨y, hy, rfl, ht, hnone, hq⟩
  · rintro ⟨y, hy, hs, ht, hnone, hq⟩
    refine ⟨y.2, mem_written.2 (.inr ⟨y, hy, rfl⟩), hs, ht, hnone, hq, fun hb => ?_⟩
    have := hb.2
    rw [new_open hy ht hnone] at this
    cases this

/-- **The rows of the call** have exactly their open calls, under the names the
call makes canonical. -/
theorem named_lists (hok : db.Ok) (hx : Extracted g) (hp : persistNodes h db g = some mid) {n : CodeNode}
    (hn : n ∈ (persistEdges h db g view mid).nodes) (hid : Named db g n.id) :
    Lists (finalEdges h db g view mid) (namesWritten h db g view mid naming) n := by
  refine lists_of_targets fun q => ?_
  have hname : ∀ raw, namesWritten h db g view mid naming n.id raw =
      ((findNode (linkedRows h db g view mid.nodes) n.id).map
        (canonicalTargetName h (linkedRows h db g view mid.nodes) view .calls raw)).getD raw := by
    intro raw
    rw [namesWritten, if_neg (not_bound_named hok hp hid), if_pos hid]
  have hcanonical : ∀ y ∈ callEdges h db g view mid, y.2.sourceNodeId = n.id → y.1.edgeType = .calls →
      namesWritten h db g view mid naming n.id y.1.target = y.2.targetQualifiedName := by
    intro y hy hs ht
    obtain ⟨-, -, hc⟩ := callEdges_named hy
    rw [ht, hs] at hc
    rw [hname, hc]
    rfl
  rw [open_named hok hp hid, List.mem_map]
  obtain ⟨m, hm, hmid, hor⟩ := mem_final hn
  rcases hor with hown | hrest
  · obtain ⟨s, hget, hlist⟩ := hown
    rw [hlist]
    constructor
    · rintro ⟨raw, hraw, rfl⟩
      obtain ⟨y, hy, ht, hnone, rfl, rfl⟩ := mem_rawCalls.1 hraw
      obtain ⟨hsource, htype, -⟩ := callEdges_named hy
      have hs : y.2.sourceNodeId = n.id := Option.some.inj (hsource.symm.trans hget)
      exact ⟨y, hy, hs, htype.trans ht, hnone, (hcanonical y hy hs ht).symm⟩
    · rintro ⟨y, hy, hs, ht, hnone, rfl⟩
      obtain ⟨hsource, htype, -⟩ := callEdges_named hy
      rw [hs] at hsource
      have ht : y.1.edgeType = .calls := htype.symm.trans ht
      exact ⟨y.1.target, mem_rawCalls.2 ⟨y, hy, ht, hnone, named_inj hok hx.keys hsource hget, rfl⟩, hcanonical y hy hs ht⟩
  · obtain ⟨hnone, hlist⟩ := hrest
    rw [if_neg (not_bound_named hok hp hid), mid_own hok hx hp hm (hmid ▸ hid)] at hlist
    rw [hlist]
    constructor
    · rintro ⟨raw, hraw, -⟩
      cases hraw
    · rintro ⟨y, hy, hs, ht, hopen, -⟩
      obtain ⟨hsource, htype, -⟩ := callEdges_named hy
      rw [hs] at hsource
      exact absurd (mem_rawCalls.2 ⟨y, hy, htype.symm.trans ht, hopen, rfl, rfl⟩) (hnone _ hsource _)

/-! ## The rows of other files -/

theorem isOpened_iff {doomed : List Nat} {e : CodeEdge} :
    isOpened doomed e ↔ e.edgeType = .calls ∧ (e.nulled doomed).targetNodeId = none := by
  rw [nulled_none]
  simp [isOpened, Option.all_eq_true]

/-- A call that defines the name of an open call binds it. -/
theorem bound_of_defined (hok : db.Ok) (hx : Extracted g) (hp : persistNodes h db g = some mid)
    (hview : view.Mirrors mid.nodes) {e : CodeEdge} (he : e ∈ db.edges) (hopened : isOpened (doomedIds db g) e)
    (hother : e.sourceNodeId ∉ (existingNodes db g).map (·.id))
    (hname : e.targetQualifiedName ∈ g.nodes.map (·.qualifiedName)) : Bound h db g view mid e.sourceNodeId := by
  obtain ⟨ht, hnone⟩ := isOpened_iff.1 hopened
  have hexisting : ¬∃ n ∈ existingNodes db g, n.id = e.sourceNodeId := fun hrow => hother (List.mem_map.2 hrow)
  have hdoomed : e.sourceNodeId ∉ doomedIds db g := fun hd => hexisting (mem_doomedIds.1 hd).1
  have hkept : e.sourceNodeId ∉ preservedIds db g := fun hk => hexisting (preserved_own hk)
  have hmid : e.nulled (doomedIds db g) ∈ mid.edges := (mem_midEdges hp).2 ⟨e, he, hdoomed, rfl⟩
  obtain ⟨n, hn, hq⟩ := mid_named hok hx.keys hp hname
  have hview_ok := (Cache.mirrors_iff.1 hview).1
  refine ⟨e.nulled (doomedIds db g), mem_written.2 (.inl ⟨hmid, hkept⟩), rfl, ?_, ht, ?_⟩
  · rw [candidate_unresolved hview_ok (persistNodes_ok hok hp) hmid]
    refine ⟨hnone, List.mem_append_left _ ?_⟩
    obtain ⟨x, hdeduped, hxq⟩ := deduped_name hname
    show e.targetQualifiedName ∈ (namedIds db g).map (·.1)
    rw [← hxq, namedIds, List.map_append, List.map_map, List.mem_append]
    rcases (matchNodes_ok.all x).1 hdeduped with hk | hpending
    · obtain ⟨k, hk, rfl⟩ := List.mem_map.1 hk
      exact .inl (List.mem_map_of_mem (f := fun k : ExtractedNode × Nat => k.1.qualifiedName) hk)
    · obtain ⟨j, hj, rfl⟩ := List.getElem_of_mem hpending
      refine .inr (List.mem_map.2 ⟨_, List.mem_map_of_mem ((List.mem_zipIdx_iff_getElem? (x := (_, j))).2
        (List.getElem?_eq_getElem hj)), rfl⟩)
  · have hget := (Cache.mirrors_iff.1 hview).2 n hn
    have hq' : n.qualifiedName = (e.nulled (doomedIds db g)).targetQualifiedName := hq
    rw [resolve_calls, ← hq', hget]
    rfl

/-- **The rows of other files** keep exact lists where a row that loses a call
has another one bound. -/
theorem other_lists (hok : db.Ok) (hx : Extracted g) (hp : persistNodes h db g = some mid)
    (hview : view.Mirrors mid.nodes) (hreach : Reaches db g) (hlists : ∀ n ∈ db.nodes, Lists db.edges naming n)
    {n : CodeNode} (hn : n ∈ (persistEdges h db g view mid).nodes) (hid : ¬Named db g n.id) :
    Lists (finalEdges h db g view mid) (namesWritten h db g view mid naming) n := by
  refine lists_of_targets fun q => ?_
  obtain ⟨m, hm, hmid, hor⟩ := mem_final hn
  have hrest := hor.resolve_left fun hown => by
    obtain ⟨s, hget, -⟩ := hown
    exact hid (List.mem_map_of_mem (f := Prod.snd) (Dict.mem_of_get hget))
  obtain ⟨-, hlist⟩ := hrest
  by_cases hbound : Bound h db g view mid n.id
  · -- the list is that of the edges, under their names
    rw [if_pos hbound] at hlist
    rw [hlist, List.mem_map]
    have hname : ∀ raw, namesWritten h db g view mid naming n.id raw = raw := fun raw => if_pos hbound
    constructor
    · rintro ⟨raw, hraw, rfl⟩
      rw [hname]
      exact List.mem_eraseDups.1 hraw
    · intro hq
      exact ⟨q, List.mem_eraseDups.2 hq, hname q⟩
  · rw [if_neg hbound] at hlist
    have hname : namesWritten h db g view mid naming n.id = naming n.id := by
      funext raw
      rw [namesWritten, if_neg hbound, if_neg hid]
    obtain ⟨m₀, hm₀, hfile, hsame⟩ := mid_other hok hx.keys hp hm (hmid ▸ hid)
    have hentry : entry m = entry m₀ := by
      rw [hsame]
      split <;> rfl
    have hid₀ : m₀.id = n.id := (congrArg Prod.fst hentry).symm.trans hmid
    have hlist₀ : m₀.metadata.unresolvedCalls = n.metadata.unresolvedCalls :=
      (congrArg Prod.snd hentry).symm.trans hlist.symm
    have hother : n.id ∉ (existingNodes db g).map (·.id) := by
      intro hmem
      obtain ⟨r, hr, hrid⟩ := List.mem_map.1 hmem
      obtain ⟨hrow, hrf⟩ := mem_existing.1 hr
      exact hfile (hok.unique hrow hm₀ (hrid.trans hid₀.symm) ▸ hrf)
    have hexisting : ¬∃ r ∈ existingNodes db g, r.id = n.id := fun hrow => hother (List.mem_map.2 hrow)
    -- no edge of the row lost its target
    have hstays : ∀ e ∈ db.edges, e.sourceNodeId = n.id → e.edgeType = .calls →
        (e.nulled (doomedIds db g)).targetNodeId = none → e.targetNodeId = none := by
      intro e he hs ht hnulled
      by_contra hne
      obtain ⟨i, hi⟩ := Option.ne_none_iff_exists'.1 hne
      have hgone : e.targetNodeId.any (· ∈ doomedIds db g) := by
        rw [hi]
        exact decide_eq_true (nulled_none.1 hnulled i hi)
      obtain ⟨e', he', hs', hopened, hdefined⟩ := hreach e he ht hgone (hs ▸ hother)
      have hb := bound_of_defined hok hx hp hview he' hopened (hs'.trans hs ▸ hother) hdefined
      exact hbound (hs'.trans hs ▸ hb)
    have htargets := (hlists m₀ hm₀).targets q
    rw [hid₀, hlist₀, openCalls_iff] at htargets
    rw [hname, htargets, open_final]
    constructor
    · rintro ⟨e, he, hs, ht, hnone, rfl⟩
      have hsame : e.nulled (doomedIds db g) = e := by
        obtain ⟨source, target, name, type⟩ := e
        obtain rfl : target = none := hnone
        rfl
      have hd : e.sourceNodeId ∉ doomedIds db g := hs ▸ fun hd => hexisting (mem_doomedIds.1 hd).1
      have hk : e.sourceNodeId ∉ preservedIds db g := hs ▸ fun hk => hexisting (preserved_own hk)
      have hw : e ∈ writtenEdges h db g view mid := mem_written.2 (.inl ⟨(mem_midEdges hp).2 ⟨e, he, hd, hsame⟩, hk⟩)
      exact ⟨e, hw, hs, ht, hnone, rfl, fun hb => hbound ⟨e, hw, hs, hb.1, ht, hb.2⟩⟩
    · rintro ⟨e, he, hs, ht, hnone, rfl, -⟩
      rcases mem_written.1 he with hold | hnew
      · obtain ⟨e₀, he₀, -, rfl⟩ := (mem_midEdges hp).1 hold.1
        exact ⟨e₀, he₀, hs, ht, hstays e₀ he₀ hs ht hnone, rfl⟩
      · obtain ⟨y, hy, rfl⟩ := hnew
        exact absurd (hs ▸ callEdges_source hy) hid

/-! ## Deletions -/

theorem mem_deleted {doomed : Path → Bool} {e : CodeEdge} : e ∈ (deleteFiles doomed db).edges ↔
    ∃ e₀ ∈ db.edges, e₀.sourceNodeId ∉ fileIds doomed db ∧ e₀.nulled (fileIds doomed db) = e := by
  show e ∈ (db.edges.filter (·.sourceNodeId ∉ fileIds doomed db)).map (CodeEdge.nulled (fileIds doomed db)) ↔ _
  simp only [List.mem_map, List.mem_filter, decide_eq_true_eq, and_assoc]

/-- A deletion that takes no row's callee leaves every list exact. -/
theorem delete_lists {doomed : Path → Bool} (hlists : ∀ n ∈ db.nodes, Lists db.edges naming n)
    (hclosed : ∀ e ∈ db.edges, e.edgeType = .calls → e.targetNodeId.any (· ∈ fileIds doomed db) →
      e.sourceNodeId ∈ fileIds doomed db) {n : CodeNode} (hn : n ∈ (deleteFiles doomed db).nodes) :
    Lists (deleteFiles doomed db).edges naming n := by
  refine lists_of_targets fun q => ?_
  obtain ⟨hrow, hstays⟩ := List.mem_filter.1 hn
  obtain ⟨m, hm, hmn⟩ := List.mem_map.1 hrow
  have hentry : entry m = entry n := by
    rw [← hmn]
    split <;> rfl
  have hid : m.id = n.id := congrArg Prod.fst hentry
  have hlist : m.metadata.unresolvedCalls = n.metadata.unresolvedCalls := congrArg Prod.snd hentry
  have hstays : n.id ∉ fileIds doomed db := of_decide_eq_true hstays
  rw [← hlist, ← hid, (hlists m hm).targets, openCalls_iff, openCalls_iff]
  constructor
  · rintro ⟨e, he, hs, ht, hnone, rfl⟩
    have hsource : e.sourceNodeId ∉ fileIds doomed db := by
      rw [hs, hid]
      exact hstays
    have hopen : (e.nulled (fileIds doomed db)).targetNodeId = none := by
      rw [nulled_none, hnone]
      exact nofun
    exact ⟨_, mem_deleted.2 ⟨e, he, hsource, rfl⟩, hs, ht, hopen, rfl⟩
  · rintro ⟨_, hmem, hs, ht, hnone, rfl⟩
    obtain ⟨e, he, hsource, rfl⟩ := mem_deleted.1 hmem
    refine ⟨e, he, hs, ht, ?_, rfl⟩
    cases htarget : e.targetNodeId with
    | none => rfl
    | some i =>
      have hi : i ∈ fileIds doomed db := nulled_none.1 hnone i htarget
      exact absurd (hclosed e he ht (by rw [htarget]; exact decide_eq_true hi)) hsource

end

/-! ## Runs -/

/-- The tables keep their keys, the cache has the ids and names of the rows, and
every list is exact. -/
structure Exact (s : History) : Prop where
  ok : s.db.Ok
  cache : ∀ c, s.cache = some c → c.Mirrors s.db.nodes
  lists : s.Listed

section
variable {h : Host} {s : History} {g : ExtractedGraph} {mid : Db}

theorem view_mirrors (hs : Exact s) (hkeys : g.keys.Nodup) (hp : persistNodes h s.db g = some mid) :
    (s.view h g mid).Mirrors mid.nodes := by
  unfold History.view viewOf
  cases hcache : s.cache with
  | none => exact Cache.fromNodes_mirrors (persistNodes_names hs.ok hp)
  | some c =>
    obtain ⟨hc, hfull⟩ := Cache.mirrors_iff.1 (hs.cache c hcache)
    exact Cache.mirrors_iff.2 ⟨updateCache_ok hs.ok hc hp, updateCache_full hs.ok hkeys hfull hp⟩

theorem persist_exact (hs : Exact s) (hx : Extracted g) (hreach : (persistNodes h s.db g).isSome → Reaches s.db g) :
    Exact (step h s (.persist g)) := by
  by_cases hnil : g.nodes = []
  · have hstep : step h s (.persist g) = s := by simp [step, persistGraph, namingAfter, hnil]
    rw [hstep]
    exact hs
  cases hp : persistNodes h s.db g with
  | none =>
    -- the savepoint takes everything back
    have hstep : step h s (.persist g) = { s with cache := s.cache.map fun _ => Cache.fromNodes s.db.nodes } := by
      simp [step, persistGraph, hnil, hp]
    rw [hstep]
    refine ⟨hs.ok, fun c hc => ?_, hs.lists⟩
    obtain ⟨-, -, rfl⟩ := Option.map_eq_some_iff.1 hc
    exact Cache.fromNodes_mirrors hs.ok.names
  | some mid =>
    have hstep : step h s (.persist g) = ⟨persistEdges h s.db g (s.view h g mid) mid, s.cache.map (updateCache h s.db g),
        namesWritten h s.db g (s.view h g mid) mid s.naming⟩ := by
      simp [step, persistGraph, namingAfter, hnil, hp, History.view]
    have hview := view_mirrors hs hx.keys hp
    have hnames := @persistEdges_map h s.db mid g (s.view h g mid) _ (fun n => (n.id, n.qualifiedName))
      ⟨fun _ _ => rfl, fun _ _ _ => rfl⟩ fun _ _ _ => rfl
    rw [hstep]
    refine ⟨persistEdges_ok hs.ok hp (Cache.mirrors_iff.1 hview).1, fun c hc => ?_, fun n hn => ?_⟩
    · obtain ⟨c₀, hc₀, rfl⟩ := Option.map_eq_some_iff.1 hc
      have hkept : (updateCache h s.db g c₀).Mirrors mid.nodes := by
        have := hview
        rw [History.view, hc₀] at this
        exact this
      obtain ⟨hok, hfull⟩ := Cache.mirrors_iff.1 hkept
      exact Cache.mirrors_iff.2 ⟨hok.congr hnames, hfull.congr hnames⟩
    · by_cases hid : Named s.db g n.id
      · exact named_lists hs.ok hx hp hn hid
      · exact other_lists hs.ok hx hp hview (hreach (by rw [hp]; rfl)) hs.lists hn hid

theorem step_exact {a : Act} (hs : Exact s) (hclosed : Closes h s a) : Exact (step h s a) := by
  cases a with
  | delete doomed =>
    exact ⟨deleteNodes_ok hs.ok _, nofun, fun n hn => delete_lists hs.lists hclosed hn⟩
  | load =>
    refine ⟨hs.ok, fun c hc => ?_, hs.lists⟩
    obtain rfl := Option.some.inj hc
    exact Cache.fromNodes_mirrors hs.ok.names
  | persist g => exact persist_exact hs hclosed.1 hclosed.2

theorem run_exact {as : List Act} (hs : Exact s) (hrun : Along h s as) : Exact (as.foldl (step h) s) := by
  induction as generalizing s with
  | nil => exact hs
  | cons a as ih => exact ih (step_exact hs hrun.1) hrun.2

theorem along_before {before after : List Act} (hrun : Along h s (before ++ after)) : Along h s before := by
  induction before generalizing s with
  | nil => trivial
  | cons a before ih => exact ⟨hrun.1, ih hrun.2⟩

end

theorem start_exact : Exact start := ⟨emptyDb_ok, nofun, fun _ hn => absurd hn List.not_mem_nil⟩

/-- **The lists of unresolved calls** are exact in every state of a run whose
deletions take no callee of a row that stays, and whose calls bind another call
of each row of another file that loses one. -/
theorem lists_match_open_calls {h : Host} {as : List Act} (hrun : Along h start as) :
    ∀ before, before <+: as → (before.foldl (step h) start).Listed := by
  intro before hbefore
  obtain ⟨after, rfl⟩ := hbefore
  exact (run_exact start_exact (along_before hrun)).lists

/-- The callers' file before the callee's, then the callers' file again without
one of them, then its deletion. -/
def callersFirst : List Act :=
  [.persist callerFile, .load, .persist calleeFile, .persist oneFunction, .delete fun p => p = ⟨[], "a.py"⟩]

theorem lists_match_callersFirst : (callersFirst.foldl (step plainHost) start).Listed := by
  have hcallers : Extracted callerFile := ⟨by decide, by decide⟩
  have hcallee : Extracted calleeFile := ⟨by decide, by decide⟩
  have hone : Extracted oneFunction := ⟨by decide, by decide⟩
  have hrun : Along plainHost start callersFirst := by
    refine ⟨⟨hcallers, fun _ => ?_⟩, trivial, ⟨hcallee, fun _ => ?_⟩, ⟨hone, fun _ => ?_⟩, ?_, trivial⟩
    · unfold Reaches
      decide
    · unfold Reaches
      decide
    · unfold Reaches
      decide
    · unfold Closes
      decide
  exact lists_match_open_calls hrun callersFirst (List.prefix_refl _)

/-- With the callee's file deleted, two open calls stand in no list. -/
theorem deleted_callee_unlisted : ¬∀ as : List Act, (∀ g, .persist g ∈ as → Extracted g) →
    (as.foldl (step plainHost) start).Listed := by
  intro hall
  have hrow := hall [.persist calleeFile, .persist callerFile, .delete fun p => p = ⟨[], "b.py"⟩] fun g hg => by
    simp only [List.mem_cons, Act.persist.injEq, reduceCtorEq, List.not_mem_nil, or_false] at hg
    rcases hg with rfl | rfl
    · exact ⟨by decide, by decide⟩
    · exact ⟨by decide, by decide⟩
  have hpresent := fun n hn => (hrow n hn).present
  revert hpresent
  decide

end Cograph.CallLists
