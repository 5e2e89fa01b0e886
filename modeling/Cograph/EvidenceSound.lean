import Cograph.ByKey
import Cograph.Evidence
import Cograph.Machine
import Cograph.TraversalSound

/-!
# The names the evidence verifies

The records of a page's ledger are those of code nodes, and a node that a tool
looked up is in it under its qualified name. What a result shows of a node's
neighbours, or suggests in place of a name that no node has, is another matter.
-/

namespace Cograph.AgentTools

open Traversal (TraversalDirection TraversalNode TraversalEdge TraversalResponse mem_related visited_nodup)
open Wiki (EvidenceRecord Ledger)

/-! ## The ledger -/

theorem record_ids (l : Ledger) (e : EvidenceRecord) (i : Str) :
    i ∈ (l.record e).records.map (·.recordId) ↔ i ∈ l.records.map (·.recordId) ∨ i = e.recordId := by
  unfold Ledger.record
  split
  · rename_i h
    constructor
    · exact .inl
    · intro hi
      rcases hi with hi | rfl
      · exact hi
      · exact h
  · simp

theorem recordAll_ids (es : List EvidenceRecord) : ∀ (l : Ledger) (i : Str),
    i ∈ (l.recordAll es).records.map (·.recordId) ↔ i ∈ l.records.map (·.recordId) ∨ i ∈ es.map (·.recordId) := by
  induction es with
  | nil => simp [Ledger.recordAll]
  | cons e es ih =>
    intro l i
    change i ∈ ((l.record e).recordAll es).records.map (·.recordId) ↔ _
    rw [ih, record_ids, List.map_cons, List.mem_cons, or_assoc]

/-- A ledger of code nodes, each record under the id of its name. -/
def Nodes (l : Ledger) : Prop :=
  ∀ r ∈ l.records, ∃ qn, qn ≠ [] ∧ r = nodeRecord qn r.filePath

theorem Nodes.record {l : Ledger} (h : Nodes l) {qn : Str} (hqn : qn ≠ []) (filePath : Option Str) :
    Nodes (l.record (nodeRecord qn filePath)) := by
  unfold Ledger.record
  split
  · exact h
  · intro r hr
    rcases List.mem_append.1 hr with hr | hr
    · exact h r hr
    · obtain rfl := List.mem_singleton.1 hr
      exact ⟨qn, hqn, rfl⟩

theorem optStr_iff {v : Str} {q : Str} : optStr (some v) = some q ↔ q = Str.strip v ∧ q ≠ [] := by
  simp only [optStr, Option.map_some, Option.filter_eq_some_iff, Option.some.injEq, decide_eq_true_eq]
  exact and_congr_left fun _ => eq_comm

theorem mem_records {items : List Entry} {r : EvidenceRecord} (h : r ∈ recordsFromCandidateList items) :
    ∃ qn filePath, qn ≠ [] ∧ r = nodeRecord qn filePath := by
  obtain ⟨item, -, hr⟩ := List.mem_filterMap.1 h
  obtain ⟨qn, hqn, rfl⟩ := Option.map_eq_some_iff.1 hr
  exact ⟨qn, _, (optStr_iff.1 hqn).2, rfl⟩

theorem Nodes.recordAll {es : List EvidenceRecord}
    (hes : ∀ r ∈ es, ∃ qn filePath, qn ≠ [] ∧ r = nodeRecord qn filePath) :
    ∀ {l : Ledger}, Nodes l → Nodes (l.recordAll es) := by
  induction es with
  | nil => exact fun h => h
  | cons e es ih =>
    intro l h
    obtain ⟨qn, filePath, hqn, rfl⟩ := hes e (by simp)
    exact ih (fun r hr => hes r (List.mem_cons_of_mem _ hr)) (h.record hqn filePath)

theorem nodeRecordId_inj {q q' : Str} : nodeRecordId q = nodeRecordId q' ↔ q = q' := by
  simp [nodeRecordId]

theorem mem_verified {l : Ledger} (h : Nodes l) (q : Str) :
    q ∈ l.verifiedNodeQns ↔ nodeRecordId q ∈ l.records.map (·.recordId) := by
  simp only [Ledger.verifiedNodeQns, Ledger.texts, List.mem_filterMap, List.mem_map]
  constructor
  · intro hmem
    obtain ⟨r, hr, hq⟩ := hmem
    obtain ⟨qn, hqn, he⟩ := h r hr
    rw [he] at hq
    refine ⟨r, hr, ?_⟩
    rw [he]
    have hqq : qn = q := by simpa [nodeRecord, hqn] using And.left (by simpa [nodeRecord] using hq)
    rw [hqq]
    rfl
  · intro hmem
    obtain ⟨r, hr, hq⟩ := hmem
    obtain ⟨qn, hqn, he⟩ := h r hr
    rw [he] at hq
    have hqq : qn = q := nodeRecordId_inj.1 hq
    refine ⟨r, hr, ?_⟩
    rw [he, hqq]
    simp [nodeRecord, ← hqq, hqn]

theorem verified_recordAll {l : Ledger} (h : Nodes l) (items : List Entry) (q : Str) :
    q ∈ (l.recordAll (recordsFromCandidateList items)).verifiedNodeQns ↔
      q ∈ l.verifiedNodeQns ∨ q ≠ [] ∧ ∃ item ∈ items, q = Str.strip item.qualifiedName := by
  rw [mem_verified (h.recordAll fun _ => mem_records), recordAll_ids, mem_verified h]
  refine or_congr_right ?_
  simp only [recordsFromCandidateList, List.mem_map, List.mem_filterMap, Option.map_eq_some_iff]
  constructor
  · intro hmem
    obtain ⟨r, ⟨item, hitem, qn, hqn, hr⟩, hid⟩ := hmem
    obtain ⟨hq, hne⟩ := optStr_iff.1 hqn
    rw [← hr] at hid
    obtain rfl := nodeRecordId_inj.1 hid
    exact ⟨hne, item, hitem, hq⟩
  · intro hmem
    obtain ⟨hne, item, hitem, hq⟩ := hmem
    exact ⟨_, ⟨item, hitem, q, optStr_iff.2 ⟨hq, hne⟩, rfl⟩, rfl⟩

/-! ## What a result shows -/

section
variable {g : Repo} {parseUuid : Str → Option Nat}

/-- An entry made of a node of the repository, under its qualified name unless
it is a neighbour. -/
def Rendered (g : Repo) (e : Entry) : Prop :=
  ∃ row ∈ g.rows, row.id = e.id ∧ (e.showing ≠ .neighbour → e.qualifiedName = row.qualifiedName)

theorem find_some {qn : Str} {row : CodeRow} (h : g.find qn = some row) : row ∈ g.rows ∧ row.qualifiedName = qn :=
  ByKey.find_mem h

theorem rendered_row {row : CodeRow} (h : row ∈ g.rows) : Rendered g (nodeToDict row) := ⟨row, h, rfl, fun _ => rfl⟩

theorem rendered_candidate (showing : Showing) (hit : { row : CodeRow // row ∈ g.rows }) :
    Rendered g (candidate showing hit) := ⟨hit.1, hit.2, rfl, fun _ => rfl⟩

theorem rendered_confirmed {qn : Str} {row : CodeRow} (h : g.find qn = some row) : Rendered g (confirmed qn row) := by
  obtain ⟨hrow, hqn⟩ := find_some h
  exact ⟨row, hrow, rfl, fun _ => hqn.symm⟩

theorem rendered_neighbour {direction : TraversalDirection} {depth root : Nat}
    {response : TraversalResponse}
    (h : Traversal.traverse g.snapshot direction depth root parseUuid none = some response) {tn : TraversalNode}
    (htn : tn ∈ response.nodes) : Rendered g (traversalNodeDict tn) := by
  unfold Traversal.traverse Traversal.traverseOver at h
  split at h
  · cases h
  · obtain rfl := Option.some.inj h
    obtain ⟨row, hrow, -, d, -, rfl⟩ := (mem_related (visited_nodup _ _ _ _)).1 htn
    obtain ⟨r, hr, rfl⟩ := List.mem_map.1 hrow
    exact ⟨r, hr, rfl, fun hne => absurd rfl hne⟩

/-- The other side of an edge, a callee or a caller, is a node of the response. -/
theorem side_some {p : Prop} [Decidable p] {nodes : List TraversalNode} {far : TraversalNode → Bool} {x : Entry}
    (h : (if p then (nodes.find? far).map traversalNodeDict else none) = some x) :
    ∃ tn ∈ nodes, x = traversalNodeDict tn := by
  obtain ⟨-, h⟩ := Option.ite_none_right_eq_some.1 h
  obtain ⟨tn, htn, rfl⟩ := Option.map_eq_some_iff.1 h
  exact ⟨tn, List.mem_of_find?_eq_some htn, rfl⟩

/-- A result whose entries are nodes of the repository, all but the
suggestions recorded. -/
structure Sound (g : Repo) (r : Result) : Prop where
  rendered : ∀ e ∈ r.shown, Rendered g e
  kept : ∀ e, e ∈ recorded r ↔ e ∈ r.shown ∧ e.showing ≠ .suggestion

theorem Sound.hits (name : Str) (hits : Hits g) (make : Str → List Entry → Result)
    (hmake : ∀ items, (make name items).shown = items ∧ recorded (make name items) = items) :
    Sound g (make name (hits.map (candidate .looked))) := by
  obtain ⟨hshown, hrec⟩ := hmake (hits.map (candidate .looked))
  refine ⟨?_, ?_⟩
  · rw [hshown]
    simp only [List.mem_map]
    intro e he
    obtain ⟨hit, -, rfl⟩ := he
    exact rendered_candidate _ hit
  · rw [hshown, hrec]
    intro e
    simp only [List.mem_map, iff_self_and]
    intro he
    obtain ⟨hit, -, rfl⟩ := he
    simp [candidate]

theorem readNodeByQn_sound (qn : Str) (hits : Hits g) : Sound g (readNodeByQn g qn hits) := by
  unfold readNodeByQn
  cases hfind : g.find qn with
  | none =>
    refine ⟨?_, ?_⟩
    · simp only [Result.shown, List.mem_map]
      intro e he
      obtain ⟨hit, -, rfl⟩ := he
      exact rendered_candidate _ hit
    · simp only [Result.shown, recorded, List.mem_map, List.not_mem_nil, false_iff]
      intro e he
      obtain ⟨⟨hit, -, rfl⟩, hne⟩ := he
      exact hne rfl
  | some row =>
    obtain ⟨hrow, hqn⟩ := find_some hfind
    have hbody : { nodeToDict row with
        qualifiedName := if (nodeToDict row).qualifiedName = [] then qn else (nodeToDict row).qualifiedName } =
        nodeToDict row := by
      simp only [nodeToDict, hqn, ite_self]
    refine ⟨?_, ?_⟩
    · simp only [Result.shown, List.mem_singleton, forall_eq]
      exact rendered_row hrow
    · intro e
      simp only [Result.shown, recorded, hbody, List.mem_singleton, iff_self_and]
      intro he
      simp [he, nodeToDict]

theorem listChildren_sound (qn : Str) : Sound g (listChildren g qn) := by
  unfold listChildren
  cases hfind : g.find qn with
  | none => exact ⟨by simp [Result.shown], by simp [Result.shown, recorded]⟩
  | some parent =>
    refine ⟨?_, ?_⟩
    · simp only [Result.shown, Option.toList_some, List.singleton_append, List.forall_mem_cons, List.forall_mem_map]
      refine ⟨rendered_confirmed hfind, ?_⟩
      intro row hrow
      rw [(List.perm_insertionSort _ _).mem_iff] at hrow
      exact rendered_row (List.mem_filter.1 hrow).1
    · intro e
      simp only [Result.shown, recorded, Option.isSome_some, if_true, iff_self_and]
      intro he
      simp only [Option.toList_some, List.singleton_append, List.mem_cons, List.mem_map] at he
      rcases he with rfl | ⟨row, -, rfl⟩ <;> simp [confirmed, nodeToDict]

theorem listByFile_sound (path : Str) : Sound g (listByFile g path) := by
  refine ⟨?_, ?_⟩
  · simp only [listByFile, Result.shown, List.forall_mem_map]
    intro row hrow
    rw [(List.perm_insertionSort _ _).mem_iff] at hrow
    exact rendered_row (List.mem_filter.1 hrow).1
  · intro e
    simp only [listByFile, Result.shown, recorded, List.mem_map, iff_self_and]
    intro he
    obtain ⟨row, -, rfl⟩ := he
    simp [nodeToDict]

theorem getNeighbors_sound (qn : Str) (depth : Nat) (direction : Str) :
    Sound g (getNeighbors parseUuid g qn depth direction) := by
  unfold getNeighbors
  cases hfind : g.find qn with
  | none => exact ⟨by simp [Result.shown], by simp [Result.shown, recorded]⟩
  | some seed =>
    have hseed := rendered_confirmed hfind
    dsimp only
    cases hrun : Traversal.traverse g.snapshot (directionOf direction) depth seed.id parseUuid none with
    | none =>
      refine ⟨by simpa [Result.shown] using hseed, ?_⟩
      intro e
      simp [Result.shown, recorded]
      intro he
      simp [he, confirmed]
    | some response =>
      have hnode : ∀ x ∈ response.edges.filterMap (callerOf response.nodes seed.id) ++
          response.edges.filterMap (calleeOf response.nodes seed.id), Rendered g x ∧ x.showing = .neighbour := by
        intro x hx
        obtain ⟨tn, htn, rfl⟩ : ∃ tn ∈ response.nodes, x = traversalNodeDict tn := by
          rcases List.mem_append.1 hx with hx | hx
          · obtain ⟨e, -, he⟩ := List.mem_filterMap.1 hx
            exact side_some he
          · obtain ⟨e, -, he⟩ := List.mem_filterMap.1 hx
            exact side_some he
        exact ⟨rendered_neighbour hrun htn, rfl⟩
      refine ⟨?_, ?_⟩
      · intro x hx
        rcases List.mem_cons.1 hx with rfl | hx
        · exact hseed
        · exact (hnode x hx).1
      · intro e
        simp only [Result.shown, recorded, Option.isSome_some, if_true, iff_self_and]
        intro he
        rcases List.mem_cons.1 he with rfl | he
        · simp [confirmed]
        · simp [(hnode e he).2]

theorem handle_sound {call : Call g} {r : Result} (h : handle parseUuid call = some r) : Sound g r := by
  cases call with
  | readNodeByQn qn hits =>
    obtain rfl := Option.some.inj h
    exact readNodeByQn_sound qn hits
  | findByName name topK hits =>
    obtain ⟨-, h⟩ := Option.ite_none_right_eq_some.1 h
    obtain rfl := Option.some.inj h
    exact Sound.hits name hits .candidates fun _ => ⟨rfl, rfl⟩
  | listChildren qn =>
    obtain rfl := Option.some.inj h
    exact listChildren_sound qn
  | listByFile path =>
    obtain rfl := Option.some.inj h
    exact listByFile_sound path
  | getNeighbors qn depth direction =>
    obtain ⟨-, h⟩ := Option.ite_none_right_eq_some.1 h
    obtain rfl := Option.some.inj h
    exact getNeighbors_sound qn depth direction
  | searchCode query topK hits =>
    obtain ⟨-, h⟩ := Option.ite_none_right_eq_some.1 h
    obtain rfl := Option.some.inj h
    exact Sound.hits query hits .results fun _ => ⟨rfl, rfl⟩

/-! ## Runs -/

/-- The verified names are those of the entries shown, the suggestions aside. -/
structure Inv (g : Repo) (s : Session) : Prop where
  nodes : Nodes s.ledger
  rendered : ∀ e ∈ s.shown, Rendered g e
  verified : ∀ q, q ∈ s.ledger.verifiedNodeQns ↔
    q ≠ [] ∧ ∃ e ∈ s.shown, e.showing ≠ .suggestion ∧ q = Str.strip e.qualifiedName

theorem inv_start (g : Repo) : Inv g .start := by
  refine ⟨?_, ?_, ?_⟩
  · simp [Nodes, Session.start, Ledger.empty]
  · simp [Session.start]
  · simp [Session.start, Ledger.empty, Ledger.verifiedNodeQns, Ledger.texts]

theorem inv_next {s s' : Session} {call : Call g} (h : Inv g s)
    (hn : next parseUuid s call = some s') : Inv g s' := by
  obtain ⟨r, hr, rfl⟩ := Option.map_eq_some_iff.1 hn
  have hsound := handle_sound hr
  refine ⟨h.nodes.recordAll fun _ => mem_records, ?_, ?_⟩
  · intro e he
    rcases List.mem_append.1 he with he | he
    · exact h.rendered e he
    · exact hsound.rendered e he
  · intro q
    have hold := h.verified q
    have hnew := verified_recordAll h.nodes (recorded r) q
    simp only [hsound.kept] at hnew
    simp only [extractEvidence, List.mem_append]
    rw [hnew, hold]
    grind

/-- Verified names are real and nodes shown are verified. -/
structure Real (g : Repo) (s : Session) : Prop where
  verified : ∀ q ∈ s.ledger.verifiedNodeQns, ∃ row ∈ g.rows, row.qualifiedName = q
  shown : ∀ e ∈ s.shown, ∀ row ∈ g.rows, row.id = e.id → row.qualifiedName ∈ s.ledger.verifiedNodeQns

/-- As `Real`, for names without the white space around them, where what is
recorded of neighbours and what is suggested are left open. -/
structure Backed (g : Repo) (s : Session) : Prop where
  exist : ∀ e ∈ s.shown, ∃ row ∈ g.rows, row.id = e.id
  verified : ∀ q ∈ s.ledger.verifiedNodeQns, (∃ row ∈ g.rows, Str.strip row.qualifiedName = q) ∨
    ∃ e ∈ s.shown, e.showing = .neighbour ∧ Str.strip e.qualifiedName = q
  looked : ∀ e ∈ s.shown, e.showing = .looked → ∀ row ∈ g.rows, row.id = e.id → Str.strip row.qualifiedName ≠ [] →
    Str.strip row.qualifiedName ∈ s.ledger.verifiedNodeQns

theorem Inv.backed {s : Session} (h : Inv g s) : Backed g s := by
  refine ⟨?_, ?_, ?_⟩
  · intro e he
    obtain ⟨row, hrow, hid, -⟩ := h.rendered e he
    exact ⟨row, hrow, hid⟩
  · intro q hq
    obtain ⟨-, e, he, -, rfl⟩ := (h.verified q).1 hq
    by_cases hnext : e.showing = .neighbour
    · exact .inr ⟨e, he, hnext, rfl⟩
    · obtain ⟨row, hrow, -, hname⟩ := h.rendered e he
      exact .inl ⟨row, hrow, by rw [hname hnext]⟩
  · intro e he hlooked row hrow hid hne
    obtain ⟨row', hrow', hid', hname⟩ := h.rendered e he
    have hsame : row' = row := List.inj_on_of_nodup_map g.ids hrow' hrow (hid'.trans hid.symm)
    have hqn : e.qualifiedName = row.qualifiedName := by
      rw [hname (by simp [hlooked]), hsame]
    exact (h.verified _).2 ⟨hne, e, he, by simp [hlooked], by rw [hqn]⟩

/-- Where only nodes looked up are shown, and no name has white space around
it, verified names are real as they stand. -/
theorem Backed.real {s : Session} (h : Backed g s) (hlooked : ∀ e ∈ s.shown, e.showing = .looked)
    (hclean : ∀ row ∈ g.rows, Str.strip row.qualifiedName = row.qualifiedName ∧ row.qualifiedName ≠ []) :
    Real g s := by
  refine ⟨?_, ?_⟩
  · intro q hq
    rcases h.verified q hq with ⟨row, hrow, hname⟩ | ⟨e, he, hnext, -⟩
    · exact ⟨row, hrow, by rw [← (hclean row hrow).1, hname]⟩
    · simp [hlooked e he] at hnext
  · intro e he row hrow hid
    obtain ⟨hstrip, hne⟩ := hclean row hrow
    have := h.looked e he (hlooked e he) row hrow hid
    rw [hstrip] at this
    exact this hne

end

/-- **Evidence is backed.** Over every run of tool calls the nodes shown exist,
the names verified are theirs or come with a neighbour, and a node looked up is
verified. -/
theorem evidence_backed (g : Repo) (parseUuid : Str → Option Nat) (calls : List (Call g)) :
    ∀ t ∈ Machine.trace (next parseUuid) .start calls, Backed g t.post := by
  intro t ht
  have hstep : ∀ s call s', Inv g s → next parseUuid s call = some s' → Inv g s' := fun _ _ _ h hn => inv_next h hn
  exact (Machine.inv_of_step (next parseUuid) hstep (inv_start g) t ht).2.backed

namespace Sample

def row : CodeRow := ⟨⟨1, "f".toList, .function, "m.py".toList, 1, 2, none, [], []⟩, "m.f".toList, none⟩

def repo : Repo := ⟨[row], [], none, by simp, by simp, by simp⟩

def found : Result := .node "m.f".toList (nodeToDict row)

def looked : Session := ⟨Ledger.empty.recordAll (extractEvidence found), found.shown⟩

end Sample

theorem looked_up_backed : Backed Sample.repo Sample.looked := by
  have hmem := @Machine.trace_last _ _ (next fun _ => none) .start .start Sample.looked []
    (Call.readNodeByQn (g := Sample.repo) "m.f".toList []) rfl rfl
  exact evidence_backed Sample.repo (fun _ => none) _ _ hmem

/-- No node has the name asked for, and the one suggested is shown without
being recorded. -/
theorem suggestion_unverified : ¬ ∀ (g : Repo) (parseUuid : Str → Option Nat) (calls : List (Call g)),
    ∀ t ∈ Machine.trace (next parseUuid) .start calls, Real g t.post := by
  intro h
  have hrun := h Sample.repo (fun _ => none)
    [.readNodeByQn "m.g".toList [⟨Sample.row, List.mem_singleton_self _⟩]] _ (List.mem_singleton_self _)
  have hshown := hrun.shown ⟨.suggestion, 1, "m.f".toList, some "m.py".toList⟩ (List.mem_singleton_self _)
    Sample.row (List.mem_singleton_self _) rfl
  exact List.not_mem_nil hshown

end Cograph.AgentTools
