import Cograph.JsonDump
import Cograph.Pages
import Cograph.Ranked

/-!
# The fingerprint of cited evidence, as texts

`cited_fingerprint` of `wiki/incremental.py` down to the text that is hashed: a
sorted list of components, written as JSON. A list that cites an id twice has
its component twice, so that the fingerprint is that of the multiset.
-/

namespace Cograph.Fingerprint

/-- A component: kind, id, content hash and summary hash, compared in this
order. -/
abbrev Component := Str ×ₗ Str ×ₗ Str ×ₗ Str

def component (kind id content summary : Str) : Component := toLex (kind, toLex (id, toLex (content, summary)))

namespace Component

def kind (x : Component) : Str := (ofLex x).1

def id (x : Component) : Str := (ofLex (ofLex x).2).1

def texts (x : Component) : List Str :=
  [x.kind, x.id, (ofLex (ofLex (ofLex x).2).2).1, (ofLex (ofLex (ofLex x).2).2).2]

end Component

/-- The arguments: the cited ids, and what the database has for ids. -/
structure Cites where
  nodeIds : List Str
  chunkIds : List Str
  nodeContentHashes : Dict.Items Str Str
  nodeSummaries : Dict.Items Str (Option Str)
  chunkContents : Dict.Items Str Str

section
variable (sha256 : Str → Str) (c : Cites)

def nodeComponent (id : Str) : Component :=
  component "node".toList id ((Dict.get c.nodeContentHashes id).getD [])
    (sha256 (((Dict.get c.nodeSummaries id).getD none).getD []))

def docComponent (id : Str) : Component :=
  component "doc".toList id (sha256 ((Dict.get c.chunkContents id).getD [])) []

def evidence : List Component := c.nodeIds.map (nodeComponent sha256 c) ++ c.chunkIds.map (docComponent sha256 c)

/-- `json.dumps({"evidence": [...]}, sort_keys=True)`. -/
def dumpEvidence (xs : List Component) : Str :=
  JsonDump.object [("evidence".toList,
    JsonDump.array (xs.map fun x => JsonDump.array (x.texts.map JsonDump.str)))]

def citedFingerprint : Str := sha256 (dumpEvidence (Ranked.sorted (evidence sha256 c)))

end

/-! ## The text of the evidence -/

theorem texts_inj {x y : Component} (h : x.texts = y.texts) : x = y := by
  simp only [Component.texts, Component.kind, Component.id, List.cons.injEq, and_true] at h
  obtain ⟨hkind, hid, hcontent, hsummary⟩ := h
  exact Prod.ext hkind (Prod.ext hid (Prod.ext hcontent hsummary))

theorem dumpEvidence_inj {xs ys : List Component} (h : dumpEvidence xs = dumpEvidence ys) : xs = ys := by
  have hcomponent : ∀ (x y : Component) (u v : Str), JsonDump.array (x.texts.map JsonDump.str) ++ u =
      JsonDump.array (y.texts.map JsonDump.str) ++ v → x = y ∧ u = v := by
    intro x y u v hxy
    have hquote : ∀ (s u v : Str), JsonDump.str s ++ u ≠ ']' :: v := fun s u v he =>
      absurd (List.cons.inj he).1 (by decide)
    obtain ⟨htexts, hend⟩ := JsonDump.array_inj (fun s t u v => JsonDump.str_inj) hquote hxy
    exact ⟨texts_inj htexts, hend⟩
  have hbracket : ∀ (x : Component) (u v : Str), JsonDump.array (x.texts.map JsonDump.str) ++ u ≠ ']' :: v :=
    fun x u v he => absurd (List.cons.inj he).1 (by decide)
  simp only [dumpEvidence, JsonDump.object, List.map_cons, List.map_nil, List.intercalate_singleton,
    List.append_assoc, List.cons.injEq, true_and, List.append_cancel_left_eq] at h
  exact (JsonDump.array_inj hcomponent hbracket h).1

theorem sorted_iff {xs ys : List Component} : Ranked.sorted xs = Ranked.sorted ys ↔ xs.Perm ys := by
  constructor
  · intro h
    have hx : (Ranked.sorted xs).Perm xs := List.perm_insertionSort _ xs
    have hy : (Ranked.sorted ys).Perm ys := List.perm_insertionSort _ ys
    exact hx.symm.trans (h ▸ hy)
  · exact Ranked.sorted_perm

section
variable {sha256 : Str → Str} {c c' : Cites}

/-- The fingerprint is that of the multiset of components. -/
theorem fingerprint_iff_perm (hsha : Function.Injective sha256) :
    citedFingerprint sha256 c = citedFingerprint sha256 c' ↔ (evidence sha256 c).Perm (evidence sha256 c') := by
  rw [← sorted_iff]
  constructor
  · exact fun h => dumpEvidence_inj (hsha h)
  · exact fun h => congrArg (fun xs => sha256 (dumpEvidence xs)) h

/-! ## Ids and components -/

/-- The ids of either kind can be read off the components. -/
theorem ids_evidence : ((evidence sha256 c).filter (·.kind = "node".toList)).map Component.id = c.nodeIds ∧
    ((evidence sha256 c).filter (·.kind = "doc".toList)).map Component.id = c.chunkIds := by
  have hnode : ∀ id, (nodeComponent sha256 c id).kind = "node".toList := fun _ => rfl
  have hdoc : ∀ id, (docComponent sha256 c id).kind = "doc".toList := fun _ => rfl
  have hne : "doc".toList ≠ "node".toList ∧ "node".toList ≠ "doc".toList := by decide
  simp only [evidence, List.filter_append, List.filter_map, Function.comp_def, hnode, hdoc, hne.1, hne.2, decide_true,
    decide_false, List.filter_true, List.filter_false, List.map_nil, List.append_nil, List.nil_append, List.map_map]
  exact ⟨List.map_id _, List.map_id _⟩

/-- Where the same components are cited, an id stands for one component in
both. -/
theorem component_same (hset : ∀ x, x ∈ evidence sha256 c ↔ x ∈ evidence sha256 c') :
    (∀ id ∈ c.nodeIds, nodeComponent sha256 c id = nodeComponent sha256 c' id) ∧
      ∀ id ∈ c.chunkIds, docComponent sha256 c id = docComponent sha256 c' id := by
  constructor
  · intro id hid
    have hmem := (hset _).1 (List.mem_append_left _ (List.mem_map_of_mem (f := nodeComponent sha256 c) hid))
    rcases List.mem_append.1 hmem with h | h
    · obtain ⟨id', -, he⟩ := List.mem_map.1 h
      have hsame : id' = id := congrArg Component.id he
      rw [← he, hsame]
    · obtain ⟨id', -, he⟩ := List.mem_map.1 h
      exact absurd (congrArg Component.kind he) (by decide : "doc".toList ≠ "node".toList)
  · intro id hid
    have hmem := (hset _).1 (List.mem_append_right _ (List.mem_map_of_mem (f := docComponent sha256 c) hid))
    rcases List.mem_append.1 hmem with h | h
    · obtain ⟨id', -, he⟩ := List.mem_map.1 h
      exact absurd (congrArg Component.kind he) (by decide : "node".toList ≠ "doc".toList)
    · obtain ⟨id', -, he⟩ := List.mem_map.1 h
      have hsame : id' = id := congrArg Component.id he
      rw [← he, hsame]

theorem perm_of_ids (hset : ∀ x, x ∈ evidence sha256 c ↔ x ∈ evidence sha256 c')
    (hnodes : c.nodeIds.Perm c'.nodeIds) (hchunks : c.chunkIds.Perm c'.chunkIds) :
    (evidence sha256 c).Perm (evidence sha256 c') := by
  obtain ⟨hnode, hdoc⟩ := component_same hset
  rw [evidence, List.map_congr_left hnode, List.map_congr_left hdoc]
  exact (hnodes.map _).append (hchunks.map _)

/-- **When the fingerprint is that of the cited set.** Two fingerprints are
equal exactly when the cited sets are, if and only if the two lists do not cite
one set with some id more often in the one than in the other. -/
theorem fingerprint_set_iff (hsha : Function.Injective sha256) (c c' : Cites) :
    (citedFingerprint sha256 c = citedFingerprint sha256 c' ↔ ∀ x, x ∈ evidence sha256 c ↔ x ∈ evidence sha256 c') ↔
      ((∀ x, x ∈ evidence sha256 c ↔ x ∈ evidence sha256 c') →
        (∀ id, c.nodeIds.count id = c'.nodeIds.count id) ∧ ∀ id, c.chunkIds.count id = c'.chunkIds.count id) := by
  rw [fingerprint_iff_perm hsha]
  constructor
  · intro h hset
    have hperm := h.2 hset
    have hnodes : c.nodeIds.Perm c'.nodeIds := by
      rw [← (@ids_evidence sha256 c).1, ← (@ids_evidence sha256 c').1]
      exact (hperm.filter _).map _
    have hchunks : c.chunkIds.Perm c'.chunkIds := by
      rw [← (@ids_evidence sha256 c).2, ← (@ids_evidence sha256 c').2]
      exact (hperm.filter _).map _
    exact ⟨fun id => hnodes.count_eq id, fun id => hchunks.count_eq id⟩
  · intro h
    refine ⟨fun hperm x => hperm.mem_iff, fun hset => ?_⟩
    obtain ⟨hnodes, hchunks⟩ := h hset
    exact perm_of_ids hset (List.perm_iff_count.2 hnodes) (List.perm_iff_count.2 hchunks)

/-- Lists without repetition, as a page records them, meet the condition. -/
theorem fingerprint_set_of_nodup (hsha : Function.Injective sha256) (hn : c.nodeIds.Nodup) (hn' : c'.nodeIds.Nodup)
    (hc : c.chunkIds.Nodup) (hc' : c'.chunkIds.Nodup) :
    citedFingerprint sha256 c = citedFingerprint sha256 c' ↔ ∀ x, x ∈ evidence sha256 c ↔ x ∈ evidence sha256 c' := by
  rw [fingerprint_iff_perm hsha]
  have hnodup : ∀ {c : Cites}, c.nodeIds.Nodup → c.chunkIds.Nodup → (evidence sha256 c).Nodup := by
    intro c hnodes hchunks
    refine List.nodup_append.2 ⟨hnodes.map fun i j he => congrArg Component.id he,
      hchunks.map fun i j he => congrArg Component.id he, ?_⟩
    rintro x hx y hy rfl
    obtain ⟨i, -, hi⟩ := List.mem_map.1 hx
    obtain ⟨j, -, hj⟩ := List.mem_map.1 hy
    exact absurd (congrArg Component.kind (hi.trans hj.symm)) (by decide : "node".toList ≠ "doc".toList)
  exact List.perm_ext_iff_of_nodup (hnodup hn hc) (hnodup hn' hc')

end

/-! ## The fingerprint with ids as numbers -/

section
open Wiki (Id Hasher Cited Payload)
variable (H : Hasher Str) (text : Id → Str)

def citedComponent : Cited Str → Component
  | .node i content summary => component "node".toList (text i) (content.getD []) summary
  | .doc i content => component "doc".toList (text i) content []

/-- The hasher that writes the evidence out. -/
def writing : Hasher Str where
  sha256 := H.sha256
  canonicalHash
    | .evidence cited => H.sha256 (dumpEvidence ((cited.map (citedComponent text)).sort))
    | payload => H.canonicalHash payload

def named {α : Type} (items : Dict.Items Id α) : Dict.Items Str α := items.map fun x => (text x.1, x.2)

variable {H text}

theorem get_named {α : Type} (htext : Function.Injective text) (items : Dict.Items Id α) (i : Id) :
    Dict.get (named text items) (text i) = Dict.get items i := by
  induction items with
  | nil => rfl
  | cons x items ih =>
    rw [named, List.map_cons, Dict.get_cons, Dict.get_cons]
    exact if_congr htext.eq_iff rfl ih

/-- The fingerprint over multisets of components is the one over their sorted
texts. -/
theorem citedFingerprint_written (htext : Function.Injective text) (nodeIds chunkIds : List Id)
    (nodeHashes : Dict.Items Id Str) (nodeSummaries chunkContents : Dict.Items Id Str) :
    Wiki.citedFingerprint (writing H text) nodeIds chunkIds nodeHashes nodeSummaries chunkContents =
      citedFingerprint H.sha256 ⟨nodeIds.map text, chunkIds.map text, named text nodeHashes,
        named text (nodeSummaries.map fun x => (x.1, some x.2)), named text chunkContents⟩ := by
  have hsummary : ∀ i, ((Dict.get (nodeSummaries.map fun x => (x.1, some x.2)) i).getD none).getD [] =
      (Dict.get nodeSummaries i).getD [] := by
    intro i
    induction nodeSummaries with
    | nil => rfl
    | cons x xs ih =>
      rw [List.map_cons, Dict.get_cons, Dict.get_cons]
      split
      · rfl
      · exact ih
  have hevidence : ∀ l l' : List Component, l.Perm l' → (l : Multiset Component).sort = Ranked.sorted l' := by
    intro l l' hperm
    have hsort : ((l : Multiset Component).sort).Perm (Ranked.sorted l') :=
      (List.mergeSort_perm _ _).trans (hperm.trans (List.perm_insertionSort _ l').symm)
    exact hsort.eq_of_pairwise' (Multiset.pairwise_sort _ _) (List.pairwise_insertionSort _ l')
  refine congrArg (fun xs => H.sha256 (dumpEvidence xs)) (hevidence _ _ (.of_eq ?_))
  simp only [evidence, List.map_append, List.map_map]
  congr 1
  · apply List.map_congr_left
    intro i _
    simp only [Function.comp, citedComponent, nodeComponent, get_named htext, hsummary]
    rfl
  · apply List.map_congr_left
    intro i _
    simp only [Function.comp, citedComponent, docComponent, get_named htext]
    rfl

end

/-! ## One node, cited once and twice -/

def citing (ids : List Str) : Cites := ⟨ids, [], [("n".toList, "h".toList)], [], []⟩

theorem fingerprint_set_sample : (citedFingerprint id (citing ["n".toList, "m".toList]) =
    citedFingerprint id (citing ["m".toList, "n".toList]) ↔
      ∀ x, x ∈ evidence id (citing ["n".toList, "m".toList]) ↔ x ∈ evidence id (citing ["m".toList, "n".toList])) ↔
    ((∀ x, x ∈ evidence id (citing ["n".toList, "m".toList]) ↔ x ∈ evidence id (citing ["m".toList, "n".toList])) →
      (∀ i, (citing ["n".toList, "m".toList]).nodeIds.count i = (citing ["m".toList, "n".toList]).nodeIds.count i) ∧
        ∀ i, (citing ["n".toList, "m".toList]).chunkIds.count i = (citing ["m".toList, "n".toList]).chunkIds.count i) :=
  fingerprint_set_iff Function.injective_id _ _

/-- The same node cited twice has another fingerprint. -/
theorem repeated_id_changes_fingerprint : ¬∀ c c' : Cites,
    citedFingerprint id c = citedFingerprint id c' ↔ ∀ x, x ∈ evidence id c ↔ x ∈ evidence id c' := by
  intro hall
  have hset : ∀ x, x ∈ evidence id (citing ["n".toList]) ↔ x ∈ evidence id (citing ["n".toList, "n".toList]) := by
    intro x
    simp [evidence, citing]
    rfl
  have hperm := (fingerprint_iff_perm Function.injective_id).1 ((hall _ _).2 hset)
  exact absurd hperm.length_eq (by decide)

end Cograph.Fingerprint
