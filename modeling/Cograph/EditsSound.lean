import Cograph.ByKey
import Cograph.Edits

/-!
# What a cheap edit has not seen

An accepted edit has a snippet of every cited node that changed. The documents
the old body cites are not looked at.
-/

namespace Cograph.Wiki

theorem mem_sortedSet {xs : List Str} {x : Str} : x ∈ sortedSet xs ↔ x ∈ xs := by
  simp [sortedSet]

theorem cited_ne_nil {src qn : Str} (h : qn ∈ (parseCitedRefs src).1) : qn ≠ [] := by
  simp only [parseCitedRefs, mem_sortedSet, List.mem_map, List.mem_filter] at h
  obtain ⟨m, ⟨⟨_, hm⟩, _⟩, rfl⟩ := h
  simpa using hm

namespace Snapshot

variable {s : Snapshot} {n : CodeRow}

def nodeContent (s : Snapshot) (id : Id) : Option Str := (s.nodes.find? (·.id = id)).map (·.content)

def docTexts (s : Snapshot) (path : Str) : Option (List Str) :=
  (s.docs.find? (·.filePath = path)).map (·.chunks.map (·.2))

theorem node?_of_mem (h : n ∈ s.nodes) : s.node? n.qualifiedName = some n :=
  ByKey.find_self s.names h

end Snapshot

section
variable {Hash : Type} (H : Hasher Hash)

/-- The hashes of a record are those its nodes had when the page was written. -/
def Recorded (old : Snapshot) (record : PageRecord Hash) : Prop :=
  ∀ x ∈ record.citedContentHashes.getD [], ∃ content, old.nodeContent x.1 = some content ∧ x.2 = H.sha256 content

end

section
variable (old now : Snapshot) (contentSrc : Str) (bundle : PageBundle)

/-- A cited name, with the row it has now, whose content is not the one it had. -/
def ChangedNode (n : CodeRow) : Prop :=
  n.qualifiedName ∈ (parseCitedRefs contentSrc).1 ∧ n ∈ now.nodes ∧ old.nodeContent n.id ≠ some n.content

/-- A cited document that is there and has other chunks than it had. -/
def ChangedDoc (d : DocRow) : Prop :=
  d.filePath ∈ (parseCitedRefs contentSrc).2 ∧ d ∈ now.docs ∧ old.docTexts d.filePath ≠ some (d.chunks.map (·.2))

def NodesShown : Prop := ∀ n, ChangedNode old now contentSrc n →
  ∃ c ∈ bundle.codeChunks, c.qualifiedName = n.qualifiedName ∧ c.snippet = n.content

def DocsShown : Prop := ∀ d, ChangedDoc old now contentSrc d → ∀ x ∈ d.chunks,
  ∃ c ∈ bundle.docChunks, c.filePath = d.filePath ∧ c.snippet = x.2

/-- Everything the old body cites that has changed since is gone or has its
current content in the bundle. -/
def Sighted : Prop := NodesShown old now contentSrc bundle ∧ DocsShown old now contentSrc bundle

/-- No changed node is cut by the retriever. -/
def Uncut : Prop := ∀ n, ChangedNode old now contentSrc n → truncate n.content snippetCharCap = n.content

end

section
variable {Hash : Type} [DecidableEq Hash] (H : Hasher Hash)

section
variable {isWord : Char → Bool} {cfg : EditConfig} {spec : PageSpec} {record : PageRecord Hash} {bundle : PageBundle}
  {now : Snapshot} {complete : EditorPrompt → Option Str} {body : Str}

/-- An accepted edit has a chunk for every cited name whose row is not stamped
with its hash. -/
theorem editOne_changed (h : editOne H isWord cfg spec record bundle now complete = some body) :
    ∀ qn ∈ changedNames H now (record.citedContentHashes.getD []) (parseCitedRefs (record.contentSrc.getD [])).1,
      qn ∈ bundleNames bundle := by
  simp only [editOne] at h
  split at h
  · simp at h
  · split at h
    · simp at h
    · split at h
      · simp at h
      · rename_i hall
        intro qn hqn
        simp only [List.any_eq_true, not_exists, not_and, decide_eq_true_eq, not_not] at hall
        exact hall qn hqn

theorem dispatchEdit_some {version : Nat} {reason : Option DirtyReason} {record : Option (PageRecord Hash)}
    (h : dispatchEdit H isWord cfg version reason spec record bundle now complete = some body) :
    ∃ r, record = some r ∧ editOne H isWord cfg spec r bundle now complete = some body := by
  unfold dispatchEdit at h
  split at h
  · exact Option.bind_eq_some_iff.1 h
  · simp at h

end

section
variable {old now : Snapshot} {record : PageRecord Hash} {codeHits : List CodeRow} {docHits : List (DocRow × Id × Str)}

theorem changedNode_changed (hH : Function.Injective H.sha256) (hrec : Recorded H old record) {n : CodeRow}
    (hn : ChangedNode old now (record.contentSrc.getD []) n) :
    n.qualifiedName ∈ changedNames H now (record.citedContentHashes.getD [])
      (parseCitedRefs (record.contentSrc.getD [])).1 := by
  obtain ⟨hcited, hmem, hne⟩ := hn
  rw [changedNames, List.mem_filter, Snapshot.node?_of_mem hmem]
  refine ⟨hcited, ?_⟩
  simp only [Option.any_some, ne_eq, decide_not, Bool.not_eq_true', decide_eq_false_iff_not]
  intro hget
  obtain ⟨content, hold, hhash⟩ := hrec _ (Dict.mem_of_get hget)
  rw [hH hhash] at hne
  exact hne hold

theorem forPage_chunk (hhits : ∀ n ∈ codeHits, n ∈ now.nodes) {c : CodeChunk}
    (hc : c ∈ (forPage codeHits docHits).codeChunks) {n : CodeRow} (hn : n ∈ now.nodes)
    (hq : c.qualifiedName = n.qualifiedName) : c.snippet = truncate n.content snippetCharCap := by
  obtain ⟨m, hm, rfl⟩ := List.mem_map.1 hc
  rw [List.inj_on_of_nodup_map now.names hn (hhits m hm) hq.symm]
  rfl

end

/-- An accepted edit has seen the retriever's cut of every cited node that
changed. It has seen all it ought to exactly if no such node was cut and the
chunks of every cited document that changed are in the bundle. -/
theorem edit_sighted_iff (hH : Function.Injective H.sha256) {old now : Snapshot} {record : PageRecord Hash}
    (hrec : Recorded H old record) {codeHits : List CodeRow} {docHits : List (DocRow × Id × Str)}
    (hhits : ∀ n ∈ codeHits, n ∈ now.nodes) {isWord : Char → Bool} {cfg : EditConfig} {version : Nat}
    {reason : Option DirtyReason} {spec : PageSpec} {complete : EditorPrompt → Option Str} {body : Str}
    (h : dispatchEdit H isWord cfg version reason spec (some record) (forPage codeHits docHits) now complete =
      some body) :
    let src := record.contentSrc.getD []
    let bundle := forPage codeHits docHits
    (∀ n, ChangedNode old now src n →
      ∃ c ∈ bundle.codeChunks, c.qualifiedName = n.qualifiedName ∧ c.snippet = truncate n.content snippetCharCap) ∧
      (Sighted old now src bundle ↔ Uncut old now src ∧ DocsShown old now src bundle) := by
  obtain ⟨r, hr, hedit⟩ := dispatchEdit_some H h
  obtain rfl := Option.some.inj hr
  have hseen : ∀ n, ChangedNode old now (record.contentSrc.getD []) n →
      ∃ c ∈ (forPage codeHits docHits).codeChunks, c.qualifiedName = n.qualifiedName ∧
        c.snippet = truncate n.content snippetCharCap := by
    intro n hn
    have hqn := editOne_changed H hedit _ (changedNode_changed H hH hrec hn)
    obtain ⟨c, hc, hq⟩ := List.mem_map.1 (List.mem_filter.1 hqn).1
    exact ⟨c, hc, hq, forPage_chunk hhits hc hn.2.1 hq⟩
  refine ⟨hseen, ?_⟩
  rw [Sighted, and_congr_left_iff]
  intro _
  constructor
  · intro hshown n hn
    obtain ⟨c, hc, hq, hs⟩ := hshown n hn
    rw [← forPage_chunk hhits hc hn.2.1 hq, hs]
  · intro huncut n hn
    obtain ⟨c, hc, hq, hs⟩ := hseen n hn
    exact ⟨c, hc, hq, hs.trans (huncut n hn)⟩

end

/-! ## A page over one document and a page over two functions -/

namespace EditSample

def texts : Hasher Str where
  sha256 := id
  canonicalHash
    | .spec slug _ _ _ _ _ => slug
    | .evidence _ => []

def spec : PageSpec := ⟨"p".toList, "P".toList, none, [], false, .concept⟩

def plan : PagePlan := ⟨[spec], by decide, by decide⟩

def config : EditConfig := ⟨true, 1 / 2, 3⟩

def record (src : String) (citations : Citations) (hashes : Option (Dict.Items Id Str)) : PageRecord Str :=
  ⟨"p".toList, some (specHash texts spec), some 1, citations, some .ok, none, hashes, some src.toList, 0⟩

def document (id : Id) (text : String) : Snapshot :=
  ⟨[], [⟨"d.md".toList, [(id, text.toList)]⟩], by simp, by simp, by simp, by simp⟩

def evidence : Evidence Str := ⟨[], [], [(2, "new".toList)], by simp, by simp, by simp⟩

def documentRecord : PageRecord Str := record "[[doc:d.md]]" ⟨[], [1]⟩ none

def row (id : Id) (name text : String) : CodeRow := ⟨id, name.toList, "a.py".toList, text.toList⟩

def functions (text : String) : Snapshot :=
  ⟨[row 1 "f" text, row 2 "g" "pass"], [], by simp [row], by simp [row], by simp, by simp⟩

def functionsRecord : PageRecord Str :=
  record "[[node:f]] [[node:g]]" ⟨[1, 2], []⟩ (some [(1, "old".toList), (2, "pass".toList)])

def keeps (p : EditorPrompt) : Option Str := some p.currentBody

theorem texts_injective : Function.Injective texts.sha256 := fun _ _ h => h

theorem functions_recorded : Recorded texts (functions "old") functionsRecord := by
  intro x hx
  have hx : x = (1, "old".toList) ∨ x = (2, "pass".toList) := by simpa [functionsRecord, record] using hx
  rcases hx with rfl | rfl
  · exact ⟨_, rfl, rfl⟩
  · exact ⟨_, rfl, rfl⟩

end EditSample

open EditSample in
theorem edit_sighted_functions :
    let src := "[[node:f]] [[node:g]]".toList
    let bundle := forPage [row 1 "f" "new"] []
    dispatchEdit texts Char.isAlphanum config 1 (some .citedNodeContentChanged) spec (some functionsRecord) bundle
        (functions "new") keeps = some src ∧
      (∀ n, ChangedNode (functions "old") (functions "new") src n →
        ∃ c ∈ bundle.codeChunks, c.qualifiedName = n.qualifiedName ∧ c.snippet = truncate n.content snippetCharCap) ∧
      (Sighted (functions "old") (functions "new") src bundle ↔
        Uncut (functions "old") (functions "new") src ∧ DocsShown (functions "old") (functions "new") src bundle) := by
  intro src bundle
  have hhits : ∀ n ∈ [row 1 "f" "new"], n ∈ (functions "new").nodes := by decide
  have hedit : dispatchEdit texts Char.isAlphanum config 1 (some .citedNodeContentChanged) spec (some functionsRecord)
      bundle (functions "new") keeps = some src := by decide +kernel
  exact ⟨hedit, edit_sighted_iff texts texts_injective functions_recorded hhits hedit⟩

open EditSample in
/-- A cited document is indexed again with another text. The page is dirty, the
bundle is empty, and the edit is accepted. -/
theorem edit_unseen :
    (computeDirtySlugs texts evidence plan [documentRecord] 1 none).dirty = [("p".toList, .citedChunkMissing)] ∧
      dispatchEdit texts Char.isAlphanum config 1 (some .citedChunkMissing) spec (some documentRecord) (forPage [] [])
        (document 2 "new") keeps = some "[[doc:d.md]]".toList ∧
      ¬ Sighted (document 1 "old") (document 2 "new") "[[doc:d.md]]".toList (forPage [] []) := by
  refine ⟨by decide +kernel, by decide +kernel, ?_⟩
  intro ⟨_, hdocs⟩
  have hcited : "d.md".toList ∈ (parseCitedRefs "[[doc:d.md]]".toList).2 := by decide +kernel
  have hchanged : (document 1 "old").docTexts "d.md".toList ≠ some ["new".toList] := by decide
  obtain ⟨c, hc, _⟩ := hdocs ⟨"d.md".toList, [(2, "new".toList)]⟩ ⟨hcited, by simp [document], hchanged⟩
    (2, "new".toList) (by simp)
  simp [forPage] at hc

end Cograph.Wiki
