import Cograph.Joins
import Cograph.Machine
import Cograph.Summaries

/-!
# When a row that is skipped is up to date

A key tells the text of its view where the separators of what is hashed keep
its parts apart, and where the parts that are not hashed are the same. A node's
embedding key leaves out its type, names and comments, and the order of its
neighbours; a subgraph's leaves out the order of its members.
-/

namespace Cograph.Summaries

open SkipCache (Faithful)

/-! ## Embeddings -/

/-- The parts of an embedding text that the key leaves out. -/
structure Alike (a b : EmbedView) : Prop where
  nodeType : a.node.nodeType = b.node.nodeType
  qualifiedName : a.node.qualifiedName = b.node.qualifiedName
  signature : a.node.signature = b.node.signature
  docComment : a.node.docComment = b.node.docComment
  callers : presentNames a.names a.node.callers = presentNames b.names b.node.callers
  callees : presentNames a.names a.node.callees = presentNames b.names b.node.callees

theorem embedText_of_key {sha : Sha256} {a b : EmbedView} (hkey : embedKey sha a = embedKey sha b) (h : Alike a b) :
    embedText a = embedText b := by
  have hcontent : a.node.content = b.node.content := sha.injective (congrArg EmbedKey.contentHash hkey)
  simp only [embedText, nodeText, hcontent, h.nodeType, h.qualifiedName, h.signature, h.docComment,
    h.callers, h.callees]

/-! ## Summaries -/

/-- A view whose parts the separators keep apart. -/
structure Clean (v : EmbedView) : Prop where
  fields : ∀ x ∈ [v.node.qualifiedName, v.node.signature.getD [], v.node.docComment.getD [],
      v.node.content.take 2048],
    '\x1e' ∉ x
  names : ∀ x ∈ sortedNames v.names v.node.callers ++ sortedNames v.names v.node.callees, '\x1e' ∉ x ∧ '|' ∉ x
  callers : sortedNames v.names v.node.callers ≠ [[]]
  callees : sortedNames v.names v.node.callees ≠ [[]]

theorem typeValue_plain (t : NodeType) : '\x1e' ∉ typeValue t := by
  cases t <;> decide

theorem typeValue_inj {s t : NodeType} (h : typeValue s = typeValue t) : s = t := by
  cases s <;> cases t <;> first | rfl | exact absurd h (by decide)

theorem Clean.parts {v : EmbedView} (h : Clean v) : ∀ x ∈ hashParts v.node v.names, '\x1e' ∉ x := by
  have hjoin {xs : List Str} (hxs : ∀ x ∈ xs, '\x1e' ∉ x) : '\x1e' ∉ join ['|'] xs :=
    Joins.not_mem_intercalate (by decide) hxs
  have hcallers := hjoin fun x hx => (h.names x (List.mem_append_left _ hx)).1
  have hcallees := hjoin fun x hx => (h.names x (List.mem_append_right _ hx)).1
  have hfields := h.fields
  simp only [List.forall_mem_cons, List.not_mem_nil, false_implies, implies_true, and_true] at hfields
  simp only [hashParts, List.forall_mem_cons, List.not_mem_nil, false_implies, implies_true, and_true]
  exact ⟨typeValue_plain _, hfields.1, hfields.2.1, hfields.2.2.1, hfields.2.2.2, hcallers, hcallees⟩

theorem names_inj {xs ys : List Str} (hx : ∀ x ∈ xs, '|' ∉ x) (hy : ∀ y ∈ ys, '|' ∉ y)
    (hxs : xs ≠ [[]]) (hys : ys ≠ [[]])
    (h : join ['|'] xs = join ['|'] ys) : xs = ys :=
  Joins.intercalate_inj_of_ne hx hy hxs hys h

theorem summaryText_of_key {sha : Sha256} {a b : EmbedView} (ha : Clean a) (hb : Clean b)
    (hkey : summaryKey sha a = summaryKey sha b) : summaryText a = summaryText b := by
  have hjoined : join ['\x1e'] (hashParts a.node a.names) = join ['\x1e'] (hashParts b.node b.names) :=
    sha.injective (congrArg SummaryKey.contentHash hkey)
  have hparts := Joins.intercalate_inj ha.parts hb.parts (by simp [hashParts]) (by simp [hashParts]) hjoined
  simp only [hashParts, List.cons.injEq, and_true] at hparts
  obtain ⟨htype, hname, hsignature, hdoc, hcontent, hcallers, hcallees⟩ := hparts
  have hin := names_inj (fun x hx => (ha.names x (List.mem_append_left _ hx)).2)
    (fun x hx => (hb.names x (List.mem_append_left _ hx)).2) ha.callers hb.callers hcallers
  have hout := names_inj (fun x hx => (ha.names x (List.mem_append_right _ hx)).2)
    (fun x hx => (hb.names x (List.mem_append_right _ hx)).2) ha.callees hb.callees hcallees
  simp only [summaryText, nodePrompt, htype, hname, hsignature, hdoc, hcontent, hin, hout]

/-! ## Subgraphs -/

theorem uid_ext {u v : Uid} (h : u.text = v.text) : u = v := by
  cases u
  cases v
  simpa using h

def Member.Plain (m : Member) : Prop := '\x1e' ∉ m.qualifiedName ∧ '\x1e' ∉ m.signature ∧ '\x1e' ∉ m.contentHash

theorem member_text (m : Member) : m.text =
    m.uid.text ++ '\x1e' :: (m.qualifiedName ++ '\x1e' :: (m.signature ++ '\x1e' :: m.contentHash)) := by
  simp [Member.text, join]

/-- Members in a row after a text without a separator of their parts. -/
def row (r : Str) (ms : List Member) : Str := r ++ ms.flatMap fun m => '|' :: m.text

theorem row_cons (r : Str) (m : Member) (ms : List Member) : row r (m :: ms) = (r ++ '|' :: m.uid.text) ++
    '\x1e' :: (m.qualifiedName ++ '\x1e' :: (m.signature ++ '\x1e' :: row m.contentHash ms)) := by
  simp [row, member_text]

theorem row_ends {r : Str} (hr : '\x1e' ∉ r) (r' : Str) (m : Member) (ms : List Member) : r ≠ row r' (m :: ms) := by
  intro h
  rw [row_cons] at h
  exact hr (h ▸ by simp)

theorem row_inj {ms : List Member} : ∀ {ms' : List Member} {r r' : Str},
    '\x1e' ∉ r → '\x1e' ∉ r' → (∀ m ∈ ms, m.Plain) →
    (∀ m ∈ ms', m.Plain) → row r ms = row r' ms' → r = r' ∧ ms = ms' := by
  induction ms with
  | nil =>
    intro ms' r r' hr hr' _ _ h
    cases ms' with
    | nil => exact ⟨by simpa [row] using h, rfl⟩
    | cons m' ms' => exact absurd (by simpa [row] using h) (row_ends hr r' m' ms')
  | cons m ms ih =>
    intro ms' r r' hr hr' hms hms' h
    cases ms' with
    | nil => exact absurd (by simpa [row] using h.symm) (row_ends hr' r m ms)
    | cons m' ms' =>
      obtain ⟨hname, hsignature, hhash⟩ := hms m (by simp)
      obtain ⟨hname', hsignature', hhash'⟩ := hms' m' (by simp)
      rw [row_cons, row_cons] at h
      obtain ⟨hstart, h₁⟩ := Joins.first_inj (by simp [hr, m.uid.plain.2]) (by simp [hr', m'.uid.plain.2]) h
      obtain ⟨hrr, huid⟩ := Joins.last_inj m.uid.plain.1 m'.uid.plain.1 hstart
      obtain ⟨hnames, h₂⟩ := Joins.first_inj hname hname' h₁
      obtain ⟨hsignatures, h₃⟩ := Joins.first_inj hsignature hsignature' h₂
      obtain ⟨hhashes, hrest⟩ := ih hhash hhash' (fun x hx => hms x (List.mem_cons_of_mem _ hx))
        (fun x hx => hms' x (List.mem_cons_of_mem _ hx)) h₃
      have hm : m = m' := by
        cases m
        cases m'
        simp only [Member.mk.injEq]
        exact ⟨uid_ext huid, hnames, hsignatures, hhashes⟩
      exact ⟨hrr, by rw [hm, hrest]⟩

/-- A view of a subgraph: its members are nodes, the root first, and the
separators keep them apart. -/
structure Grouped (v : SubgraphView) : Prop where
  root : v.members.head?.bind (Dict.get v.nodes) = some v.root
  present : ∀ u ∈ v.members, ∃ n, Dict.get v.nodes u = some n ∧ '\x1e' ∉ n.qualifiedName ∧ '\x1e' ∉ sigFirst n

theorem memberOf_uid (sha : Sha256) (nodes : Nodes) (u : Uid) : (memberOf sha nodes u).uid = u := by
  unfold memberOf
  cases Dict.get nodes u <;> rfl

def sortedMembers (sha : Sha256) (v : SubgraphView) : List Member :=
  (v.members.map (memberOf sha v.nodes)).insertionSort memberBefore

theorem mem_sortedMembers {sha : Sha256} {v : SubgraphView} {m : Member} :
    m ∈ sortedMembers sha v ↔ ∃ u ∈ v.members, memberOf sha v.nodes u = m := by
  unfold sortedMembers
  rw [(List.perm_insertionSort _ _).mem_iff, List.mem_map]

theorem Grouped.plain {sha : Sha256} {v : SubgraphView} (h : Grouped v) : ∀ m ∈ sortedMembers sha v, m.Plain := by
  intro m hm
  obtain ⟨u, hu, rfl⟩ := mem_sortedMembers.1 hm
  obtain ⟨n, hn, hname, hsignature⟩ := h.present u hu
  rw [memberOf, hn]
  exact ⟨hname, hsignature, sha.plain _⟩

theorem Grouped.root_plain {v : SubgraphView} (h : Grouped v) : '\x1e' ∉ v.root.qualifiedName := by
  obtain ⟨u, hu, hroot⟩ := Option.bind_eq_some_iff.1 h.root
  obtain ⟨n, hn, hname, -⟩ := h.present u (List.mem_of_mem_head? hu)
  rwa [← Option.some.inj (hn.symm.trans hroot)]

theorem subgraphHash_eq {sha : Sha256} {v : SubgraphView} (h : Grouped v) :
    subgraphContentHash sha v.members v.nodes = sha.hexdigest (row v.root.qualifiedName (sortedMembers sha v)) := by
  unfold subgraphContentHash
  rw [h.root]
  simp [join, Joins.intercalate_cons, row, sortedMembers, List.flatMap_map]

theorem subgraphText_of_key {sha : Sha256} {a b : SubgraphView} (ha : Grouped a) (hb : Grouped b)
    (hkey : subgraphKey sha a = subgraphKey sha b) (hmembers : a.members = b.members) :
    subgraphText a = subgraphText b := by
  have hhash := congrArg SubgraphKey.contentHash hkey
  simp only [subgraphKey, subgraphHash_eq ha, subgraphHash_eq hb] at hhash
  obtain ⟨hroot, hsorted⟩ := row_inj ha.root_plain hb.root_plain ha.plain hb.plain (sha.injective hhash)
  have hmember : ∀ u ∈ a.members, memberLine a.nodes u = memberLine b.nodes u := by
    intro u hu
    obtain ⟨u', hu', hsame⟩ := mem_sortedMembers.1 (hsorted ▸ mem_sortedMembers.2 ⟨u, hu, rfl⟩)
    have huu : u' = u := by
      rw [← memberOf_uid sha b.nodes u', hsame, memberOf_uid]
    subst huu
    obtain ⟨n, hn, -⟩ := ha.present u' hu
    obtain ⟨n', hn', -⟩ := hb.present u' hu'
    simp only [memberOf, hn, hn', Member.mk.injEq] at hsame
    simp only [memberLine, hn, hn', Option.map_some, hsame.2.1, hsame.2.2.1]
  simp only [subgraphText, subgraphPrompt, hroot, ← hmembers, List.filterMap_congr hmember]

/-! ## Views of a table -/

theorem get_idToNode {nodes : List CodeNode} {u : Uid} {n : CodeNode} (h : Dict.get (idToNode nodes) u = some n) :
    n.id = u := by
  obtain ⟨m, -, hm⟩ := List.mem_map.1 (Dict.mem_ofItems (Dict.mem_of_get h))
  obtain ⟨rfl, rfl⟩ := Prod.mk.injEq .. ▸ hm
  rfl

theorem mem_idToNode {nodes : List CodeNode} {u : Uid} (h : u ∈ nodes.map (·.id)) :
    ∃ n, Dict.get (idToNode nodes) u = some n := by
  have hkey : u ∈ (idToNode nodes).map (·.1) := by
    rw [idToNode, Dict.mem_keys_ofItems, List.map_map]
    exact h
  obtain ⟨x, hx, rfl⟩ := List.mem_map.1 hkey
  exact Option.isSome_iff_exists.1 (Dict.get_isSome hx)

section
variable {sha : Sha256} {cfg : Config} {s : Store} {model : Str} {scores : Scores}

theorem mem_members {root : CodeNode} {u : Uid} (h : u ∈ members s scores root) :
    u = root.id ∨ u ∈ s.nodes.map (·.id) := by
  refine (List.mem_cons.1 h).imp_right fun h => ?_
  have hin := List.mem_of_mem_take h
  rw [(List.perm_insertionSort _ _).mem_iff, List.mem_dedup] at hin
  obtain ⟨-, hkept⟩ := List.mem_filter.1 hin
  exact (of_decide_eq_true hkept).2

/-- The members' names and signatures hold no separator. -/
def MembersPlain (s : Store) (scores : Scores) (root : CodeNode) : Prop :=
  ∀ u ∈ members s scores root, ∀ n, Dict.get (idToNode s.nodes) u = some n →
    '\x1e' ∉ n.qualifiedName ∧ '\x1e' ∉ sigFirst n

theorem grouped_of_plain {root : CodeNode} (hroot : root ∈ topRoots cfg s scores) (h : MembersPlain s scores root) :
    Grouped (subgraphView s model scores root) := by
  obtain ⟨u, -, hu⟩ := List.mem_filterMap.1 hroot
  obtain rfl := get_idToNode hu
  refine ⟨hu, ?_⟩
  intro v hv
  obtain ⟨n, hn⟩ : ∃ n, Dict.get (idToNode s.nodes) v = some n := by
    rcases mem_members hv with rfl | hin
    · exact ⟨root, hu⟩
    · exact mem_idToNode hin
  exact ⟨n, hn, h v hv n hn⟩

/-! ## Runs -/

/-- The rows are those their views give, and the separators keep the views' parts apart. -/
structure Inv (sha : Sha256) (s : Store) : Prop where
  embeddings : Faithful (embedKey sha) embedText (fun _ => True) s.embeddings
  summaries : Faithful (summaryKey sha) summaryText Clean s.summaries
  subgraphs : Faithful (subgraphKey sha) subgraphText Grouped s.subgraphs

/-- What a pass may find: rows under the key now are of views that agree in
what the key leaves out, and the separators keep the parts apart. -/
def Ok (sha : Sha256) (cfg : Config) (s : Store) : Action → Prop
  | .reindex _ => True
  | .embed model _ => ∀ n ∈ s.nodes, ∀ row, Dict.get s.embeddings n.id = some row →
      embedKey sha row.made = embedKey sha (embedView s model n) → Alike row.made (embedView s model n)
  | .summariseNodes model scores _ => ∀ n ∈ candidates cfg s scores, Clean (embedView s model n)
  | .summariseSubgraphs model scores _ => ∀ root ∈ topRoots cfg s scores, MembersPlain s scores root ∧
      ∀ row, Dict.get s.subgraphs root.id = some row →
        subgraphKey sha row.made = subgraphKey sha (subgraphView s model scores root) →
        row.made.members = members s scores root

theorem Inv.embed (h : Inv sha s) (batches : Option Nat) : Inv sha (embedRepository sha cfg s model batches) :=
  ⟨h.embeddings.store fun _ _ => trivial, h.summaries, h.subgraphs⟩

theorem Inv.nodes {succeeds : Uid → Bool} (h : Inv sha s)
    (hok : Ok sha cfg s (.summariseNodes model scores succeeds)) :
    Inv sha (generateNodeSummaries sha cfg s model scores succeeds) := by
  unfold generateNodeSummaries
  split
  · exact h
  · dsimp only
    split
    · exact h
    · refine ⟨h.embeddings, ?_, h.subgraphs⟩
      dsimp only
      apply Faithful.prune
      apply h.summaries.store
      intro job hjob
      obtain ⟨n, hn, rfl⟩ := List.mem_map.1 (List.mem_filter.1 hjob).1
      exact hok n (List.mem_filter.1 hn).1

theorem Inv.subgraph {succeeds : Uid → Bool} (h : Inv sha s)
    (hok : Ok sha cfg s (.summariseSubgraphs model scores succeeds)) :
    Inv sha (generateSubgraphSummaries sha cfg s model scores succeeds) := by
  unfold generateSubgraphSummaries
  dsimp only
  split
  · exact h
  · split
    · exact h
    · refine ⟨h.embeddings, h.summaries, ?_⟩
      dsimp only
      apply Faithful.prune
      apply h.subgraphs.store
      intro job hjob
      obtain ⟨root, hroot, rfl⟩ := List.mem_map.1 (List.mem_filter.1 hjob).1
      have hmem := (List.mem_filter.1 hroot).1
      exact grouped_of_plain hmem (hok root hmem).1

theorem inv_next {action : Action} {s' : Store} (h : Inv sha s) (hok : Ok sha cfg s action)
    (hn : next sha cfg s action = some s') : Inv sha s' := by
  cases action with
  | reindex nodes =>
    obtain rfl := Option.some.inj hn
    constructor <;> dsimp only [reindex]
    · exact h.embeddings.prune _
    · exact h.summaries.prune _
    · exact h.subgraphs.prune _
  | embed model batches =>
    obtain rfl := Option.some.inj hn
    exact h.embed batches
  | summariseNodes model scores succeeds =>
    obtain rfl := Option.some.inj hn
    exact h.nodes hok
  | summariseSubgraphs model scores succeeds =>
    obtain rfl := Option.some.inj hn
    exact h.subgraph hok

/-- Every row that a pass skips holds the text it would be made from now. -/
def SkipsSound (sha : Sha256) (cfg : Config) (s : Store) : Action → Prop
  | .reindex _ => True
  | .embed model _ => ∀ n ∈ s.nodes, skipsEmbedding sha s model n = true →
      ∃ row, Dict.get s.embeddings n.id = some row ∧ row.text = nodeText n (idToQname s.nodes)
  | .summariseNodes model scores _ => ∀ n ∈ candidates cfg s scores, skipsSummary sha s model n = true →
      ∃ row, Dict.get s.summaries n.id = some row ∧ row.text = nodePrompt n (idToQname s.nodes)
  | .summariseSubgraphs model scores _ => ∀ root ∈ topRoots cfg s scores,
      skipsSubgraph sha s model scores root = true → ∃ row, Dict.get s.subgraphs root.id = some row ∧
        row.text = subgraphPrompt root (members s scores root) (idToNode s.nodes)

theorem skips_sound {action : Action} (h : Inv sha s) (hok : Ok sha cfg s action) : SkipsSound sha cfg s action := by
  cases action with
  | reindex nodes => trivial
  | embed model batches =>
    intro n hn hskip
    obtain ⟨row, hrow, htext, hkey, -⟩ := h.embeddings.skips hskip
    have hnow := embedText_of_key hkey (hok n hn row hrow hkey)
    exact ⟨row, hrow, htext.trans hnow⟩
  | summariseNodes model scores succeeds =>
    intro n hn hskip
    obtain ⟨row, hrow, htext, hkey, hclean⟩ := h.summaries.skips hskip
    have hnow := summaryText_of_key hclean (hok n hn) hkey
    exact ⟨row, hrow, htext.trans hnow⟩
  | summariseSubgraphs model scores succeeds =>
    intro root hroot hskip
    obtain ⟨row, hrow, htext, hkey, hgrouped⟩ := h.subgraphs.skips hskip
    obtain ⟨hplain, hsame⟩ := hok root hroot
    have hnow := subgraphText_of_key hgrouped (grouped_of_plain hroot hplain) hkey (hsame row hrow hkey)
    exact ⟨row, hrow, htext.trans hnow⟩

end

/-- A repository with a graph and no rows made of it yet. -/
def start (nodes : List CodeNode) : Store := ⟨nodes, [], [], []⟩

/-- **Skipping is sound** over every run whose passes meet the condition. -/
theorem skips_sound_along (sha : Sha256) (cfg : Config) (nodes : List CodeNode) (actions : List Action)
    (h : Machine.Along (next sha cfg) (Ok sha cfg) (start nodes) actions) :
    ∀ t ∈ Machine.trace (next sha cfg) (start nodes) actions, SkipsSound sha cfg t.pre t.act := by
  intro t ht
  have hok := (Machine.along_iff (next sha cfg)).1 h
  have hstart : Inv sha (start nodes) := by
    refine ⟨?_, ?_, ?_⟩ <;> simp [Faithful, start]
  have hstep : ∀ s a s', Inv sha s → Ok sha cfg s a → next sha cfg s a = some s' → Inv sha s' :=
    fun _ _ _ hs ha hn => inv_next hs ha hn
  exact skips_sound (Machine.inv_of_guarded (next sha cfg) hstep hstart hok t ht).1 (hok t ht)

namespace Sample

/-- A digest without collisions: each character by its number of ones. -/
def digest (s : Str) : Str := s.flatMap fun c => List.replicate c.toNat '1' ++ ['0']

theorem digest_injective : Function.Injective digest := by
  intro s
  induction s with
  | nil =>
    intro t h
    cases t with
    | nil => rfl
    | cons d t => simp [digest] at h
  | cons c s ih =>
    intro t h
    cases t with
    | nil => simp [digest] at h
    | cons d t =>
      have hsplit : List.replicate c.toNat '1' ++ '0' :: digest s =
          List.replicate d.toNat '1' ++ '0' :: digest t := by
        simpa [digest] using h
      obtain ⟨hones, hrest⟩ := Joins.first_inj (by simp [List.mem_replicate]) (by simp [List.mem_replicate]) hsplit
      have hcode : c.toNat = d.toNat := by simpa using congrArg List.length hones
      rw [ih hrest, Char.toNat_inj.1 hcode]

def sha : Sha256 where
  hexdigest := digest
  injective := digest_injective
  plain := by
    intro s h
    obtain ⟨c, -, hc⟩ := List.mem_flatMap.1 h
    simp [List.mem_replicate] at hc

def id : Uid := ⟨"1".toList, by decide⟩

/-- A function of a Go file, whose comment stands before what its node covers. -/
def node (docComment : Option Str) : CodeNode :=
  ⟨id, .function, "m.f".toList, some "func f()".toList, docComment, "{}".toList, [], []⟩

def config : Config := ⟨256, fun n => n / 5, 20⟩

def scores : Scores := [(id, 1)]

def succeeds (_ : Uid) : Bool := true

theorem node_clean (n : CodeNode) (hn : n ∈ [node none]) : Clean ⟨"m".toList, n, idToQname [node none]⟩ := by
  obtain rfl := List.mem_singleton.1 hn
  refine ⟨?_, ?_, ?_, ?_⟩ <;> simp [node, sortedNames]

def view (n : CodeNode) : EmbedView := ⟨"e".toList, n, idToQname [n]⟩

/-- The store after an embedding and a pass over the summaries. -/
def summarised : Store :=
  generateNodeSummaries sha config
    ⟨[node none], [(id, SkipCache.fresh (embedKey sha) embedText (view (node none)))], [], []⟩ "m".toList scores succeeds

end Sample

theorem one_node_skipped : SkipsSound Sample.sha Sample.config Sample.summarised
    (.summariseNodes "m".toList Sample.scores Sample.succeeds) := by
  have hmem := @Machine.trace_last _ _ (next Sample.sha Sample.config) (start [Sample.node none]) Sample.summarised _
    [.embed "e".toList none, .summariseNodes "m".toList Sample.scores Sample.succeeds]
    (.summariseNodes "m".toList Sample.scores Sample.succeeds) rfl rfl
  apply skips_sound_along Sample.sha Sample.config [Sample.node none] _ _ _ hmem
  refine ⟨?_, ?_, ?_, trivial⟩
  · intro n _ row hrow
    cases hrow
  · exact fun n hn => Sample.node_clean n (List.mem_filter.1 hn).1
  · exact fun n hn => Sample.node_clean n (List.mem_filter.1 hn).1

namespace Sample

def commented : CodeNode := node (some "New.".toList)

/-- The store after an embedding and a new comment of the function. -/
def stale : Store := ⟨[commented], [(id, SkipCache.fresh (embedKey sha) embedText (view (node none)))], [], []⟩

theorem stale_row : Dict.get stale.embeddings commented.id =
    some (SkipCache.fresh (embedKey sha) embedText (view (node none))) := rfl

theorem stale_skips : skipsEmbedding sha stale "e".toList commented = true := by
  have hkey : embedKey sha (view (node none)) = embedKey sha (view commented) := by
    simp only [embedKey, view, contentHash, neighborHash, commented, node, sortedNames, List.map_nil,
      List.insertionSort_nil]
  have hview : embedView stale "e".toList commented = view commented := rfl
  simp only [skipsEmbedding, SkipCache.skips, stale_row, hview, Option.any_some, SkipCache.fresh, hkey, decide_true]

end Sample

theorem comment_change_missed : ¬ ∀ (sha : Sha256) (cfg : Config) (nodes : List CodeNode) (actions : List Action),
    ∀ t ∈ Machine.trace (next sha cfg) (start nodes) actions, SkipsSound sha cfg t.pre t.act := by
  intro h
  have hmem := @Machine.trace_last _ _ (next Sample.sha Sample.config) (start [Sample.node none]) Sample.stale _
    [.embed "e".toList none, .reindex [Sample.commented]] (.embed "e".toList none) rfl rfl
  have hsound : SkipsSound Sample.sha Sample.config Sample.stale (.embed "e".toList none) := h _ _ _ _ _ hmem
  obtain ⟨row, hrow, htext⟩ := hsound Sample.commented (List.mem_singleton_self _) Sample.stale_skips
  rw [Sample.stale_row] at hrow
  obtain rfl := Option.some.inj hrow
  have hold : embedText (Sample.view (Sample.node none)) ≠
      nodeText Sample.commented (idToQname [Sample.commented]) := by
    decide
  exact hold htext

end Cograph.Summaries
