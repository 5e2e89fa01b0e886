import Cograph.BuilderFacts
import Cograph.Owners
import Cograph.Ingest

/-!
# What one ingest step does to the rows

A graph shows, for each path, the text that was last extracted there or none.
Persisting a file replaces what its path shows, unless another path shows one
of its names; deleting files clears their paths. The facts about the extractor
that this relies on are collected in `Tools.Ok`.
-/

namespace Cograph

/-! ## The extractor -/

/-- The first eight digits of the signature's digest. -/
def signatureHash (h : Host) (signature : Option String) : String :=
  String.ofList ((h.sha256 (signature.getD "")).toList.take 8)

/-- `compute_symbol_key`. -/
def computeSymbolKey (h : Host) (l : GraphLanguage) (q : String) (signature : Option String) : String :=
  l.text ++ ":" ++ q ++ ":" ++ signatureHash h signature

/-- What the extractor returns for a text at `p`: nodes of that file, keyed by
language, name and signature; one of them, the module, has the whole text as
its content. -/
structure FileGraph (T : Tools) (p : Path) (text : String) (g : ExtractedGraph) : Prop where
  path : ∀ x ∈ g.nodes, x.filePath = p
  language : ∀ x ∈ g.nodes, p.detectGraphLanguage = some x.language
  key : ∀ x ∈ g.nodes, x.symbolKey = computeSymbolKey T.host x.language x.qualifiedName x.signature
  module : ∃ x ∈ g.nodes, x.nodeType = .module
  isModule : ∀ x ∈ g.nodes, x.nodeType = .module → x.qualifiedName = T.moduleName p ∧ x.signature = none ∧
    x.content = text
  onlyModule : ∀ x ∈ g.nodes, x.qualifiedName = T.moduleName p → x.nodeType = .module

/-- The assumptions on the extractor and the digest: digests have eight digits,
every extraction is that of a file, the rest of the checkout changes edges and
metadata only, and the Go build profile comes from the root `go.mod`. -/
structure Tools.Ok (T : Tools) : Prop where
  digits : ∀ s, 8 ≤ (T.host.sha256 s).toList.length
  file : ∀ C p text, p.detectGraphLanguage ≠ none → FileGraph T p text (T.extract C p text)
  context : ∀ C C' p text, (T.extract C p text).nodes.map (·.fact T.host) =
    (T.extract C' p text).nodes.map (·.fact T.host)
  profile : ∀ C C' : Checkout, C.text? ⟨[], "go.mod"⟩ = C'.text? ⟨[], "go.mod"⟩ → T.selects C = T.selects C'

variable {T : Tools} {C : Checkout}

def facts (T : Tools) (C : Checkout) (f : Path × String) : List Fact :=
  (parseSourceGraph T C f.1 f.2).deduped.map (·.fact T.host)

theorem deduped_facts (h : Host) (g : ExtractedGraph) : g.deduped.map (·.fact h) =
    (Dict.ofItems ((g.nodes.map (·.fact h)).map fun f => (f.1, f))).map (·.2) := by
  have hitems : (g.nodes.map (·.fact h)).map (fun f => (f.1, f)) =
      (g.nodes.map fun x => (x.qualifiedName, x)).map fun x => (x.1, x.2.fact h) := by
    simp only [List.map_map]
    rfl
  rw [hitems, Dict.ofItems_map (fun x : ExtractedNode => x.fact h)]
  simp only [ExtractedGraph.deduped, dedupeNodesByQualifiedName, List.map_map]
  rfl

theorem parse_facts (p : Path) (text : String) :
    (parseSourceGraph T C p text).nodes.map (·.fact T.host) = (T.extract C p text).nodes.map (·.fact T.host) := by
  simp only [parseSourceGraph, List.map_map]
  apply List.map_congr_left
  intro x _
  by_cases h : x.nodeType = .module <;> simp [h, ExtractedNode.fact]

theorem parse_file (hT : T.Ok) {p : Path} (hp : p.detectGraphLanguage ≠ none) (text : String) :
    FileGraph T p text (parseSourceGraph T C p text) := by
  have hfile := hT.file C p text hp
  have hnode : ∀ x ∈ (parseSourceGraph T C p text).nodes, ∃ y ∈ (T.extract C p text).nodes,
      x.filePath = y.filePath ∧ x.language = y.language ∧ x.symbolKey = y.symbolKey ∧
        x.qualifiedName = y.qualifiedName ∧ x.signature = y.signature ∧ x.nodeType = y.nodeType ∧
        x.content = y.content := by
    intro x hx
    simp only [parseSourceGraph, List.mem_map] at hx
    obtain ⟨y, hy, rfl⟩ := hx
    refine ⟨y, hy, ?_⟩
    split <;> simp
  refine ⟨?_, ?_, ?_, ?_, ?_, ?_⟩
  · intro x hx
    obtain ⟨y, hy, he, -⟩ := hnode x hx
    rw [he]
    exact hfile.path y hy
  · intro x hx
    obtain ⟨y, hy, -, he, -⟩ := hnode x hx
    rw [he]
    exact hfile.language y hy
  · intro x hx
    obtain ⟨y, hy, -, hl, hk, hq, hs, -⟩ := hnode x hx
    rw [hl, hk, hq, hs]
    exact hfile.key y hy
  · obtain ⟨y, hy, ht⟩ := hfile.module
    refine ⟨_, List.mem_map_of_mem hy, ?_⟩
    simp [ht]
  · intro x hx ht
    obtain ⟨y, hy, -, -, -, hq, hs, htype, hc⟩ := hnode x hx
    rw [hq, hs, hc]
    exact hfile.isModule y hy (htype ▸ ht)
  · intro x hx hq'
    obtain ⟨y, hy, -, -, -, hq, -, htype, -⟩ := hnode x hx
    rw [htype]
    exact hfile.onlyModule y hy (hq ▸ hq')

theorem facts_context (hT : T.Ok) (C C' : Checkout) (f : Path × String) : facts T C f = facts T C' f := by
  simp only [facts, deduped_facts, parse_facts, hT.context C C']

theorem middle_of_append {l c a a' e e' : List Char} (h : ((l ++ c ++ a) ++ c) ++ e = ((l ++ c ++ a') ++ c) ++ e')
    (he : e.length = e'.length) : a = a' := by
  have houter := (List.append_inj' h he).1
  exact List.append_cancel_left (List.append_cancel_right houter)

theorem symbolKey_name (hT : T.Ok) {l : GraphLanguage} {q q' : String} {s s' : Option String}
    (h : computeSymbolKey T.host l q s = computeSymbolKey T.host l q' s') : q = q' := by
  have hlength : ∀ s, (signatureHash T.host s).toList.length = 8 := by
    intro s
    have := hT.digits (s.getD "")
    simp only [signatureHash, String.toList_ofList, List.length_take]
    omega
  have hchars := congrArg String.toList h
  unfold computeSymbolKey at hchars
  generalize ":" = colon at hchars
  generalize l.text = lang at hchars
  simp only [String.toList_append] at hchars
  have hname := middle_of_append hchars (by rw [hlength, hlength])
  exact String.toList_inj.mp hname

theorem facts_node {f : Path × String} {x : Fact} (hx : x ∈ facts T C f) :
    ∃ y ∈ (parseSourceGraph T C f.1 f.2).nodes, x = y.fact T.host := by
  obtain ⟨z, hz, rfl⟩ := List.mem_map.mp hx
  obtain ⟨y, hy, -, he, -⟩ := deduped_mem (h := T.host) hz
  exact ⟨y, hy, he⟩

section
variable (hT : T.Ok) {p : Path} {l : GraphLanguage} (hl : p.detectGraphLanguage = some l) {text : String}
include hT hl

theorem node_language {y : ExtractedNode} (hy : y ∈ (parseSourceGraph T C p text).nodes) : y.language = l := by
  have := (parse_file hT (by simp [hl]) text).language y hy
  rw [hl] at this
  exact (Option.some.inj this).symm

theorem fact_key {x : Fact} (hx : x ∈ facts T C (p, text)) :
    ∃ s, x.2.1 = some (computeSymbolKey T.host l x.1 s) := by
  obtain ⟨y, hy, rfl⟩ := facts_node hx
  have hkey := (parse_file hT (by simp [hl]) text).key y hy
  rw [node_language hT hl hy] at hkey
  exact ⟨y.signature, congrArg some hkey⟩

def moduleFact (T : Tools) (p : Path) (l : GraphLanguage) (text : String) : Fact :=
  (T.moduleName p, some (computeSymbolKey T.host l (T.moduleName p) none), .module, T.host.sha256 text)

theorem module_node {y : ExtractedNode} (hy : y ∈ (parseSourceGraph T C p text).nodes) (ht : y.nodeType = .module) :
    y.fact T.host = moduleFact T p l text := by
  have hfile := parse_file (C := C) (p := p) hT (by simp [hl]) text
  obtain ⟨hname, hsig, hcontent⟩ := hfile.isModule y hy ht
  rw [ExtractedNode.fact, hfile.key y hy, hname, hsig, hcontent, ht, node_language hT hl hy, moduleFact]

theorem module_fact : moduleFact T p l text ∈ facts T C (p, text) := by
  have hfile := parse_file (C := C) (p := p) hT (by simp [hl]) text
  obtain ⟨y, hy, ht⟩ := hfile.module
  have hname := (hfile.isModule y hy ht).1
  have hmem : T.moduleName p ∈ (Dict.ofItems ((parseSourceGraph T C p text).nodes.map
      fun x => (x.qualifiedName, x))).map (·.1) := by
    rw [Dict.mem_keys_ofItems, List.map_map, List.mem_map]
    exact ⟨y, hy, hname⟩
  obtain ⟨⟨q, z⟩, hz, rfl⟩ := List.mem_map.mp hmem
  obtain ⟨w, hw, he⟩ := List.mem_map.mp (Dict.mem_ofItems hz)
  -- the node deduplication keeps under that name is a module too
  simp only [Prod.mk.injEq] at he
  obtain ⟨hwq, rfl⟩ := he
  rw [← module_node hT hl hw (hfile.onlyModule w hw hwq)]
  simp only [facts, ExtractedGraph.deduped, dedupeNodesByQualifiedName, List.map_map, List.mem_map]
  exact ⟨_, hz, rfl⟩

theorem module_fact_unique {x : Fact} (hx : x ∈ facts T C (p, text)) (ht : x.2.2.1 = .module) :
    x = moduleFact T p l text := by
  obtain ⟨y, hy, rfl⟩ := facts_node hx
  exact module_node hT hl hy ht

end

/-! ## What a graph shows -/

def Checkout.empty : Checkout := ⟨[], List.nodup_nil⟩

/-- The names a path takes up when it shows a text. -/
def shownNames (T : Tools) (p : Path) (shown : Option String) : Set String :=
  {q | ∃ text, shown = some text ∧ ∃ x ∈ facts T .empty (p, text), x.1 = q}

/-- A path that may be indexed, by its name. -/
def Path.Indexable (p : Path) : Prop :=
  ∃ l, p.detectGraphLanguage = some l ∧ (Path.isJsTs l = true → p.isJsTsNoise = false)

theorem Path.Indexable.language {p : Path} (h : p.Indexable) : p.detectGraphLanguage ≠ none := by
  obtain ⟨l, hl, -⟩ := h
  simp [hl]

/-- The rows of each path are what was extracted from the text it shows. -/
structure Shows (T : Tools) (db : Db) (G : Path → Option String) : Prop where
  ok : db.Ok
  indexable : ∀ p text, G p = some text → p.Indexable
  rows : ∀ p x, db.Has p x ↔ ∃ text, G p = some text ∧ x ∈ facts T .empty (p, text)

variable {db : Db} {G : Path → Option String}

theorem Shows.language (hG : Shows T db G) {p : Path} {text : String} (hp : G p = some text) :
    p.detectGraphLanguage ≠ none :=
  (hG.indexable p text hp).language

theorem Shows.has {n : CodeNode} (hG : Shows T db G) (hn : n ∈ db.nodes) :
    ∃ text, G n.filePath = some text ∧ n.fact ∈ facts T .empty (n.filePath, text) :=
  (hG.rows _ _).mp ⟨n, hn, rfl, rfl⟩

section
variable {p : Path} {text : String} (hT : T.Ok) (hp : p.detectGraphLanguage ≠ none)
include hT hp

theorem parse_path {x : ExtractedNode} (hx : x ∈ (parseSourceGraph T C p text).deduped) : x.filePath = p := by
  obtain ⟨y, hy, he, -⟩ := deduped_mem (h := T.host) hx
  rw [he]
  exact (parse_file hT hp text).path y hy

theorem parse_paths {q : Path} : q ∈ (parseSourceGraph T C p text).changedFilePaths ↔ q = p := by
  rw [mem_paths]
  constructor
  · rintro ⟨x, hx, rfl⟩
    exact parse_path hT hp hx
  · rintro rfl
    obtain ⟨l, hl⟩ := Option.ne_none_iff_exists'.mp hp
    have hmodule : moduleFact T q l text ∈ facts T C (q, text) := module_fact hT hl
    obtain ⟨x, hx, -⟩ := List.mem_map.mp hmodule
    exact ⟨x, hx, parse_path hT hp hx⟩

theorem parse_keys : (parseSourceGraph T C p text).keys.Nodup := by
  obtain ⟨l, hl⟩ := Option.ne_none_iff_exists'.mp hp
  have hkey : ∀ x ∈ (parseSourceGraph T C p text).deduped,
      ∃ s, x.symbolKey = computeSymbolKey T.host l x.qualifiedName s := by
    intro x hx
    obtain ⟨s, hs⟩ := fact_key hT hl (List.mem_map_of_mem hx)
    exact ⟨s, Option.some.inj hs⟩
  rw [ExtractedGraph.keys]
  apply List.Nodup.map_on _ (List.Nodup.of_map _ deduped_names)
  intro x hx y hy he
  obtain ⟨s, hs⟩ := hkey x hx
  obtain ⟨s', hs'⟩ := hkey y hy
  simp only [Prod.mk.injEq, Option.some.injEq] at he
  have hname := symbolKey_name hT (hs.symm.trans (he.2.trans hs'))
  exact List.inj_on_of_nodup_map deduped_names hx hy hname

theorem parse_steady (hG : Shows T db G) {k : ExtractedNode × Nat}
    (hk : k ∈ (matchNodes db (parseSourceGraph T C p text)).kept) {n : CodeNode} (hn : n ∈ db.nodes)
    (hid : n.id = k.2) : n.qualifiedName = k.1.qualifiedName := by
  obtain ⟨l, hl⟩ := Option.ne_none_iff_exists'.mp hp
  have hkeys : (parseSourceGraph T C p text).keys.Nodup := parse_keys hT hp
  have honce := matchNodes_once hG.ok hkeys
  have hseen := (matchNodes_ok.kept k hk).1
  rcases honce.how k hk with ⟨m, hm, hmi, hmp, hmk⟩ | ⟨m, hm, hmi, hmt, hmk, -⟩
  · have : m = n := hG.ok.unique (mem_existing.mp hm).1 hn (hmi.trans hid.symm)
    subst this
    obtain ⟨t, -, hfact⟩ := hG.has hn
    rw [hmp, parse_path hT hp hseen] at hfact
    obtain ⟨s, hs⟩ := fact_key hT hl hfact
    obtain ⟨s', hs'⟩ := fact_key hT hl (List.mem_map_of_mem hseen)
    have hkeys : some (computeSymbolKey T.host l m.qualifiedName s) =
        some (computeSymbolKey T.host l k.1.qualifiedName s') := hs.symm.trans (hmk.trans hs')
    exact symbolKey_name hT (Option.some.inj hkeys)
  · -- a module row of the file has the key of the extracted module
    exfalso
    have hpath := (parse_paths hT hp).mp (mem_existing.mp hm).2
    obtain ⟨t, -, hfact⟩ := hG.has (mem_existing.mp hm).1
    rw [hpath] at hfact
    have hmodule := module_fact_unique hT hl hfact hmt
    have hkey : m.symbolKey = (moduleFact T p l t).2.1 := congrArg (fun x : Fact => x.2.1) hmodule
    have hown : moduleFact T p l text ∈ facts T C (p, text) := module_fact hT hl
    obtain ⟨x, hx, hxf⟩ := List.mem_map.mp hown
    have hxk : some x.symbolKey = (moduleFact T p l t).2.1 := congrArg (fun x : Fact => x.2.1) hxf
    apply hmk
    rw [ExtractedGraph.keys, List.mem_map]
    exact ⟨x, hx, by rw [hpath, parse_path hT hp hx, hkey, hxk]⟩

theorem persist_isSome (hG : Shows T db G) {cache : Option Cache} :
    (persistGraph T.host db cache (parseSourceGraph T C p text)).isSome ↔
      Owners.Free (shownNames T) G p (some text) := by
  obtain ⟨l, hl⟩ := Option.ne_none_iff_exists'.mp hp
  have hne : (parseSourceGraph T C p text).nodes ≠ [] := by
    obtain ⟨y, hy, -⟩ := (parse_file (C := C) hT hp text).module
    exact List.ne_nil_of_mem hy
  rw [persistGraph, if_neg hne, Option.isSome_map,
    persistNodes_isSome hG.ok (parse_keys hT hp) fun k hk n hn hid => parse_steady hT hp hG hk hn hid]
  constructor
  · intro hall q hq
    rw [Set.disjoint_left]
    rintro name ⟨t, ht, x, hx, rfl⟩ ⟨t', ht', y, hy, he⟩
    cases ht'
    obtain ⟨n, hn, rfl, rfl⟩ := (hG.rows q x).mpr ⟨t, ht, hx⟩
    rw [facts_context hT .empty C] at hy
    obtain ⟨z, hz, rfl⟩ := List.mem_map.mp hy
    exact hall z hz n hn (fun hpath => hq ((parse_paths hT hp).mp hpath)) he.symm
  · intro hfree x hx n hn hpath he
    obtain ⟨t, ht, hfact⟩ := hG.has hn
    have hq : n.filePath ≠ p := fun hq => hpath ((parse_paths hT hp).mpr hq)
    apply Set.disjoint_left.mp (hfree n.filePath hq) ⟨t, ht, _, hfact, rfl⟩
    refine ⟨text, rfl, x.fact T.host, ?_, he.symm⟩
    rw [facts_context hT .empty C]
    exact List.mem_map_of_mem hx

omit hp in
theorem persist_shows (hp : p.Indexable) (hG : Shows T db G) {cache cache' : Option Cache} {db' : Db}
    (hc : ∀ c, cache = some c → c.Ok db.nodes)
    (hpersist : persistGraph T.host db cache (parseSourceGraph T C p text) = some (db', cache')) :
    Shows T db' (Function.update G p (some text)) where
  ok := (persistGraph_ok hG.ok hc hpersist).1
  indexable q t hq := by
    by_cases he : q = p
    · exact he ▸ hp
    · rw [Function.update_of_ne he] at hq
      exact hG.indexable q t hq
  rows q x := by
    have hlang := hp.language
    rw [persistGraph_has hG.ok (parse_keys hT hlang) hpersist, parse_paths hT hlang, hG.rows]
    by_cases he : q = p
    · subst he
      simp only [Function.update_self, Option.some.injEq, exists_eq_left', not_true_eq_false, false_and, or_false]
      rw [facts_context hT .empty C, facts, List.mem_map]
      constructor
      · rintro ⟨y, hy, -, hf⟩
        exact ⟨y, hy, hf⟩
      · rintro ⟨y, hy, hf⟩
        exact ⟨y, hy, parse_path hT hlang hy, hf⟩
    · rw [Function.update_of_ne he]
      constructor
      · rintro (⟨y, hy, hyp, -⟩ | ⟨-, hx⟩)
        · exact absurd (hyp.symm.trans (parse_path hT hlang hy)) he
        · exact hx
      · intro hx
        exact Or.inr ⟨he, hx⟩

end

/-! ## Deleting files and rebuilding arrays -/

theorem ok_congr {db' : Db} (hok : db.Ok) (hids : db'.nodes.map (·.id) = db.nodes.map (·.id))
    (hnames : db'.nodes.map (·.qualifiedName) = db.nodes.map (·.qualifiedName)) (hedges : db'.edges = db.edges)
    (hnext : db'.nextId = db.nextId) : db'.Ok where
  ids := by rw [hids]; exact hok.ids
  fresh n hn := by
    have hmem : n.id ∈ db.nodes.map (·.id) := hids ▸ List.mem_map_of_mem hn
    obtain ⟨m, hm, hid⟩ := List.mem_map.mp hmem
    rw [hnext, ← hid]
    exact hok.fresh m hm
  names := by rw [hnames]; exact hok.names
  sources e he := by rw [hids]; exact hok.sources e (hedges ▸ he)
  targets e he := by rw [hids]; exact hok.targets e (hedges ▸ he)

theorem Shows.arrays {db' : Db} (hG : Shows T db G)
    (hnodes : ∀ {β : Type} (f : CodeNode → β), (∀ n callees callers, f { n with callees := callees, callers := callers } = f n) →
      db'.nodes.map f = db.nodes.map f)
    (hedges : db'.edges = db.edges) (hnext : db'.nextId = db.nextId) : Shows T db' G where
  ok := ok_congr hG.ok (hnodes _ fun _ _ _ => rfl) (hnodes _ fun _ _ _ => rfl) hedges hnext
  indexable := hG.indexable
  rows p x := by rw [has_congr (hnodes CodeNode.site fun _ _ _ => rfl), hG.rows]

theorem Shows.rebuild (hG : Shows T db G) : Shows T (rebuildRelationships db) G := by
  refine hG.arrays (fun f hf => ?_) rfl rfl
  simp only [rebuildRelationships, List.map_map]
  exact List.map_congr_left fun n _ => hf n _ _

theorem Shows.rebuildScoped (hG : Shows T db G) (touched : List Nat) :
    Shows T (rebuildRelationshipsScoped touched db) G := by
  refine hG.arrays (fun f hf => ?_) rfl rfl
  simp only [rebuildRelationshipsScoped, rebuildBackCompatArrays]
  split
  · rfl
  · rw [List.map_map]
    apply List.map_congr_left
    intro n _
    simp only [Function.comp]
    split
    · rfl
    · split
      · exact hf n _ _
      · split
        · exact hf n _ _
        · rfl

theorem deleteNodes_ok (hok : db.Ok) (doomed : List Nat) : (deleteNodes doomed db).Ok := by
  have hids : ((detachSurvivingChildren doomed db.nodes).filter (·.id ∉ doomed)).map (·.id) =
      (db.nodes.map (·.id)).filter (· ∉ doomed) := by
    rw [← detach_map blind_id doomed db.nodes, List.filter_map]
    rfl
  have hleft : ∀ {i : Nat}, i ∈ db.nodes.map (·.id) → i ∉ doomed → i ∈ (deleteNodes doomed db).nodes.map (·.id) := by
    intro i hi hd
    simp only [deleteNodes, hids, List.mem_filter, decide_eq_true_eq]
    exact ⟨hi, hd⟩
  refine ⟨?_, ?_, ?_, ?_, ?_⟩
  · simp only [deleteNodes, hids]
    exact hok.ids.sublist List.filter_sublist
  · intro n hn
    have hmem : n.id ∈ (deleteNodes doomed db).nodes.map (·.id) := List.mem_map_of_mem hn
    simp only [deleteNodes, hids, List.mem_filter] at hmem
    obtain ⟨m, hm, hid⟩ := List.mem_map.mp hmem.1
    rw [← hid]
    exact hok.fresh m hm
  · have hnames := hok.names
    rw [← detach_map blind_name doomed db.nodes] at hnames
    exact hnames.sublist (List.filter_sublist.map _)
  · intro e he
    simp only [deleteNodes, List.mem_map, List.mem_filter, decide_eq_true_eq] at he
    obtain ⟨e, ⟨he, hd⟩, rfl⟩ := he
    exact hleft (hok.sources e he) hd
  · intro e he i hi
    simp only [deleteNodes, List.mem_map, List.mem_filter, decide_eq_true_eq] at he
    obtain ⟨e, ⟨he, -⟩, rfl⟩ := he
    obtain ⟨hi, hd⟩ := nulled_target.mp hi
    exact hleft (hok.targets e he i hi) hd

theorem deleteNodes_has {doomed : List Nat} {p : Path} {x : Fact} :
    (deleteNodes doomed db).Has p x ↔ ∃ n ∈ db.nodes, n.id ∉ doomed ∧ n.filePath = p ∧ n.fact = x := by
  have hsites : (deleteNodes doomed db).nodes.map CodeNode.site =
      (db.nodes.map CodeNode.site).filter (·.1 ∉ doomed) := by
    rw [← detach_map site_blind doomed db.nodes, List.filter_map]
    rfl
  rw [has_site, hsites]
  simp only [List.mem_filter, List.mem_map, decide_eq_true_eq]
  constructor
  · rintro ⟨i, ⟨n, hn, he⟩, hd⟩
    cases he
    exact ⟨n, hn, hd, rfl, rfl⟩
  · rintro ⟨n, hn, hd, rfl, rfl⟩
    exact ⟨n.id, ⟨n, hn, rfl⟩, hd⟩

def clear (doomed : Path → Bool) (G : Path → Option String) (p : Path) : Option String :=
  if doomed p then none else G p

theorem Shows.delete (hG : Shows T db G) (doomed : Path → Bool) : Shows T (deleteFiles doomed db) (clear doomed G) where
  ok := deleteNodes_ok hG.ok _
  indexable p text hp := by
    by_cases hd : doomed p
    · simp [clear, hd] at hp
    · exact hG.indexable p text (by simpa [clear, hd] using hp)
  rows p x := by
    rw [deleteFiles, deleteNodes_has]
    have hkept : ∀ n ∈ db.nodes, n.id ∉ (db.nodes.filter (doomed ·.filePath)).map (·.id) ↔ doomed n.filePath = false := by
      intro n hn
      simp only [List.mem_map, List.mem_filter, not_exists, not_and, and_imp]
      constructor
      · intro hall
        by_contra hd
        exact hall n hn (by simpa using hd) rfl
      · intro hd m hm hmd hid
        rw [hG.ok.unique hm hn hid, hd] at hmd
        cases hmd
    constructor
    · rintro ⟨n, hn, hd, rfl, rfl⟩
      rw [hkept n hn] at hd
      simpa [clear, hd] using hG.has hn
    · rintro ⟨text, ht, hx⟩
      by_cases hd : doomed p
      · simp [clear, hd] at ht
      · obtain ⟨n, hn, rfl, rfl⟩ := (hG.rows p x).mpr ⟨text, by simpa [clear, hd] using ht, hx⟩
        exact ⟨n, hn, (hkept n hn).mpr (by simpa using hd), rfl, rfl⟩

theorem Shows.congr (hG : Shows T db G) {G' : Path → Option String} (he : ∀ p, G p = G' p) : Shows T db G' :=
  funext he ▸ hG

theorem Shows.deleteAll (hG : Shows T db G) (ps : List Path) (peers : List Nat) :
    Shows T (ps.foldl deleteSourceFile (db, peers)).1 (clear (· ∈ ps) G) := by
  induction ps generalizing db G peers with
  | nil => exact hG.congr fun p => by simp [clear]
  | cons p ps ih =>
    refine (ih (hG.delete (· = p)) _).congr fun q => ?_
    by_cases hq : q = p
    · simp [clear, hq]
    · simp [clear, hq]

/-! ## The stored hashes -/

/-- The state the ingest compares files with holds the hash of each shown
text. -/
theorem Shows.state (hT : T.Ok) (hG : Shows T db G) (p : Path) :
    (Dict.get (loadModuleState db) p).map (·.1) = (G p).map T.host.sha256 := by
  have hmodule : ∀ n ∈ db.nodes, n.nodeType = .module → (G n.filePath).map T.host.sha256 = some n.contentHash := by
    intro n hn ht
    obtain ⟨text, hg, hfact⟩ := hG.has hn
    obtain ⟨l, hl⟩ := Option.ne_none_iff_exists'.mp (hG.language hg)
    have := module_fact_unique hT hl hfact ht
    rw [hg, Option.map_some, show n.contentHash = n.fact.2.2.2 from rfl, this, moduleFact]
  cases hget : Dict.get (loadModuleState db) p with
  | some v =>
    have hmem := Dict.mem_ofItems (Dict.mem_of_get hget)
    simp only [List.mem_map, List.mem_filter, decide_eq_true_eq] at hmem
    obtain ⟨n, ⟨hn, ht⟩, he⟩ := hmem
    cases he
    exact (hmodule n hn ht).symm
  | none =>
    cases hg : G p with
    | none => rfl
    | some text =>
      exfalso
      obtain ⟨l, hl⟩ := Option.ne_none_iff_exists'.mp (hG.language hg)
      obtain ⟨n, hn, rfl, hf⟩ := (hG.rows p _).mpr ⟨text, hg, module_fact hT hl⟩
      have hkey : n.filePath ∈ (loadModuleState db).map (·.1) := by
        rw [loadModuleState, Dict.mem_keys_ofItems, List.map_map, List.mem_map]
        refine ⟨n, ?_, rfl⟩
        rw [List.mem_filter]
        have htype : n.nodeType = .module := congrArg (fun x : Fact => x.2.2.1) hf
        exact ⟨hn, by simpa using htype⟩
      obtain ⟨⟨q, v⟩, hv, rfl⟩ := List.mem_map.mp hkey
      have := Dict.get_isSome hv
      simp [hget] at this

theorem Shows.known (hT : T.Ok) (hG : Shows T db G) {p : Path} :
    p ∈ (loadModuleState db).map (·.1) ↔ (G p).isSome := by
  have hstate := congrArg Option.isSome (hG.state hT p)
  simp only [Option.isSome_map] at hstate
  rw [← hstate]
  constructor
  · intro hp
    obtain ⟨⟨q, v⟩, hv, rfl⟩ := List.mem_map.mp hp
    exact Dict.get_isSome hv
  · intro hp
    obtain ⟨v, hv⟩ := Option.isSome_iff_exists.mp hp
    exact List.mem_map.mpr ⟨(p, v), Dict.mem_of_get hv, rfl⟩

/-! ## The walk -/

/-- The graph of a walk shows `G`, and its cache mirrors the rows. -/
structure Walk.Shows (T : Tools) (s : Walk) (G : Path → Option String) : Prop where
  graph : Cograph.Shows T s.db G
  cache : ∀ c, s.cache = some c → c.Ok s.db.nodes

/-- A file with the value its path is given. -/
def job (f : Path × String) : Path × Option String := (f.1, some f.2)

section
variable (hT : T.Ok) {s : Walk}
include hT

open Classical in
theorem persistFile_shows {f : Path × String} (hf : f.1.Indexable) (hs : s.Shows T G) :
    (persistFile T C s f).Shows T (Owners.step (shownNames T) G (job f)) ∧
      (persistFile T C s f).warnings = s.warnings ++ (Owners.refused (shownNames T) G [job f]).map (·.1) := by
  have hsome : (persistGraph T.host s.db s.cache (parseSourceGraph T C f.1 f.2)).isSome ↔
      Owners.Free (shownNames T) G f.1 (some f.2) := persist_isSome hT hf.language hs.graph
  cases hp : persistGraph T.host s.db s.cache (parseSourceGraph T C f.1 f.2) with
  | some out =>
    have hfree : Owners.Free (shownNames T) G (job f).1 (job f).2 := by simpa [hp, job] using hsome
    rw [Owners.step_free hfree]
    simp only [persistFile, hp, Owners.refused, hfree, if_true]
    refine ⟨⟨persist_shows hT hf hs.graph hs.cache hp, ?_⟩, by simp⟩
    exact (persistGraph_ok hs.graph.ok hs.cache hp).2
  | none =>
    have hfree : ¬ Owners.Free (shownNames T) G (job f).1 (job f).2 := by simpa [hp, job] using hsome
    simp only [persistFile, hp, Owners.refused, Owners.step, hfree, if_false]
    refine ⟨⟨hs.graph, ?_⟩, by simp [job]⟩
    intro c hc
    obtain ⟨-, -, rfl⟩ := Option.map_eq_some_iff.mp hc
    exact Cache.fromNodes_ok

/-- **The loop over the files refines the batch of replacements**, and its
warnings are the refused files. -/
theorem persistFiles_shows (jobs : List (Path × String)) (hjobs : ∀ f ∈ jobs, f.1.Indexable)
    (hs : s.Shows T G) :
    (jobs.foldl (persistFile T C) s).Shows T (Owners.run (shownNames T) G (jobs.map job)) ∧
      (jobs.foldl (persistFile T C) s).warnings =
        s.warnings ++ (Owners.refused (shownNames T) G (jobs.map job)).map (·.1) := by
  induction jobs generalizing s G with
  | nil => exact ⟨hs, by simp [Owners.refused]⟩
  | cons f jobs ih =>
    have hstep := persistFile_shows (C := C) hT (hjobs f (List.mem_cons_self ..)) hs
    have hrest := ih (fun g hg => hjobs g (List.mem_cons_of_mem _ hg)) hstep.1
    refine ⟨hrest.1, ?_⟩
    rw [List.foldl_cons, hrest.2, hstep.2, List.map_cons, List.append_assoc, ← List.map_append]
    simp [Owners.refused]

/-- The walk with its commits: `P` holds of what the graph shows, at the end and
at the last commit, if every step keeps it. -/
theorem walkFiles_shows {P : (Path → Option String) → Prop} (jobs : List (Path × String))
    (hjobs : ∀ f ∈ jobs, f.1.Indexable) (hP : ∀ G, ∀ f ∈ jobs, P G → P (Owners.step (shownNames T) G (job f)))
    (hs : s.Shows T G) (hG : P G) (hcommitted : ∃ G', Cograph.Shows T s.committed G' ∧ P G') :
    (jobs.foldl (walkFile T C) s).Shows T (Owners.run (shownNames T) G (jobs.map job)) ∧
      P (Owners.run (shownNames T) G (jobs.map job)) ∧
      (jobs.foldl (walkFile T C) s).warnings =
        s.warnings ++ (Owners.refused (shownNames T) G (jobs.map job)).map (·.1) ∧
      ∃ G', Cograph.Shows T (jobs.foldl (walkFile T C) s).committed G' ∧ P G' := by
  induction jobs generalizing s G with
  | nil => exact ⟨hs, hG, by simp [Owners.refused], hcommitted⟩
  | cons f jobs ih =>
    obtain ⟨hstep, hwarn⟩ := persistFile_shows (C := C) hT (hjobs f (List.mem_cons_self ..)) hs
    have hkeep := hP G f (List.mem_cons_self ..) hG
    have hnext : ∃ G', Cograph.Shows T (walkFile T C s f).committed G' ∧ P G' := by
      simp only [walkFile]
      split
      · exact ⟨_, hstep.graph, hkeep⟩
      · have hsame : (persistFile T C s f).committed = s.committed := by
          unfold persistFile
          split <;> rfl
        rw [hsame]
        exact hcommitted
    have hrest := ih (fun g hg => hjobs g (List.mem_cons_of_mem _ hg))
      (fun G g hg => hP G g (List.mem_cons_of_mem _ hg)) (s := walkFile T C s f) ⟨hstep.graph, hstep.cache⟩ hkeep hnext
    refine ⟨hrest.1, hrest.2.1, ?_, hrest.2.2.2⟩
    rw [List.foldl_cons, hrest.2.2.1]
    simp only [walkFile, hwarn, List.map_cons, List.append_assoc, ← List.map_append]
    simp [Owners.refused]

end

end Cograph
