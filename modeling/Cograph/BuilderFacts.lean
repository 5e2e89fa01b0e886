import Cograph.BuilderSound

/-!
# What a call stores

A row says what was extracted: a name, a key, a type and a hash, at a path. A
call that goes through leaves exactly the extracted nodes at the paths of its
files and every other path as it was.
-/

namespace Cograph

/-- Name, key, type and content hash of a node. -/
abbrev Fact := String × Option String × NodeType × String

def CodeNode.fact (n : CodeNode) : Fact := (n.qualifiedName, n.symbolKey, n.nodeType, n.contentHash)

def ExtractedNode.fact (h : Host) (x : ExtractedNode) : Fact :=
  (x.qualifiedName, some x.symbolKey, x.nodeType, h.sha256 x.content)

/-- A row at `p` says `f`. -/
def Db.Has (db : Db) (p : Path) (f : Fact) : Prop := ∃ n ∈ db.nodes, n.filePath = p ∧ n.fact = f

/-- Where a row stands, and what it says. -/
def CodeNode.site (n : CodeNode) : Nat × Path × Fact := (n.id, n.filePath, n.fact)

theorem site_blind : Blind CodeNode.site := ⟨fun _ _ => rfl, fun _ _ _ => rfl⟩

theorem has_site {db : Db} {p : Path} {f : Fact} : db.Has p f ↔ ∃ i, (i, p, f) ∈ db.nodes.map CodeNode.site := by
  simp only [Db.Has, CodeNode.site, List.mem_map, Prod.mk.injEq]
  constructor
  · rintro ⟨n, hn, hp, hf⟩
    exact ⟨n.id, n, hn, rfl, hp, hf⟩
  · rintro ⟨i, n, hn, -, hp, hf⟩
    exact ⟨n, hn, hp, hf⟩

theorem has_congr {db db' : Db} (h : db'.nodes.map CodeNode.site = db.nodes.map CodeNode.site) {p : Path} {f : Fact} :
    db'.Has p f ↔ db.Has p f := by
  rw [has_site, has_site, h]

variable {h : Host} {db mid : Db} {g : ExtractedGraph}

/-! ## The names of a graph -/

theorem deduped_mem {x : ExtractedNode} (hx : x ∈ g.deduped) :
    ∃ y ∈ g.nodes, x.filePath = y.filePath ∧ x.fact h = y.fact h ∧ x.language = y.language ∧
      x.signature = y.signature := by
  obtain ⟨y, hy, metadata, rfl⟩ := mem_deduped hx
  exact ⟨y, hy, rfl, rfl, rfl, rfl⟩

theorem deduped_names : (g.deduped.map (·.qualifiedName)).Nodup := by
  rw [names_deduped]
  exact Dict.ofItems_keys _

/-! ## Rows are matched once -/

theorem existingByKey_row {p : Path} {k : String} {i : Nat} (hi : ((p, k), i) ∈ existingByKey db g) :
    ∃ n ∈ existingNodes db g, n.id = i ∧ n.filePath = p ∧ n.symbolKey = some k := by
  have hmem := Dict.mem_ofItems hi
  simp only [List.mem_filterMap, Option.map_eq_some_iff] at hmem
  obtain ⟨n, hn, k', hk', he⟩ := hmem
  cases he
  exact ⟨n, hn, rfl, rfl, (Option.filter_eq_some_iff.mp hk').1⟩

theorem orphan_row {p : Path} {i : Nat} (hi : (p, i) ∈ orphanModuleByFile db g) :
    ∃ n ∈ existingNodes db g, n.id = i ∧ n.filePath = p ∧ n.nodeType = .module ∧ (n.filePath, n.symbolKey) ∉ g.keys := by
  have hmem := Dict.mem_ofItems hi
  simp only [List.mem_map, List.mem_filter, decide_eq_true_eq] at hmem
  obtain ⟨n, ⟨hn, ht, hk⟩, he⟩ := hmem
  cases he
  exact ⟨n, hn, rfl, rfl, ht, hk⟩

/-- How a node came to keep a row: by its key, or as the file's orphan
module, which is then used up. -/
def ByKey (db : Db) (g : ExtractedGraph) (k : ExtractedNode × Nat) : Prop :=
  ∃ n ∈ existingNodes db g, n.id = k.2 ∧ n.filePath = k.1.filePath ∧ n.symbolKey = some k.1.symbolKey

def ByFile (db : Db) (g : ExtractedGraph) (orphans : Dict.Items Path Nat) (k : ExtractedNode × Nat) : Prop :=
  ∃ n ∈ existingNodes db g, n.id = k.2 ∧ n.nodeType = .module ∧ (n.filePath, n.symbolKey) ∉ g.keys ∧
    ∀ x ∈ orphans, x.1 ≠ n.filePath

structure Matched.Once (db : Db) (g : ExtractedGraph) (seen : List ExtractedNode) (m : Matched) : Prop where
  perm : (m.kept.map (·.1) ++ m.pending).Perm seen
  ids : (m.kept.map (·.2)).Nodup
  how : ∀ k ∈ m.kept, ByKey db g k ∨ ByFile db g m.orphans k
  orphans : ∀ x ∈ m.orphans, x ∈ orphanModuleByFile db g

theorem kept_perm {m : Matched} {seen : List ExtractedNode} (hm : (m.kept.map (·.1) ++ m.pending).Perm seen)
    (x : ExtractedNode) (i : Nat) : ((m.kept ++ [(x, i)]).map (·.1) ++ m.pending).Perm (seen ++ [x]) := by
  have hmove : ((m.kept ++ [(x, i)]).map (·.1) ++ m.pending).Perm (m.kept.map (·.1) ++ m.pending ++ [x]) := by
    simp only [List.map_append, List.map_cons, List.map_nil, List.append_assoc]
    exact List.Perm.append_left _ (List.perm_append_comm)
  exact hmove.trans (hm.append_right [x])

theorem matchNode_once (hok : db.Ok) {seen : List ExtractedNode} {m : Matched} (hm : m.Once db g seen)
    {x : ExtractedNode} (hx : (x.filePath, some x.symbolKey) ∈ g.keys)
    (hseen : ∀ y ∈ seen, (y.filePath, some y.symbolKey) ∈ g.keys ∧
      (y.filePath, some y.symbolKey) ≠ (x.filePath, some x.symbolKey)) :
    (matchNode (existingByKey db g) m x).Once db g (seen ++ [x]) := by
  have hmem : ∀ k ∈ m.kept, k.1 ∈ seen := fun k hk =>
    hm.perm.subset (List.mem_append_left _ (List.mem_map_of_mem hk))
  have hsame : ∀ {n m : CodeNode}, n ∈ existingNodes db g → m ∈ existingNodes db g → n.id = m.id → n = m :=
    fun hn hm he => hok.unique (mem_existing.mp hn).1 (mem_existing.mp hm).1 he
  unfold matchNode
  split
  · rename_i i hi
    obtain ⟨n, hn, rfl, hp, hk⟩ := existingByKey_row (Dict.mem_of_get hi)
    refine ⟨kept_perm hm.perm x n.id, ?_, ?_, hm.orphans⟩
    · -- a row kept before has another key
      simp only [List.map_append, List.map_cons, List.map_nil]
      rw [List.nodup_append]
      refine ⟨hm.ids, List.nodup_singleton _, ?_⟩
      intro a ha b hb
      rw [List.mem_singleton.mp hb]
      rintro rfl
      obtain ⟨k, hkm, hid⟩ := List.mem_map.mp ha
      rcases hm.how k hkm with ⟨r, hr, hri, hrp, hrk⟩ | ⟨r, hr, hri, -, hrk, -⟩
      · have : r = n := hsame hr hn (hri.trans hid)
        subst this
        apply (hseen k.1 (hmem k hkm)).2
        rw [← hrp, hp, ← hrk, hk]
      · have : r = n := hsame hr hn (hri.trans hid)
        subst this
        exact hrk (by rw [hp, hk]; exact hx)
    · intro k hkm
      rcases List.mem_append.mp hkm with hkm | hkm
      · exact hm.how k hkm
      · rw [List.mem_singleton.mp hkm]
        exact Or.inl ⟨n, hn, rfl, hp, hk⟩
  · split
    · rename_i i hi
      have hget : Dict.get m.orphans x.filePath = some i := by
        by_cases ht : x.nodeType = .module
        · simpa [ht] using hi
        · simp [ht] at hi
      have horph := Dict.mem_of_get hget
      obtain ⟨n, hn, rfl, hp, ht, hk⟩ := orphan_row (hm.orphans _ horph)
      refine ⟨kept_perm hm.perm x n.id, ?_, ?_, ?_⟩
      · simp only [List.map_append, List.map_cons, List.map_nil]
        rw [List.nodup_append]
        refine ⟨hm.ids, List.nodup_singleton _, ?_⟩
        intro a ha b hb
        rw [List.mem_singleton.mp hb]
        rintro rfl
        obtain ⟨k, hkm, hid⟩ := List.mem_map.mp ha
        rcases hm.how k hkm with ⟨r, hr, hri, hrp, hrk⟩ | ⟨r, hr, hri, -, -, hgone⟩
        · have : r = n := hsame hr hn (hri.trans hid)
          subst this
          apply hk
          rw [hrk, hrp]
          exact (hseen k.1 (hmem k hkm)).1
        · have : r = n := hsame hr hn (hri.trans hid)
          subst this
          exact hgone _ horph hp.symm
      · intro k hkm
        rcases List.mem_append.mp hkm with hkm | hkm
        · rcases hm.how k hkm with hk' | ⟨r, hr, hri, hrt, hrk, hgone⟩
          · exact Or.inl hk'
          · exact Or.inr ⟨r, hr, hri, hrt, hrk, fun y hy => hgone y (Dict.mem_drop.mp hy).1⟩
        · rw [List.mem_singleton.mp hkm]
          refine Or.inr ⟨n, hn, rfl, ht, hk, ?_⟩
          intro y hy
          rw [hp]
          exact (Dict.mem_drop.mp hy).2
      · intro y hy
        exact hm.orphans y (Dict.mem_drop.mp hy).1
    · refine ⟨?_, hm.ids, hm.how, hm.orphans⟩
      dsimp only
      rw [← List.append_assoc]
      exact hm.perm.append_right [x]

theorem matchNodes_once (hok : db.Ok) (hkeys : g.keys.Nodup) : (matchNodes db g).Once db g g.deduped := by
  have hfold : ∀ (xs seen : List ExtractedNode) (m : Matched), seen ++ xs = g.deduped → m.Once db g seen →
      (xs.foldl (matchNode (existingByKey db g)) m).Once db g g.deduped := by
    intro xs
    induction xs with
    | nil =>
      intro seen m he hm
      rw [List.append_nil] at he
      exact he ▸ hm
    | cons x xs ih =>
      intro seen m he hm
      apply ih (seen ++ [x]) _ (by simpa using he)
      have hsplit : g.keys = (seen.map fun y => (y.filePath, some y.symbolKey)) ++
          (x.filePath, some x.symbolKey) :: xs.map fun y => (y.filePath, some y.symbolKey) := by
        rw [ExtractedGraph.keys, ← he, List.map_append, List.map_cons]
      apply matchNode_once hok hm
      · rw [hsplit]
        simp
      · intro y hy
        have hyk := List.mem_map_of_mem (f := fun y => (y.filePath, some y.symbolKey)) hy
        refine ⟨hsplit ▸ List.mem_append_left _ hyk, ?_⟩
        intro heq
        rw [hsplit, List.nodup_append] at hkeys
        exact hkeys.2.2 _ hyk _ (List.mem_cons_self ..) heq
  exact hfold g.deduped [] _ rfl ⟨by simp, by simp, by simp, fun x hx => hx⟩

/-! ## The rows a call leaves -/

section
variable (h : Host) (kept : List (ExtractedNode × Nat)) (n : CodeNode)

/-- What a row becomes when `kept` nodes take over theirs. -/
def takenOver : CodeNode :=
  match kept.find? (·.2 = n.id) with
  | some k => n.assign h k.1
  | none => n

def takenFact : Fact :=
  match kept.find? (·.2 = n.id) with
  | some k => k.1.fact h
  | none => n.fact

theorem takenOver_site : (takenOver h kept n).site = (n.id, n.filePath, takenFact h kept n) := by
  unfold takenOver takenFact
  cases kept.find? (·.2 = n.id) <;> rfl

end

theorem keepAll_eq (kept : List (ExtractedNode × Nat)) (rows : List CodeNode) (hids : (kept.map (·.2)).Nodup) :
    kept.foldl (keepNode h) rows = rows.map (takenOver h kept) := by
  induction kept generalizing rows with
  | nil =>
    have hid : takenOver h [] = id := funext fun _ => rfl
    simp [hid]
  | cons k kept ih =>
    rw [List.map_cons, List.nodup_cons] at hids
    rw [List.foldl_cons, ih _ hids.2, keepNode, List.map_map]
    apply List.map_congr_left
    intro n _
    by_cases hn : n.id = k.2
    · have hnone : kept.find? (·.2 = k.2) = none := by
        rw [List.find?_eq_none]
        intro k' hk'
        simp only [decide_eq_true_eq]
        intro he
        exact hids.1 (he ▸ List.mem_map_of_mem hk')
      simp [Function.comp, takenOver, hn, CodeNode.assign, hnone]
    · simp [Function.comp, takenOver, hn, Ne.symm hn]

theorem find_kept {kept : List (ExtractedNode × Nat)} (hids : (kept.map (·.2)).Nodup) {k : ExtractedNode × Nat}
    (hk : k ∈ kept) : kept.find? (·.2 = k.2) = some k := by
  induction kept with
  | nil => cases hk
  | cons k' kept ih =>
    rw [List.map_cons, List.nodup_cons] at hids
    rcases List.mem_cons.mp hk with rfl | hk
    · simp
    · have hne : k'.2 ≠ k.2 := by
        intro he
        exact hids.1 (he ▸ List.mem_map_of_mem hk)
      rw [List.find?_cons_of_neg (by simpa using hne)]
      exact ih hids.2 hk

theorem find_other (hok : db.Ok) {n : CodeNode} (hn : n ∈ db.nodes) (hp : n.filePath ∉ g.changedFilePaths) :
    (matchNodes db g).kept.find? (·.2 = n.id) = none := by
  rw [List.find?_eq_none]
  intro k hk
  simp only [decide_eq_true_eq]
  intro he
  obtain ⟨m, hm, hid, -⟩ := (matchNodes_ok.kept k hk).2
  obtain ⟨hmem, hmp⟩ := mem_existing.mp hm
  exact hp (hok.unique hmem hn (hid.trans he) ▸ hmp)

section
variable (hok : db.Ok) (hkeys : g.keys.Nodup)
include hok hkeys

theorem midSites (hp : persistNodes h db g = some mid) {i : Nat} {p : Path} {f : Fact} :
    (i, p, f) ∈ mid.nodes.map CodeNode.site ↔
      (∃ n ∈ db.nodes, n.id = i ∧ n.filePath = p ∧ i ∉ doomedIds db g ∧ f = takenFact h (matchNodes db g).kept n) ∨
      ∃ x ∈ (matchNodes db g).pending.zipIdx, i = db.nextId + x.2 ∧ p = x.1.filePath ∧ f = x.1.fact h := by
  rw [persistNodes_eq hp, List.map_append, List.mem_append]
  apply or_congr
  · have hfilter : ((detachSurvivingChildren (doomedIds db g) (keptRows h db g)).filter
        (·.id ∉ doomedIds db g)).map CodeNode.site =
        ((keptRows h db g).map CodeNode.site).filter (·.1 ∉ doomedIds db g) := by
      rw [← detach_map site_blind (doomedIds db g) (keptRows h db g), List.filter_map]
      rfl
    have hrows : (keptRows h db g).map CodeNode.site =
        db.nodes.map fun n => (n.id, n.filePath, takenFact h (matchNodes db g).kept n) := by
      rw [keptRows, keepAll_eq _ _ (matchNodes_once hok hkeys).ids, List.map_map]
      exact List.map_congr_left fun n _ => takenOver_site h _ n
    rw [hfilter, hrows]
    simp only [List.mem_filter, List.mem_map, Prod.mk.injEq, decide_eq_true_eq]
    constructor
    · rintro ⟨⟨n, hn, rfl, rfl, rfl⟩, hd⟩
      exact ⟨n, hn, rfl, rfl, hd, rfl⟩
    · rintro ⟨n, hn, rfl, rfl, hd, rfl⟩
      exact ⟨⟨n, hn, rfl, rfl, rfl⟩, hd⟩
  · simp only [insertedRows, List.map_map, List.mem_map, Function.comp, CodeNode.site, newNode, CodeNode.fact,
      ExtractedNode.fact, Prod.mk.injEq]
    constructor
    · rintro ⟨x, hx, rfl, rfl, rfl⟩
      exact ⟨x, hx, rfl, rfl, rfl⟩
    · rintro ⟨x, hx, rfl, rfl, rfl⟩
      exact ⟨x, hx, rfl, rfl, rfl⟩

/-- **What the node half stores.** -/
theorem persistNodes_has (hp : persistNodes h db g = some mid) {p : Path} {f : Fact} :
    mid.Has p f ↔ (∃ x ∈ g.deduped, x.filePath = p ∧ x.fact h = f) ∨ p ∉ g.changedFilePaths ∧ db.Has p f := by
  have honce := matchNodes_once hok hkeys
  have hok' : (matchNodes db g).Ok db g g.deduped := matchNodes_ok
  have hall := hok'.all
  rw [has_site]
  constructor
  · rintro ⟨i, hi⟩
    rcases (midSites hok hkeys hp).mp hi with ⟨n, hn, rfl, rfl, hd, hf⟩ | ⟨x, hx, -, rfl, rfl⟩
    · by_cases hpath : n.filePath ∈ g.changedFilePaths
      · left
        have hex := mem_existing.mpr ⟨hn, hpath⟩
        have hkept : n.id ∈ preservedIds db g := by
          by_contra hk
          exact hd (mem_doomedIds.mpr ⟨⟨n, hex, rfl⟩, hk⟩)
        obtain ⟨k, hk, hki⟩ := List.mem_map.mp hkept
        rw [takenFact, ← hki, find_kept honce.ids hk] at hf
        obtain ⟨hseen, m, hm, hmi, hmp⟩ := matchNodes_ok.kept k hk
        have : m = n := hok.unique (mem_existing.mp hm).1 hn (hmi.trans hki)
        subst this
        exact ⟨k.1, hseen, hmp.symm, hf.symm⟩
      · right
        rw [takenFact, find_other hok hn hpath] at hf
        exact ⟨hpath, n, hn, rfl, hf.symm⟩
    · left
      exact ⟨x.1, (hall _).mpr (Or.inr (List.fst_mem_of_mem_zipIdx hx)), rfl, rfl⟩
  · rintro (⟨x, hx, rfl, rfl⟩ | ⟨hpath, n, hn, rfl, rfl⟩)
    · rcases (hall x).mp hx with hkept | hpend
      · obtain ⟨k, hk, rfl⟩ := List.mem_map.mp hkept
        obtain ⟨-, n, hn, hid, hnp⟩ := matchNodes_ok.kept k hk
        refine ⟨k.2, (midSites hok hkeys hp).mpr (Or.inl ⟨n, (mem_existing.mp hn).1, hid, hnp, ?_, ?_⟩)⟩
        · exact fun hd => (mem_doomedIds.mp hd).2 (List.mem_map_of_mem hk)
        · rw [takenFact, hid, find_kept honce.ids hk]
      · obtain ⟨j, hj, rfl⟩ := List.getElem_of_mem hpend
        refine ⟨db.nextId + j, (midSites hok hkeys hp).mpr (Or.inr ⟨((matchNodes db g).pending[j], j), ?_, rfl, rfl, rfl⟩)⟩
        rw [List.mem_zipIdx_iff_getElem?]
        exact List.getElem?_eq_getElem hj
    · refine ⟨n.id, (midSites hok hkeys hp).mpr (Or.inl ⟨n, hn, rfl, rfl, ?_, ?_⟩)⟩
      · intro hd
        obtain ⟨⟨m, hm, hmi⟩, -⟩ := mem_doomedIds.mp hd
        obtain ⟨hmem, hmp⟩ := mem_existing.mp hm
        exact hpath (hok.unique hmem hn hmi ▸ hmp)
      · rw [takenFact, find_other hok hn hpath]

end

/-- **What a call stores.** -/
theorem persistGraph_has {db' : Db} {cache cache' : Option Cache} (hok : db.Ok) (hkeys : g.keys.Nodup)
    (hp : persistGraph h db cache g = some (db', cache')) {p : Path} {f : Fact} :
    db'.Has p f ↔ (∃ x ∈ g.deduped, x.filePath = p ∧ x.fact h = f) ∨ p ∉ g.changedFilePaths ∧ db.Has p f := by
  unfold persistGraph at hp
  split at hp
  · rename_i hnil
    cases hp
    simp [ExtractedGraph.changedFilePaths, ExtractedGraph.deduped, hnil, dedupeNodesByQualifiedName, Dict.ofItems]
  · simp only [Option.map_eq_some_iff, Prod.mk.injEq] at hp
    obtain ⟨mid, hp, rfl, -⟩ := hp
    rw [← persistNodes_has hok hkeys hp]
    exact has_congr (persistEdges_map site_blind fun _ _ _ => rfl)

/-! ## When the unique index lets a call through -/

theorem flushUpdates_same {done : List CodeNode} {todo : List (CodeNode × CodeNode)}
    (hsame : ∀ t ∈ todo, t.2.qualifiedName = t.1.qualifiedName) :
    flushUpdates done todo = some (done ++ todo.map (·.2)) := by
  induction todo generalizing done with
  | nil => simp [flushUpdates]
  | cons t todo ih =>
    rw [flushUpdates, if_pos (Or.inl (hsame t (List.mem_cons_self ..))),
      ih fun t ht => hsame t (List.mem_cons_of_mem _ ht)]
    simp

theorem insertNodes_isSome {db : Db} {xs : List ExtractedNode} (hnames : (xs.map (·.qualifiedName)).Nodup) :
    (insertNodes h db xs).isSome ↔ ∀ x ∈ xs, x.qualifiedName ∉ db.nodes.map (·.qualifiedName) := by
  induction xs generalizing db with
  | nil => simp [insertNodes]
  | cons x xs ih =>
    rw [List.map_cons, List.nodup_cons] at hnames
    rw [insertNodes, insertNode]
    by_cases hx : x.qualifiedName ∈ db.nodes.map (·.qualifiedName)
    · simp only [hx, if_true, Option.bind_none, Option.isSome_none, Bool.false_eq_true, false_iff]
      intro hall
      exact hall x (List.mem_cons_self ..) hx
    · rw [if_neg hx, Option.bind_some, ih hnames.2, List.forall_mem_cons]
      simp only [List.map_append, List.map_cons, List.map_nil, List.mem_append, List.mem_singleton, not_or]
      constructor
      · intro hall
        exact ⟨hx, fun y hy => (hall y hy).1⟩
      · rintro ⟨-, hall⟩ y hy
        refine ⟨hall y hy, ?_⟩
        intro he
        exact hnames.1 (List.mem_map.mpr ⟨y, hy, he⟩)

theorem mem_zip_map {α β : Type} {f : α → β} {l : List α} {a : α} {b : β} (hab : (a, b) ∈ l.zip (l.map f)) :
    a ∈ l ∧ b = f a := by
  induction l with
  | nil => cases hab
  | cons x l ih =>
    rw [List.map_cons, List.zip_cons_cons] at hab
    rcases List.mem_cons.mp hab with he | hab
    · cases he
      exact ⟨List.mem_cons_self .., rfl⟩
    · exact ⟨List.mem_cons_of_mem _ (ih hab).1, (ih hab).2⟩

/-- A call that renames no row goes through if and only if no row of another
file has a name of the call. -/
theorem persistNodes_isSome (hok : db.Ok) (hkeys : g.keys.Nodup)
    (hsteady : ∀ k ∈ (matchNodes db g).kept, ∀ n ∈ db.nodes, n.id = k.2 → n.qualifiedName = k.1.qualifiedName) :
    (persistNodes h db g).isSome ↔ ∀ x ∈ g.deduped, ∀ n ∈ db.nodes, n.filePath ∉ g.changedFilePaths →
      n.qualifiedName ≠ x.qualifiedName := by
  have honce := matchNodes_once hok hkeys
  have hname : ∀ n ∈ db.nodes, (takenOver h (matchNodes db g).kept n).qualifiedName = n.qualifiedName := by
    intro n hn
    unfold takenOver
    split
    · rename_i k hk
      have hid : k.2 = n.id := by simpa using List.find?_some hk
      exact (hsteady k (List.mem_of_find?_eq_some hk) n hn hid.symm).symm
    · rfl
  have hrows : keptRows h db g = db.nodes.map (takenOver h (matchNodes db g).kept) := keepAll_eq _ _ honce.ids
  have hflush : flushUpdates [] (db.nodes.zip ((matchNodes db g).kept.foldl (keepNode h) db.nodes)) =
      some (keptRows h db g) := by
    change flushUpdates [] (db.nodes.zip (keptRows h db g)) = some (keptRows h db g)
    rw [flushUpdates_same]
    · rw [List.nil_append, List.map_snd_zip (Nat.le_of_eq keptRows_length)]
    · rintro ⟨n, m⟩ ht
      rw [hrows] at ht
      obtain ⟨hn, rfl⟩ := mem_zip_map ht
      exact hname n hn
  have hperm : ((matchNodes db g).kept.map (·.1.qualifiedName) ++
      (matchNodes db g).pending.map (·.qualifiedName)).Nodup := by
    have := (honce.perm.map (·.qualifiedName)).nodup_iff.mpr deduped_names
    simpa [Function.comp_def] using this
  rw [List.nodup_append] at hperm
  simp only [persistNodes, hflush, Option.bind_some]
  rw [insertNodes_isSome hperm.2.1]
  have hleft : ∀ q, q ∈ (deleteNodes (doomedIds db g) { db with nodes := keptRows h db g }).nodes.map
      (·.qualifiedName) ↔ ∃ n ∈ db.nodes, n.id ∉ doomedIds db g ∧ n.qualifiedName = q := by
    intro q
    have hpair : (detachSurvivingChildren (doomedIds db g) (keptRows h db g)).map
        (fun n => (n.id, n.qualifiedName)) = db.nodes.map fun n => (n.id, n.qualifiedName) := by
      rw [detach_map ⟨fun _ _ => rfl, fun _ _ _ => rfl⟩, hrows, List.map_map]
      apply List.map_congr_left
      intro n hn
      have hid : (takenOver h (matchNodes db g).kept n).id = n.id := congrArg Prod.fst (takenOver_site h _ n)
      simp only [Function.comp, hid, hname n hn]
    simp only [deleteNodes, List.mem_map, List.mem_filter, decide_eq_true_eq]
    constructor
    · rintro ⟨n, ⟨hn, hd⟩, rfl⟩
      have hmem := List.mem_map_of_mem (f := fun n : CodeNode => (n.id, n.qualifiedName)) hn
      rw [hpair] at hmem
      obtain ⟨m, hm, he⟩ := List.mem_map.mp hmem
      simp only [Prod.mk.injEq] at he
      exact ⟨m, hm, he.1 ▸ hd, he.2⟩
    · rintro ⟨n, hn, hd, rfl⟩
      have hmem := List.mem_map_of_mem (f := fun n : CodeNode => (n.id, n.qualifiedName)) hn
      rw [← hpair] at hmem
      obtain ⟨m, hm, he⟩ := List.mem_map.mp hmem
      simp only [Prod.mk.injEq] at he
      exact ⟨m, ⟨hm, he.1 ▸ hd⟩, he.2⟩
  constructor
  · intro hall x hx n hn hpath he
    rcases List.mem_append.mp (honce.perm.mem_iff.mpr hx) with hkept | hpend
    · -- a kept node's name is that of its own row
      obtain ⟨k, hk, rfl⟩ := List.mem_map.mp hkept
      obtain ⟨-, m, hm, hmi, -⟩ := matchNodes_ok.kept k hk
      obtain ⟨hm, hmp⟩ := mem_existing.mp hm
      have : n = m := hok.uniqueName hn hm (he.trans (hsteady k hk m hm hmi).symm)
      exact hpath (this ▸ hmp)
    · apply hall x hpend
      rw [hleft]
      refine ⟨n, hn, ?_, he⟩
      intro hd
      obtain ⟨⟨m, hm, hmi⟩, -⟩ := mem_doomedIds.mp hd
      obtain ⟨hmem, hmp⟩ := mem_existing.mp hm
      exact hpath (hok.unique hmem hn hmi ▸ hmp)
  · intro hall x hx hmem
    obtain ⟨n, hn, hd, he⟩ := (hleft _).mp hmem
    by_cases hpath : n.filePath ∈ g.changedFilePaths
    · have hkept : n.id ∈ preservedIds db g := by
        by_contra hk
        exact hd (mem_doomedIds.mpr ⟨⟨n, mem_existing.mpr ⟨hn, hpath⟩, rfl⟩, hk⟩)
      obtain ⟨k, hk, hki⟩ := List.mem_map.mp hkept
      have hkname := hsteady k hk n hn hki.symm
      exact hperm.2.2 _ (List.mem_map_of_mem hk) _ (List.mem_map_of_mem hx) (hkname.symm.trans he)
    · exact hall x (honce.perm.mem_iff.mp (List.mem_append_right _ hx)) n hn hpath he

end Cograph
