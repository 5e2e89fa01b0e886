import Cograph.BuilderFacts
import Cograph.BuilderSound
import Mathlib.Data.List.Induction

/-!
# The parents of methods

The parent of a method is the row with its name less the last part. A call that
adds, drops or renames only modules links the methods of its own files, so that
a method of another file keeps its parent while no module takes or leaves that
name. The names of the cache are those of the rows after every call.
-/

namespace Cograph

/-- The ids and the names the cache knows are those of the rows. -/
structure Cache.Mirrors (c : Cache) (rows : List CodeNode) : Prop where
  ids : ∀ i, i ∈ c.nodeById ↔ i ∈ rows.map (·.id)
  keys : (c.nodesByQn.map (·.1)).Nodup
  names : ∀ q i, (q, i) ∈ c.nodesByQn ↔ ∃ n ∈ rows, n.qualifiedName = q ∧ n.id = i

/-- Each row is found by its name. -/
def Cache.Full (c : Cache) (rows : List CodeNode) : Prop :=
  ∀ n ∈ rows, Dict.get c.nodesByQn n.qualifiedName = some n.id

/-! ## Parents -/

def CodeNode.parentName (n : CodeNode) : String := (Text.rpartitionDot n.qualifiedName).1

/-- The row with a name. -/
def idNamed (rows : List CodeNode) (q : String) : Option Nat := (rows.find? (·.qualifiedName = q)).map (·.id)

/-- The parent of every method is the row with its name less the last part. -/
def Db.Linked (db : Db) : Prop :=
  ∀ n ∈ db.nodes, n.nodeType = .method → n.parentId = idNamed db.nodes n.parentName

instance (db : Db) : Decidable db.Linked :=
  inferInstanceAs (Decidable (∀ n ∈ db.nodes, n.nodeType = .method → n.parentId = idNamed db.nodes n.parentName))

/-- The names that a call gives to rows or takes from them. -/
def movedNames (h : Host) (db : Db) (g : ExtractedGraph) : List String :=
  (matchNodes db g).pending.map (·.qualifiedName) ++ ((doomedNodes db g).map (·.qualifiedName) ++
    ((renames h db.nodes (matchNodes db g).kept).filter fun r => r.1.qualifiedName ≠ r.2.qualifiedName).flatMap
      fun r => [r.1.qualifiedName, r.2.qualifiedName])

/-- A call that links the methods of its own files only moves no name that is
the parent of another file's method. -/
def ParentsStay (h : Host) (db : Db) (g : ExtractedGraph) : Prop :=
  parentsMayMove h db g = false →
    ∀ n ∈ db.nodes, n.nodeType = .method → n.filePath ∉ g.changedFilePaths → n.parentName ∉ movedNames h db g

instance (h : Host) (db : Db) (g : ExtractedGraph) : Decidable (ParentsStay h db g) :=
  inferInstanceAs (Decidable (parentsMayMove h db g = false →
    ∀ n ∈ db.nodes, n.nodeType = .method → n.filePath ∉ g.changedFilePaths → n.parentName ∉ movedNames h db g))

/-! ## The names of the cache -/

namespace Cache

section
variable {c : Cache} {rows : List CodeNode}

theorem mirrors_iff : c.Mirrors rows ↔ c.Ok rows ∧ c.Full rows := by
  constructor
  · intro hc
    refine ⟨⟨hc.ids, hc.keys, fun x hx => ?_⟩, fun n hn => ?_⟩
    · obtain ⟨n, hn, hq, hid⟩ := (hc.names x.1 x.2).1 hx
      exact ⟨n, hn, hid, hq⟩
    · exact Dict.get_of_nodup hc.keys ((hc.names _ _).2 ⟨n, hn, rfl, rfl⟩)
  · intro h
    obtain ⟨hc, hfull⟩ := h
    refine ⟨hc.ids, hc.keys, fun q i => ⟨fun hx => ?_, fun hx => ?_⟩⟩
    · obtain ⟨n, hn, hid, hq⟩ := hc.named (q, i) hx
      exact ⟨n, hn, hq, hid⟩
    · obtain ⟨n, hn, rfl, rfl⟩ := hx
      exact Dict.mem_of_get (hfull n hn)

theorem Full.congr (hc : c.Full rows) {rows' : List CodeNode}
    (h : rows'.map (fun n => (n.id, n.qualifiedName)) = rows.map fun n => (n.id, n.qualifiedName)) : c.Full rows' := by
  intro n hn
  have hmem : (n.id, n.qualifiedName) ∈ rows.map fun n => (n.id, n.qualifiedName) := h ▸ List.mem_map_of_mem hn
  obtain ⟨m, hm, he⟩ := List.mem_map.1 hmem
  obtain ⟨hid, hq⟩ := Prod.mk.inj he
  rw [← hid, ← hq]
  exact hc m hm

theorem adds_full {ns : List CodeNode} (hnames : ((rows ++ ns).map (·.qualifiedName)).Nodup) (hc : c.Full rows) :
    (ns.foldl add c).Full (rows ++ ns) := by
  induction ns generalizing c rows with
  | nil => simpa using hc
  | cons n ns ih =>
    have hsplit : rows ++ n :: ns = rows ++ [n] ++ ns := by simp
    rw [hsplit] at hnames ⊢
    refine ih hnames fun m hm => ?_
    have hn : ((rows ++ [n]).map (·.qualifiedName)).Nodup := by
      rw [List.map_append] at hnames
      exact (List.nodup_append.1 hnames).1
    show Dict.get (Dict.put c.nodesByQn n.qualifiedName n.id) m.qualifiedName = some m.id
    rcases List.mem_append.1 hm with hm | hm
    · have hne : n.qualifiedName ≠ m.qualifiedName := by
        rw [List.map_append] at hn
        intro he
        exact (List.nodup_append.1 hn).2.2 _ (List.mem_map_of_mem hm) _ List.mem_cons_self he.symm
      rw [Dict.get_put_ne _ _ hne]
      exact hc m hm
    · obtain rfl := List.mem_singleton.1 hm
      exact Dict.get_put_self _ _ _

theorem fromNodes_mirrors (hnames : (rows.map (·.qualifiedName)).Nodup) : (fromNodes rows).Mirrors rows :=
  mirrors_iff.2 ⟨fromNodes_ok, @adds_full empty [] rows hnames fun _ h => by cases h⟩

theorem removes_full {ns : List CodeNode} (hnames : (rows.map (·.qualifiedName)).Nodup) (hns : ∀ n ∈ ns, n ∈ rows)
    (hc : c.Full rows) : ∀ m ∈ rows, m.id ∉ ns.map (·.id) →
      Dict.get (ns.foldl remove c).nodesByQn m.qualifiedName = some m.id := by
  suffices hrun : ∀ m ∈ rows, ∀ ns : List CodeNode, (∀ n ∈ ns, n ∈ rows) → m.id ∉ ns.map (·.id) → ∀ c : Cache,
      Dict.get c.nodesByQn m.qualifiedName = some m.id →
        Dict.get (ns.foldl remove c).nodesByQn m.qualifiedName = some m.id from
    fun m hm hid => hrun m hm ns hns hid c (hc m hm)
  intro m hm ns
  induction ns with
  | nil => exact fun _ _ c hget => hget
  | cons n ns ih =>
    intro hns hid c hget
    rw [List.map_cons, List.mem_cons, not_or] at hid
    refine ih (fun n hn => hns n (List.mem_cons_of_mem _ hn)) hid.2 _ ?_
    have hne : n.qualifiedName ≠ m.qualifiedName := by
      intro he
      exact hid.1 (congrArg (·.id) (List.inj_on_of_nodup_map hnames (hns n List.mem_cons_self) hm he)).symm
    unfold remove
    dsimp only
    split
    · rw [Dict.get_drop_ne _ hne]
      exact hget
    · exact hget

/-- Rows renamed one after the other, each once and no two to one name, are
found by their new names, and the others by theirs. -/
theorem renames_full {rs : List (CodeNode × ExtractedNode)} (hrows : ∀ r ∈ rs, r.1 ∈ rows)
    (hids : (rs.map (·.1.id)).Nodup) (hnew : (rs.map (·.2.qualifiedName)).Nodup) (hc : c.Full rows) :
    (∀ r ∈ rs, Dict.get (rs.foldl (fun c r => c.rename r.1.id r.1.qualifiedName r.2.qualifiedName) c).nodesByQn
        r.2.qualifiedName = some r.1.id) ∧
      ∀ n ∈ rows, n.id ∉ rs.map (·.1.id) → n.qualifiedName ∉ rs.map (·.2.qualifiedName) →
        Dict.get (rs.foldl (fun c r => c.rename r.1.id r.1.qualifiedName r.2.qualifiedName) c).nodesByQn
          n.qualifiedName = some n.id := by
  induction rs using List.reverseRecOn with
  | nil => exact ⟨by simp, fun n hn _ _ => hc n hn⟩
  | append_singleton rs r ih =>
    rw [List.map_append, List.map_singleton, List.nodup_append] at hids hnew
    have hid : ∀ r' ∈ rs, r'.1.id ≠ r.1.id := fun r' hr' =>
      hids.2.2 _ (List.mem_map_of_mem hr') _ List.mem_cons_self
    have hqn : ∀ r' ∈ rs, r'.2.qualifiedName ≠ r.2.qualifiedName := fun r' hr' =>
      hnew.2.2 _ (List.mem_map_of_mem hr') _ List.mem_cons_self
    obtain ⟨hdone, hother⟩ := ih (fun r hr => hrows r (List.mem_append_left _ hr)) hids.1 hnew.1
    rw [List.foldl_append, List.foldl_cons, List.foldl_nil]
    generalize rs.foldl (fun c r => c.rename r.1.id r.1.qualifiedName r.2.qualifiedName) c = d at hdone hother ⊢
    have hself : ∀ n, n = r.1 → n.qualifiedName ∉ rs.map (·.2.qualifiedName) →
        Dict.get d.nodesByQn n.qualifiedName = some n.id := by
      rintro n rfl hq
      refine hother r.1 (hrows r (by simp)) (fun h => ?_) hq
      obtain ⟨r', hr', he⟩ := List.mem_map.1 h
      exact hid r' hr' he
    -- a name the rename leaves to its row
    have hkeep : ∀ q i, Dict.get d.nodesByQn q = some i → i ≠ r.1.id → q ≠ r.2.qualifiedName →
        Dict.get (d.rename r.1.id r.1.qualifiedName r.2.qualifiedName).nodesByQn q = some i := by
      intro q i hget hi hq
      unfold rename
      split
      · exact hget
      · dsimp only
        rw [Dict.get_put_ne _ _ (Ne.symm hq)]
        split
        · next hold =>
          have hne : r.1.qualifiedName ≠ q := by
            rintro rfl
            exact hi (Option.some.inj (hget.symm.trans hold))
          rw [Dict.get_drop_ne _ hne]
          exact hget
        · exact hget
    constructor
    · intro r' hr'
      rcases List.mem_append.1 hr' with hr' | hr'
      · exact hkeep _ _ (hdone r' hr') (hid r' hr') (hqn r' hr')
      · obtain rfl := List.mem_singleton.1 hr'
        unfold rename
        split
        · next he =>
          rw [← he]
          refine hself _ rfl fun h => ?_
          obtain ⟨r'', hr'', hq⟩ := List.mem_map.1 h
          exact hqn r'' hr'' (hq.trans he)
        · exact Dict.get_put_self _ _ _
    · intro n hn hni hnq
      rw [List.map_append, List.mem_append, not_or] at hni hnq
      refine hkeep _ _ (hother n hn hni.1 hnq.1) ?_ ?_
      · simpa using hni.2
      · simpa using hnq.2

end

end Cache

section
variable {h : Host} {db mid : Db} {g : ExtractedGraph} {c : Cache} {n : CodeNode}

theorem findNode_keep {rows : List CodeNode} {k : ExtractedNode × Nat} {i : Nat} (hi : i ≠ k.2) :
    findNode (keepNode h rows k) i = findNode rows i := by
  unfold findNode keepNode
  induction rows with
  | nil => rfl
  | cons m rows ih =>
    rw [List.map_cons, List.find?_cons, List.find?_cons, ih]
    by_cases hm : m.id = k.2
    · have hne : ¬k.2 = i := fun he => hi he.symm
      simp [hm, CodeNode.assign, hne]
    · simp [hm]

/-- Where each row is kept once, the renames are those of the rows as they
were. -/
theorem renames_eq {kept : List (ExtractedNode × Nat)} (hids : (kept.map (·.2)).Nodup) (rows : List CodeNode) :
    renames h rows kept = kept.filterMap fun k => (findNode rows k.2).map (·, k.1) := by
  induction kept generalizing rows with
  | nil => rfl
  | cons k kept ih =>
    rw [List.map_cons, List.nodup_cons] at hids
    have hrest : kept.filterMap (fun k' => (findNode (keepNode h rows k) k'.2).map (·, k'.1)) =
        kept.filterMap fun k' => (findNode rows k'.2).map (·, k'.1) := by
      refine List.filterMap_congr fun k' hk' => ?_
      rw [findNode_keep fun he => hids.1 (he ▸ List.mem_map_of_mem hk')]
    rw [renames, ih hids.2, hrest, List.filterMap_cons]
    cases findNode rows k.2 <;> rfl

theorem mem_renames (hok : db.Ok) (hkeys : g.keys.Nodup) {r : CodeNode × ExtractedNode} :
    r ∈ renames h db.nodes (matchNodes db g).kept ↔ r.1 ∈ db.nodes ∧ (r.2, r.1.id) ∈ (matchNodes db g).kept := by
  rw [renames_eq (matchNodes_once hok hkeys).ids, List.mem_filterMap]
  constructor
  · intro hr
    obtain ⟨k, hk, hr⟩ := hr
    obtain ⟨n, hn, rfl⟩ := Option.map_eq_some_iff.1 hr
    obtain ⟨hmem, hid⟩ := ByKey.find_mem hn
    exact ⟨hmem, by rw [hid]; exact hk⟩
  · intro hr
    exact ⟨_, hr.2, by rw [findNode, ByKey.find_self hok.nodup hr.1]; rfl⟩

/-- The new names of the kept rows. -/
theorem kept_names (hok : db.Ok) (hkeys : g.keys.Nodup) :
    (((matchNodes db g).kept.map (·.1) ++ (matchNodes db g).pending).map (·.qualifiedName)).Nodup :=
  ((matchNodes_once hok hkeys).perm.map _).nodup_iff.2 deduped_names

theorem renames_pairs (hok : db.Ok) (hkeys : g.keys.Nodup) :
    (renames h db.nodes (matchNodes db g).kept).map (fun r => (r.2, r.1.id)) = (matchNodes db g).kept := by
  rw [renames_eq (matchNodes_once hok hkeys).ids, List.map_filterMap]
  refine (List.filterMap_congr fun k hk => ?_).trans List.filterMap_some
  have hmem : k.2 ∈ preservedIds db g := List.mem_map_of_mem hk
  obtain ⟨n, hn, hid⟩ := preserved_own hmem
  rw [findNode, ← hid, ByKey.find_self hok.nodup (mem_existing.1 hn).1]
  simp [hid]

theorem renamed_full (hok : db.Ok) (hkeys : g.keys.Nodup) (hc : c.Full db.nodes) (hp : persistNodes h db g = some mid) :
    ((renames h db.nodes (matchNodes db g).kept).foldl
      (fun c r => c.rename r.1.id r.1.qualifiedName r.2.qualifiedName) c).Full (keptRows h db g) := by
  have honce := matchNodes_once hok hkeys
  have hpairs := renames_pairs (h := h) hok hkeys
  have hids : (renames h db.nodes (matchNodes db g).kept).map (·.1.id) = (matchNodes db g).kept.map (·.2) := by
    have := congrArg (List.map Prod.snd) hpairs
    rwa [List.map_map] at this
  have hnew : (renames h db.nodes (matchNodes db g).kept).map (·.2.qualifiedName) =
      ((matchNodes db g).kept.map (·.1)).map (·.qualifiedName) := by
    have := congrArg (List.map fun k : ExtractedNode × Nat => k.1.qualifiedName) hpairs
    rw [List.map_map] at this
    rw [List.map_map]
    exact this
  have hnodup : ((renames h db.nodes (matchNodes db g).kept).map (·.2.qualifiedName)).Nodup := by
    have hall := kept_names hok hkeys
    rw [List.map_append] at hall
    rw [hnew]
    exact (List.nodup_append.1 hall).1
  obtain ⟨hdone, hother⟩ := Cache.renames_full (fun r hr => ((mem_renames hok hkeys).1 hr).1)
    (hids ▸ honce.ids) hnodup hc
  have hrows : keptRows h db g = db.nodes.map (takenOver h (matchNodes db g).kept) := keepAll_eq _ _ honce.ids
  intro n' hn'
  rw [hrows] at hn'
  obtain ⟨n, hn, rfl⟩ := List.mem_map.1 hn'
  cases hfind : (matchNodes db g).kept.find? (·.2 = n.id) with
  | some k =>
    obtain ⟨hk, hid⟩ := ByKey.find_mem hfind
    have hr := hdone (n, k.1) ((mem_renames hok hkeys).2 ⟨hn, by rw [← hid]; exact hk⟩)
    simpa [takenOver, hfind, CodeNode.assign] using hr
  | none =>
    have hnot : n.id ∉ (matchNodes db g).kept.map (·.2) := by
      intro hmem
      obtain ⟨k, hk, hid⟩ := List.mem_map.1 hmem
      simpa [hid] using List.find?_eq_none.1 hfind k hk
    have hsame : takenOver h (matchNodes db g).kept n = n := by simp [takenOver, hfind]
    rw [hsame]
    refine hother n hn (hids ▸ hnot) fun hmem => hnot ?_
    obtain ⟨r, hr, hq⟩ := List.mem_map.1 hmem
    obtain ⟨hrow, hkept⟩ := (mem_renames hok hkeys).1 hr
    -- two rows would have the name after the updates
    have htaken : takenOver h (matchNodes db g).kept r.1 = r.1.assign h r.2 := by
      have := find_kept honce.ids hkept
      simp only at this
      simp [takenOver, this]
    have hname := keptRows_names hok hp
    rw [hrows] at hname
    have heq : takenOver h (matchNodes db g).kept r.1 = takenOver h (matchNodes db g).kept n := by
      refine List.inj_on_of_nodup_map hname (List.mem_map_of_mem hrow) (List.mem_map_of_mem hn) ?_
      rw [htaken, hsame]
      exact hq
    have hid : r.1.id = n.id := by
      have := congrArg CodeNode.id heq
      rw [htaken, hsame] at this
      exact this
    exact hid ▸ List.mem_map_of_mem (f := Prod.snd) hkept

theorem updateCache_full (hok : db.Ok) (hkeys : g.keys.Nodup) (hc : c.Full db.nodes)
    (hp : persistNodes h db g = some mid) : (updateCache h db g c).Full mid.nodes := by
  have hrenamed : ((renames h db.nodes (matchNodes db g).kept).foldl
      (fun c r => c.rename r.1.id r.1.qualifiedName r.2.qualifiedName) c).Full (keptRows h db g) :=
    renamed_full hok hkeys hc hp
  have hnames := keptRows_names hok hp
  have hremoved := Cache.removes_full hnames (fun n hn => doomed_kept (h := h) hn) hrenamed
  have hmid := persistNodes_names hok hp
  have hall := persistNodes_idNames hp
  have hfilter : ((doomedNodes db g).foldl Cache.remove ((renames h db.nodes (matchNodes db g).kept).foldl
      (fun c r => c.rename r.1.id r.1.qualifiedName r.2.qualifiedName) c)).Full
      ((keptRows h db g).filter (·.id ∉ (doomedNodes db g).map (·.id))) := fun n hn => by
    rw [List.mem_filter, decide_eq_true_eq] at hn
    exact hremoved n hn.1 hn.2
  have hnew : (((keptRows h db g).filter (·.id ∉ (doomedNodes db g).map (·.id)) ++ insertedRows h db g).map
      (·.qualifiedName)).Nodup := by
    have hsecond := congrArg (List.map Prod.snd) hall
    rw [List.map_map, List.map_map] at hsecond
    exact hsecond ▸ hmid
  rw [updateCache_eq]
  exact (Cache.adds_full hnew hfilter).congr hall

end

/-! ## The parents a call leaves -/

/-- What the rows are linked by. -/
def CodeNode.link (n : CodeNode) : Nat × NodeType × String × Option Nat := (n.id, n.nodeType, n.qualifiedName, n.parentId)

section
variable {rows rows' : List CodeNode} {q : String} {i : Nat} {n : CodeNode} {view : Cache}

theorem idNamed_some (hnames : (rows.map (·.qualifiedName)).Nodup) :
    idNamed rows q = some i ↔ ∃ n ∈ rows, n.qualifiedName = q ∧ n.id = i := by
  unfold idNamed
  rw [Option.map_eq_some_iff]
  constructor
  · intro h
    obtain ⟨n, hn, hid⟩ := h
    obtain ⟨hmem, hq⟩ := ByKey.find_mem hn
    exact ⟨n, hmem, hq, hid⟩
  · intro h
    obtain ⟨n, hn, rfl, rfl⟩ := h
    exact ⟨n, ByKey.find_self hnames hn, rfl⟩

theorem idNamed_congr (h : rows'.map (fun n => (n.id, n.qualifiedName)) = rows.map fun n => (n.id, n.qualifiedName)) :
    idNamed rows' q = idNamed rows q := by
  have hfind : ∀ rows : List CodeNode, idNamed rows q =
      ((rows.map fun n => (n.id, n.qualifiedName)).find? (·.2 = q)).map (·.1) := by
    intro rows
    rw [List.find?_map, Option.map_map]
    rfl
  rw [hfind, hfind, h]

theorem get_view (hview : view.Mirrors rows) (hnames : (rows.map (·.qualifiedName)).Nodup) :
    Dict.get view.nodesByQn q = idNamed rows q := by
  refine Option.ext fun i => ?_
  rw [Dict.get_iff hview.keys, hview.names, idNamed_some hnames]

end

section
variable {h : Host} {db mid : Db} {g : ExtractedGraph} {view : Cache} {n : CodeNode}

theorem persistEdges_link : (persistEdges h db g view mid).nodes.map CodeNode.link =
    (linkedRows h db g view mid.nodes).map CodeNode.link := by
  simp only [persistEdges]
  rw [setUnresolved_map fun _ _ _ => rfl, rebuild_map fun _ _ _ => rfl, refreshUnresolved_map fun _ _ _ => rfl]

/-- The parent pass touches the rows of the call alone. -/
theorem setParents_other {named : Dict.Items String Nat} (xs : List ExtractedNode) {rows : List CodeNode}
    (hn : n ∈ xs.foldl (setParent named) rows) (hid : n.id ∉ named.map (·.2)) : n ∈ rows := by
  have hrow : ∀ {i : Nat} {f : CodeNode → CodeNode} {rows : List CodeNode}, i ∈ named.map (·.2) → (∀ n, (f n).id = n.id) →
      n ∈ setRow i f rows → n ∈ rows := by
    intro i f rows hi hf hn
    obtain ⟨m, hm, rfl⟩ := List.mem_map.1 hn
    split at hid
    · next he =>
      rw [hf, he] at hid
      exact absurd hi hid
    · rename_i hne
      rwa [if_neg hne]
  induction xs generalizing rows with
  | nil => exact hn
  | cons x xs ih =>
    have hstep := ih hn
    unfold setParent at hstep
    split at hstep
    · exact hstep
    · next i hget =>
      have hi : i ∈ named.map (·.2) := List.mem_map_of_mem (f := Prod.snd) (Dict.mem_of_get hget)
      split at hstep
      · exact hrow hi (by intro n; rfl) hstep
      · split at hstep
        · exact hstep
        · exact hrow hi (by intro n; rfl) hstep

theorem takenOver_id (kept : List (ExtractedNode × Nat)) (m : CodeNode) : (takenOver h kept m).id = m.id :=
  congrArg Prod.fst (takenOver_site h kept m)

/-- A row that is none of the call's was there before, in another file. -/
theorem mid_other (hok : db.Ok) (hkeys : g.keys.Nodup) (hp : persistNodes h db g = some mid) (hn : n ∈ mid.nodes)
    (hid : n.id ∉ (namedIds db g).map (·.2)) : ∃ m ∈ db.nodes, m.filePath ∉ g.changedFilePaths ∧
      n = if m.parentId.any (· ∈ doomedIds db g) then { m with parentId := none } else m := by
  rw [mem_namedIds, not_or] at hid
  rw [persistNodes_eq hp] at hn
  rcases List.mem_append.1 hn with hn | hn
  · obtain ⟨hn, hdoomed⟩ := List.mem_filter.1 hn
    obtain ⟨m', hm', rfl⟩ := List.mem_map.1 hn
    have hsame : (if m'.parentId.any (· ∈ doomedIds db g) then { m' with parentId := none } else m').id = m'.id := by
      split <;> rfl
    rw [hsame] at hid hdoomed
    rw [keptRows, keepAll_eq _ _ (matchNodes_once hok hkeys).ids] at hm'
    obtain ⟨m, hm, rfl⟩ := List.mem_map.1 hm'
    rw [takenOver_id] at hid hdoomed
    have hnone : (matchNodes db g).kept.find? (·.2 = m.id) = none := by
      rw [List.find?_eq_none]
      intro k hk
      rw [decide_eq_true_eq]
      rintro he
      exact hid.1 (he ▸ List.mem_map_of_mem (f := Prod.snd) hk)
    have htaken : takenOver h (matchNodes db g).kept m = m := by simp [takenOver, hnone]
    refine ⟨m, hm, fun hpath => ?_, by rw [htaken]⟩
    exact of_decide_eq_true hdoomed (mem_doomedIds.2 ⟨⟨m, mem_existing.2 ⟨hm, hpath⟩, rfl⟩, hid.1⟩)
  · obtain ⟨x, hx, rfl⟩ := List.mem_map.1 hn
    have : db.nextId + x.2 ∈ (matchNodes db g).pending.zipIdx.map fun x => db.nextId + x.2 := List.mem_map_of_mem hx
    exact absurd (mem_numbered.1 this) hid.2

/-- A name that is not moved is the name of the same row as before. -/
theorem idNamed_mid {q : String} (hok : db.Ok) (hkeys : g.keys.Nodup) (hp : persistNodes h db g = some mid)
    (hq : q ∉ movedNames h db g) : idNamed mid.nodes q = idNamed db.nodes q := by
  have honce := matchNodes_once hok hkeys
  simp only [movedNames, List.mem_append, not_or] at hq
  obtain ⟨hpending, hdoomed, hrenamed⟩ := hq
  have hold : ∀ m ∈ db.nodes, (takenOver h (matchNodes db g).kept m).qualifiedName = q ↔ m.qualifiedName = q := by
    intro m hm
    cases hfind : (matchNodes db g).kept.find? (·.2 = m.id) with
    | none => simp [takenOver, hfind]
    | some k =>
      obtain ⟨hk, hid⟩ := ByKey.find_mem hfind
      have hr : (m, k.1) ∈ renames h db.nodes (matchNodes db g).kept :=
        (mem_renames hok hkeys).2 ⟨hm, by rw [← hid]; exact hk⟩
      have hsame : m.qualifiedName = q ∨ k.1.qualifiedName = q → m.qualifiedName = k.1.qualifiedName := by
        intro hor
        by_contra hne
        refine hrenamed (List.mem_flatMap.2 ⟨(m, k.1), List.mem_filter.2 ⟨hr, by simpa using hne⟩, ?_⟩)
        rcases hor with rfl | rfl <;> simp
      have hname : (takenOver h (matchNodes db g).kept m).qualifiedName = k.1.qualifiedName := by
        simp [takenOver, hfind, CodeNode.assign]
      rw [hname]
      exact ⟨fun he => (hsame (.inr he)).trans he, fun he => (hsame (.inl he)).symm.trans he⟩
  have hmem : ∀ i, (∃ n ∈ mid.nodes, n.qualifiedName = q ∧ n.id = i) ↔ ∃ m ∈ db.nodes, m.qualifiedName = q ∧ m.id = i := by
    intro i
    have hpair : (∃ n ∈ mid.nodes, n.qualifiedName = q ∧ n.id = i) ↔
        (i, q) ∈ mid.nodes.map fun n => (n.id, n.qualifiedName) := by
      simp [and_comm]
    rw [hpair, persistNodes_idNames hp, List.map_append, List.mem_append]
    constructor
    · intro hor
      rcases hor with hkept | hnew
      · obtain ⟨m', hm', he⟩ := List.mem_map.1 hkept
        have hm' := (List.mem_filter.1 hm').1
        rw [keptRows, keepAll_eq _ _ honce.ids] at hm'
        obtain ⟨m, hm, rfl⟩ := List.mem_map.1 hm'
        obtain ⟨hid, hname⟩ := Prod.mk.inj he
        exact ⟨m, hm, (hold m hm).1 hname, (takenOver_id _ m).symm.trans hid⟩
      · obtain ⟨n, hn, he⟩ := List.mem_map.1 hnew
        obtain ⟨x, hx, rfl⟩ := List.mem_map.1 hn
        refine absurd ?_ hpending
        rw [← (Prod.mk.inj he).2]
        exact List.mem_map_of_mem (f := ExtractedNode.qualifiedName) (List.fst_mem_of_mem_zipIdx hx)
    · intro hm
      obtain ⟨m, hm, hname, rfl⟩ := hm
      refine .inl (List.mem_map.2 ⟨takenOver h (matchNodes db g).kept m, List.mem_filter.2 ⟨?_, ?_⟩, ?_⟩)
      · rw [keptRows, keepAll_eq _ _ honce.ids]
        exact List.mem_map_of_mem hm
      · rw [decide_eq_true_eq, takenOver_id]
        intro hd
        obtain ⟨d, hd, hid⟩ := List.mem_map.1 hd
        have hdm : d = m := hok.unique (mem_existing.1 (List.mem_filter.1 hd).1).1 hm hid
        exact hdoomed (hname ▸ List.mem_map_of_mem (f := CodeNode.qualifiedName) (hdm ▸ hd))
      · exact Prod.ext (takenOver_id _ m) ((hold m hm).2 hname)
  refine Option.ext fun i => ?_
  rw [idNamed_some (persistNodes_names hok hp), idNamed_some hok.names, hmem]

/-- **One call.** A call that leaves the parents of other files' methods alone,
or links all methods, leaves every method linked. -/
theorem persistEdges_linked (hok : db.Ok) (hkeys : g.keys.Nodup) (hlinked : db.Linked) (hp : persistNodes h db g = some mid)
    (hview : view.Mirrors mid.nodes) (hstay : ParentsStay h db g) : (persistEdges h db g view mid).Linked := by
  have hnames := persistNodes_names hok hp
  have hfinal : ∀ q, idNamed (persistEdges h db g view mid).nodes q = idNamed mid.nodes q := fun q =>
    idNamed_congr (persistEdges_map ⟨fun _ _ => rfl, fun _ _ _ => rfl⟩ fun _ _ _ => rfl)
  intro n hn hmethod
  rw [hfinal]
  obtain ⟨l, hl, hlink⟩ : ∃ l ∈ linkedRows h db g view mid.nodes, l.link = n.link :=
    List.mem_map.1 (persistEdges_link ▸ List.mem_map_of_mem hn)
  simp only [CodeNode.link, Prod.mk.injEq] at hlink
  obtain ⟨-, htype, hname, hparent⟩ := hlink
  rw [← htype] at hmethod
  rw [← hparent, CodeNode.parentName, ← hname]
  -- the rows before methods are linked
  simp only [linkedRows, refreshMethodParents] at hl
  obtain ⟨t, ht, rfl⟩ := List.mem_map.1 hl
  by_cases hscope : t.id ∈ (if parentsMayMove h db g then view.nodeById else (namedIds db g).map (·.2)) ∧
      t.nodeType = .method
  · rw [if_pos hscope]
    exact get_view hview hnames
  · rw [if_neg hscope] at hmethod ⊢
    have hout := fun hin => hscope ⟨hin, hmethod⟩
    have htagged := foldl_map (setTargets_map (π := CodeNode.link) (fun _ _ _ => rfl) (namedIds db g) g.edges)
      [EdgeType.imports, .inherits, .calls] (g.deduped.foldl (setParent (namedIds db g)) mid.nodes)
    obtain ⟨p, hp', hlink⟩ := List.mem_map.1 (htagged ▸ List.mem_map_of_mem ht)
    simp only [CodeNode.link, Prod.mk.injEq] at hlink
    obtain ⟨hid, htype, hname, hparent⟩ := hlink
    cases hmove : parentsMayMove h db g with
    | true =>
      rw [hmove, if_pos rfl] at hout
      refine absurd ((hview.ids t.id).2 ?_) hout
      rw [← foldl_map (setParent_map blind_id (namedIds db g)) g.deduped mid.nodes, ← hid]
      exact List.mem_map_of_mem hp'
    | false =>
      rw [hmove, if_neg Bool.false_ne_true, ← hid] at hout
      obtain ⟨m, hm, hpath, rfl⟩ := mid_other hok hkeys hp (setParents_other _ hp' hout) hout
      have hsame : (if m.parentId.any (· ∈ doomedIds db g) then { m with parentId := none } else m).nodeType = m.nodeType ∧
          (if m.parentId.any (· ∈ doomedIds db g) then { m with parentId := none } else m).qualifiedName =
            m.qualifiedName := by split <;> exact ⟨rfl, rfl⟩
      rw [hsame.1] at htype
      rw [hsame.2] at hname
      have hm_method : m.nodeType = .method := htype.trans hmethod
      have hq := hstay hmove m hm hm_method hpath
      have hfound : m.parentId = idNamed mid.nodes m.parentName := by
        rw [idNamed_mid hok hkeys hp hq]
        exact hlinked m hm hm_method
      have hkept : m.parentId.any (· ∈ doomedIds db g) = false := by
        cases hm_parent : m.parentId with
        | none => rfl
        | some i =>
          rw [hm_parent] at hfound
          obtain ⟨r, hr, -, rfl⟩ := (idNamed_some hnames).1 hfound.symm
          simpa using mid_not_doomed hok hp (List.mem_map_of_mem hr)
      rw [← hparent, ← hname, hkept]
      exact hfound

end

/-! ## Runs with one cache -/

/-- The tables and the cache of an ingest. -/
structure Ingesting where
  db : Db
  cache : Cache

namespace Ingesting

/-- A call in its savepoint: after an `IntegrityError` the tables are as before
and the cache is made anew. -/
def persist (h : Host) (s : Ingesting) (g : ExtractedGraph) : Ingesting :=
  match persistGraph h s.db (some s.cache) g with
  | some (db, some cache) => ⟨db, cache⟩
  | _ => ⟨s.db, Cache.fromNodes s.db.nodes⟩

/-- The tables keep their keys, the parents are exact and the cache has the ids
and names of the rows. -/
structure Exact (s : Ingesting) : Prop where
  ok : s.db.Ok
  linked : s.db.Linked
  cache : s.cache.Mirrors s.db.nodes

/-- Every call of a run is given nodes with keys of their own and leaves the
parents of other files' methods alone, or links all methods. -/
def Stays (h : Host) : Ingesting → List ExtractedGraph → Prop
  | _, [] => True
  | s, g :: gs => (g.keys.Nodup ∧ ParentsStay h s.db g) ∧ Stays h (s.persist h g) gs

section
variable {h : Host} {s : Ingesting} {g : ExtractedGraph}

theorem persist_exact (hs : s.Exact) (hkeys : g.keys.Nodup) (hstay : ParentsStay h s.db g) : (s.persist h g).Exact := by
  unfold persist persistGraph
  by_cases hnil : g.nodes = []
  · rw [if_pos hnil]
    exact hs
  rw [if_neg hnil]
  cases hp : persistNodes h s.db g with
  | none => exact ⟨hs.ok, hs.linked, Cache.fromNodes_mirrors hs.ok.names⟩
  | some mid =>
    obtain ⟨hc, hfull⟩ := Cache.mirrors_iff.1 hs.cache
    have hok := updateCache_ok hs.ok hc hp
    have hmirrors := updateCache_full hs.ok hkeys hfull hp
    have hview : (updateCache h s.db g s.cache).Mirrors mid.nodes := Cache.mirrors_iff.2 ⟨hok, hmirrors⟩
    have hsame := @persistEdges_map h s.db mid g (updateCache h s.db g s.cache) _ (fun n => (n.id, n.qualifiedName))
      ⟨fun _ _ => rfl, fun _ _ _ => rfl⟩ fun _ _ _ => rfl
    refine ⟨persistEdges_ok hs.ok hp hok, persistEdges_linked hs.ok hkeys hs.linked hp hview hstay, ?_⟩
    exact Cache.mirrors_iff.2 ⟨hok.congr hsame, hmirrors.congr hsame⟩

theorem run_exact {gs : List ExtractedGraph} (hs : s.Exact) (hrun : Stays h s gs) : (gs.foldl (persist h) s).Exact := by
  induction gs generalizing s with
  | nil => exact hs
  | cons g gs ih => exact ih (persist_exact hs hrun.1.1 hrun.1.2) hrun.2

theorem stays_before {before after : List ExtractedGraph} (hrun : Stays h s (before ++ after)) : Stays h s before := by
  induction before generalizing s with
  | nil => trivial
  | cons g before ih => exact ⟨hrun.1, ih hrun.2⟩

end

/-- Along every run whose calls leave the parents of other files' methods alone,
the parents and the cache are exact after each call. -/
theorem parents_exact_along {h : Host} {s : Ingesting} {gs : List ExtractedGraph} (hs : s.Exact) (hrun : Stays h s gs) :
    ∀ before, before <+: gs → (before.foldl (persist h) s).Exact := by
  intro before hbefore
  obtain ⟨after, rfl⟩ := hbefore
  exact run_exact hs (stays_before hrun)

def start : Ingesting := ⟨emptyDb, Cache.empty⟩

theorem start_exact : start.Exact where
  ok := emptyDb_ok
  linked := by decide
  cache := @Cache.fromNodes_mirrors [] .nil

def inService (file name : String) (t : NodeType) : ExtractedNode := { extracted file name t with filePath := ⟨["service"], file⟩ }

/-- The file of a method whose receiver's type is in another file. -/
def methodFile : ExtractedGraph where
  nodes := [inService "login.go" "service.login#module" .module, inService "login.go" "service.UserService.Login" .method]
  edges := []

/-- The file of the type. -/
def typeFile : ExtractedGraph where
  nodes := [inService "user.go" "service.user#module" .module, inService "user.go" "service.UserService" .struct]
  edges := []

/-- A file of another language that has the name of the type and nothing in it. -/
def namesakeFile : ExtractedGraph := ⟨[inService "UserService.py" "service.UserService" .module], []⟩

/-- The type's file comes after the method's. -/
theorem parents_exact_along_type : ([methodFile, typeFile].foldl (persist plainHost) start).Exact := by
  have hrun : Stays plainHost start [methodFile, typeFile] := ⟨⟨by decide, by decide⟩, ⟨by decide, by decide⟩, trivial⟩
  exact parents_exact_along start_exact hrun _ (List.prefix_refl _)

/-- A module with the parent's name alone does not become the parent. -/
theorem namesake_not_parent : ¬∀ gs : List ExtractedGraph, (gs.foldl (persist plainHost) start).Exact := by
  intro h
  have hlinked := (h [methodFile, namesakeFile]).linked
  revert hlinked
  decide

end Ingesting

end Cograph
