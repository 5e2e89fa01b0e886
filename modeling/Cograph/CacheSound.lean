import Cograph.BuilderRows
import Cograph.ByKey

/-!
# The ingest cache mirrors the rows

The cache is right about a list of rows when it knows exactly their ids and
each of its names is the name of a row. Adding, removing and renaming a row
keep that, so a call that is given a cache leaves one that is right about the
rows it writes.
-/

namespace Cograph

structure Cache.Ok (c : Cache) (rows : List CodeNode) : Prop where
  ids : ∀ i, i ∈ c.nodeById ↔ i ∈ rows.map (·.id)
  keys : (c.nodesByQn.map (·.1)).Nodup
  named : ∀ x ∈ c.nodesByQn, ∃ n ∈ rows, n.id = x.2 ∧ n.qualifiedName = x.1

namespace Cache

variable {c : Cache} {rows : List CodeNode}

theorem Ok.congr (hc : c.Ok rows) {rows' : List CodeNode}
    (h : rows'.map (fun n => (n.id, n.qualifiedName)) = rows.map fun n => (n.id, n.qualifiedName)) : c.Ok rows' where
  ids i := by
    have hids := congrArg (List.map Prod.fst) h
    rw [List.map_map, List.map_map] at hids
    exact (hc.ids i).trans (by rw [show rows'.map (·.id) = rows.map (·.id) from hids])
  keys := hc.keys
  named x hx := by
    obtain ⟨n, hn, hid, hq⟩ := hc.named x hx
    have hmem : (n.id, n.qualifiedName) ∈ rows'.map fun n => (n.id, n.qualifiedName) := by
      rw [h]
      exact List.mem_map_of_mem hn
    obtain ⟨n', hn', he⟩ := List.mem_map.mp hmem
    simp only [Prod.mk.injEq] at he
    exact ⟨n', hn', he.1.trans hid, he.2.trans hq⟩

theorem drop_keys {κ α : Type} [DecidableEq κ] {d : Dict.Items κ α} (hd : (d.map (·.1)).Nodup) (k : κ) :
    ((Dict.drop d k).map (·.1)).Nodup :=
  hd.sublist (List.filter_sublist.map _)

theorem empty_ok : empty.Ok [] := ⟨by simp [empty], by simp [empty], by simp [empty]⟩

theorem add_ok (hc : c.Ok rows) (n : CodeNode) : (c.add n).Ok (rows ++ [n]) where
  ids i := by
    have := hc.ids i
    simp only [add, List.map_append, List.map_cons, List.map_nil, List.mem_append, List.mem_singleton, ← this]
    split
    · rename_i hmem
      constructor
      · exact Or.inl
      · rintro (hi | rfl)
        · exact hi
        · exact hmem
    · simp
  keys := Dict.put_nodup hc.keys _ _
  named x hx := by
    rcases Dict.mem_put hx with rfl | hx
    · exact ⟨n, by simp, rfl, rfl⟩
    · obtain ⟨m, hm, he⟩ := hc.named x hx
      exact ⟨m, List.mem_append_left _ hm, he⟩

theorem adds_ok (hc : c.Ok rows) (ns : List CodeNode) : (ns.foldl add c).Ok (rows ++ ns) := by
  induction ns generalizing c rows with
  | nil => simpa using hc
  | cons n ns ih =>
    have := ih (add_ok hc n)
    simpa using this

theorem fromNodes_ok : (fromNodes rows).Ok rows := by
  have := adds_ok empty_ok rows
  simpa [fromNodes] using this

theorem remove_ok (hc : c.Ok rows) (hids : (rows.map (·.id)).Nodup) {n : CodeNode} (hn : n ∈ rows) :
    (c.remove n).Ok (rows.filter (·.id ≠ n.id)) where
  ids i := by
    have := hc.ids i
    simp only [remove, List.mem_filter, decide_eq_true_eq, this, List.mem_map]
    constructor
    · rintro ⟨⟨m, hm, rfl⟩, hne⟩
      exact ⟨m, ⟨hm, hne⟩, rfl⟩
    · rintro ⟨m, ⟨hm, hne⟩, rfl⟩
      exact ⟨⟨m, hm, rfl⟩, hne⟩
  keys := by
    simp only [remove]
    split
    · exact drop_keys hc.keys _
    · exact hc.keys
  named x hx := by
    have hmem : x ∈ c.nodesByQn := by
      simp only [remove] at hx
      split at hx
      · exact (Dict.mem_drop.mp hx).1
      · exact hx
    obtain ⟨m, hm, hid, hq⟩ := hc.named x hmem
    refine ⟨m, ?_, hid, hq⟩
    rw [List.mem_filter, decide_eq_true_eq]
    refine ⟨hm, ?_⟩
    intro he
    -- the removed row's entry stands under its own name, so it was dropped
    have hmn : m = n := List.inj_on_of_nodup_map hids hm hn he
    subst hmn
    have hget : Dict.get c.nodesByQn m.qualifiedName = some m.id :=
      Dict.get_of_nodup hc.keys (by rw [hid, hq]; exact hmem)
    simp only [remove, hget, if_true] at hx
    exact (Dict.mem_drop.mp hx).2 hq.symm

theorem removes_ok (hc : c.Ok rows) (hids : (rows.map (·.id)).Nodup) {ns : List CodeNode} (hns : ∀ n ∈ ns, n ∈ rows)
    (hnd : (ns.map (·.id)).Nodup) : (ns.foldl remove c).Ok (rows.filter (·.id ∉ ns.map (·.id))) := by
  induction ns generalizing c rows with
  | nil => simpa using hc
  | cons n ns ih =>
    rw [List.map_cons, List.nodup_cons] at hnd
    have hstep := remove_ok hc hids (hns n (List.mem_cons_self ..))
    have hrest : ∀ m ∈ ns, m ∈ rows.filter (·.id ≠ n.id) := by
      intro m hm
      rw [List.mem_filter, decide_eq_true_eq]
      refine ⟨hns m (List.mem_cons_of_mem _ hm), ?_⟩
      intro he
      exact hnd.1 (he ▸ List.mem_map_of_mem hm)
    have := ih hstep (hids.sublist (List.filter_sublist.map _)) hrest hnd.2
    rw [List.filter_filter] at this
    rw [List.foldl_cons]
    convert this using 2
    ext m
    by_cases h₁ : m.id = n.id <;> by_cases h₂ : m.id ∈ ns.map (·.id) <;> simp [h₁, h₂]

theorem rename_ok {h : Host} (hc : c.Ok rows) (hids : (rows.map (·.id)).Nodup) {n : CodeNode} (hn : n ∈ rows)
    (x : ExtractedNode) : (c.rename n.id n.qualifiedName x.qualifiedName).Ok (keepNode h rows (x, n.id)) := by
  have hrow : n.assign h x ∈ keepNode h rows (x, n.id) := List.mem_map.mpr ⟨n, hn, by simp⟩
  have hother : ∀ m ∈ rows, m.id ≠ n.id → m ∈ keepNode h rows (x, n.id) := fun m hm hne =>
    List.mem_map.mpr ⟨m, hm, by simp [hne]⟩
  refine ⟨?_, ?_, ?_⟩
  · intro i
    rw [keepNode_map CodeNode.id fun _ _ => rfl]
    unfold rename
    split <;> exact hc.ids i
  · unfold rename
    split
    · exact hc.keys
    · apply Dict.put_nodup
      split
      · exact drop_keys hc.keys _
      · exact hc.keys
  · intro y hy
    by_cases hsame : n.qualifiedName = x.qualifiedName
    · rw [rename, if_pos hsame] at hy
      obtain ⟨m, hm, hid, hq⟩ := hc.named y hy
      by_cases hmn : m.id = n.id
      · have : m = n := List.inj_on_of_nodup_map hids hm hn hmn
        subst this
        exact ⟨_, hrow, hid, hsame.symm.trans hq⟩
      · exact ⟨m, hother m hm hmn, hid, hq⟩
    · rw [rename, if_neg hsame] at hy
      rcases Dict.mem_put hy with rfl | hy
      · exact ⟨_, hrow, rfl, rfl⟩
      · have hmem : y ∈ c.nodesByQn := by
          split at hy
          · exact (Dict.mem_drop.mp hy).1
          · exact hy
        obtain ⟨m, hm, hid, hq⟩ := hc.named y hmem
        by_cases hmn : m.id = n.id
        · have : m = n := List.inj_on_of_nodup_map hids hm hn hmn
          subst this
          have hget : Dict.get c.nodesByQn m.qualifiedName = some m.id :=
            Dict.get_of_nodup hc.keys (by rw [hid, hq]; exact hmem)
          rw [if_pos hget] at hy
          exact absurd hq.symm (Dict.mem_drop.mp hy).2
        · exact ⟨m, hother m hm hmn, hid, hq⟩

theorem renames_ok {h : Host} (kept : List (ExtractedNode × Nat)) (hc : c.Ok rows)
    (hids : (rows.map (·.id)).Nodup) :
    ((renames h rows kept).foldl (fun c r => c.rename r.1.id r.1.qualifiedName r.2.qualifiedName) c).Ok
      (kept.foldl (keepNode h) rows) := by
  induction kept generalizing c rows with
  | nil => exact hc
  | cons k kept ih =>
    have hids' : ((keepNode h rows k).map (·.id)).Nodup := by
      rw [keepNode_map CodeNode.id fun _ _ => rfl]
      exact hids
    simp only [renames, List.foldl_append, List.foldl_cons]
    cases hf : findNode rows k.2 with
    | none =>
      -- no row has the id, so nothing is renamed and no row changes
      have hsame : keepNode h rows k = rows := by
        refine (List.map_congr_left fun n hn => ?_).trans (List.map_id _)
        have := List.find?_eq_none.mp hf n hn
        simp only [decide_eq_true_eq] at this
        rw [if_neg this, id]
      exact ih (hsame.symm ▸ hc) hids'
    | some n =>
      obtain ⟨hn, hid⟩ := ByKey.find_mem hf
      have := rename_ok (h := h) hc hids hn k.1
      rw [hid] at this
      simp only [Option.map_some, Option.toList_some, List.foldl_cons, List.foldl_nil, hid]
      exact ih this hids'

end Cache

variable {h : Host} {db mid : Db} {g : ExtractedGraph}

/-- The rows to delete are as they were when they are deleted. -/
theorem doomed_kept {n : CodeNode} (hn : n ∈ doomedNodes db g) : n ∈ keptRows h db g := by
  simp only [doomedNodes, List.mem_filter, decide_eq_true_eq] at hn
  have hsame : ∀ (kept : List (ExtractedNode × Nat)) (rows : List CodeNode), n ∈ rows → n.id ∉ kept.map (·.2) →
      n ∈ kept.foldl (keepNode h) rows := by
    intro kept
    induction kept with
    | nil => intro rows hr _; exact hr
    | cons k kept ih =>
      intro rows hr hni
      rw [List.map_cons, List.mem_cons, not_or] at hni
      exact ih _ (List.mem_map.mpr ⟨n, hr, by simp [hni.1]⟩) hni.2
  exact hsame _ _ (mem_existing.mp hn.1).1 hn.2

theorem updateCache_eq (c : Cache) : updateCache h db g c = (insertedRows h db g).foldl Cache.add
    ((doomedNodes db g).foldl Cache.remove ((renames h db.nodes (matchNodes db g).kept).foldl
      (fun c r => c.rename r.1.id r.1.qualifiedName r.2.qualifiedName) c)) := by
  simp only [updateCache, insertedRows, List.foldl_map]

/-- The rows the node half leaves have the ids and the names of those kept and
not deleted, and of the new ones. -/
theorem persistNodes_idNames (hp : persistNodes h db g = some mid) :
    mid.nodes.map (fun n => (n.id, n.qualifiedName)) =
      ((keptRows h db g).filter (·.id ∉ (doomedNodes db g).map (·.id)) ++ insertedRows h db g).map
        fun n => (n.id, n.qualifiedName) := by
  rw [persistNodes_eq hp]
  simp only [List.map_append]
  congr 1
  -- detaching children changes neither ids nor names
  have hdetach : ∀ n : CodeNode, ((if n.parentId.any (· ∈ doomedIds db g) then { n with parentId := none } else n).id,
      (if n.parentId.any (· ∈ doomedIds db g) then { n with parentId := none } else n).qualifiedName) =
      (n.id, n.qualifiedName) := fun n => by split <;> rfl
  rw [detachSurvivingChildren, List.filter_map, List.map_map]
  simp only [Function.comp_def, hdetach]
  congr 1
  apply List.filter_congr
  intro n _
  rw [show (if n.parentId.any (· ∈ doomedIds db g) then { n with parentId := none } else n).id = n.id from
    congrArg Prod.fst (hdetach n)]
  rfl

/-- **The mutation contract.** A cache that mirrors the rows before a call
mirrors the rows the call writes. -/
theorem updateCache_ok {c : Cache} (hok : db.Ok) (hc : c.Ok db.nodes) (hp : persistNodes h db g = some mid) :
    (updateCache h db g c).Ok mid.nodes := by
  have hrenamed := Cache.renames_ok (h := h) (matchNodes db g).kept hc hok.nodup
  have hids : ((keptRows h db g).map (·.id)).Nodup := by
    rw [keptRows_map CodeNode.id fun _ _ => rfl]
    exact hok.nodup
  have hdoomed : ((doomedNodes db g).map (·.id)).Nodup :=
    hok.nodup.sublist ((List.filter_sublist.trans List.filter_sublist).map _)
  have hremoved := Cache.removes_ok hrenamed hids (fun n hn => doomed_kept hn) hdoomed
  have hadded := Cache.adds_ok hremoved (insertedRows h db g)
  rw [updateCache_eq]
  exact hadded.congr (persistNodes_idNames hp)

end Cograph
