import Cograph.IngestRows

/-!
# The arrays among the rows that exist

A reader of the `callers`/`callees` arrays skips ids that are no row. Read so,
the arrays follow the CALLS edges through every write of an ingest but one: the
scoped rebuild, which is exact just when the rows it is given are closed under
CALLS edges.
-/

namespace Cograph

/-- Among `ids`, the arrays of a row hold its callees and its callers. -/
def SeesLive (ids : List Nat) (edges : List CodeEdge) (t : Nat × List Nat × List Nat) : Prop :=
  ∀ m ∈ ids, (m ∈ t.2.1 ↔ Calls edges t.1 m) ∧ (m ∈ t.2.2 ↔ Calls edges m t.1)

/-- The arrays follow the CALLS edges among the rows that exist. -/
def Db.Follows (db : Db) : Prop := ∀ t ∈ db.nodes.map CodeNode.arrays, SeesLive (db.nodes.map (·.id)) db.edges t

/-- No array names an id that is still to be given. -/
def Db.Dated (db : Db) : Prop := ∀ t ∈ db.nodes.map CodeNode.arrays, ∀ m, m ∈ t.2.1 ∨ m ∈ t.2.2 → m < db.nextId

theorem arrays_id {rows : List CodeNode} {t : Nat × List Nat × List Nat} (ht : t ∈ rows.map CodeNode.arrays) :
    t.1 ∈ rows.map (·.id) := by
  obtain ⟨n, hn, rfl⟩ := List.mem_map.mp ht
  exact List.mem_map_of_mem hn

variable {h : Host} {db mid : Db} {g : ExtractedGraph} {view : Cache}

theorem follows_of_mirrors (hm : db.Mirrors) : db.Follows := by
  intro t ht m _
  obtain ⟨hout, hin⟩ := mirrors_arrays.mp hm t ht
  exact ⟨hout m, hin m⟩

theorem Db.Ok.calls {a b : Nat} (hok : db.Ok) (hab : Calls db.edges a b) :
    a ∈ db.nodes.map (·.id) ∧ b ∈ db.nodes.map (·.id) := by
  obtain ⟨e, he, -, rfl, hb⟩ := calls_iff.mp hab
  exact ⟨hok.sources e he, hok.targets e he b hb⟩

/-! ## The scoped rebuild of a call -/

section
variable {ids touched peers dropped : List Nat} {old edges : List CodeEdge} {t : Nat × List Nat × List Nat}

/-- A row of a call sees its neighbours again, if outside the scope it saw them
before. -/
theorem rebuildArrays_sees (hch : Mirror.Changed (Calls old) (Calls edges) touched dropped)
    (hids : ∀ a b, Calls edges a b → a ∈ ids ∧ b ∈ ids) (ht : t.1 ∈ ids) (hd : t.1 ∉ dropped)
    (hold : t.1 ∉ touched → ∀ m ∈ ids, m ∉ touched → (m ∈ t.2.1 ↔ Calls old t.1 m) ∧ (m ∈ t.2.2 ↔ Calls old m t.1))
    (hstay : t.1 ∉ touched → t.1 ∉ peers → ∀ m ∈ ids, m ∈ touched → m ∉ dropped →
      (m ∈ t.2.1 ↔ Calls edges t.1 m) ∧ (m ∈ t.2.2 ↔ Calls edges m t.1)) {m : Nat} (hm : m ∈ ids) (hmd : m ∉ dropped) :
    (m ∈ (rebuildArrays ids edges touched peers dropped t).2.1 ↔ Calls edges t.1 m) ∧
      (m ∈ (rebuildArrays ids edges touched peers dropped t).2.2 ↔ Calls edges m t.1) := by
  simp only [rebuildArrays, not_not.mpr ht, if_false]
  by_cases htouched : t.1 ∈ touched
  · simp only [htouched, if_true]
    rw [mem_rebuiltCallees, mem_rebuiltCallers]
    exact ⟨⟨And.left, fun he => ⟨he, Or.inl htouched, hids _ _ he⟩⟩,
      ⟨And.left, fun he => ⟨he, Or.inr htouched, hids _ _ he⟩⟩⟩
  · have hkept : m ∉ touched → (Calls edges t.1 m ↔ Calls old t.1 m) ∧ (Calls edges m t.1 ↔ Calls old m t.1) :=
      fun hmt => ⟨hch.kept _ _ htouched hmt hd hmd, hch.kept _ _ hmt htouched hmd hd⟩
    by_cases hpeer : t.1 ∈ peers
    · simp only [htouched, if_false, hpeer, if_true]
      rw [Mirror.mem_swapped, Mirror.mem_swapped, mem_rebuiltCallees, mem_rebuiltCallers, List.mem_append]
      by_cases hmt : m ∈ touched
      · simp only [htouched, hmt, ht, hm, true_or, or_true, and_true, not_true, and_false, or_false, and_self]
      · have h := hold htouched m hm hmt
        have hk := hkept hmt
        simp only [htouched, hmt, hmd, or_self, false_and, and_false, false_or, not_false_eq_true, and_true]
        exact ⟨h.1.trans hk.1.symm, h.2.trans hk.2.symm⟩
    · simp only [htouched, hpeer, if_false]
      by_cases hmt : m ∈ touched
      · exact hstay htouched hpeer m hm hmt hmd
      · have h := hold htouched m hm hmt
        have hk := hkept hmt
        exact ⟨h.1.trans hk.1.symm, h.2.trans hk.2.symm⟩

theorem rebuildArrays_mem {m : Nat}
    (hm : m ∈ (rebuildArrays ids edges touched peers dropped t).2.1 ∨
      m ∈ (rebuildArrays ids edges touched peers dropped t).2.2) : m ∈ ids ∨ m ∈ t.2.1 ∨ m ∈ t.2.2 := by
  unfold rebuildArrays at hm
  simp only at hm
  split at hm
  · exact Or.inr hm
  · split at hm
    · rw [mem_rebuiltCallees, mem_rebuiltCallers] at hm
      exact Or.inl (hm.elim (·.2.2.2) (·.2.2.1))
    · split at hm
      · rw [Mirror.mem_swapped, Mirror.mem_swapped, mem_rebuiltCallees, mem_rebuiltCallers] at hm
        rcases hm with (hm | hm) | (hm | hm)
        · exact Or.inl hm.2.2.2
        · exact Or.inr (Or.inl hm.1)
        · exact Or.inl hm.2.2.1
        · exact Or.inr (Or.inr hm.1)
      · exact Or.inr hm

end

theorem midArrays_new (hp : persistNodes h db g = some mid) {t : Nat × List Nat × List Nat}
    (ht : t ∈ mid.nodes.map CodeNode.arrays) : t ∈ db.nodes.map CodeNode.arrays ∨ t.2.1 = [] ∧ t.2.2 = [] := by
  rcases midArrays_cases hp ht with hold | ⟨-, hnew⟩
  · exact .inl hold
  · rw [hnew]
    exact .inr ⟨rfl, rfl⟩

section
variable (hok : db.Ok) (hdated : db.Dated) (hp : persistNodes h db g = some mid) (hv : view.Ok mid.nodes)
  (hne : rebuiltIds h db g view mid ≠ [])
include hok hdated hp hv hne

theorem persistEdges_dated : (persistEdges h db g view mid).Dated := by
  have hmid := persistNodes_ok hok hp
  have hle : db.nextId ≤ mid.nextId := by
    rw [persistNodes_eq hp]
    exact Nat.le_add_right ..
  intro t ht m hm
  rw [persistEdges_arrays hne] at ht
  obtain ⟨u, hu, rfl⟩ := List.mem_map.mp ht
  show m < mid.nextId
  rcases rebuildArrays_mem hm with hm | hm
  · obtain ⟨n, hn, rfl⟩ := List.mem_map.mp ((hv.ids m).mp hm)
    exact hmid.fresh n hn
  · rcases midArrays_new hp hu with hold | hnone
    · exact Nat.lt_of_lt_of_le (hdated u hold m hm) hle
    · simp [hnone] at hm

/-- **A call keeps the arrays readable**, also those of rows it does not
reach. -/
theorem persistEdges_follows (hf : db.Follows) : (persistEdges h db g view mid).Follows := by
  have hids : ∀ a b, Calls (finalEdges h db g view mid) a b → a ∈ view.nodeById ∧ b ∈ view.nodeById := fun a b hab =>
    ⟨(hv.ids a).mpr (final_ids hok hp hv hab).1, (hv.ids b).mpr (final_ids hok hp hv hab).2⟩
  have hsame : (persistEdges h db g view mid).nodes.map (·.id) = mid.nodes.map (·.id) :=
    persistEdges_map blind_id fun _ _ _ => rfl
  intro t ht m hm
  rw [hsame] at hm
  rw [persistEdges_arrays hne] at ht
  obtain ⟨u, hu, rfl⟩ := List.mem_map.mp ht
  have hid : u.1 ∈ mid.nodes.map (·.id) := arrays_id hu
  have hfirst : (rebuildArrays view.nodeById (finalEdges h db g view mid) (rebuiltIds h db g view mid)
      ((touchedIds h db g view mid).filter (· ∉ rebuiltIds h db g view mid)) (doomedIds db g) u).1 = u.1 := by
    unfold rebuildArrays
    simp only
    split
    · rfl
    · split
      · rfl
      · split <;> rfl
  rw [hfirst]
  have hold : u.1 ∉ rebuiltIds h db g view mid → u ∈ db.nodes.map CodeNode.arrays := fun hr =>
    (midArrays hp hu).resolve_right fun hn => hr (named_rebuilt hn)
  apply rebuildArrays_sees (calls_changed hok hp hv) hids ((hv.ids _).mpr hid) (mid_not_doomed hok hp hid) ?_ ?_
    ((hv.ids m).mpr hm) (mid_not_doomed hok hp hm)
  · intro hr k hk hkr
    rcases (persistNodes_ids hp).mp ((hv.ids k).mp hk) with ⟨hk, -⟩ | hnew
    · exact hf u (hold hr) k hk
    · exact absurd (named_rebuilt (mem_namedIds.mpr (Or.inr hnew))) hkr
  · intro hr hpeer k hk _ hkd
    have ht : u.1 ∉ touchedIds h db g view mid := fun ht => hpeer (List.mem_filter.mpr ⟨ht, by simpa using hr⟩)
    obtain ⟨hout, hin⟩ := calls_same hok hp hid hr ht hkd
    rw [hout, hin]
    rcases (persistNodes_ids hp).mp ((hv.ids k).mp hk) with ⟨hk, -⟩ | ⟨hge, -⟩
    · exact hf u (hold hr) k hk
    · -- a new row has no edge yet and stands in no array
      have hnone : ¬(k ∈ u.2.1 ∨ k ∈ u.2.2) := fun hin => absurd (hdated u (hold hr) k hin) (Nat.not_lt.mpr hge)
      have hgone : k ∉ db.nodes.map (·.id) := by
        intro hk
        obtain ⟨n, hn, rfl⟩ := List.mem_map.mp hk
        exact absurd (hok.fresh n hn) (Nat.not_lt.mpr hge)
      rw [not_or] at hnone
      exact ⟨iff_of_false hnone.1 fun hc => hgone (hok.calls hc).2,
        iff_of_false hnone.2 fun hc => hgone (hok.calls hc).1⟩

end

section
variable {db' : Db} {cache cache' : Option Cache} (hok : db.Ok) (hc : ∀ c, cache = some c → c.Ok db.nodes)
  (hdated : db.Dated) (hp : persistGraph h db cache g = some (db', cache'))
include hok hc hdated hp

theorem persistGraph_dated : db'.Dated := by
  unfold persistGraph at hp
  split at hp
  · cases hp
    exact hdated
  · rename_i hne
    simp only [Option.map_eq_some_iff, Prod.mk.injEq] at hp
    obtain ⟨mid, hp, rfl, -⟩ := hp
    exact persistEdges_dated hok hdated hp (viewOf_ok hok hc hp) (rebuilt_ne_nil hne)

theorem persistGraph_follows (hf : db.Follows) : db'.Follows := by
  unfold persistGraph at hp
  split at hp
  · cases hp
    exact hf
  · rename_i hne
    simp only [Option.map_eq_some_iff, Prod.mk.injEq] at hp
    obtain ⟨mid, hp, rfl, -⟩ := hp
    exact persistEdges_follows hok hdated hp (viewOf_ok hok hc hp) (rebuilt_ne_nil hne) hf

end

/-! ## Deletes and rebuilds -/

theorem calls_delete {doomed : List Nat} {a b : Nat} : Calls (deleteNodes doomed db).edges a b ↔
    Calls db.edges a b ∧ a ∉ doomed ∧ b ∉ doomed := by
  rw [calls_iff, calls_iff]
  simp only [deleteNodes, List.mem_map, List.mem_filter, decide_eq_true_eq]
  constructor
  · rintro ⟨e, ⟨e, ⟨he, hd⟩, rfl⟩, ht, rfl, hb⟩
    obtain ⟨hb, hbd⟩ := nulled_target.mp hb
    exact ⟨⟨e, he, ht, rfl, hb⟩, hd, hbd⟩
  · rintro ⟨⟨e, he, ht, rfl, hb⟩, hd, hbd⟩
    exact ⟨_, ⟨e, ⟨he, hd⟩, rfl⟩, ht, rfl, nulled_target.mpr ⟨hb, hbd⟩⟩

theorem delete_arrays (doomed : List Nat) : (deleteNodes doomed db).nodes.map CodeNode.arrays =
    (db.nodes.map CodeNode.arrays).filter (·.1 ∉ doomed) := by
  rw [← detach_map arrays_blind doomed db.nodes, List.filter_map]
  rfl

theorem delete_ids (doomed : List Nat) : (deleteNodes doomed db).nodes.map CodeNode.id =
    (db.nodes.map CodeNode.id).filter (· ∉ doomed) := by
  rw [← detach_map blind_id doomed db.nodes, List.filter_map]
  rfl

theorem delete_dated (hdated : db.Dated) (doomed : List Nat) : (deleteNodes doomed db).Dated := by
  intro t ht
  rw [delete_arrays, List.mem_filter] at ht
  exact hdated t ht.1

theorem delete_follows (hf : db.Follows) (doomed : List Nat) : (deleteNodes doomed db).Follows := by
  intro t ht m hm
  rw [delete_arrays, List.mem_filter] at ht
  have hm : m ∈ (db.nodes.map CodeNode.id).filter (· ∉ doomed) := delete_ids doomed ▸ hm
  rw [List.mem_filter] at hm
  obtain ⟨hout, hin⟩ := hf t ht.1 m hm.1
  have htd : t.1 ∉ doomed := by simpa using ht.2
  have hmd : m ∉ doomed := by simpa using hm.2
  rw [calls_delete, calls_delete, hout, hin]
  simp only [htd, hmd, not_false_eq_true, and_self, and_true]

theorem rebuildRelationships_dated (hok : db.Ok) : (rebuildRelationships db).Dated := by
  have hmirrors := rebuildRelationships_mirrors hok
  intro t ht m hm
  obtain ⟨hout, hin⟩ := mirrors_arrays.mp hmirrors t ht
  have hlive : m ∈ db.nodes.map (·.id) := by
    rcases hm with hm | hm
    · exact (hok.calls ((hout m).mp hm)).2
    · exact (hok.calls ((hin m).mp hm)).1
  obtain ⟨n, hn, rfl⟩ := List.mem_map.mp hlive
  exact hok.fresh n hn

/-- The rows given to the scoped rebuild take their CALLS neighbours with
them. -/
def Closed (edges : List CodeEdge) (touched : List Nat) : Prop := ∀ a b, Calls edges a b → (a ∈ touched ↔ b ∈ touched)

section
variable {touched : List Nat}

theorem scoped_ids (touched : List Nat) : (rebuildRelationshipsScoped touched db).nodes.map (·.id) = db.nodes.map (·.id) :=
  rebuild_map (fun _ _ _ => rfl) ..

/-- The arrays of a touched row after the scoped rebuild, among the touched
rows. -/
theorem scoped_arrays (hne : touched ≠ []) {t : Nat × List Nat × List Nat} :
    t ∈ (rebuildRelationshipsScoped touched db).nodes.map CodeNode.arrays ↔ ∃ u ∈ db.nodes.map CodeNode.arrays,
      rebuildArrays ((db.nodes.map (·.id)).filter (· ∈ touched)) db.edges touched [] [] u = t := by
  have hmap : (rebuildRelationshipsScoped touched db).nodes.map CodeNode.arrays = (db.nodes.map CodeNode.arrays).map
      (rebuildArrays ((db.nodes.map (·.id)).filter (· ∈ touched)) db.edges touched [] []) := rebuild_arrays hne _
  rw [hmap, List.mem_map]

theorem scoped_dated (hok : db.Ok) (hdated : db.Dated) : (rebuildRelationshipsScoped touched db).Dated := by
  by_cases hne : touched = []
  · have hsame : rebuildRelationshipsScoped touched db = db := by
      simp [rebuildRelationshipsScoped, rebuildBackCompatArrays, hne]
    rwa [hsame]
  · intro t ht m hm
    obtain ⟨u, hu, rfl⟩ := (scoped_arrays hne).mp ht
    rcases rebuildArrays_mem hm with hm | hm
    · obtain ⟨n, hn, rfl⟩ := List.mem_map.mp (List.mem_filter.mp hm).1
      exact hok.fresh n hn
    · exact hdated u hu m hm

/-- **When the scoped rebuild is exact.** -/
theorem scoped_follows_iff (hok : db.Ok) (hf : db.Follows) :
    (rebuildRelationshipsScoped touched db).Follows ↔ Closed db.edges touched := by
  by_cases hne : touched = []
  · have hsame : rebuildRelationshipsScoped touched db = db := by
      simp [rebuildRelationshipsScoped, rebuildBackCompatArrays, hne]
    rw [hsame]
    exact iff_of_true hf (by simp [Closed, hne])
  have hin : ∀ {i}, i ∈ (db.nodes.map (·.id)).filter (· ∈ touched) ↔ i ∈ db.nodes.map (·.id) ∧ i ∈ touched := by simp
  -- a row that is given keeps the neighbours that are given, another row all
  have harrays : ∀ u ∈ db.nodes.map CodeNode.arrays, ∀ m ∈ db.nodes.map (·.id),
      let t := rebuildArrays ((db.nodes.map (·.id)).filter (· ∈ touched)) db.edges touched [] [] u
      t.1 = u.1 ∧ (m ∈ t.2.1 ↔ Calls db.edges u.1 m ∧ (u.1 ∈ touched → m ∈ touched)) ∧
        (m ∈ t.2.2 ↔ Calls db.edges m u.1 ∧ (u.1 ∈ touched → m ∈ touched)) := by
    intro u hu m hm
    obtain ⟨hout, hinto⟩ := hf u hu m hm
    have hid := arrays_id hu
    by_cases ht : u.1 ∈ touched
    · simp only [rebuildArrays, not_not.mpr (hin.mpr ⟨hid, ht⟩), if_false, ht, if_true, true_implies]
      rw [mem_rebuiltCallees, mem_rebuiltCallers, hin, hin]
      exact ⟨trivial, ⟨fun hx => ⟨hx.1, hx.2.2.2.2⟩, fun hx => ⟨hx.1, Or.inl ht, ⟨hid, ht⟩, hm, hx.2⟩⟩,
        ⟨fun hx => ⟨hx.1, hx.2.2.1.2⟩, fun hx => ⟨hx.1, Or.inr ht, ⟨hm, hx.2⟩, hid, ht⟩⟩⟩
    · have hnot : u.1 ∉ (db.nodes.map (·.id)).filter (· ∈ touched) := fun hx => ht (hin.mp hx).2
      simp only [rebuildArrays, hnot, not_false_eq_true, if_true, ht, false_implies, and_true, true_and]
      exact ⟨hout, hinto⟩
  have hrow : ∀ {i}, i ∈ db.nodes.map (·.id) → ∃ u ∈ db.nodes.map CodeNode.arrays, u.1 = i := by
    intro i hi
    obtain ⟨n, hn, rfl⟩ := List.mem_map.mp hi
    exact ⟨n.arrays, List.mem_map_of_mem hn, rfl⟩
  constructor
  · intro hfollows a b hab
    obtain ⟨ha, hb⟩ := hok.calls hab
    constructor
    · intro hat
      obtain ⟨u, hu, rfl⟩ := hrow ha
      obtain ⟨hfirst, hout, -⟩ := harrays u hu b hb
      have := (hfollows _ ((scoped_arrays hne).mpr ⟨u, hu, rfl⟩) b ((scoped_ids touched).symm ▸ hb)).1.mpr (hfirst ▸ hab)
      exact (hout.mp this).2 hat
    · intro hbt
      obtain ⟨u, hu, rfl⟩ := hrow hb
      obtain ⟨hfirst, -, hinto⟩ := harrays u hu a ha
      have := (hfollows _ ((scoped_arrays hne).mpr ⟨u, hu, rfl⟩) a ((scoped_ids touched).symm ▸ ha)).2.mpr (hfirst ▸ hab)
      exact (hinto.mp this).2 hbt
  · intro hclosed t ht m hm
    obtain ⟨u, hu, rfl⟩ := (scoped_arrays hne).mp ht
    obtain ⟨hfirst, hout, hinto⟩ := harrays u hu m (scoped_ids touched ▸ hm)
    rw [hfirst, hout, hinto]
    exact ⟨⟨And.left, fun hc => ⟨hc, (hclosed _ _ hc).mp⟩⟩, ⟨And.left, fun hc => ⟨hc, (hclosed _ _ hc).mpr⟩⟩⟩

end

end Cograph
