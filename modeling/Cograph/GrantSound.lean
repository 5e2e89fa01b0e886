import Cograph.CollectionRequests
import Cograph.CollectionsSound

/-!
# What a write grant lets a caller change

One inversion lemma says how a request of a caller who is neither the owner of a
collection nor an instance admin can change the rows of that collection: it
leaves them, or it is an update that the ladder at WRITE lets through. Only the
visibility of such an update reaches who may read.
-/

namespace Cograph.Collections

open Kleene Scim
open Access (GrantLevel GroupMember)
open Uploads (ApiError MdJobKind MdJobStatus)

/-! ## Rows -/

theorem bind_ok {ε α β : Type} {x : Except ε α} {f : α → Except ε β} {b : β} :
    x >>= f = .ok b ↔ ∃ a, x = .ok a ∧ f a = .ok b := by
  cases x with
  | error e => simp [bind, Except.bind]
  | ok a => simp [bind, Except.bind]

theorem refuseIf_ok {p : Prop} [Decidable p] {e : ApiError} {u : Unit} : refuseIf p e = .ok u ↔ ¬p := by
  by_cases h : p <;> simp [refuseIf, h]

section
variable {db : Tables} {c c' : MdCollection} {i : Nat}

theorem get_put (hc : (db.get c'.id).isSome) : (db.put c').get i = if i = c'.id then some c' else db.get i := by
  have hfind : (db.put c').get i = (db.get i).map fun x => if x.id = c'.id then c' else x := by
    simp only [Tables.get, Tables.put, List.find?_map]
    congr 2
    funext x
    by_cases hx : x.id = c'.id <;> simp [hx]
  rw [hfind]
  by_cases hi : i = c'.id
  · obtain ⟨x, hx⟩ := Option.isSome_iff_exists.1 hc
    simp [hi, hx, (get_some.1 hx).2]
  · cases hx : db.get i with
    | none => simp [hi]
    | some x => simp [hi, (get_some.1 hx).2]

theorem get_add (h : db.get i = some c) : (db.add c').get i = some c := by
  unfold Tables.add
  split
  · exact h
  · obtain ⟨hc, hid⟩ := get_some.1 h
    exact get_some.2 ⟨by simp [hc], hid⟩

theorem get_remove {j : Nat} (hne : i ≠ j) : (db.remove j).get i = db.get i := by
  cases h : db.get i with
  | some x =>
    obtain ⟨hx, hid⟩ := get_some.1 h
    refine get_some.2 ⟨?_, hid⟩
    simp [Tables.remove, hx, hid, hne]
  | none =>
    simp only [Tables.get, Tables.remove, List.find?_eq_none] at h ⊢
    intro x hx
    exact h x (List.mem_of_mem_filter hx)

end

/-! ## Who reads a collection -/

/-- The collection is still there with the same visibility, owner and source. -/
def SameRow (i : Nat) (db db' : Tables) : Prop :=
  ∃ c c', db.get i = some c ∧ db'.get i = some c' ∧ c'.visibility = c.visibility ∧ c'.ownerId = c.ownerId ∧
    c'.sourceRepositoryId = c.sourceRepositoryId ∧ c'.sourcePath = c.sourcePath

/-- With the grants on it and all memberships. -/
structure SameAccess (i : Nat) (db db' : Tables) : Prop where
  row : SameRow i db db'
  grants : db'.grants.filter (·.collectionId = i) = db.grants.filter (·.collectionId = i)
  members : db'.members = db.members

theorem SameAccess.of_rows {i : Nat} {db db' : Tables} {c : MdCollection} (hc : db.get i = some c)
    (hrow : db'.get i = some c) (hgrants : db'.grants = db.grants) (hmembers : db'.members = db.members) :
    SameAccess i db db' := by
  refine ⟨⟨c, c, hc, hrow, ?_⟩, ?_, hmembers⟩
  · simp
  · rw [hgrants]

theorem SameAccess.trans {i : Nat} {db₁ db₂ db₃ : Tables} (h : SameAccess i db₁ db₂) (h' : SameAccess i db₂ db₃) :
    SameAccess i db₁ db₃ := by
  obtain ⟨c₁, c₂, h₁, h₂, hfields⟩ := h.row
  obtain ⟨c, c₃, h₂', h₃, hfields'⟩ := h'.row
  obtain rfl := Option.some.inj (h₂.symm.trans h₂')
  refine ⟨⟨c₁, c₃, h₁, h₃, ?_⟩, h'.grants.trans h.grants, h'.members.trans h.members⟩
  grind

theorem granted_congr {db db' : Tables} {c c' : MdCollection} (userId : Nat) (hid : c'.id = c.id)
    (hgrants : db'.grants.filter (·.collectionId = c.id) = db.grants.filter (·.collectionId = c.id))
    (hmembers : db'.members = db.members) : Granted db' userId c' ↔ Granted db userId c := by
  have hmem (g : CollectionGrant) : (g ∈ db'.grants ∧ g.collectionId = c.id) ↔ g ∈ db.grants ∧ g.collectionId = c.id := by
    have := congrArg (g ∈ ·) hgrants
    simpa using this
  simp only [Granted, hid, hmembers]
  constructor
  · intro h
    obtain ⟨g, hg, hgid, hm⟩ := h
    obtain ⟨hg, hgid⟩ := (hmem g).1 ⟨hg, hgid⟩
    exact ⟨g, hg, hgid, hm⟩
  · intro h
    obtain ⟨g, hg, hgid, hm⟩ := h
    obtain ⟨hg, hgid⟩ := (hmem g).2 ⟨hg, hgid⟩
    exact ⟨g, hg, hgid, hm⟩

def CanRead (db : Tables) (currentUser : Option User) (i : Nat) : Prop :=
  ∃ c, getReadableMdCollection db currentUser i = .ok c

theorem canRead_iff {db : Tables} {currentUser : Option User} {c : MdCollection} {i : Nat} (h : db.get i = some c) :
    CanRead db currentUser i ↔ Reads db currentUser c := by
  constructor
  · intro ⟨c', hc'⟩
    obtain ⟨hget, hreads⟩ := readable_ok.1 hc'
    rw [← get_some, h] at hget
    obtain rfl := Option.some.inj hget
    exact hreads
  · intro hreads
    exact ⟨c, readable_ok.2 ⟨get_some.1 h, hreads⟩⟩

theorem SameAccess.readers {i : Nat} {db db' : Tables} (h : SameAccess i db db') (currentUser : Option User) :
    CanRead db' currentUser i ↔ CanRead db currentUser i := by
  obtain ⟨c, c', hc, hc', hvisibility, howner, -⟩ := h.row
  have hid : c.id = i := (get_some.1 hc).2
  have hid' : c'.id = c.id := (get_some.1 hc').2.trans hid.symm
  have hgrants := h.grants
  rw [← hid] at hgrants
  have hgranted (userId : Nat) := granted_congr userId hid' hgrants h.members
  rw [canRead_iff hc', canRead_iff hc]
  simp only [Reads, hvisibility, howner, hgranted]

/-! ## Requests of an outsider -/

/-- Neither the owner of the collection nor an instance owner or admin. -/
def Outsider (c : MdCollection) (currentUser : Option User) : Prop :=
  ∀ user, currentUser = some user → isAdmin user = false ∧ c.ownerId ≠ some user.id

/-- The update passes the ladder by a WRITE grant, does not touch the source and
has an acceptable name, if any. -/
def Accepted (db : Tables) (currentUser : Option User) (c : MdCollection) (payload : UpdatePayload) : Prop :=
  (∃ user, currentUser = some user ∧ ∃ g ∈ grantsOf db user.id, g.collectionId = c.id ∧ g.level = .write) ∧
    payload.source = none ∧ ∃ named, rename db c payload.name = .ok named

theorem write_of_rank {level : GrantLevel} : rank .write ≤ rank level ↔ level = .write := by
  cases level <;> decide

theorem outsider_ladder {db : Tables} {user : User} {c : MdCollection} {i : Nat} (hget : db.get i = some c)
    (h : isAdmin user = false ∧ c.ownerId ≠ some user.id) (c' : MdCollection) :
    requireCollectionOwnerOrAdmin db user i = .ok c' ↔
      c = c' ∧ ∃ g ∈ grantsOf db user.id, g.collectionId = c.id ∧ g.level = .write := by
  rw [requireCollectionOwnerOrAdmin, mutation_ok, hget, Option.some.injEq]
  constructor
  · rintro ⟨rfl, hpermission⟩
    refine ⟨rfl, ?_⟩
    simpa [permission_iff, h, write_of_rank] using hpermission
  · rintro ⟨rfl, hgrant⟩
    refine ⟨rfl, ?_⟩
    simpa [permission_iff, h, write_of_rank] using hgrant

theorem rename_keeps {db : Tables} {c named : MdCollection} {name : Option Str} (h : rename db c name = .ok named) :
    named = { c with name := named.name } := by
  cases name with
  | none =>
    obtain rfl := Except.ok.inj h
    simp
  | some name =>
    obtain ⟨newName, -, h⟩ := bind_ok.1 h
    obtain ⟨-, -, h⟩ := bind_ok.1 h
    obtain rfl := Except.ok.inj h
    simp

theorem bindSource_id {s : State} {user : User} {c bound : MdCollection} {source : Option (Option (Nat × Str))}
    (h : bindSource s user c source = .ok bound) : bound.id = c.id := by
  unfold bindSource at h
  split at h
  · obtain rfl := Except.ok.inj h
    rfl
  · split at h
    · simp at h
    · split at h
      · obtain rfl := Except.ok.inj h
        rfl
      · split at h
        · simp at h
        · obtain rfl := Except.ok.inj h
          rfl

def updatedRow (payload : UpdatePayload) (named : MdCollection) : MdCollection :=
  { named with
    description := payload.description.or named.description
    visibility := payload.visibility.getD named.visibility }

/-- Any update that goes through puts one row in place of the old one. -/
theorem update_put {s s' : State} {currentUser : Option User} {i : Nat} {payload : UpdatePayload}
    (h : updateMdCollection s currentUser i payload = .ok s') :
    ∃ c', c'.id = i ∧ (s.db.get i).isSome ∧ s'.db = s.db.put c' := by
  obtain ⟨user, -, h⟩ := bind_ok.1 h
  obtain ⟨collection, hgate, h⟩ := bind_ok.1 h
  obtain ⟨bound, hbound, h⟩ := bind_ok.1 h
  obtain ⟨named, hnamed, h⟩ := bind_ok.1 h
  obtain rfl := Except.ok.inj h
  have hget := (mutation_ok.1 hgate).1
  have hid : (updatedRow payload named).id = i := by
    have hrename := congrArg (·.id) (rename_keeps hnamed)
    simpa [updatedRow, hrename, bindSource_id hbound] using (get_some.1 hget).2
  exact ⟨updatedRow payload named, hid, by simp [hget], rfl⟩

theorem outsider_update {s s' : State} {currentUser : Option User} {c : MdCollection} {payload : UpdatePayload}
    (hget : s.db.get c.id = some c) (ho : Outsider c currentUser) :
    updateMdCollection s currentUser c.id payload = .ok s' ↔
      Accepted s.db currentUser c payload ∧ ∃ named, rename s.db c payload.name = .ok named ∧
        s' = { s with db := s.db.put (updatedRow payload named) } := by
  cases currentUser with
  | none =>
    constructor
    · intro h
      obtain ⟨user, huser, -⟩ := bind_ok.1 h
      simp [requireCurrentUser] at huser
    · rintro ⟨⟨⟨user, huser, -⟩, -⟩, -⟩
      simp at huser
  | some user =>
    have hladder := outsider_ladder hget (ho user rfl)
    constructor
    · intro h
      obtain ⟨user', huser, hladdered⟩ := bind_ok.1 h
      obtain rfl := Except.ok.inj huser
      obtain ⟨collection, hgate, hsourced⟩ := bind_ok.1 hladdered
      obtain ⟨hsame, hgrant⟩ := (hladder collection).1 hgate
      obtain ⟨bound, hbound, hrenamed⟩ := bind_ok.1 hsourced
      have hsource : payload.source = none ∧ bound = c := by
        cases hs : payload.source with
        | none =>
          rw [hs] at hbound
          exact ⟨rfl, (Except.ok.inj hbound).symm.trans hsame.symm⟩
        | some source => simp [hs, bindSource, (ho user rfl).1] at hbound
      rw [hsource.2] at hrenamed
      obtain ⟨named, hnamed, hdone⟩ := bind_ok.1 hrenamed
      exact ⟨⟨⟨user, rfl, hgrant⟩, hsource.1, named, hnamed⟩, named, hnamed, (Except.ok.inj hdone).symm⟩
    · rintro ⟨⟨⟨user', huser, hgrant⟩, hsource, -⟩, named, hnamed, rfl⟩
      obtain rfl := Option.some.inj huser
      refine bind_ok.2 ⟨user, rfl, bind_ok.2 ⟨c, (hladder c).2 ⟨rfl, hgrant⟩, bind_ok.2 ⟨c, ?_, bind_ok.2 ⟨named, hnamed, ?_⟩⟩⟩⟩
      · rw [hsource]
        rfl
      · rfl

theorem handled_ok {s s' : State} {currentUser : Option User} {request : Request}
    (h : handle s currentUser request = .ok s') : handled s currentUser request = s' := by
  simp [handled, h]

theorem outsider_accepted {s : State} {currentUser : Option User} {c : MdCollection} {payload : UpdatePayload}
    (hget : s.db.get c.id = some c) (ho : Outsider c currentUser) (ha : Accepted s.db currentUser c payload) :
    ∃ named, rename s.db c payload.name = .ok named ∧
      (handled s currentUser (.update c.id payload)).db = s.db.put (updatedRow payload named) := by
  obtain ⟨named, hnamed⟩ := ha.2.2
  have hupdate := (outsider_update hget ho).2 ⟨ha, named, hnamed, rfl⟩
  have hhandle : handle s currentUser (.update c.id payload) = _ := hupdate
  refine ⟨named, hnamed, ?_⟩
  rw [handled_ok hhandle]

/-- An outsider deletes other collections at most. -/
theorem outsider_delete {s s' : State} {currentUser : Option User} {c : MdCollection} {i : Nat}
    (hget : s.db.get c.id = some c) (ho : Outsider c currentUser) (hh : handle s currentUser (.delete i) = .ok s') :
    SameAccess c.id s.db s'.db := by
  obtain ⟨user, huser, h⟩ := bind_ok.1 hh
  obtain ⟨collection, hreadable, h⟩ := bind_ok.1 h
  obtain ⟨u, hrefuse, h⟩ := bind_ok.1 h
  obtain rfl := Except.ok.inj h
  have hgate := refuseIf_ok.1 hrefuse
  by_cases hi : i = c.id
  · -- the caller is neither the owner nor an admin
    have hcollection := get_some.2 (readable_ok.1 hreadable).1
    rw [hi, hget] at hcollection
    obtain rfl := Option.some.inj hcollection
    cases currentUser with
    | none => simp [requireCurrentUser] at huser
    | some user' =>
      obtain rfl := Except.ok.inj huser
      obtain ⟨hadmin, howner⟩ := ho user' rfl
      simp [hadmin, howner] at hgate
  · have hne : c.id ≠ i := fun h => hi h.symm
    refine ⟨⟨c, c, hget, (get_remove hne).trans hget, by simp⟩, ?_, rfl⟩
    simp only [Tables.remove, List.filter_filter]
    apply List.filter_congr
    intro g _
    by_cases hg : g.collectionId = c.id <;> simp [hg, hne]

/-- A request that is no accepted update of the collection leaves it alone. -/
theorem outsider_quiet {s : State} {currentUser : Option User} {c : MdCollection} {request : Request}
    (hget : s.db.get c.id = some c) (ho : Outsider c currentUser)
    (hno : ∀ payload, request = .update c.id payload → ¬Accepted s.db currentUser c payload) :
    SameAccess c.id s.db (handled s currentUser request).db := by
  cases hh : handle s currentUser request with
  | error e =>
    simp only [handled, hh]
    exact .of_rows hget hget rfl rfl
  | ok s' =>
    rw [handled_ok hh]
    cases request with
    | list =>
      obtain rfl := Except.ok.inj hh
      exact .of_rows hget hget rfl rfl
    | create newId payload =>
      obtain ⟨user, -, h⟩ := bind_ok.1 hh
      obtain ⟨name, -, h⟩ := bind_ok.1 h
      obtain ⟨-, -, h⟩ := bind_ok.1 h
      obtain rfl := Except.ok.inj h
      refine .of_rows hget (get_add hget) ?_ ?_
      · simp only [Tables.add]
        split <;> rfl
      · simp only [Tables.add]
        split <;> rfl
    | update i payload =>
      by_cases hi : i = c.id
      · subst hi
        exact absurd ((outsider_update hget ho).1 hh).1 (hno payload rfl)
      · obtain ⟨c', hid, hsome, hput⟩ := update_put hh
        rw [hput]
        refine .of_rows hget ?_ rfl rfl
        rw [get_put (by rw [hid]; exact hsome), if_neg (by rw [hid]; exact fun h => hi h.symm)]
        exact hget
    | delete i => exact outsider_delete hget ho hh
    | uploadDocument i newId newJobId input | uploadDocumentBatch i newId newJobId inputs =>
      obtain ⟨user, -, h⟩ := bind_ok.1 hh
      obtain ⟨collection, -, h⟩ := bind_ok.1 h
      obtain rfl := Except.ok.inj h
      refine .of_rows hget ?_ ?_ ?_
      all_goals
        simp only
        split
      · exact hget
      · exact hget
      all_goals rfl
    | deleteDocument i documentId =>
      obtain ⟨user, -, h⟩ := bind_ok.1 hh
      obtain ⟨collection, -, h⟩ := bind_ok.1 h
      obtain ⟨-, -, h⟩ := bind_ok.1 h
      obtain rfl := Except.ok.inj h
      exact .of_rows hget hget rfl rfl
    | listAllJobs =>
      cases hu : requireCurrentUser currentUser with
      | error e => simp [handle, hu, Except.map] at hh
      | ok user =>
        simp only [handle, hu, Except.map, Except.ok.injEq] at hh
        subst hh
        exact .of_rows hget hget rfl rfl
    | retryJob jobId newJobId =>
      obtain ⟨user, -, h⟩ := bind_ok.1 hh
      split at h
      · simp at h
      · obtain ⟨collection, -, h⟩ := bind_ok.1 h
        obtain rfl := Except.ok.inj h
        exact .of_rows hget hget rfl rfl
    | reembed i newJobId =>
      obtain ⟨user, -, h⟩ := bind_ok.1 hh
      obtain ⟨collection, -, h⟩ := bind_ok.1 h
      obtain rfl := Except.ok.inj h
      exact .of_rows hget hget rfl rfl
    | get i | getDocument i | listDocumentChunks i | embedStatus i | search i | listJobs i =>
      obtain ⟨collection, -, h⟩ := bind_ok.1 hh
      obtain rfl := Except.ok.inj h
      exact .of_rows hget hget rfl rfl

/-! ## Runs -/

open Machine

/-- A request by somebody who holds at most a WRITE grant on the collection. -/
structure GranteeRequest (c : MdCollection) where
  currentUser : Option User
  request : Request
  outsider : Outsider c currentUser

def next {c : MdCollection} (s : State) (a : GranteeRequest c) : Option State :=
  some (handled s a.currentUser a.request)

/-- The collection and its readers are those of the start. -/
def KeepsReaders (i : Nat) (s₀ s : State) : Prop :=
  SameRow i s₀.db s.db ∧ ∀ currentUser, CanRead s.db currentUser i ↔ CanRead s₀.db currentUser i

/-- The request is no accepted update to another visibility. -/
def KeepsVisibility {c : MdCollection} (s : State) (a : GranteeRequest c) : Prop :=
  ∀ payload v current, a.request = .update c.id payload → payload.visibility = some v → s.db.get c.id = some current →
    Accepted s.db a.currentUser current payload → v = current.visibility

theorem SameAccess.keepsReaders {i : Nat} {s₀ s : State} (h : SameAccess i s₀.db s.db) : KeepsReaders i s₀ s :=
  ⟨h.row, h.readers⟩

theorem next_access {c₀ : MdCollection} {s₀ s s' : State} {a : GranteeRequest c₀} (h₀ : s₀.db.get c₀.id = some c₀)
    (hs : SameAccess c₀.id s₀.db s.db) (hn : next s a = some s') :
    (KeepsReaders c₀.id s₀ s' ↔ KeepsVisibility s a) ∧ (KeepsReaders c₀.id s₀ s' → SameAccess c₀.id s₀.db s'.db) := by
  obtain rfl := Option.some.inj hn
  obtain ⟨c, current, hc, hcurrent, hfields⟩ := hs.row
  obtain rfl := Option.some.inj (h₀.symm.trans hc)
  have hid : current.id = c₀.id := (get_some.1 hcurrent).2
  have ho : Outsider current a.currentUser := by
    intro user huser
    rw [hfields.2.1]
    exact a.outsider user huser
  have hget : s.db.get current.id = some current := by rw [hid]; exact hcurrent
  by_cases hupdate : ∃ payload, a.request = .update c₀.id payload ∧ Accepted s.db a.currentUser current payload
  · obtain ⟨payload, hrequest, ha⟩ := hupdate
    have haccepted := outsider_accepted hget ho ha
    rw [hid, ← hrequest] at haccepted
    obtain ⟨named, hnamed, hput⟩ := haccepted
    have hkeeps := rename_keeps hnamed
    have hid' : (updatedRow payload named).id = c₀.id := by
      rw [updatedRow, hkeeps]
      exact hid
    have hrow : (handled s a.currentUser a.request).db.get c₀.id = some (updatedRow payload named) := by
      rw [hput, get_put (by rw [hid', hcurrent]; rfl), if_pos hid'.symm]
    have hvisibility : (updatedRow payload named).visibility = payload.visibility.getD current.visibility := by
      rw [updatedRow, hkeeps]
    have hothers : (updatedRow payload named).ownerId = c₀.ownerId ∧
        (updatedRow payload named).sourceRepositoryId = c₀.sourceRepositoryId ∧
        (updatedRow payload named).sourcePath = c₀.sourcePath := by
      rw [updatedRow, hkeeps]
      exact hfields.2
    have hsame (h : (updatedRow payload named).visibility = c₀.visibility) :
        SameAccess c₀.id s₀.db (handled s a.currentUser a.request).db := by
      refine ⟨⟨c₀, _, h₀, hrow, h, hothers⟩, ?_, ?_⟩
      · rw [hput]
        exact hs.grants
      · rw [hput]
        exact hs.members
    have hkept (h : KeepsReaders c₀.id s₀ (handled s a.currentUser a.request)) :
        (updatedRow payload named).visibility = c₀.visibility := by
      obtain ⟨x, x', hx, hx', hv, -⟩ := h.1
      rw [h₀] at hx
      rw [hrow] at hx'
      obtain rfl := Option.some.inj hx
      obtain rfl := Option.some.inj hx'
      exact hv
    refine ⟨?_, fun h => hsame (hkept h)⟩
    constructor
    · intro h payload' v current' hrequest' hv hcurrent' _
      rw [hcurrent] at hcurrent'
      obtain rfl := Option.some.inj hcurrent'
      rw [hrequest] at hrequest'
      obtain rfl : payload = payload' := by simpa using hrequest'
      have := hkept h
      rw [hvisibility, hv, ← hfields.1] at this
      exact this
    · intro h
      apply (hsame _).keepsReaders
      rw [hvisibility]
      cases hv : payload.visibility with
      | none => exact hfields.1
      | some v => exact (h payload v current hrequest hv hcurrent ha).trans hfields.1
  · have hquiet : SameAccess c₀.id s.db (handled s a.currentUser a.request).db := by
      rw [← hid]
      apply outsider_quiet hget ho
      intro payload hrequest ha
      exact hupdate ⟨payload, hid ▸ hrequest, ha⟩
    have hsame := hs.trans hquiet
    refine ⟨iff_of_true hsame.keepsReaders ?_, fun _ => hsame⟩
    intro payload v current' hrequest _ hcurrent' ha
    rw [hcurrent] at hcurrent'
    obtain rfl := Option.some.inj hcurrent'
    exact absurd ⟨payload, hrequest, ha⟩ hupdate

/-- **What a write grant leaves to the admins.** Over any requests of callers
who are neither the owner of the collection nor instance admins, the collection
and its readers stay as they were just as long as no accepted update names
another visibility. -/
theorem write_grant_iff {s₀ : State} {c : MdCollection} (h₀ : s₀.db.get c.id = some c) (as : List (GranteeRequest c)) :
    (∀ t ∈ trace next s₀ as, KeepsReaders c.id s₀ t.post) ↔ ∀ t ∈ trace next s₀ as, KeepsVisibility t.pre t.act := by
  have hstart : SameAccess c.id s₀.db s₀.db := .of_rows h₀ h₀ rfl rfl
  apply @trace_iff _ _ next (fun s => SameAccess c.id s₀.db s.db) (fun t => KeepsReaders c.id s₀ t.post)
  · intro s a s' hs hn
    exact (next_access h₀ hs hn).1
  · intro s a s' hs hn hP
    exact (next_access h₀ hs hn).2 hP
  · exact hstart

/-! ## A member of a group with a WRITE grant -/

def grantee : User := ⟨2, "grantee@example.com", none, .user, true, none⟩

def sharedState : State where
  db := { privateTables with grants := [⟨10, 1, .write⟩], members := [⟨10, 2⟩] }
  documents := []
  repositories := []

theorem grantee_outsider : Outsider privateCollection (some grantee) := by
  intro user huser
  obtain rfl := Option.some.inj huser
  decide

def granteeRequest (request : Request) : GranteeRequest privateCollection := ⟨some grantee, request, grantee_outsider⟩

def publish : Request := .update 1 ⟨none, none, some .public, none⟩

theorem write_grant_upload :
    (trace next sharedState [granteeRequest (.uploadDocument 1 1 1 ⟨"a.md".toList, []⟩), granteeRequest (.delete 1)]).length
        = 2 ∧
      ∀ t ∈ trace next sharedState
        [granteeRequest (.uploadDocument 1 1 1 ⟨"a.md".toList, []⟩), granteeRequest (.delete 1)],
        KeepsReaders 1 sharedState t.post := by
  refine ⟨rfl, ?_⟩
  have halong : Along next KeepsVisibility sharedState
      [granteeRequest (.uploadDocument 1 1 1 ⟨"a.md".toList, []⟩), granteeRequest (.delete 1)] := by
    refine ⟨?_, ?_, trivial⟩ <;> simp [KeepsVisibility, granteeRequest]
  exact (write_grant_iff (c := privateCollection) (by decide) _).2 ((along_iff next).1 halong)

theorem grantee_publishes : ¬∀ (s₀ : State) (c : MdCollection), s₀.db.get c.id = some c →
    ∀ as : List (GranteeRequest c), ∀ t ∈ trace next s₀ as, KeepsReaders c.id s₀ t.post := by
  intro h
  have hmem := @trace_last _ _ next sharedState _ _ [] (granteeRequest publish) rfl rfl
  obtain ⟨c, c', hc, hc', hvisibility, -⟩ := (h sharedState privateCollection (by decide) _ _ hmem).1
  have hbefore : sharedState.db.get 1 = some privateCollection := by decide
  have hafter : ((handled sharedState (some grantee) publish).db.get 1).map (·.visibility) = some .public := by decide
  obtain rfl := Option.some.inj (hbefore.symm.trans hc)
  obtain ⟨x, hx, hpublic⟩ := Option.map_eq_some_iff.1 hafter
  obtain rfl := Option.some.inj (hx.symm.trans hc')
  rw [hpublic] at hvisibility
  simp [privateCollection] at hvisibility

end Cograph.Collections
