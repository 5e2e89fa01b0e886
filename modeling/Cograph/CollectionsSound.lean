import Cograph.Collections
import Cograph.Access

/-!
# Four statements of one rule

The rule is stated once as a proposition, and the scope, the check and the
ladder are compared with it. The job list states another rule, which says less
of owners and nothing of grants.
-/

namespace Cograph.Collections

open Kleene Scim
open Access (GrantLevel GroupMember)
open Uploads (ApiError MdJobKind MdJobStatus)

/-! ## The rule -/

def Granted (db : Tables) (userId : Nat) (c : MdCollection) : Prop :=
  ∃ g ∈ db.grants, g.collectionId = c.id ∧ ∃ m ∈ db.members, m.groupId = g.groupId ∧ m.userId = userId

def Reads (db : Tables) (currentUser : Option User) (c : MdCollection) : Prop :=
  c.visibility = .public ∨
    ∃ user, currentUser = some user ∧ (isAdmin user ∨ c.ownerId = some user.id ∨ Granted db user.id c)

section
variable {db : Tables} {currentUser : Option User} {c : MdCollection}

theorem mem_grantsOf {userId : Nat} {g : CollectionGrant} :
    g ∈ grantsOf db userId ↔ g ∈ db.grants ∧ ∃ m ∈ db.members, m.groupId = g.groupId ∧ m.userId = userId := by
  simp only [grantsOf, List.mem_flatMap, List.mem_map, List.mem_filter, decide_eq_true_eq]
  grind

theorem granted_iff {userId : Nat} : Granted db userId c ↔ ∃ g ∈ grantsOf db userId, g.collectionId = c.id := by
  simp only [Granted, mem_grantsOf]
  grind

theorem mem_select {clauses : List Clause} :
    c ∈ select db clauses ↔ c ∈ db.collections ∧ ∀ clause ∈ clauses, clause c = some true := by
  simp [select, foldr_tand_true]

theorem ownerIs_true {userId : Nat} : ownerIs userId c = some true ↔ c.ownerId = some userId := by
  cases h : c.ownerId <;> simp [ownerIs, h]

theorem visibilityIs_true {v : MdCollectionVisibility} : visibilityIs v c = some true ↔ c.visibility = v := by
  simp [visibilityIs]

theorem idIn_true {ids : List Nat} : idIn ids c = some true ↔ c.id ∈ ids := by
  simp [idIn]

/-! ## The scope, the check and the ladder -/

theorem mem_scope : c ∈ select db (applyMdCollectionReadScope db currentUser []) ↔
    c ∈ db.collections ∧ Reads db currentUser c := by
  cases currentUser with
  | none => simp [applyMdCollectionReadScope, mem_select, visibilityIs_true, Reads]
  | some user =>
    by_cases hadmin : isAdmin user
    · simp [applyMdCollectionReadScope, hadmin, mem_select, Reads]
    · simp [applyMdCollectionReadScope, hadmin, mem_select, Reads, tor_true, visibilityIs_true, ownerIs_true, idIn_true,
        granted_iff]

theorem userCanRead_iff : userCanReadMdCollection db currentUser c = true ↔ Reads db currentUser c := by
  unfold userCanReadMdCollection canReadMdCollectionSync
  cases currentUser with
  | none => by_cases hpublic : c.visibility = .public <;> simp [hpublic, Reads]
  | some user =>
    by_cases hpublic : c.visibility = .public
    · simp [hpublic, Reads]
    · by_cases hadmin : isAdmin user
      · simp [hadmin, Reads]
      · by_cases howner : c.ownerId = some user.id
        · simp [howner, Reads]
        · simp [hpublic, hadmin, howner, Reads, granted_iff]

theorem get_some {i : Nat} : db.get i = some c ↔ c ∈ db.collections ∧ c.id = i :=
  ByKey.find_iff db.ids

theorem readable_ok {i : Nat} : getReadableMdCollection db currentUser i = .ok c ↔
    (c ∈ db.collections ∧ c.id = i) ∧ Reads db currentUser c := by
  rw [← get_some, ← userCanRead_iff]
  unfold getReadableMdCollection
  cases h : db.get i with
  | none => simp
  | some x =>
    by_cases hx : userCanReadMdCollection db currentUser x = true
    · simp only [hx, if_true, Except.ok.injEq, Option.some.injEq]
      grind
    · simp only [hx, Option.some.injEq]
      grind

theorem permission_iff {user : User} {required : GrantLevel} :
    hasCollectionPermission db user c required = true ↔ isAdmin user ∨ c.ownerId = some user.id ∨
      ∃ g ∈ grantsOf db user.id, g.collectionId = c.id ∧ rank required ≤ rank g.level := by
  unfold hasCollectionPermission
  by_cases hadmin : isAdmin user
  · simp [hadmin]
  by_cases howner : c.ownerId = some user.id
  · simp [howner]
  simp only [hadmin, howner, if_false, Bool.false_eq_true, false_or]
  cases hbest : (((grantsOf db user.id).filter (·.collectionId = c.id)).map fun g => rank g.level).max? with
  | none =>
    have hempty := List.max?_eq_none_iff.1 hbest
    simp only [List.map_eq_nil_iff, List.filter_eq_nil_iff, decide_eq_true_eq] at hempty
    simp only [false_iff, not_exists, not_and, Bool.false_eq_true]
    intro g hg hid
    exact absurd hid (hempty g hg)
  | some n =>
    obtain ⟨hn, hmax⟩ := List.max?_eq_some_iff.1 hbest
    simp only [List.mem_map, List.mem_filter, decide_eq_true_eq] at hn hmax ⊢
    constructor
    · intro hle
      obtain ⟨g, hg, rfl⟩ := hn
      exact ⟨g, hg.1, hg.2, hle⟩
    · intro ⟨g, hg, hid, hle⟩
      exact Nat.le_trans hle (hmax _ ⟨g, ⟨hg, hid⟩, rfl⟩)

theorem mutation_ok {user : User} {i : Nat} {required : GrantLevel} :
    requireCollectionForMutation db user i required = .ok c ↔
      db.get i = some c ∧ hasCollectionPermission db user c required = true := by
  unfold requireCollectionForMutation
  cases h : db.get i with
  | none => simp
  | some x =>
    have hadmin : isAdmin user → hasCollectionPermission db user x required = true := fun h => by
      simp [permission_iff, h]
    have howner : x.ownerId = some user.id → hasCollectionPermission db user x required = true := fun h => by
      simp [permission_iff, h]
    simp only [Option.some.injEq]
    split_ifs <;> grind

theorem mutation_reads {user : User} {i : Nat} {required : GrantLevel}
    (h : requireCollectionForMutation db user i required = .ok c) : c ∈ db.collections ∧ Reads db (some user) c := by
  obtain ⟨hget, hpermission⟩ := mutation_ok.1 h
  refine ⟨(get_some.1 hget).1, .inr ⟨user, rfl, ?_⟩⟩
  rcases permission_iff.1 hpermission with hadmin | howner | ⟨g, hg, hid, -⟩
  · exact .inl hadmin
  · exact .inr (.inl howner)
  · exact .inr (.inr (granted_iff.2 ⟨g, hg, hid⟩))

/-! ## The job list -/

theorem mem_visible {user : User} {j : MdJob} : j ∈ (listAllVisible db user none none).map (·.1) ↔
    j ∈ db.jobs ∧ ∃ c ∈ db.collections, c.id = j.collectionId ∧
      (user.role = .admin ∨ c.ownerId = some user.id ∨ c.visibility = .public) := by
  simp only [listAllVisible, List.mem_map, List.mem_mergeSort, List.mem_filter, List.mem_flatMap, Option.all_none,
    decide_eq_true_eq, tor_true, ownerIs_true, visibilityIs_true]
  grind

end

/-- No job hangs on a collection that the user reads by the role of an instance
owner or by a grant alone. -/
def ListedByItself (db : Tables) (user : User) : Prop :=
  user.role = .admin ∨ ∀ j ∈ db.jobs, ∀ c ∈ db.collections, c.id = j.collectionId →
    user.role = .owner ∨ Granted db user.id c → c.ownerId = some user.id ∨ c.visibility = .public

/-- The list answers with what the routes let through, holds every collection
the user may change, and the job list holds the jobs of these. -/
def Agrees (db : Tables) (currentUser : Option User) : Prop :=
  (∀ i c, getReadableMdCollection db currentUser i = .ok c ↔
    c ∈ select db (applyMdCollectionReadScope db currentUser []) ∧ c.id = i) ∧
  ∀ user, currentUser = some user →
    (∀ i required c, requireCollectionForMutation db user i required = .ok c →
      c ∈ select db (applyMdCollectionReadScope db currentUser [])) ∧
    ∀ j, j ∈ (listAllVisible db user none none).map (·.1) ↔
      j ∈ db.jobs ∧ ∃ c ∈ select db (applyMdCollectionReadScope db currentUser []), c.id = j.collectionId

/-- **When the collections agree.** The scope, the routes and the ladder always
do; the job list does just when no job hangs on the role of an instance owner or
on a grant. -/
theorem collection_visibility_iff (db : Tables) (currentUser : Option User) :
    Agrees db currentUser ↔ ∀ user, currentUser = some user → ListedByItself db user := by
  have hroutes : ∀ i c, getReadableMdCollection db currentUser i = .ok c ↔
      c ∈ select db (applyMdCollectionReadScope db currentUser []) ∧ c.id = i := by
    intro i c
    rw [readable_ok, mem_scope]
    tauto
  constructor
  · intro h user huser
    obtain ⟨-, hjobs⟩ := h.2 user huser
    by_cases hadmin : user.role = .admin
    · exact .inl hadmin
    refine .inr ?_
    intro j hj c hc hid hread
    have hreads : Reads db currentUser c := by
      refine .inr ⟨user, huser, ?_⟩
      rcases hread with howner | hgrant
      · exact .inl (by simp [isAdmin, howner])
      · exact .inr (.inr hgrant)
    have hlisted := (hjobs j).2 ⟨hj, c, mem_scope.2 ⟨hc, hreads⟩, hid⟩
    obtain ⟨-, c', hc', hid', hrule⟩ := mem_visible.1 hlisted
    obtain rfl := List.inj_on_of_nodup_map db.ids hc' hc (hid'.trans hid.symm)
    exact hrule.resolve_left hadmin
  · intro h
    refine ⟨hroutes, ?_⟩
    intro user huser
    subst huser
    refine ⟨fun i required c hc => mem_scope.2 (mutation_reads hc), ?_⟩
    intro j
    rw [mem_visible]
    simp only [mem_scope]
    constructor
    · intro ⟨hj, c, hc, hid, hrule⟩
      refine ⟨hj, c, ⟨hc, ?_⟩, hid⟩
      rcases hrule with hadmin | howner | hpublic
      · exact .inr ⟨user, rfl, .inl (by simp [isAdmin, hadmin])⟩
      · exact .inr ⟨user, rfl, .inr (.inl howner)⟩
      · exact .inl hpublic
    · intro ⟨hj, c, ⟨hc, hreads⟩, hid⟩
      refine ⟨hj, c, hc, hid, ?_⟩
      rcases h user rfl with hadmin | hself
      · exact .inl hadmin
      have hself := hself j hj c hc hid
      rcases hreads with hpublic | ⟨user', huser', hread⟩
      · exact .inr (.inr hpublic)
      · obtain rfl := Option.some.inj huser'
        rcases hread with hrole | howner | hgrant
        · by_cases hadmin : user.role = .admin
          · exact .inl hadmin
          · exact .inr (hself (.inl (by simpa [isAdmin, hadmin] using hrole)))
        · exact .inr (.inl howner)
        · exact .inr (hself (.inr hgrant))

/-! ## A private collection with a job -/

def privateCollection : MdCollection := ⟨1, "notes".toList, none, some 1, .private, none, none⟩

def privateTables : Tables where
  collections := [privateCollection]
  grants := []
  members := []
  jobs := [⟨1, 1, .embed, .queued, 0⟩]
  ids := by decide

def instanceOwner : User := ⟨2, "owner@example.com", none, .owner, true, none⟩

/-- The instance owner reads the collection and does not see its job. -/
theorem owner_misses_job : ¬∀ (db : Tables) (currentUser : Option User), Agrees db currentUser := by
  intro h
  obtain ⟨-, hjobs⟩ := (h privateTables (some instanceOwner)).2 instanceOwner rfl
  have hjob := (hjobs ⟨1, 1, .embed, .queued, 0⟩).2 (by decide)
  obtain ⟨-, c, hc, -, hrule⟩ := mem_visible.1 hjob
  obtain rfl := List.mem_singleton.1 hc
  simp [instanceOwner, privateCollection] at hrule

end Cograph.Collections
