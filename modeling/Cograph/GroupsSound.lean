import Cograph.Groups
import Cograph.Machine
import Cograph.Registers

/-!
# What the audit log says about access

The rows that decide who may do what can be read off the audit log: each manual
membership and each grant is there just when the last event about it put it
there and the rows it refers to still exist. The other memberships come from
sign-ins.
-/

namespace Cograph.Groups

open Machine Registers
open Admins (ApiError)

/-! ## What an event says -/

/-- Who added the member, as far as the event says. -/
def memberWrite (g u : ℕ) (e : AuditEvent) : Option (Option (Option ℕ)) :=
  match e.change with
  | .groupMemberAdded groupId userIds => if groupId = g ∧ u ∈ userIds then some (some e.actorUserId) else none
  | .groupMemberRemoved groupId => if groupId = g ∧ e.targetUserId = some u then some none else none
  | .groupDeleted groupId _ => if groupId = g then some none else none
  | _ => none

/-- The level of the grant and who gave it, as far as the event says. -/
def grantWrite (k : Resource) (g r : ℕ) (e : AuditEvent) : Option (Option (GrantLevel × Option ℕ)) :=
  match e.change with
  | .grantAdded kind groupId resourceId level | .grantUpdated kind groupId resourceId level _ =>
    if kind = k ∧ groupId = g ∧ resourceId = r then some (some (level, e.actorUserId)) else none
  | .grantRemoved kind groupId resourceId _ =>
    if kind = k ∧ groupId = g ∧ resourceId = r then some none else none
  | .groupDeleted groupId _ => if groupId = g then some none else none
  | _ => none

def Change.quiet : Change → Bool
  | groupCreated .. | groupRenamed .. | groupOidcMappingChanged .. | oidcProviderDeleted | userDeleted => true
  | _ => false

section
variable {g u r : ℕ} {k : Resource} {e : AuditEvent}

theorem memberWrite_quiet (h : e.change.quiet) : memberWrite g u e = none := by
  unfold memberWrite
  cases hchange : e.change <;> simp [hchange, Change.quiet] at h ⊢

theorem grantWrite_quiet (h : e.change.quiet) : grantWrite k g r e = none := by
  unfold grantWrite
  cases hchange : e.change <;> simp [hchange, Change.quiet] at h ⊢

/-- Forgetting another user changes nothing about the members but who added
them. -/
theorem memberWrite_forget {v : ℕ} (hu : u ≠ v) :
    memberWrite g u { e with actorUserId := St.forget v e.actorUserId, targetUserId := St.forget v e.targetUserId } =
      (memberWrite g u e).map (Option.map (St.forget v)) := by
  have htarget : St.forget v e.targetUserId = some u ↔ e.targetUserId = some u := by
    unfold St.forget
    split
    · rename_i htarget
      rw [htarget]
      simp [hu.symm]
    · rfl
  unfold memberWrite
  dsimp only
  cases e.change with
  | groupMemberAdded groupId userIds => dsimp only; split <;> rfl
  | groupMemberRemoved groupId =>
    simp only [htarget]
    split <;> rfl
  | groupDeleted groupId name => dsimp only; split <;> rfl
  | _ => rfl

theorem grantWrite_forget {v : ℕ} :
    grantWrite k g r { e with actorUserId := St.forget v e.actorUserId, targetUserId := St.forget v e.targetUserId } =
      (grantWrite k g r e).map (Option.map fun x => (x.1, St.forget v x.2)) := by
  unfold grantWrite
  dsimp only
  cases e.change with
  | grantAdded kind groupId resourceId level => dsimp only; split <;> rfl
  | grantUpdated kind groupId resourceId level previous => dsimp only; split <;> rfl
  | grantRemoved kind groupId resourceId level => dsimp only; split <;> rfl
  | groupDeleted groupId name => dsimp only; split <;> rfl
  | _ => rfl

end

/-! ## The invariant -/

namespace St

variable (s : St)

/-- The row that a grant refers to is there, deleted or not. -/
def hasResource : Resource → ℕ → Prop
  | .repository, id => id ∈ s.repositories.map (·.1)
  | .collection, id => id ∈ s.collections

def memberOfLog (g u : ℕ) : Option (Option ℕ) := lastWrite (memberWrite g u) s.audits

def grantOfLog (k : Resource) (g r : ℕ) : Option (GrantLevel × Option ℕ) := lastWrite (grantWrite k g r) s.audits

end St

structure Explained (s : St) : Prop where
  users : ∀ u ∈ s.users, u < s.nextId
  resources : ∀ k r, s.hasResource k r → r < s.nextId
  memberIds : ∀ g u who, s.memberOfLog g u = some who → u < s.nextId
  grantIds : ∀ k g r x, s.grantOfLog k g r = some x → r < s.nextId
  members : ∀ g u who, ⟨g, u, who, .manual⟩ ∈ s.members ↔ s.memberOfLog g u = some who ∧ u ∈ s.users
  grants : ∀ k g r level who, ⟨k, g, r, level, who⟩ ∈ s.grants ↔
    s.grantOfLog k g r = some (level, who) ∧ s.hasResource k r

theorem Init.explained {s : St} (h : Init s) : Explained s where
  users := h.users
  resources k r hr := by
    cases k with
    | repository =>
      obtain ⟨row, hrow, rfl⟩ := List.mem_map.1 hr
      exact h.repositories row hrow
    | collection => exact h.collections r hr
  memberIds g u who hlog := by
    rw [St.memberOfLog, h.audits] at hlog
    cases hlog
  grantIds k g r x hlog := by
    rw [St.grantOfLog, h.audits] at hlog
    cases hlog
  members g u who := by
    rw [St.memberOfLog, h.members, h.audits]
    simp
  grants k g r level who := by
    rw [St.grantOfLog, h.grants, h.audits]
    simp

section
variable {s s' : St}

/-- A step that leaves members, grants and what they refer to alone, and writes
no event about them. -/
theorem Explained.congr (h : Explained s) (hnext : s.nextId ≤ s'.nextId) (husers : s'.users = s.users)
    (hresources : ∀ k r, s'.hasResource k r ↔ s.hasResource k r)
    (hmembers : ∀ g u, s'.memberOfLog g u = s.memberOfLog g u)
    (hgrants : ∀ k g r, s'.grantOfLog k g r = s.grantOfLog k g r)
    (hm : ∀ m : GroupMember, m.source = .manual → (m ∈ s'.members ↔ m ∈ s.members)) (hg : s'.grants = s.grants) :
    Explained s' where
  users u hu := by
    rw [husers] at hu
    exact Nat.lt_of_lt_of_le (h.users u hu) hnext
  resources k r hr := Nat.lt_of_lt_of_le (h.resources k r ((hresources k r).1 hr)) hnext
  memberIds g u who hlog := by
    rw [hmembers] at hlog
    exact Nat.lt_of_lt_of_le (h.memberIds g u who hlog) hnext
  grantIds k g r x hlog := by
    rw [hgrants] at hlog
    exact Nat.lt_of_lt_of_le (h.grantIds k g r x hlog) hnext
  members g u who := by
    rw [hm _ rfl, hmembers, husers]
    exact h.members g u who
  grants k g r level who := by
    rw [hg, hgrants, hresources]
    exact h.grants k g r level who

theorem memberOfLog_quiet {actor : ℕ} {target : Option ℕ} {change : Change} (hquiet : change.quiet) (g u : ℕ) :
    (s.writeAudit actor target change).memberOfLog g u = s.memberOfLog g u :=
  lastWrite_other (memberWrite_quiet hquiet)

theorem grantOfLog_quiet {actor : ℕ} {target : Option ℕ} {change : Change} (hquiet : change.quiet) (k : Resource)
    (g r : ℕ) : (s.writeAudit actor target change).grantOfLog k g r = s.grantOfLog k g r :=
  lastWrite_other (grantWrite_quiet hquiet)

/-- Events about groups and providers say nothing about access. -/
theorem Explained.quiet (h : Explained s) (actor : ℕ) (target : Option ℕ) {change : Change} (hquiet : change.quiet) :
    Explained (s.writeAudit actor target change) :=
  h.congr (Nat.le_refl _) rfl (fun _ _ => Iff.rfl) (memberOfLog_quiet hquiet) (grantOfLog_quiet hquiet)
    (fun _ _ => Iff.rfl) rfl

end

/-! ## What each request does -/

section
variable {s s' : St} {actor g u r : ℕ} {k : Resource}

theorem loadGroupOr404_ok {group : Group} (h : s.loadGroupOr404 g = .ok group) : group ∈ s.groups ∧ group.id = g := by
  unfold St.loadGroupOr404 St.group? at h
  split at h
  · cases h
  · rename_i found hfind
    cases h
    exact ⟨List.mem_of_find?_eq_some hfind, by simpa using List.find?_some hfind⟩

theorem validateOidcProvider_ok {mapping : Option Mapping} (h : s.validateOidcProvider mapping = .ok ()) :
    ∀ m, mapping = some m → m.1 ∈ s.providers := by
  rintro ⟨p, name⟩ rfl
  unfold St.validateOidcProvider at h
  dsimp only at h
  split at h
  · assumption
  · cases h

theorem createGroup_ok {payload : CreateGroupRequest} (h : s.createGroup actor payload = .ok s') :
    ∃ group : Group, group.id = s.nextId ∧ s.violation? group = none ∧
      (∀ m, group.mapping = some m → m.1 ∈ s.providers) ∧
      s' = { s with nextId := s.nextId + 1, groups := group :: s.groups }.writeAudit actor none
        (.groupCreated group.id group.name group.mapping) := by
  unfold St.createGroup at h
  split at h
  · split at h
    · cases h
    · rename_i mapping hmapping
      cases hvalid : s.validateOidcProvider mapping with
      | error e =>
        rw [hvalid] at h
        cases h
      | ok _ =>
        rw [hvalid] at h
        dsimp only [bind, Except.bind] at h
        split at h
        · cases h
        · rename_i hviolation
          cases h
          exact ⟨_, rfl, hviolation, validateOidcProvider_ok hvalid, rfl⟩
  · cases h

theorem updateGroup_ok {payload : UpdateGroupRequest} (h : s.updateGroup actor g payload = .ok s') :
    ∃ old ∈ s.groups, ∃ new : Group, old.id = g ∧ new.id = g ∧ s.violation? new = none ∧
      (new.mapping = old.mapping ∨ ∀ m, new.mapping = some m → m.1 ∈ s.providers) ∧
      s' = (s.setGroup new).auditUpdate actor old new := by
  unfold St.updateGroup at h
  split at h
  · split at h
    · cases h
    · rename_i mapping hmapping
      cases hload : s.loadGroupOr404 g with
      | error e =>
        rw [hload] at h
        cases h
      | ok group =>
        obtain ⟨hmem, hid⟩ := loadGroupOr404_ok hload
        cases hvalid : s.validateOidcProvider mapping.join with
        | error e =>
          rw [hload] at h
          dsimp only [bind, Except.bind] at h
          rw [hvalid] at h
          cases h
        | ok _ =>
          rw [hload] at h
          dsimp only [bind, Except.bind] at h
          rw [hvalid] at h
          dsimp only at h
          split at h
          · cases h
          · rename_i hviolation
            cases h
            refine ⟨group, hmem, _, hid, ?_, hviolation, ?_, rfl⟩
            · exact hid
            · cases mapping with
              | none => exact .inl rfl
              | some mapping => exact .inr (validateOidcProvider_ok hvalid)
  · cases h

theorem deleteGroup_ok (h : s.deleteGroup actor g = .ok s') : ∃ name, s' = { s with
    groups := s.groups.filter (·.id ≠ g)
    members := s.members.filter (·.groupId ≠ g)
    grants := s.grants.filter (·.groupId ≠ g) }.writeAudit actor none (.groupDeleted g name) := by
  unfold St.deleteGroup at h
  cases hload : s.loadGroupOr404 g with
  | error e =>
    rw [hload] at h
    cases h
  | ok group =>
    rw [hload] at h
    cases h
    exact ⟨group.name, rfl⟩

theorem mem_dedupe {x : ℕ} : ∀ {xs : List ℕ}, x ∈ St.dedupe xs ↔ x ∈ xs
  | [] => Iff.rfl
  | y :: ys => by
    have ih : x ∈ St.dedupe ys ↔ x ∈ ys := mem_dedupe
    simp only [St.dedupe, List.mem_cons, List.mem_filter, ih, decide_eq_true_eq]
    by_cases hxy : x = y
    · simp [hxy]
    · simp [hxy]

theorem nodup_dedupe : ∀ xs : List ℕ, (St.dedupe xs).Nodup
  | [] => List.nodup_nil
  | y :: ys => by
    rw [St.dedupe, List.nodup_cons]
    exact ⟨by simp, (nodup_dedupe ys).filter _⟩

theorem addMembers_ok {userIds added already : List ℕ} (h : s.addMembers actor g userIds = .ok (s', added, already)) :
    (∃ group ∈ s.groups, group.id = g) ∧ (∀ u ∈ userIds, u ∈ s.users) ∧ added.Nodup ∧
      (∀ u, u ∈ added ↔ u ∈ userIds ∧ s.isMember g u = false) ∧
      (∀ u, u ∈ already ↔ u ∈ userIds ∧ s.isMember g u = true) ∧
      s' = let s₁ := { s with members := added.map (⟨g, ·, some actor, .manual⟩) ++ s.members }
        if added = [] then s₁ else s₁.writeAudit actor none (.groupMemberAdded g added) := by
  unfold St.addMembers at h
  split at h
  · cases hload : s.loadGroupOr404 g with
    | error e =>
      rw [hload] at h
      cases h
    | ok group =>
      rw [hload] at h
      dsimp only [bind, Except.bind] at h
      split at h
      · cases h
      · rename_i hmissing
        cases h
        refine ⟨⟨group, loadGroupOr404_ok hload⟩, fun u hu => ?_, (nodup_dedupe _).filter _, fun u => ?_,
          fun u => ?_, rfl⟩
        · have hnone := not_not.1 hmissing
          rw [List.filter_eq_nil_iff] at hnone
          simpa using hnone u (mem_dedupe.2 hu)
        · simp [mem_dedupe]
        · simp [mem_dedupe]
  · cases h

theorem removeMember_ok (h : s.removeMember actor g u = .ok s') :
    s' = { s with members := s.members.filter (!·.of g u) }.writeAudit actor (some u) (.groupMemberRemoved g) := by
  unfold St.removeMember at h
  cases hload : s.loadGroupOr404 g with
  | error e =>
    rw [hload] at h
    cases h
  | ok group =>
    rw [hload] at h
    dsimp only [bind, Except.bind] at h
    split at h
    · cases h
      rfl
    · cases h

theorem putGrant_ok {name : String} {level : GrantLevel} (h : s.putGrant actor k name g r level = .ok s') :
    (∃ group ∈ s.groups, group.id = g) ∧ s.hasResource k r ∧
      (s.grant? k g r = none ∧ s' = { s with grants := ⟨k, g, r, level, some actor⟩ :: s.grants }.writeAudit actor none
          (.grantAdded k g r level) ∨
        ∃ old, s.grant? k g r = some old ∧ s' =
          let grants := s.grants.map fun x : Grant => if x.on k g r then ⟨k, g, r, level, some actor⟩ else x
          { s with grants := grants }.writeAudit actor none (.grantUpdated k g r level old.level)) := by
  unfold St.putGrant at h
  cases hload : s.loadGroupOr404 g with
  | error e =>
    rw [hload] at h
    cases h
  | ok group =>
    rw [hload] at h
    dsimp only [bind, Except.bind] at h
    split at h
    · rename_i hresource
      refine ⟨⟨group, loadGroupOr404_ok hload⟩, ?_, ?_⟩
      · cases k with
        | repository =>
          simp only [St.resource?, List.any_eq_true, decide_eq_true_eq] at hresource
          obtain ⟨row, hrow, hid, -⟩ := hresource
          exact List.mem_map.2 ⟨row, hrow, hid⟩
        | collection =>
          show r ∈ s.collections
          simpa [St.resource?] using hresource
      · split at h
        · rename_i hgrant
          cases h
          exact .inl ⟨hgrant, rfl⟩
        · rename_i old hgrant
          cases h
          exact .inr ⟨old, hgrant, rfl⟩
    · cases h

theorem deleteGrant_ok {name : String} (h : s.deleteGrant actor k name g r = .ok s') : ∃ level,
    s' = { s with grants := s.grants.filter (!·.on k g r) }.writeAudit actor none (.grantRemoved k g r level) := by
  unfold St.deleteGrant at h
  cases hload : s.loadGroupOr404 g with
  | error e =>
    rw [hload] at h
    cases h
  | ok group =>
    rw [hload] at h
    dsimp only [bind, Except.bind] at h
    split at h
    · cases h
    · rename_i old hgrant
      cases h
      exact ⟨old.level, rfl⟩

end

/-! ## What each request keeps -/

section
variable {s s' : St} {actor g u r : ℕ} {k : Resource}

/-- A request that writes one event: the rows change where the event says, and
as it says. -/
theorem Explained.event (h : Explained s) {e : AuditEvent} (haudits : s'.audits = e :: s.audits)
    (hnext : s'.nextId = s.nextId) (husers : s'.users = s.users)
    (hresources : ∀ k r, s'.hasResource k r ↔ s.hasResource k r)
    (hmembers : ∀ g u who, memberWrite g u e = none →
      (⟨g, u, who, .manual⟩ ∈ s'.members ↔ ⟨g, u, who, .manual⟩ ∈ s.members))
    (hmembers' : ∀ g u who value, memberWrite g u e = some value →
      (⟨g, u, who, .manual⟩ ∈ s'.members ↔ value = some who ∧ u ∈ s.users))
    (hmemberIds : ∀ g u who, memberWrite g u e = some (some who) → u ∈ s.users)
    (hgrants : ∀ k g r level who, grantWrite k g r e = none →
      (⟨k, g, r, level, who⟩ ∈ s'.grants ↔ ⟨k, g, r, level, who⟩ ∈ s.grants))
    (hgrants' : ∀ k g r level who value, grantWrite k g r e = some value →
      (⟨k, g, r, level, who⟩ ∈ s'.grants ↔ value = some (level, who) ∧ s.hasResource k r))
    (hgrantIds : ∀ k g r x, grantWrite k g r e = some (some x) → s.hasResource k r) : Explained s' where
  users u hu := by
    rw [husers] at hu
    rw [hnext]
    exact h.users u hu
  resources k r hr := by
    rw [hnext]
    exact h.resources k r ((hresources k r).1 hr)
  memberIds g u who hlog := by
    rw [hnext]
    rw [St.memberOfLog, haudits] at hlog
    cases hwrite : memberWrite g u e with
    | none =>
      rw [lastWrite_other hwrite] at hlog
      exact h.memberIds g u who hlog
    | some value =>
      rw [lastWrite_write hwrite] at hlog
      exact h.users u (hmemberIds g u who (hlog ▸ hwrite))
  grantIds k g r x hlog := by
    rw [hnext]
    rw [St.grantOfLog, haudits] at hlog
    cases hwrite : grantWrite k g r e with
    | none =>
      rw [lastWrite_other hwrite] at hlog
      exact h.grantIds k g r x hlog
    | some value =>
      rw [lastWrite_write hwrite] at hlog
      exact h.resources k r (hgrantIds k g r x (hlog ▸ hwrite))
  members g u who := by
    rw [St.memberOfLog, haudits, husers]
    cases hwrite : memberWrite g u e with
    | none =>
      rw [hmembers g u who hwrite, lastWrite_other hwrite]
      exact h.members g u who
    | some value => rw [hmembers' g u who value hwrite, lastWrite_write hwrite]
  grants k g r level who := by
    rw [St.grantOfLog, haudits, hresources]
    cases hwrite : grantWrite k g r e with
    | none =>
      rw [hgrants k g r level who hwrite, lastWrite_other hwrite]
      exact h.grants k g r level who
    | some value => rw [hgrants' k g r level who value hwrite, lastWrite_write hwrite]

/-- A row of the log is a row of a user there is. -/
theorem Explained.user (h : Explained s) {who : Option ℕ} (hm : ⟨g, u, who, .manual⟩ ∈ s.members) : u ∈ s.users :=
  ((h.members g u who).1 hm).2

theorem GroupMember.of_iff {g' u' : ℕ} {who : Option ℕ} {source : Source} :
    GroupMember.of g u ⟨g', u', who, source⟩ = true ↔ g = g' ∧ u = u' := by
  rw [@eq_comm _ g, @eq_comm _ u]
  simp [GroupMember.of]

theorem Explained.addMembers (h : Explained s) {userIds added already : List ℕ}
    (hn : s.addMembers actor g userIds = .ok (s', added, already)) : Explained s' := by
  obtain ⟨-, husers, -, hadded, -, rfl⟩ := addMembers_ok hn
  by_cases hnone : added = []
  · subst hnone
    exact h
  · simp only [if_neg hnone]
    have hwrite : ∀ g' u, memberWrite g' u ⟨some actor, none, .groupMemberAdded g added⟩ =
        if g = g' ∧ u ∈ added then some (some (some actor)) else none := fun _ _ => rfl
    have hin : ∀ u ∈ added, u ∈ s.users := fun u hu => husers u ((hadded u).1 hu).1
    refine h.event rfl rfl rfl (fun _ _ => Iff.rfl) ?_ ?_ ?_ (fun _ _ _ _ _ _ => Iff.rfl) nofun nofun
    · intro g' u who hother
      rw [hwrite] at hother
      split at hother
      · cases hother
      · rename_i hmem
        refine List.mem_append.trans (or_iff_right fun hnew => hmem ?_)
        obtain ⟨v, hv, heq⟩ := List.mem_map.1 hnew
        cases heq
        exact ⟨rfl, hv⟩
    · intro g' u who value hsome
      rw [hwrite] at hsome
      split at hsome
      · rename_i hmem
        obtain ⟨rfl, hmem⟩ := hmem
        cases hsome
        have hold : ⟨g, u, who, .manual⟩ ∉ s.members := by
          intro hrow
          have hof : s.isMember g u = true := List.any_eq_true.2 ⟨_, hrow, GroupMember.of_iff.2 ⟨rfl, rfl⟩⟩
          rw [((hadded u).1 hmem).2] at hof
          cases hof
        refine (List.mem_append.trans (or_iff_left hold)).trans ?_
        rw [List.mem_map]
        constructor
        · rintro ⟨v, hv, heq⟩
          cases heq
          exact ⟨rfl, hin _ hmem⟩
        · rintro ⟨hwho, -⟩
          cases hwho
          exact ⟨u, hmem, rfl⟩
      · cases hsome
    · intro g' u who hsome
      rw [hwrite] at hsome
      split at hsome
      · rename_i hmem
        exact hin u hmem.2
      · cases hsome

theorem Explained.removeMember (h : Explained s) (hn : s.removeMember actor g u = .ok s') : Explained s' := by
  obtain rfl := removeMember_ok hn
  have hwrite : ∀ g' v, memberWrite g' v ⟨some actor, some u, .groupMemberRemoved g⟩ =
      if g = g' ∧ some u = some v then some none else none := fun _ _ => rfl
  have hrow : ∀ g' v who, ⟨g', v, who, .manual⟩ ∈ s.members.filter (!·.of g u) ↔
      ⟨g', v, who, .manual⟩ ∈ s.members ∧ ¬(g = g' ∧ some u = some v) := by
    intro g' v who
    rw [List.mem_filter, Bool.not_eq_true', ← Bool.not_eq_true, GroupMember.of_iff, Option.some.injEq]
  refine h.event rfl rfl rfl (fun _ _ => Iff.rfl) ?_ ?_ ?_ (fun _ _ _ _ _ _ => Iff.rfl) nofun nofun
  · intro g' v who hother
    rw [hwrite] at hother
    split at hother
    · cases hother
    · rename_i hne
      exact (hrow g' v who).trans (and_iff_left hne)
  · intro g' v who value hsome
    rw [hwrite] at hsome
    split at hsome
    · rename_i heq
      cases hsome
      refine (hrow g' v who).trans (iff_of_false (fun hrow => hrow.2 heq) nofun)
    · cases hsome
  · intro g' v who hsome
    rw [hwrite] at hsome
    split at hsome
    · cases hsome
    · cases hsome

theorem Explained.deleteGroup (h : Explained s) (hn : s.deleteGroup actor g = .ok s') : Explained s' := by
  obtain ⟨name, rfl⟩ := deleteGroup_ok hn
  have hmember : ∀ g' u, memberWrite g' u ⟨some actor, none, .groupDeleted g name⟩ =
      if g = g' then some none else none := fun _ _ => rfl
  have hgrant : ∀ k g' r, grantWrite k g' r ⟨some actor, none, .groupDeleted g name⟩ =
      if g = g' then some none else none := fun _ _ _ => rfl
  refine h.event rfl rfl rfl (fun _ _ => Iff.rfl) ?_ ?_ ?_ ?_ ?_ ?_
  · intro g' u who hother
    rw [hmember] at hother
    split at hother
    · cases hother
    · rename_i hne
      exact List.mem_filter.trans (and_iff_left (by simpa using Ne.symm hne))
  · intro g' u who value hsome
    rw [hmember] at hsome
    split at hsome
    · rename_i heq
      cases hsome
      refine List.mem_filter.trans (iff_of_false (fun hrow => ?_) nofun)
      simp [heq] at hrow
    · cases hsome
  · intro g' u who hsome
    rw [hmember] at hsome
    split at hsome
    · cases hsome
    · cases hsome
  · intro k g' r level who hother
    rw [hgrant] at hother
    split at hother
    · cases hother
    · rename_i hne
      exact List.mem_filter.trans (and_iff_left (by simpa using Ne.symm hne))
  · intro k g' r level who value hsome
    rw [hgrant] at hsome
    split at hsome
    · rename_i heq
      cases hsome
      refine List.mem_filter.trans (iff_of_false (fun hrow => ?_) nofun)
      simp [heq] at hrow
    · cases hsome
  · intro k g' r x hsome
    rw [hgrant] at hsome
    split at hsome
    · cases hsome
    · cases hsome

theorem Grant.on_iff {g' r' : ℕ} {k' : Resource} {level : GrantLevel} {who : Option ℕ} :
    Grant.on k g r ⟨k', g', r', level, who⟩ = true ↔ k = k' ∧ g = g' ∧ r = r' := by
  rw [@eq_comm _ k, @eq_comm _ g, @eq_comm _ r]
  simp [Grant.on]

theorem Explained.putGrant (h : Explained s) {name : String} {level : GrantLevel}
    (hn : s.putGrant actor k name g r level = .ok s') : Explained s' := by
  obtain ⟨-, hresource, ⟨hgrant, rfl⟩ | ⟨old, hgrant, rfl⟩⟩ := putGrant_ok hn
  · have hwrite : ∀ k' g' r', grantWrite k' g' r' ⟨some actor, none, .grantAdded k g r level⟩ =
        if k = k' ∧ g = g' ∧ r = r' then some (some (level, some actor)) else none := fun _ _ _ => rfl
    refine h.event rfl rfl rfl (fun _ _ => Iff.rfl) (fun _ _ _ _ => Iff.rfl) nofun nofun ?_ ?_ ?_
    · intro k' g' r' level' who hother
      rw [hwrite] at hother
      split at hother
      · cases hother
      · rename_i hne
        refine List.mem_cons.trans (or_iff_right fun heq => hne ?_)
        cases heq
        exact ⟨rfl, rfl, rfl⟩
    · intro k' g' r' level' who value hsome
      rw [hwrite] at hsome
      split at hsome
      · rename_i heq
        obtain ⟨rfl, rfl, rfl⟩ := heq
        cases hsome
        have hold : ⟨k, g, r, level', who⟩ ∉ s.grants := by
          intro hrow
          exact List.find?_eq_none.1 hgrant _ hrow (Grant.on_iff.2 ⟨rfl, rfl, rfl⟩)
        refine (List.mem_cons.trans (or_iff_left hold)).trans ?_
        constructor
        · intro heq
          cases heq
          exact ⟨rfl, hresource⟩
        · rintro ⟨heq, -⟩
          cases heq
          rfl
      · cases hsome
    · intro k' g' r' x hsome
      rw [hwrite] at hsome
      split at hsome
      · rename_i heq
        obtain ⟨rfl, rfl, rfl⟩ := heq
        exact hresource
      · cases hsome
  · have hwrite : ∀ k' g' r', grantWrite k' g' r' ⟨some actor, none, .grantUpdated k g r level old.level⟩ =
        if k = k' ∧ g = g' ∧ r = r' then some (some (level, some actor)) else none := fun _ _ _ => rfl
    have hmem : old ∈ s.grants := List.mem_of_find?_eq_some hgrant
    have hon : old.on k g r = true := List.find?_some hgrant
    refine h.event rfl rfl rfl (fun _ _ => Iff.rfl) (fun _ _ _ _ => Iff.rfl) nofun nofun ?_ ?_ ?_
    · intro k' g' r' level' who hother
      rw [hwrite] at hother
      split at hother
      · cases hother
      · rename_i hne
        refine List.mem_map.trans ⟨?_, fun hrow => ⟨_, hrow, if_neg fun hon => hne (Grant.on_iff.1 hon)⟩⟩
        rintro ⟨x, hx, heq⟩
        split at heq
        · cases heq
          exact absurd ⟨rfl, rfl, rfl⟩ hne
        · rw [← heq]
          exact hx
    · intro k' g' r' level' who value hsome
      rw [hwrite] at hsome
      split at hsome
      · rename_i heq
        obtain ⟨rfl, rfl, rfl⟩ := heq
        cases hsome
        refine List.mem_map.trans ⟨?_, ?_⟩
        · rintro ⟨x, hx, heq⟩
          split at heq
          · cases heq
            exact ⟨rfl, hresource⟩
          · rename_i hoff
            rw [heq] at hoff
            exact absurd (Grant.on_iff.2 ⟨rfl, rfl, rfl⟩) hoff
        · rintro ⟨heq, -⟩
          cases heq
          exact ⟨old, hmem, if_pos hon⟩
      · cases hsome
    · intro k' g' r' x hsome
      rw [hwrite] at hsome
      split at hsome
      · rename_i heq
        obtain ⟨rfl, rfl, rfl⟩ := heq
        exact hresource
      · cases hsome

theorem Explained.deleteGrant (h : Explained s) {name : String} (hn : s.deleteGrant actor k name g r = .ok s') :
    Explained s' := by
  obtain ⟨level, rfl⟩ := deleteGrant_ok hn
  have hwrite : ∀ k' g' r', grantWrite k' g' r' ⟨some actor, none, .grantRemoved k g r level⟩ =
      if k = k' ∧ g = g' ∧ r = r' then some none else none := fun _ _ _ => rfl
  have hrow : ∀ k' g' r' level' who, ⟨k', g', r', level', who⟩ ∈ s.grants.filter (!·.on k g r) ↔
      ⟨k', g', r', level', who⟩ ∈ s.grants ∧ ¬(k = k' ∧ g = g' ∧ r = r') := by
    intro k' g' r' level' who
    rw [List.mem_filter, Bool.not_eq_true', ← Bool.not_eq_true, Grant.on_iff]
  refine h.event rfl rfl rfl (fun _ _ => Iff.rfl) (fun _ _ _ _ => Iff.rfl) nofun nofun ?_ ?_ ?_
  · intro k' g' r' level' who hother
    rw [hwrite] at hother
    split at hother
    · cases hother
    · rename_i hne
      exact (hrow ..).trans (and_iff_left hne)
  · intro k' g' r' level' who value hsome
    rw [hwrite] at hsome
    split at hsome
    · rename_i heq
      cases hsome
      exact (hrow ..).trans (iff_of_false (fun hrow => hrow.2 heq) nofun)
    · cases hsome
  · intro k' g' r' x hsome
    rw [hwrite] at hsome
    split at hsome
    · cases hsome
    · cases hsome

/-- A sign-in adds no manual member. -/
theorem Explained.signIn (h : Explained s) {providerId : ℕ} {claimGroups : List Str} :
    Explained (s.syncOidcGroupMemberships u providerId claimGroups).1 := by
  refine h.congr (Nat.le_refl _) rfl (fun _ _ => Iff.rfl) (fun _ _ => rfl) (fun _ _ _ => rfl) ?_ rfl
  intro m hm
  refine List.mem_append.trans (or_iff_right fun hnew => ?_)
  obtain ⟨id, -, rfl⟩ := List.mem_map.1 hnew
  cases hm

theorem Explained.createGroup (h : Explained s) {payload : CreateGroupRequest}
    (hn : s.createGroup actor payload = .ok s') : Explained s' := by
  obtain ⟨group, -, -, -, rfl⟩ := createGroup_ok hn
  refine Explained.quiet ?_ actor none rfl
  exact h.congr (Nat.le_succ _) rfl (fun _ _ => Iff.rfl) (fun _ _ => rfl) (fun _ _ _ => rfl) (fun _ _ => Iff.rfl) rfl

theorem Explained.auditUpdate (h : Explained s) (old new : Group) : Explained (s.auditUpdate actor old new) := by
  have hname : Explained (if new.name ≠ old.name then s.writeAudit actor none (.groupRenamed old.id old.name new.name)
      else s) := by
    split
    · exact h.quiet actor none rfl
    · exact h
  unfold St.auditUpdate
  dsimp only
  split
  · exact hname.quiet actor none rfl
  · exact hname

theorem Explained.updateGroup (h : Explained s) {payload : UpdateGroupRequest}
    (hn : s.updateGroup actor g payload = .ok s') : Explained s' := by
  obtain ⟨old, -, new, -, -, -, -, rfl⟩ := updateGroup_ok hn
  refine Explained.auditUpdate ?_ old new
  exact h.congr (Nat.le_refl _) rfl (fun _ _ => Iff.rfl) (fun _ _ => rfl) (fun _ _ _ => rfl) (fun _ _ => Iff.rfl) rfl

theorem Explained.deleteProvider (h : Explained s) {providerId : ℕ} (hn : s.deleteProvider actor providerId = some s') :
    Explained s' := by
  unfold St.deleteProvider at hn
  split at hn
  · cases hn
  · cases hn
    refine Explained.quiet ?_ actor none rfl
    exact h.congr (Nat.le_refl _) rfl (fun _ _ => Iff.rfl) (fun _ _ => rfl) (fun _ _ _ => rfl) (fun _ _ => Iff.rfl) rfl

/-- A fresh user is in no event. -/
theorem Explained.createUser (h : Explained s) :
    Explained { s with nextId := s.nextId + 1, users := s.nextId :: s.users } where
  users v hv := by
    obtain rfl | hv := List.mem_cons.1 hv
    · exact Nat.lt_succ_self _
    · exact Nat.lt_succ_of_lt (h.users v hv)
  resources k' r' hr := Nat.lt_succ_of_lt (h.resources k' r' hr)
  memberIds g' v who hlog := Nat.lt_succ_of_lt (h.memberIds g' v who hlog)
  grantIds k' g' r' x hlog := Nat.lt_succ_of_lt (h.grantIds k' g' r' x hlog)
  members g' v who := by
    refine (h.members g' v who).trans (and_congr_right fun hlog => ?_)
    have hlt := h.memberIds g' v who hlog
    have hne : v ≠ s.nextId := by omega
    exact (List.mem_cons.trans (or_iff_right hne)).symm
  grants := h.grants

/-- A fresh row is in no event. -/
theorem Explained.createResource (h : Explained s) (hnext : s'.nextId = s.nextId + 1) (husers : s'.users = s.users)
    (hresources : ∀ k r, s'.hasResource k r → s.hasResource k r ∨ r = s.nextId)
    (hkept : ∀ k r, s.hasResource k r → s'.hasResource k r) (haudits : s'.audits = s.audits)
    (hmembers : s'.members = s.members) (hgrants : s'.grants = s.grants) : Explained s' where
  users v hv := by
    rw [husers] at hv
    rw [hnext]
    exact Nat.lt_succ_of_lt (h.users v hv)
  resources k' r' hr := by
    rw [hnext]
    obtain hr | rfl := hresources k' r' hr
    · exact Nat.lt_succ_of_lt (h.resources k' r' hr)
    · exact Nat.lt_succ_self _
  memberIds g' v who hlog := by
    rw [St.memberOfLog, haudits] at hlog
    rw [hnext]
    exact Nat.lt_succ_of_lt (h.memberIds g' v who hlog)
  grantIds k' g' r' x hlog := by
    rw [St.grantOfLog, haudits] at hlog
    rw [hnext]
    exact Nat.lt_succ_of_lt (h.grantIds k' g' r' x hlog)
  members g' v who := by
    rw [St.memberOfLog, haudits, hmembers, husers]
    exact h.members g' v who
  grants k' g' r' level who := by
    rw [St.grantOfLog, haudits, hgrants]
    refine (h.grants k' g' r' level who).trans (and_congr_right fun hlog => ⟨hkept k' r', fun hr => ?_⟩)
    have hlt := h.grantIds k' g' r' _ hlog
    exact (hresources k' r' hr).resolve_right (by omega)

/-- A row goes with its grants. -/
theorem Explained.dropResource (h : Explained s) (hnext : s'.nextId = s.nextId) (husers : s'.users = s.users)
    (hresources : ∀ k' r', s'.hasResource k' r' ↔ s.hasResource k' r' ∧ ¬(k' = k ∧ r' = r))
    (haudits : s'.audits = s.audits) (hmembers : s'.members = s.members) (hgrants : s'.grants = s.dropGrants k r) :
    Explained s' where
  users v hv := by
    rw [husers] at hv
    rw [hnext]
    exact h.users v hv
  resources k' r' hr := by
    rw [hnext]
    exact h.resources k' r' ((hresources k' r').1 hr).1
  memberIds g' v who hlog := by
    rw [St.memberOfLog, haudits] at hlog
    rw [hnext]
    exact h.memberIds g' v who hlog
  grantIds k' g' r' x hlog := by
    rw [St.grantOfLog, haudits] at hlog
    rw [hnext]
    exact h.grantIds k' g' r' x hlog
  members g' v who := by
    rw [St.memberOfLog, haudits, hmembers, husers]
    exact h.members g' v who
  grants k' g' r' level who := by
    rw [St.grantOfLog, haudits, hgrants, hresources, St.dropGrants, List.mem_filter, ← and_assoc]
    exact and_congr (h.grants k' g' r' level who) decide_eq_true_iff

theorem lastWrite_forget_member {v : ℕ} (hv : v ≠ u) (log : List AuditEvent) :
    lastWrite (memberWrite g v) (log.map fun e =>
      { e with actorUserId := St.forget u e.actorUserId, targetUserId := St.forget u e.targetUserId }) =
      (lastWrite (memberWrite g v) log).map (St.forget u) :=
  lastWrite_map fun _ => memberWrite_forget hv

theorem lastWrite_forget_grant (log : List AuditEvent) :
    lastWrite (grantWrite k g r) (log.map fun e =>
      { e with actorUserId := St.forget u e.actorUserId, targetUserId := St.forget u e.targetUserId }) =
      (lastWrite (grantWrite k g r) log).map fun x => (x.1, St.forget u x.2) :=
  lastWrite_map fun _ => grantWrite_forget

/-- A user goes with his memberships, and is forgotten by rows and log alike. -/
theorem Explained.deleteUser (h : Explained s) (hu : u ∈ s.users) : Explained (s.deleteUser actor u) := by
  have hu : u ∈ (s.writeAudit actor (some u) .userDeleted).users := hu
  have h : Explained (s.writeAudit actor (some u) .userDeleted) := h.quiet actor (some u) rfl
  unfold St.deleteUser
  dsimp only
  generalize s.writeAudit actor (some u) .userDeleted = s at h hu ⊢
  constructor
  · exact fun v hv => h.users v (List.mem_of_mem_filter hv)
  · exact h.resources
  · intro g' v who hlog
    by_cases hv : v = u
    · rw [hv]
      exact h.users u hu
    · rw [St.memberOfLog, lastWrite_forget_member hv] at hlog
      obtain ⟨who', hold, -⟩ := Option.map_eq_some_iff.1 hlog
      exact h.memberIds g' v who' hold
  · intro k' g' r' x hlog
    rw [St.grantOfLog, lastWrite_forget_grant] at hlog
    obtain ⟨x', hold, -⟩ := Option.map_eq_some_iff.1 hlog
    exact h.grantIds k' g' r' x' hold
  · intro g' v who
    by_cases hv : v = u
    · subst hv
      refine iff_of_false (fun hrow => ?_) (fun hlog => ?_)
      · obtain ⟨⟨g₀, u₀, who₀, source₀⟩, hm, heq⟩ := List.mem_map.1 hrow
        cases heq
        simp at hm
      · simp at hlog
    · rw [St.memberOfLog, lastWrite_forget_member hv]
      constructor
      · intro hrow
        obtain ⟨⟨g₀, u₀, who₀, source₀⟩, hm, heq⟩ := List.mem_map.1 hrow
        cases heq
        obtain ⟨hlog, huser⟩ := (h.members g₀ u₀ who₀).1 (List.mem_of_mem_filter hm)
        refine ⟨?_, List.mem_filter.2 ⟨huser, by simpa using hv⟩⟩
        rw [show lastWrite (memberWrite g₀ u₀) s.audits = _ from hlog]
        rfl
      · rintro ⟨hlog, huser⟩
        obtain ⟨who₀, hold, rfl⟩ := Option.map_eq_some_iff.1 hlog
        have hm := (h.members g' v who₀).2 ⟨hold, List.mem_of_mem_filter huser⟩
        exact List.mem_map.2 ⟨_, List.mem_filter.2 ⟨hm, by simpa using hv⟩, rfl⟩
  · intro k' g' r' level who
    rw [St.grantOfLog, lastWrite_forget_grant]
    constructor
    · intro hrow
      obtain ⟨⟨k₀, g₀, r₀, level₀, who₀⟩, hx, heq⟩ := List.mem_map.1 hrow
      cases heq
      obtain ⟨hlog, hresource⟩ := (h.grants k₀ g₀ r₀ level₀ who₀).1 hx
      refine ⟨?_, hresource⟩
      rw [show lastWrite (grantWrite k₀ g₀ r₀) s.audits = _ from hlog]
      rfl
    · rintro ⟨hlog, hresource⟩
      obtain ⟨⟨level₀, who₀⟩, hold, heq⟩ := Option.map_eq_some_iff.1 hlog
      cases heq
      exact List.mem_map.2 ⟨_, (h.grants k' g' r' level₀ who₀).2 ⟨hold, hresource⟩, rfl⟩

/-! ## Runs -/

theorem byActor_ok {result : Except ApiError St} (h : (if actor ∈ s.users then result.toOption else none) = some s') :
    result = .ok s' := by
  split at h
  · cases result with
    | error e => cases h
    | ok s₁ => exact congrArg Except.ok (Option.some.inj h)
  · cases h

/-- **Step lemma.** -/
theorem Explained.next (h : Explained s) {a : Act} (hn : Groups.next s a = some s') : Explained s' := by
  cases a with
  | createGroup actor payload => exact h.createGroup (byActor_ok hn)
  | updateGroup actor groupId payload => exact h.updateGroup (byActor_ok hn)
  | deleteGroup actor groupId => exact h.deleteGroup (byActor_ok hn)
  | addMembers actor groupId userIds =>
    have hok := byActor_ok hn
    cases hadd : s.addMembers actor groupId userIds with
    | error e =>
      rw [hadd] at hok
      cases hok
    | ok x =>
      rw [hadd] at hok
      cases hok
      exact h.addMembers hadd
  | removeMember actor groupId userId => exact h.removeMember (byActor_ok hn)
  | putGrant actor kind groupId resourceId level =>
    cases kind with
    | repository => exact h.putGrant (byActor_ok hn)
    | collection => exact h.putGrant (byActor_ok hn)
  | deleteGrant actor kind groupId resourceId =>
    cases kind with
    | repository => exact h.deleteGrant (byActor_ok hn)
    | collection => exact h.deleteGrant (byActor_ok hn)
  | signIn userId providerId claimGroups =>
    simp only [Groups.next] at hn
    split at hn
    · cases hn
      exact h.signIn
    · cases hn
  | createUser =>
    cases hn
    exact h.createUser
  | deleteUser actor userId =>
    simp only [Groups.next] at hn
    split at hn
    · rename_i hguard
      cases hn
      exact h.deleteUser hguard.2.1
    · cases hn
  | createProvider =>
    cases hn
    exact h.congr (Nat.le_succ _) rfl (fun _ _ => Iff.rfl) (fun _ _ => rfl) (fun _ _ _ => rfl) (fun _ _ => Iff.rfl) rfl
  | deleteProvider actor providerId =>
    simp only [Groups.next] at hn
    split at hn
    · exact h.deleteProvider hn
    · cases hn
  | createRepository =>
    cases hn
    refine h.createResource rfl rfl (fun k r hr => ?_) (fun k r hr => ?_) rfl rfl rfl
    · cases k with
      | repository => exact (List.mem_cons.1 hr).symm
      | collection => exact .inl hr
    · cases k with
      | repository => exact List.mem_cons_of_mem _ hr
      | collection => exact hr
  | deleteRepository id now =>
    cases hn
    refine h.congr (Nat.le_refl _) rfl (fun k r => ?_) (fun _ _ => rfl) (fun _ _ _ => rfl) (fun _ _ => Iff.rfl) rfl
    cases k with
    | repository =>
      have hids : (s.repositories.map fun row => if row.1 = id then (id, some now) else row).map (·.1) =
          s.repositories.map (·.1) := by
        rw [List.map_map]
        refine List.map_congr_left fun row _ => ?_
        by_cases hrow : row.1 = id
        · simp [hrow]
        · simp [hrow]
      show r ∈ List.map _ _ ↔ r ∈ List.map _ _
      rw [hids]
    | collection => exact Iff.rfl
  | purgeRepository id =>
    cases hn
    refine h.dropResource (k := .repository) (r := id) rfl rfl (fun k r => ?_) rfl rfl rfl
    cases k with
    | repository =>
      show r ∈ (s.repositories.filter (·.1 ≠ id)).map (·.1) ↔ r ∈ s.repositories.map (·.1) ∧ _
      constructor
      · intro hr
        obtain ⟨row, hrow, rfl⟩ := List.mem_map.1 hr
        obtain ⟨hmem, hne⟩ := List.mem_filter.1 hrow
        exact ⟨List.mem_map_of_mem hmem, fun heq => of_decide_eq_true hne heq.2⟩
      · rintro ⟨hr, hne⟩
        obtain ⟨row, hmem, rfl⟩ := List.mem_map.1 hr
        exact List.mem_map_of_mem (List.mem_filter.2 ⟨hmem, decide_eq_true fun heq => hne ⟨rfl, heq⟩⟩)
    | collection => simp [St.hasResource]
  | createCollection =>
    cases hn
    refine h.createResource rfl rfl (fun k r hr => ?_) (fun k r hr => ?_) rfl rfl rfl
    · cases k with
      | repository => exact .inl hr
      | collection => exact (List.mem_cons.1 hr).symm
    · cases k with
      | repository => exact hr
      | collection => exact List.mem_cons_of_mem _ hr
  | deleteCollection id =>
    cases hn
    refine h.dropResource (k := .collection) (r := id) rfl rfl (fun k r => ?_) rfl rfl rfl
    cases k with
    | repository => simp [St.hasResource]
    | collection => simp [St.hasResource]

/-! ## Members that come from sign-ins -/

/-- A sign-in of the user whose claims name the group of the provider that the
group is mapped to. -/
def Joined (g u : ℕ) (t : Step St Act) : Prop :=
  ∃ p claims group name, t.act = .signIn u p claims ∧ group ∈ t.pre.groups ∧ group.id = g ∧
    group.mapping = some (p, name) ∧ name ∈ claims

/-- The member was there before, and nothing but the user who added him is
forgotten. -/
def Stayed (s : St) (m : GroupMember) : Prop :=
  ∃ m₀ ∈ s.members, m₀.groupId = m.groupId ∧ m₀.userId = m.userId ∧ m₀.source = m.source ∧
    (m₀.addedBy = none → m.addedBy = none)

theorem Stayed.of_mem {m : GroupMember} (h : m ∈ s.members) : Stayed s m := ⟨m, h, rfl, rfl, rfl, id⟩

theorem auditUpdate_members (old new : Group) : (s.auditUpdate actor old new).members = s.members := by
  unfold St.auditUpdate
  dsimp only
  split <;> split <;> rfl

theorem signIn_members {p : ℕ} {claims : List Str} {m : GroupMember}
    (hm : m ∈ (s.syncOidcGroupMemberships u p claims).1.members) :
    m ∈ s.members ∨ m.userId = u ∧ m.addedBy = none ∧ ∃ group ∈ s.groups, group.id = m.groupId ∧
      ∃ name, group.mapping = some (p, name) ∧ name ∈ claims := by
  obtain hnew | hold := List.mem_append.1 hm
  · obtain ⟨id, hid, rfl⟩ := List.mem_map.1 hnew
    obtain ⟨group, hin, rfl⟩ := List.mem_map.1 (List.mem_of_mem_filter hid)
    obtain ⟨hgroup, hmatch⟩ := List.mem_filter.1 hin
    obtain ⟨⟨p', name⟩, hmapping, hon⟩ := (Option.any_eq_true _ _).1 hmatch
    obtain ⟨hp, -, hclaim⟩ := of_decide_eq_true hon
    obtain rfl : p' = p := hp
    exact .inr ⟨rfl, rfl, group, hgroup, rfl, name, hmapping, hclaim⟩
  · exact .inl hold

theorem deleteUser_members {m : GroupMember} (hm : m ∈ (s.deleteUser actor u).members) : Stayed s m := by
  obtain ⟨m₀, hold, rfl⟩ := List.mem_map.1 hm
  refine ⟨m₀, List.mem_of_mem_filter hold, rfl, rfl, rfl, fun hnone => ?_⟩
  show St.forget u m₀.addedBy = none
  rw [hnone]
  rfl

/-- **Step lemma.** Only a sign-in adds a member that no administrator added. -/
theorem next_members {a : Act} (hn : Groups.next s a = some s') {m : GroupMember} (hm : m ∈ s'.members)
    (hsource : m.source = .oidc) :
    Stayed s m ∨ m.addedBy = none ∧ Joined m.groupId m.userId ⟨s, a, s'⟩ := by
  cases a with
  | signIn userId p claims =>
    simp only [Groups.next] at hn
    split at hn
    · cases hn
      obtain hold | ⟨rfl, hby, group, hgroup, hid, name, hmapping, hclaim⟩ := signIn_members hm
      · exact .inl (Stayed.of_mem hold)
      · exact .inr ⟨hby, p, claims, group, name, rfl, hgroup, hid, hmapping, hclaim⟩
    · cases hn
  | createGroup actor payload =>
    obtain ⟨group, -, -, -, rfl⟩ := createGroup_ok (byActor_ok hn)
    exact .inl (Stayed.of_mem hm)
  | updateGroup actor groupId payload =>
    obtain ⟨old, -, new, -, -, -, -, rfl⟩ := updateGroup_ok (byActor_ok hn)
    rw [auditUpdate_members] at hm
    exact .inl (Stayed.of_mem hm)
  | deleteGroup actor groupId =>
    obtain ⟨name, rfl⟩ := deleteGroup_ok (byActor_ok hn)
    exact .inl (Stayed.of_mem (List.mem_of_mem_filter hm))
  | addMembers actor groupId userIds =>
    have hok := byActor_ok hn
    cases hadd : s.addMembers actor groupId userIds with
    | error e =>
      rw [hadd] at hok
      cases hok
    | ok x =>
      rw [hadd] at hok
      cases hok
      obtain ⟨-, -, -, -, -, hs'⟩ := addMembers_ok hadd
      have hmembers : x.1.members = x.2.1.map (⟨groupId, ·, some actor, .manual⟩) ++ s.members := by
        rw [hs']
        dsimp only
        split <;> rfl
      rw [hmembers] at hm
      refine .inl (Stayed.of_mem ((List.mem_append.1 hm).resolve_left fun hnew => ?_))
      obtain ⟨v, -, rfl⟩ := List.mem_map.1 hnew
      cases hsource
  | removeMember actor groupId userId =>
    obtain rfl := removeMember_ok (byActor_ok hn)
    exact .inl (Stayed.of_mem (List.mem_of_mem_filter hm))
  | putGrant actor kind groupId resourceId level =>
    cases kind with
    | repository =>
      obtain ⟨-, -, ⟨-, rfl⟩ | ⟨old, -, rfl⟩⟩ := putGrant_ok (byActor_ok hn)
      · exact .inl (Stayed.of_mem hm)
      · exact .inl (Stayed.of_mem hm)
    | collection =>
      obtain ⟨-, -, ⟨-, rfl⟩ | ⟨old, -, rfl⟩⟩ := putGrant_ok (byActor_ok hn)
      · exact .inl (Stayed.of_mem hm)
      · exact .inl (Stayed.of_mem hm)
  | deleteGrant actor kind groupId resourceId =>
    cases kind with
    | repository =>
      obtain ⟨level, rfl⟩ := deleteGrant_ok (byActor_ok hn)
      exact .inl (Stayed.of_mem hm)
    | collection =>
      obtain ⟨level, rfl⟩ := deleteGrant_ok (byActor_ok hn)
      exact .inl (Stayed.of_mem hm)
  | deleteUser actor userId =>
    simp only [Groups.next] at hn
    split at hn
    · cases hn
      exact .inl (deleteUser_members hm)
    · cases hn
  | deleteProvider actor p =>
    simp only [Groups.next] at hn
    split at hn
    · unfold St.deleteProvider at hn
      split at hn
      · cases hn
      · cases hn
        exact .inl (Stayed.of_mem hm)
    · cases hn
  | _ =>
    cases hn
    exact .inl (Stayed.of_mem hm)

end

/-- What holds of the members after the steps `ts`. -/
def SignedIn (ts : List (Step St Act)) (s : St) : Prop :=
  ∀ m ∈ s.members, m.source = .oidc → m.addedBy = none ∧ Once (fun _ t => Joined m.groupId m.userId t) ts

theorem SignedIn.next {ts : List (Step St Act)} {s s' : St} {a : Act} (h : SignedIn ts s)
    (hn : Groups.next s a = some s') : SignedIn (ts ++ [⟨s, a, s'⟩]) s' := by
  intro m hm hsource
  obtain ⟨m₀, hold, hgroup, huser, hsame, hby⟩ | ⟨hby, hjoined⟩ := next_members hn hm hsource
  · obtain ⟨hnone, hjoined⟩ := h m₀ hold (hsame.trans hsource)
    rw [hgroup, huser] at hjoined
    exact ⟨hby hnone, hjoined.later _⟩
  · exact ⟨hby, Once.now hjoined⟩

/-! ## Who has access -/

/-- A user has access just when a group he is in has a grant of that level. -/
theorem granted_iff {s : St} {u r : ℕ} {k : Resource} {required : GrantLevel} :
    s.granted u k r required = true ↔ ∃ m ∈ s.members, m.userId = u ∧ ∃ x ∈ s.grants,
      x.groupId = m.groupId ∧ x.kind = k ∧ x.resourceId = r ∧ St.rank required ≤ St.rank x.level := by
  unfold St.granted
  dsimp only
  constructor
  · intro h
    split at h
    · cases h
    · rename_i best hbest
      obtain ⟨x, hx, hrank⟩ := List.mem_flatMap.1 (List.max?_mem hbest)
      obtain ⟨m, hm, rfl⟩ := List.mem_map.1 hrank
      obtain ⟨hm, hon⟩ := List.mem_filter.1 hm
      obtain ⟨hgroup, huser, hkind, hid⟩ := of_decide_eq_true hon
      exact ⟨m, hm, huser, x, hx, hgroup.symm, hkind, hid, of_decide_eq_true h⟩
  · rintro ⟨m, hm, rfl, x, hx, hgroup, rfl, rfl, hrank⟩
    have hmem : St.rank x.level ∈ s.grants.flatMap fun g => (s.members.filter fun m' => m'.groupId = g.groupId ∧
        m'.userId = m.userId ∧ g.kind = x.kind ∧ g.resourceId = x.resourceId).map fun _ => St.rank g.level :=
      List.mem_flatMap.2 ⟨x, hx, List.mem_map.2 ⟨m, List.mem_filter.2 ⟨hm, by simp [hgroup]⟩, rfl⟩⟩
    split
    · rename_i hnone
      rw [List.max?_eq_none_iff] at hnone
      rw [hnone] at hmem
      cases hmem
    · rename_i best hbest
      exact decide_eq_true (hrank.trans ((List.max?_le_iff hbest).1 le_rfl _ hmem))

namespace Sample

/-- Two users, a provider and a repository. -/
def first : St := ⟨5, [0, 1], [2], [(3, none)], [4], [], [], [], []⟩

/-- A group that is mapped to a claim gets a grant, one member by hand and one
by a sign-in; then the first is removed again. -/
def acts : List Act := [
  .createGroup 0 ⟨"dev".toList, none, some 2, some "eng".toList⟩,
  .putGrant 0 .repository 5 3 .write,
  .addMembers 0 5 [0],
  .signIn 1 2 ["eng".toList],
  .removeMember 0 5 0]

def last : St := ⟨6, [0, 1], [2], [(3, none)], [4], [⟨5, "dev".toList, none, some 0, some (2, "eng".toList)⟩],
  [⟨5, 1, none, .oidc⟩], [⟨.repository, 5, 3, .write, some 0⟩],
  [⟨some 0, some 0, .groupMemberRemoved 5⟩, ⟨some 0, none, .groupMemberAdded 5 [0]⟩,
    ⟨some 0, none, .grantAdded .repository 5 3 .write⟩,
    ⟨some 0, none, .groupCreated 5 "dev".toList (some (2, "eng".toList))⟩]⟩

theorem first_init : Init first := by constructor <;> decide

theorem acts_run : run Groups.next first acts = some last := by decide

end Sample

end Cograph.Groups
