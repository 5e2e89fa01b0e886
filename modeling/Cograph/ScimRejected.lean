import Cograph.ScimSound

/-!
# What a refused SCIM request leaves

A mutation that would disable the last administrator is answered with 403. The
session's copy of the user has its new email and name by then, and the commit
that keeps the rejection's event row keeps them, too.
-/

namespace Cograph.Scim

/-- The row of a user, the user's tokens and refresh-token families are as they
were. -/
structure RowKept (s s' : Db) (id : Nat) : Prop where
  row : s'.user? id = s.user? id
  tokens : s'.tokens = s.tokens
  families : s'.families = s.families

theorem RowKept.refl (s : Db) (id : Nat) : RowKept s s id := ⟨rfl, rfl, rfl⟩

/-- The mutation names no email or name but the user's own. A missing name
counts as the empty one. -/
def NamesNoOther (m : Mutation) (u : User) : Prop :=
  m.email.getD u.email = u.email ∧ m.name.getD (u.name.getD "") = u.name.getD ""

instance (m : Mutation) (u : User) : Decidable (NamesNoOther m u) := inferInstanceAs (Decidable (_ ∧ _))

theorem assignFields_self {u : User} {m : Mutation} : (assignFields u m).1 = u ↔ NamesNoOther m u := by
  obtain ⟨id, email, name, role, isActive, reason⟩ := u
  obtain ⟨active, name', email'⟩ := m
  rw [assignFields_eq]
  simp only [NamesNoOther, User.mk.injEq, true_and, and_true]
  refine and_congr_right fun _ => ?_
  cases name' with
  | none => simp
  | some n =>
    cases name with
    | none =>
      by_cases hn : n = ""
      · simp [hn]
      · simp [hn, Ne.symm hn]
    | some w =>
      by_cases hn : n = w
      · simp [hn]
      · simp [hn, Ne.symm hn]

/-! ## The refused cascade -/

/-- `tx` is `s` with the user's row written as `u`, and nothing of the user's
credentials touched. -/
structure OnlyRow (s tx : Db) (u : User) : Prop extends InTx s tx u where
  tokens : tx.tokens = s.tokens
  families : tx.families = s.families

theorem flushUser_eq {s tx : Db} {u : User} (h : flushUser s u = .ok tx) :
    tx = s.setUser u ∧ ¬ Conflict s u.id u.email := by
  unfold flushUser at h
  split at h
  · cases h
  split at h
  · cases h
  · rename_i hfree
    cases h
    refine ⟨rfl, fun ⟨v, hv, hne, he⟩ => hfree ?_⟩
    exact List.any_eq_true.mpr ⟨v, hv, by simp [hne, he]⟩

theorem onlyRow_setUser (s : Db) (u : User) : OnlyRow s (s.setUser u) u := ⟨⟨rfl, rfl⟩, rfl, rfl⟩

theorem OnlyRow.flush {s tx tx' : Db} {u : User} (h : OnlyRow s tx u) (hf : flushUser tx u = .ok tx') :
    OnlyRow s tx' u := by
  have hin := (flushUser_ok h.toInTx rfl hf).1
  obtain ⟨rfl, -⟩ := flushUser_eq hf
  exact ⟨hin, h.tokens, h.families⟩

theorem OnlyRow.audit {s tx tx' : Db} {u : User} {e v : String} {x : Option String} (h : OnlyRow s tx u)
    (hf : writeAudit tx u e v x = .ok tx') : OnlyRow s tx' u := by
  unfold writeAudit at hf
  cases hflush : flushUser tx u with
  | error err => rw [hflush] at hf; cases hf
  | ok tx₁ =>
    rw [hflush] at hf; cases hf
    have := h.flush hflush
    exact ⟨⟨this.users, this.events⟩, this.tokens, this.families⟩

theorem OnlyRow.rowKept_iff {s tx : Db} {u w : User} (h : OnlyRow s tx u) (hw : s.user? u.id = some w) :
    RowKept s tx u.id ↔ u = w := by
  have htx : tx.user? u.id = some u := by
    have := user?_setUser hw
    unfold Db.user? at this ⊢
    rw [h.users]; exact this
  constructor
  · intro hk
    have := hk.row
    rw [htx, hw] at this
    exact Option.some.inj this
  · intro hu
    exact ⟨by rw [htx, hw, hu], h.tokens, h.families⟩

/-- A refused cascade has flushed the session's copy, whose email is free. -/
theorem disableUserCascade_refused {s tx : Db} {u : User} {x : Option String}
    (hc : disableUserCascade s u x = .lastAdmin tx) : OnlyRow s tx u ∧ ¬ Conflict s u.id u.email := by
  unfold disableUserCascade at hc
  split at hc
  · split at hc
    · cases hc
    · rename_i s₁ hflush
      obtain ⟨rfl, hfree⟩ := flushUser_eq hflush
      split at hc
      · split at hc
        · cases hc
        · rename_i s₂ haudit
          cases hc
          exact ⟨(onlyRow_setUser s u).audit haudit, hfree⟩
      · exact absurd hc deactivate_not_lastAdmin
  · exact absurd hc deactivate_not_lastAdmin

/-- The rejection's event row goes in with the copy. -/
theorem recordEvent_onlyRow {s tx tx' : Db} {u : User} {e : ScimEvent} (h : OnlyRow s tx u)
    (hr : recordEvent tx u e = .ok (some tx')) : tx'.users = (s.setUser u).users ∧ tx'.tokens = s.tokens ∧
      tx'.families = s.families := by
  unfold recordEvent at hr
  split at hr
  · cases hr
  · cases hr
  · rename_i tx₁ hflush
    have h₁ := h.flush hflush
    split at hr
    · cases hr
    · cases hr
      exact ⟨h₁.users, h₁.tokens, h₁.families⟩

/-! ## Requests -/

section
variable {client : ScimClient} {s : Db} {u : User} {m : Mutation} {operation hash : String} {x : Option String}

theorem finish_not_403 {tx : Db} {e : ScimEvent} : (finish s tx u x e).2.status ≠ 403 := by
  have h500 : (500 : Nat) ≠ 403 := by decide
  have h200 : (200 : Nat) ≠ 403 := by decide
  unfold finish
  split
  · exact h500
  · exact h200
  · exact h200

/-- Only the refused cascade answers with 403, and it commits the session's
copy. -/
theorem applyMutation_403 (h : (applyMutation client s u operation hash x m).2.status = 403) :
    ∃ tx, OnlyRow s tx (assignFields u m).1 ∧
      (applyMutation client s u operation hash x m).1.users = tx.users ∧
      (applyMutation client s u operation hash x m).1.tokens = tx.tokens ∧
      (applyMutation client s u operation hash x m).1.families = tx.families := by
  have h500 : (500 : Nat) ≠ 403 := by decide
  have h200 : (200 : Nat) ≠ 403 := by decide
  unfold applyMutation at h ⊢
  simp only at h ⊢
  split at h
  · exact absurd h h200
  rename_i hkey
  rw [if_neg hkey]
  cases hm : m.active with
  | none =>
    simp only [hm] at h
    split at h
    · split at h
      · exact absurd h h500
      · exact absurd h finish_not_403
    · exact absurd h finish_not_403
  | some active =>
    cases active with
    | true =>
      simp only [hm] at h
      split at h
      · exact absurd h finish_not_403
      · split at h
        · exact absurd h h500
        · exact absurd h finish_not_403
    | false =>
      simp only [hm] at h ⊢
      cases hc : disableUserCascade s (assignFields u m).1 x with
      | raised => rw [hc] at h; exact absurd h h500
      | done tx u₂ => rw [hc] at h; exact absurd h finish_not_403
      | lastAdmin tx =>
        obtain ⟨htx, hfree⟩ := disableUserCascade_refused hc
        simp only [hc] at h ⊢
        split at h
        · exact absurd h h500
        · rename_i hr
          exact absurd (recordEvent_none htx.toInTx rfl (by simpa using hkey) hr) hfree
        · rename_i tx' hr
          obtain ⟨husers, htok, hfam⟩ := recordEvent_onlyRow htx hr
          exact ⟨tx, htx, husers.trans htx.users.symm, htok.trans htx.tokens.symm, hfam.trans htx.families.symm⟩

/-- **One mutation.** A mutation answered with 403 leaves the row as it was if
and only if it names no other email and no other name. -/
theorem applyMutation_rowKept (hu : s.user? u.id = some u)
    (h : (applyMutation client s u operation hash x m).2.status = 403) :
    RowKept s (applyMutation client s u operation hash x m).1 u.id ↔ NamesNoOther m u := by
  obtain ⟨tx, htx, husers, htok, hfam⟩ := applyMutation_403 h
  have hid : (assignFields u m).1.id = u.id := (assignFields_assigned u m).id
  have hiff : RowKept s tx u.id ↔ (assignFields u m).1 = u := by
    have := htx.rowKept_iff (w := u) (by rw [hid]; exact hu)
    rwa [hid] at this
  rw [← assignFields_self, ← hiff]
  have hrow : (applyMutation client s u operation hash x m).1.user? u.id = tx.user? u.id := by
    unfold Db.user?; rw [husers]
  exact ⟨fun hk => ⟨hrow ▸ hk.row, htok ▸ hk.tokens, hfam ▸ hk.families⟩,
    fun hk => ⟨hrow ▸ hk.row, htok ▸ hk.tokens, hfam ▸ hk.families⟩⟩

end

/-- The request names an email or a name that is not the user's own. -/
def Renames (py : Py) (s : Db) (r : Request) : Prop :=
  ∃ m u, requested py r = some m ∧ s.user? r.userId = some u ∧ ¬ NamesNoOther m u

section
variable {client : ScimClient} {py : Py} {s : Db} {u : User}

theorem not_renames {r : Request} {m : Mutation} (hr : requested py r = some m) (hu : s.user? r.userId = some u) :
    ¬ Renames py s r ↔ NamesNoOther m u := by
  constructor
  · intro h
    exact Classical.not_not.mp fun hn => h ⟨m, u, hr, hu, hn⟩
  · rintro h ⟨m', u', hr', hu', hn⟩
    cases Option.some.inj (hr.symm.trans hr')
    cases Option.some.inj (hu.symm.trans hu')
    exact hn h

/-- A request whose payload cannot be read renames nobody. -/
theorem not_renames_none {r : Request} (hr : requested py r = none) : ¬ Renames py s r := by
  intro ⟨m, _, hm, _⟩
  rw [hr] at hm
  cases hm

theorem externalIdFor_not_403 {e : ScimError} (h : externalIdFor client s u = .error e) : e.response.status ≠ 403 := by
  unfold externalIdFor at h
  split at h <;> cases h
  exact fun h => absurd h (by decide)

theorem patchUser_rowKept {id : Nat} (hu : s.user? id = some u) (payload : Json)
    (h : (patchUser client py s u payload).2.status = 403) :
    RowKept s (patchUser client py s u payload).1 id ↔ ¬ Renames py s (.patch id payload) := by
  have hid : u.id = id := (ByKey.find_mem hu).2
  have h400 : (400 : Nat) ≠ 403 := by decide
  have h200 : (200 : Nat) ≠ 403 := by decide
  unfold patchUser at h ⊢
  cases payload with
  | obj kvs =>
    simp only at h ⊢
    split at h
    · exact absurd h h400
    rename_i hops
    rw [if_neg hops]
    cases hx : externalIdFor client s u with
    | error e => rw [hx] at h; exact absurd h (externalIdFor_not_403 hx)
    | ok x =>
      simp only [hx] at h ⊢
      split at h
      · exact absurd h h200
      rename_i hrec
      rw [if_neg hrec]
      cases hm : patchMutation py kvs with
      | error e =>
        have hreq : requested py (.patch id (.obj kvs)) = none := by simp only [requested, hm, Except.toOption]
        exact iff_of_true (RowKept.refl s id) (not_renames_none hreq)
      | ok m =>
        have hreq : requested py (.patch id (.obj kvs)) = some m := by simp only [requested, hm, Except.toOption]
        rw [not_renames hreq hu, ← hid]
        rw [hm] at h
        exact applyMutation_rowKept (hid ▸ hu) h
  | _ => exact absurd h h400

theorem replaceUser_rowKept {id : Nat} (hu : s.user? id = some u) (payload : Json)
    (h : (replaceUser client py s u payload).2.status = 403) :
    RowKept s (replaceUser client py s u payload).1 id ↔ ¬ Renames py s (.put id payload) := by
  have hid : u.id = id := (ByKey.find_mem hu).2
  have h400 : (400 : Nat) ≠ 403 := by decide
  unfold replaceUser at h ⊢
  cases payload with
  | obj kvs =>
    simp only at h ⊢
    cases hm : replaceMutation py kvs with
    | error e =>
      have hreq : requested py (.put id (.obj kvs)) = none := by simp only [requested, hm, Except.toOption]
      exact iff_of_true (RowKept.refl s id) (not_renames_none hreq)
    | ok m =>
      have hreq : requested py (.put id (.obj kvs)) = some m := by simp only [requested, hm, Except.toOption]
      rw [not_renames hreq hu, ← hid]
      rw [hm] at h
      exact applyMutation_rowKept (hid ▸ hu) h
  | _ => exact absurd h h400

theorem deleteUser_rowKept {id : Nat} (hu : s.user? id = some u) (h : (deleteUser client py s u).2.status = 403) :
    RowKept s (deleteUser client py s u).1 id ↔ ¬ Renames py s (.delete id) := by
  have hid : u.id = id := (ByKey.find_mem hu).2
  have h204 : (204 : Nat) ≠ 403 := by decide
  unfold deleteUser at h ⊢
  cases hx : externalIdFor client s u with
  | error e => rw [hx] at h; exact absurd h (externalIdFor_not_403 hx)
  | ok x =>
    simp only [hx] at h ⊢
    split at h
    · exact absurd h h204
    rename_i hno
    rw [if_neg hno, not_renames (m := ⟨some false, none, none⟩) rfl hu, ← hid]
    exact applyMutation_rowKept (hid ▸ hu) h

end

/-- **A refused request.** A request answered with 403 leaves the user's row
and credentials as they were if and only if it names no email and no name but
the user's own. -/
theorem refused_row_kept (client : ScimClient) (py : Py) (s : Db) (r : Request)
    (h : (handle client py s r).2.status = 403) :
    RowKept s (handle client py s r).1 r.userId ↔ ¬ Renames py s r := by
  have h404 : (404 : Nat) ≠ 403 := by decide
  unfold handle at h ⊢
  cases hu : s.user? r.userId with
  | none => rw [hu] at h; exact absurd h h404
  | some u =>
    simp only [hu] at h ⊢
    cases r with
    | patch id payload => exact patchUser_rowKept hu payload h
    | put id payload => exact replaceUser_rowKept hu payload h
    | delete id => exact deleteUser_rowKept hu h

/-! The last administrator, disabled and renamed by one `PUT`. -/

def oneAdmin : Db where
  users := [⟨1, "ann@x", some "Ann", .admin, true, none⟩]
  identities := []
  tokens := []
  families := []
  audit := []
  events := []

def renamePayload : Json := .obj [("userName", .str "eve@x"), ("active", .bool false)]

theorem refused_row_kept_delete :
    RowKept oneAdmin (handle okta pyAscii oneAdmin (.delete 1)).1 1 ↔ ¬ Renames pyAscii oneAdmin (.delete 1) :=
  refused_row_kept okta pyAscii oneAdmin (.delete 1) (by decide)

/-- The request is refused and the administrator's email is another. -/
theorem refused_put_renames :
    ¬ ∀ (client : ScimClient) (py : Py) (s : Db) (r : Request), s.Wf → (handle client py s r).2.status = 403 →
      RowKept s (handle client py s r).1 r.userId := by
  intro h
  have hk := h okta pyAscii oneAdmin (.put 1 renamePayload) (by decide) (by decide)
  exact absurd hk.row (by decide)

end Cograph.Scim
