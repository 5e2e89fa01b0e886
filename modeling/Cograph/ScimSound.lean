import Cograph.Scim
import Cograph.ByKey

/-!
# When a SCIM request takes effect

A request answered with a 2xx status is in effect right afterwards if and only
if the email it names is nobody else's and its idempotency key was not used up
before, unless what it names was in effect already. The key leaves the target
user out, and the event table never forgets one, so the condition is a real
one: a payload sent for two users without an identity, or sent again after the
user was changed back, is answered and skipped.
-/

namespace Cograph.Scim

/-! ## One user in a transaction -/

/-- `tx` is `s` with the user's row written as `u`. -/
structure InTx (s tx : Db) (u : User) : Prop where
  users : tx.users = (s.setUser u).users
  events : tx.events = s.events

def Conflict (s : Db) (id : Nat) (email : String) : Prop := ∃ v ∈ s.users, v.id ≠ id ∧ v.email = email

theorem setUser_self {s : Db} (hs : s.Wf) {u : User} (hu : s.user? u.id = some u) : (s.setUser u).users = s.users := by
  have hmem : u ∈ s.users := List.mem_of_find?_eq_some hu
  show s.users.map _ = s.users
  refine (List.map_congr_left fun v hv => ?_).trans (List.map_id _)
  split
  · rename_i h
    exact (List.inj_on_of_nodup_map hs.ids hv hmem h).symm
  · rfl

theorem setUser_setUser (s : Db) {u u' : User} (h : u'.id = u.id) :
    ((s.setUser u).setUser u').users = (s.setUser u').users := by
  show (s.users.map _).map _ = s.users.map _
  rw [List.map_map]
  refine List.map_congr_left fun v _ => ?_
  by_cases hv : v.id = u.id <;> simp [hv, h]

theorem mem_setUser {s : Db} {u v : User} (h : v.id ≠ u.id) : v ∈ (s.setUser u).users ↔ v ∈ s.users := by
  simp only [Db.setUser, List.mem_map]
  constructor
  · rintro ⟨w, hw, rfl⟩
    split at h
    · exact absurd rfl h
    · rename_i hne; simpa [hne] using hw
  · intro hv
    exact ⟨v, hv, by simp [h]⟩

theorem conflict_setUser {s : Db} {u : User} {email : String} :
    Conflict (s.setUser u) u.id email ↔ Conflict s u.id email := by
  constructor
  · rintro ⟨v, hv, hne, he⟩; exact ⟨v, (mem_setUser hne).mp hv, hne, he⟩
  · rintro ⟨v, hv, hne, he⟩; exact ⟨v, (mem_setUser hne).mpr hv, hne, he⟩

theorem user?_setUser {s : Db} {u w : User} (hu : s.user? u.id = some w) : (s.setUser u).user? u.id = some u := by
  obtain ⟨hmem, hid⟩ := ByKey.find_mem hu
  unfold Db.user? Db.setUser
  rw [List.find?_map]
  have hf : ((fun v : User => decide (v.id = u.id)) ∘ fun v => if v.id = u.id then u else v) =
      fun v => decide (v.id = u.id) := by
    funext v; by_cases h : v.id = u.id <;> simp [h]
  rw [hf, show s.users.find? (fun v => decide (v.id = u.id)) = some w from hu]
  simp [hid]

theorem InTx.refl {s : Db} (hs : s.Wf) {u : User} (hu : s.user? u.id = some u) : InTx s s u :=
  ⟨(setUser_self hs hu).symm, rfl⟩

theorem flushUser_ok {s tx tx' : Db} {u u' : User} (h : InTx s tx u) (hid : u'.id = u.id)
    (hf : flushUser tx u' = .ok tx') : InTx s tx' u' ∧ ¬ Conflict s u'.id u'.email := by
  unfold flushUser at hf
  split at hf
  · cases hf
  split at hf
  · cases hf
  · rename_i hfree
    cases hf
    refine ⟨⟨?_, h.events⟩, ?_⟩
    · show tx.users.map _ = _
      rw [h.users]; exact setUser_setUser s hid
    · rintro ⟨v, hv, hne, he⟩
      refine hfree (List.any_eq_true.mpr ⟨v, ?_, by simp [hne, he]⟩)
      rw [h.users]; exact (mem_setUser (hid ▸ hne)).mpr hv

theorem flushUser_integrity {s tx : Db} {u u' : User} (h : InTx s tx u) (hid : u'.id = u.id)
    (hf : flushUser tx u' = .error .integrity) : Conflict s u'.id u'.email := by
  unfold flushUser at hf
  split at hf
  · cases hf
  split at hf
  · rename_i hany
    obtain ⟨v, hv, hc⟩ := List.any_eq_true.mp hany
    simp only [decide_eq_true_eq] at hc
    rw [h.users] at hv
    exact ⟨v, (mem_setUser (hid ▸ hc.1)).mp hv, hc.1, hc.2⟩
  · cases hf

theorem writeAudit_ok {s tx tx' : Db} {u u' : User} {e v : String} {x : Option String} (h : InTx s tx u)
    (hid : u'.id = u.id) (hf : writeAudit tx u' e v x = .ok tx') : InTx s tx' u' := by
  unfold writeAudit at hf
  cases hflush : flushUser tx u' with
  | error err => rw [hflush] at hf; cases hf
  | ok tx₁ =>
    rw [hflush] at hf; cases hf
    have := (flushUser_ok h hid hflush).1
    exact ⟨this.users, this.events⟩

theorem wf_of_users {s tx : Db} {u : User} (hs : s.Wf) (h : tx.users = (s.setUser u).users)
    (hc : ¬ Conflict s u.id u.email) : tx.Wf := by
  have hid : ∀ v : User, (if v.id = u.id then u else v).id = v.id := fun v => by
    split
    · rename_i e; exact e.symm
    · rfl
  have hpw : s.users.Pairwise fun a b => a.id ≠ b.id ∧ a.email ≠ b.email :=
    (List.pairwise_map.mp hs.ids).and (List.pairwise_map.mp hs.emails)
  constructor
  · rw [h]
    show ((s.users.map _).map _).Nodup
    rw [List.map_map]
    have : s.users.map ((·.id) ∘ fun v => if v.id = u.id then u else v) = s.users.map (·.id) :=
      List.map_congr_left fun v _ => hid v
    rw [this]
    exact hs.ids
  · rw [h]
    show ((s.users.map _).map _).Nodup
    rw [List.map_map]
    refine List.pairwise_map.mpr (hpw.imp_of_mem fun {a b} ha hb hab => ?_)
    have free : ∀ v ∈ s.users, v.id ≠ u.id → v.email ≠ u.email := fun v hv hne he => hc ⟨v, hv, hne, he⟩
    simp only [Function.comp]
    by_cases h1 : a.id = u.id <;> by_cases h2 : b.id = u.id
    · exact absurd (h1.trans h2.symm) hab.1
    · rw [if_pos h1, if_neg h2]; exact (free b hb h2).symm
    · rw [if_neg h1, if_pos h2]; exact free a ha h1
    · rw [if_neg h1, if_neg h2]; exact hab.2

/-! ## The session's copy -/

/-- The copy has what a mutation names. -/
structure Carries (m : Mutation) (u : User) : Prop where
  active : ∀ a, m.active = some a → u.isActive = a
  email : ∀ e, m.email = some e → u.email = e
  name : ∀ n, m.name = some n → u.name = some n

/-- The mutation names the empty name for a user without one, which the code
takes for no change. -/
def Unnames (m : Mutation) (u : User) : Prop := m.name = some "" ∧ u.name = none

/-- The copy has the email and name a mutation names. -/
structure Assigned (u : User) (m : Mutation) (u₁ : User) : Prop where
  id : u₁.id = u.id
  isActive : u₁.isActive = u.isActive
  email : ∀ e, m.email = some e → u₁.email = e
  kept : m.email = none → u₁.email = u.email
  name : ∀ n, m.name = some n → (u₁.name = some n ↔ ¬ Unnames m u)

theorem assignFields_eq (u : User) (m : Mutation) : (assignFields u m).1 =
    { u with
      email := m.email.getD u.email
      name := if u.name.getD "" = m.name.getD (u.name.getD "") then u.name else m.name } := by
  obtain ⟨active, name, email⟩ := m
  have hemail : ∀ e, ((if e = u.email then (u, false) else ({ u with email := e }, true)) : User × Bool).1 =
      { u with email := e } := fun e => by by_cases he : e = u.email <;> simp [he]
  cases name with
  | none => cases email <;> simp [assignFields, hemail]
  | some n =>
    by_cases hn : u.name.getD "" = n
    · subst hn; cases email <;> simp [assignFields, hemail]
    · cases email <;> simp [assignFields, hemail, hn, Ne.symm hn]

theorem assignFields_name {u : User} {m : Mutation} {n : String} (hn : m.name = some n) :
    (assignFields u m).1.name = some n ↔ ¬ Unnames m u := by
  rw [assignFields_eq, hn, Unnames, hn]
  simp only [Option.getD_some]
  cases hname : u.name with
  | none =>
    by_cases h : n = ""
    · simp [h]
    · simp [h, Ne.symm h]
  | some w =>
    by_cases h : w = n <;> simp [h]

theorem assignFields_assigned (u : User) (m : Mutation) : Assigned u m (assignFields u m).1 where
  id := by rw [assignFields_eq]
  isActive := by rw [assignFields_eq]
  email e h := by rw [assignFields_eq, h]; rfl
  kept h := by rw [assignFields_eq, h]; rfl
  name _ h := assignFields_name h

/-! ## The cascade and the event row -/

theorem deactivate_done {s s₁ tx : Db} {u' u₁ u₂ : User} {x : Option String} (h : InTx s s₁ u') (hid : u₁.id = u'.id)
    (hc : deactivate s₁ u₁ x = .done tx u₂) :
    (u₂ = u₁ ∧ u₁.isActive = false ∨ u₂ = u₁.deactivated) ∧ ∃ w, w.id = u'.id ∧ InTx s tx w := by
  unfold deactivate at hc
  split at hc
  · rename_i hact
    cases hc
    exact ⟨Or.inl ⟨rfl, hact⟩, u', rfl, h⟩
  · split at hc
    · cases hc
    · rename_i s₂ hflush
      have hid' : u₁.deactivated.id = u'.id := hid
      have h₂ := (flushUser_ok h hid' hflush).1
      have h₃ : InTx s (revokeCredentials s₂ u₁.id) u₁.deactivated := ⟨h₂.users, h₂.events⟩
      split at hc
      · cases hc
      · rename_i s₃ haudit
        cases hc
        have h₄ : InTx s tx u₁.deactivated := writeAudit_ok h₃ rfl haudit
        exact ⟨Or.inr rfl, _, hid', h₄⟩

theorem deactivate_not_lastAdmin {s tx : Db} {u : User} {x : Option String} : deactivate s u x ≠ .lastAdmin tx := by
  unfold deactivate
  split
  · nofun
  · split
    · nofun
    · split <;> nofun

/-- The cascade ends with the user disabled and otherwise as the caller left
the copy. -/
theorem disableUserCascade_done {s tx : Db} {u u₁ u₂ : User} {x : Option String} (h : InTx s s u) (hid : u₁.id = u.id)
    (hc : disableUserCascade s u₁ x = .done tx u₂) :
    (u₂ = u₁ ∧ u₁.isActive = false ∨ u₂ = u₁.deactivated) ∧ ∃ w, w.id = u.id ∧ InTx s tx w := by
  unfold disableUserCascade at hc
  split at hc
  · split at hc
    · cases hc
    · rename_i s₁ hflush
      have h₁ := (flushUser_ok h hid hflush).1
      split at hc
      · split at hc <;> cases hc
      · obtain ⟨hu₂, w, hw, htx⟩ := deactivate_done h₁ rfl hc
        exact ⟨hu₂, w, hw.trans hid, htx⟩
  · exact deactivate_done h hid hc

theorem disableUserCascade_lastAdmin {s tx : Db} {u u₁ : User} {x : Option String} (h : InTx s s u) (hid : u₁.id = u.id)
    (hc : disableUserCascade s u₁ x = .lastAdmin tx) : InTx s tx u₁ := by
  unfold disableUserCascade at hc
  split at hc
  · split at hc
    · cases hc
    · rename_i s₁ hflush
      have h₁ := (flushUser_ok h hid hflush).1
      split at hc
      · split at hc
        · cases hc
        · rename_i s₂ haudit
          cases hc
          exact writeAudit_ok h₁ rfl haudit
      · exact absurd hc deactivate_not_lastAdmin
  · exact absurd hc deactivate_not_lastAdmin

theorem enableUser_ok {s tx : Db} {u u₁ u₂ : User} (h : InTx s s u) (hid : u₁.id = u.id)
    (hact : u₁.isActive = false) (he : enableUser s u₁ = .ok (tx, u₂)) :
    u₂ = u₁.reactivated ∧ ∃ w, w.id = u.id ∧ InTx s tx w := by
  unfold enableUser at he
  rw [hact] at he
  simp only [Bool.false_eq_true, if_false] at he
  split at he
  · cases he
  · rename_i tx' haudit
    cases he
    have hid' : u₁.reactivated.id = u.id := hid
    exact ⟨rfl, _, hid', writeAudit_ok h hid' haudit⟩

theorem recordEvent_some {s tx tx' : Db} {u u' : User} {e : ScimEvent} (h : InTx s tx u') (hid : u.id = u'.id)
    (hr : recordEvent tx u e = .ok (some tx')) :
    tx'.users = (s.setUser u).users ∧ ¬ Conflict s u.id u.email := by
  unfold recordEvent at hr
  split at hr
  · cases hr
  · cases hr
  · rename_i tx₁ hflush
    obtain ⟨h₁, hfree⟩ := flushUser_ok h hid hflush
    split at hr
    · cases hr
    · cases hr
      exact ⟨h₁.users, hfree⟩

theorem recordEvent_none {s tx : Db} {u u' : User} {e : ScimEvent} (h : InTx s tx u') (hid : u.id = u'.id)
    (hkey : s.existingEvent e.idempotencyKey = false) (hr : recordEvent tx u e = .ok none) :
    Conflict s u.id u.email := by
  unfold recordEvent at hr
  split at hr
  · cases hr
  · rename_i hflush; exact flushUser_integrity h hid hflush
  · rename_i tx₁ hflush
    have h₁ := (flushUser_ok h hid hflush).1
    have : tx₁.existingEvent e.idempotencyKey = false := by
      unfold Db.existingEvent at hkey ⊢; rw [h₁.events]; exact hkey
    rw [this] at hr
    cases hr

/-! ## What a mutation leaves -/

/-- How a mutation of user `u` that asks for `m` can end. -/
inductive Ends (s : Db) (u : User) (m : Mutation) : Outcome → Prop
  /-- Nothing was written and the answer is no success. -/
  | refused {r : Response} : r.ok = false → Ends s u m (s, r)
  /-- A rejection was recorded; the session's copy went with it. -/
  | rejected {tx : Db} {u' : User} {r : Response} : r.ok = false → u'.id = u.id → ¬ Conflict s u.id u'.email →
      tx.users = (s.setUser u').users → Ends s u m (tx, r)
  /-- The email is taken, and the unique index was read as a replay. -/
  | shadowed {e : String} {r : Response} : m.email = some e → Conflict s u.id e → r.ok = true → Ends s u m (s, r)
  | applied {tx : Db} {u' : User} {r : Response} : (Carries m u' ↔ ¬ Unnames m u) → u'.id = u.id →
      ¬ Conflict s u.id u'.email → (∀ e, m.email = some e → u'.email = e) → tx.users = (s.setUser u').users →
      r.ok = true → Ends s u m (tx, r)

section
variable {s : Db} (hs : s.Wf) {u : User} (hu : s.user? u.id = some u) {m : Mutation}
include hs hu

/-- The user's own email is nobody else's, so a conflict is over a named one. -/
theorem conflict_named {u₁ : User} (ha : Assigned u m u₁) (hc : Conflict s u.id u₁.email) :
    ∃ e, m.email = some e ∧ Conflict s u.id e := by
  cases he : m.email with
  | some e => exact ⟨e, rfl, ha.email e he ▸ hc⟩
  | none =>
    obtain ⟨v, hv, hne, heq⟩ := hc
    rw [ha.kept he] at heq
    have := List.inj_on_of_nodup_map hs.emails hv (List.mem_of_find?_eq_some hu) heq
    exact absurd (congrArg User.id this) hne

theorem finish_ends {tx : Db} {w u₁ u₂ : User} {x : Option String} {e : ScimEvent} (hin : InTx s tx w) (hw : w.id = u.id)
    (ha : Assigned u m u₁) (hid : u₂.id = u₁.id) (hemail : u₂.email = u₁.email) (hcar : Carries m u₂ ↔ ¬ Unnames m u)
    (hkey : s.existingEvent e.idempotencyKey = false) : Ends s u m (finish s tx u₂ x e) := by
  have hid₂ : u₂.id = u.id := hid.trans ha.id
  unfold finish
  split
  · exact .refused rfl
  · rename_i hr
    have hc := recordEvent_none hin (hid₂.trans hw.symm) hkey hr
    rw [hid₂, hemail] at hc
    obtain ⟨em, hem, hconf⟩ := conflict_named hs hu ha hc
    exact .shadowed hem hconf rfl
  · rename_i tx' hr
    obtain ⟨husers, hfree⟩ := recordEvent_some hin (hid₂.trans hw.symm) hr
    exact .applied hcar hid₂ (hid₂ ▸ hfree) (fun em h => hemail.trans (ha.email em h)) husers rfl

theorem applyMutation_ends {client : ScimClient} {op hash : String} {x : Option String}
    (hkey : s.existingEvent (buildIdempotencyKey client x op hash) = false) :
    Ends s u m (applyMutation client s u op hash x m) := by
  have ha := assignFields_assigned u m
  have hin : InTx s s u := .refl hs hu
  have carries : ∀ {u₂ : User}, (∀ a, m.active = some a → u₂.isActive = a) → u₂.email = (assignFields u m).1.email →
      u₂.name = (assignFields u m).1.name → (Carries m u₂ ↔ ¬ Unnames m u) := fun hact he hn =>
    ⟨fun hc h => (ha.name "" h.1).mp (hn.symm.trans (hc.name "" h.1)) h,
      fun hu => ⟨hact, fun e h => he.trans (ha.email e h), fun n h => hn.trans ((ha.name n h).mpr hu)⟩⟩
  unfold applyMutation
  simp only [hkey, Bool.false_eq_true, if_false]
  split
  · rename_i hact
    split
    · exact .refused rfl
    · rename_i tx hc
      have htx := disableUserCascade_lastAdmin hin ha.id hc
      split
      · exact .refused rfl
      · exact .refused rfl
      · rename_i tx' hr
        obtain ⟨husers, hfree⟩ := recordEvent_some htx rfl hr
        exact .rejected rfl ha.id (ha.id ▸ hfree) husers
    · rename_i tx u₂ hc
      obtain ⟨hu₂, w, hw, htx⟩ := disableUserCascade_done hin ha.id hc
      have hshape : u₂.id = (assignFields u m).1.id ∧ u₂.email = (assignFields u m).1.email ∧
          u₂.name = (assignFields u m).1.name ∧ u₂.isActive = false := by
        rcases hu₂ with ⟨rfl, hf⟩ | rfl
        · exact ⟨rfl, rfl, rfl, hf⟩
        · exact ⟨rfl, rfl, rfl, rfl⟩
      obtain ⟨h1, h2, h3, h4⟩ := hshape
      exact finish_ends hs hu htx hw ha h1 h2
        (carries (fun a h => by rw [hact] at h; cases h; exact h4) h2 h3) hkey
  · rename_i hact
    split
    · rename_i hon
      exact finish_ends hs hu hin rfl ha rfl rfl
        (carries (fun a h => by rw [hact] at h; cases h; exact hon) rfl rfl) hkey
    · rename_i hoff
      split
      · exact .refused rfl
      · rename_i tx u₂ he
        obtain ⟨rfl, w, hw, htx⟩ := enableUser_ok hin ha.id (by simpa using hoff) he
        exact finish_ends hs hu htx hw ha rfl rfl
          (carries (fun a h => by rw [hact] at h; cases h; rfl) rfl rfl) hkey
  · rename_i hact
    have hnone : ∀ {u₂ : User} (a : Bool), m.active = some a → u₂.isActive = a := fun a h => by rw [hact] at h; cases h
    split
    · split
      · exact .refused rfl
      · rename_i tx haudit
        exact finish_ends hs hu (writeAudit_ok hin ha.id haudit) ha.id ha rfl rfl (carries hnone rfl rfl) hkey
    · exact finish_ends hs hu hin rfl ha rfl rfl (carries hnone rfl rfl) hkey

end

/-! ## Requests -/

section
variable (client : ScimClient) (py : Py)

def requestKey (s : Db) (r : Request) : Option String :=
  (s.user? r.userId).bind fun u =>
    match r with
    | .patch _ payload =>
      (externalIdFor client s u).toOption.map fun x => buildIdempotencyKey client x "patch" (py.payloadHash payload)
    | .put _ (.obj kvs) => some (buildIdempotencyKey client (putExternalId kvs) "replace" (py.payloadHash (.obj kvs)))
    | .put _ _ => none
    | .delete _ =>
      (externalIdFor client s u).toOption.map fun x => buildIdempotencyKey client x "delete" (py.payloadHash deletePayload)

/-- An event is recorded under the request's key. -/
def Recorded (s : Db) (r : Request) : Prop := ∃ key, requestKey client py s r = some key ∧ s.existingEvent key = true

def InEffect (s : Db) (r : Request) : Prop :=
  ∀ m, requested py r = some m → ∃ u, s.user? r.userId = some u ∧ Carries m u

/-- The email the request names is no other user's. -/
def EmailFree (s : Db) (r : Request) : Prop :=
  ∀ m e, requested py r = some m → m.email = some e → ¬ Conflict s r.userId e

/-- When a request does what it names: the email it names is free, it does not
empty a name that is missing, and its key is free, too, unless what it names is
in effect already. -/
structure Meets (s : Db) (r : Request) : Prop where
  emailFree : EmailFree py s r
  named : ∀ m u, requested py r = some m → s.user? r.userId = some u → ¬ Unnames m u
  fresh : ¬ Recorded client py s r ∨ InEffect py s r

variable {client py}

theorem InEffect.emailFree {s : Db} (hs : s.Wf) {r : Request} (h : InEffect py s r) : EmailFree py s r := by
  rintro m e hm he ⟨v, hv, hne, hve⟩
  obtain ⟨u, hu, hcar⟩ := h m hm
  obtain ⟨hmem, hid⟩ := ByKey.find_mem hu
  have := List.inj_on_of_nodup_map hs.emails hv hmem (hve.trans (hcar.email e he).symm)
  exact hne (this ▸ hid)

/-- How a request can end: refused, answered from a recorded event, or as its
mutation ends. -/
inductive Answer (client : ScimClient) (py : Py) (s : Db) (r : Request) : Outcome → Prop
  | refused {a : Response} : a.ok = false → Answer client py s r (s, a)
  | replayed {a : Response} : Recorded client py s r → Answer client py s r (s, a)
  | mutated {u : User} {m : Mutation} {o : Outcome} : s.user? r.userId = some u → requested py r = some m →
      ¬ Recorded client py s r → Ends s u m o → Answer client py s r o

theorem recorded_iff {s : Db} {r : Request} {key : String} (h : requestKey client py s r = some key) :
    Recorded client py s r ↔ s.existingEvent key = true :=
  ⟨fun ⟨_, h₁, h₂⟩ => Option.some.inj (h₁.symm.trans h) ▸ h₂, fun h₂ => ⟨key, h, h₂⟩⟩

/-! Every error of a payload reader is answered with 400 or 500. -/

theorem lowered_error {j : Json} {e : ScimError} (h : lowered py j = .error e) : e.response.ok = false := by
  unfold lowered at h
  split at h <;> cases h
  rfl

theorem patchOp_error {m : Mutation} {j : Json} {e : ScimError} (h : patchOp py m j = .error e) :
    e.response.ok = false := by
  unfold patchOp at h
  split at h
  · rename_i op
    cases hp : lowered py (get op "path") with
    | error e' => rw [hp] at h; cases h; exact lowered_error hp
    | ok path =>
      cases hv : lowered py (get op "op") with
      | error e' => rw [hp, hv] at h; cases h; exact lowered_error hv
      | ok verb =>
        simp only [hp, hv, bind, Except.bind] at h
        split at h
        · cases h; rfl
        · repeat' split at h
          all_goals cases h
          rfl
  · cases h

theorem patchOps_error {ops : List Json} {m : Mutation} {e : ScimError} (h : ops.foldlM (patchOp py) m = .error e) :
    e.response.ok = false := by
  induction ops generalizing m with
  | nil => cases h
  | cons op ops ih =>
    rw [List.foldlM_cons] at h
    cases hop : patchOp py m op with
    | error e' => rw [hop] at h; cases h; exact patchOp_error hop
    | ok m' => rw [hop] at h; exact ih h

theorem patchMutation_error {kvs : List (String × Json)} {e : ScimError} (h : patchMutation py kvs = .error e) :
    e.response.ok = false := by
  unfold patchMutation operations at h
  split at h
  · exact patchOps_error h
  · exact patchOps_error h
  · exact patchOps_error h
  · cases h; rfl

theorem replaceMutation_error {kvs : List (String × Json)} {e : ScimError} (h : replaceMutation py kvs = .error e) :
    e.response.ok = false := by
  unfold replaceMutation at h
  split at h <;> cases h
  rfl

theorem externalIdFor_error {s : Db} {u : User} {e : ScimError} (h : externalIdFor client s u = .error e) :
    e.response.ok = false := by
  unfold externalIdFor at h
  split at h <;> cases h
  rfl

section
variable {s : Db} (hs : s.Wf) {u : User}
include hs

theorem patchUser_answer {id : Nat} (hu : s.user? id = some u) (payload : Json) :
    Answer client py s (.patch id payload) (patchUser client py s u payload) := by
  have hid : u.id = id := (ByKey.find_mem hu).2
  unfold patchUser
  split
  · rename_i kvs
    split
    · exact .refused rfl
    · cases hx : externalIdFor client s u with
      | error e => exact .refused (externalIdFor_error hx)
      | ok x =>
        have hkey : requestKey client py s (.patch id (.obj kvs)) =
            some (buildIdempotencyKey client x "patch" (py.payloadHash (.obj kvs))) := by
          simp only [requestKey, Request.userId, hu, Option.bind_some, hx, Except.toOption, Option.map_some]
        simp only
        split
        · rename_i hrec
          exact .replayed ((recorded_iff hkey).mpr hrec)
        · rename_i hfresh
          cases hm : patchMutation py kvs with
          | error e => exact .refused (patchMutation_error hm)
          | ok m =>
            have hreq : requested py (.patch id (.obj kvs)) = some m := by simp only [requested, hm, Except.toOption]
            exact .mutated hu hreq (fun h => hfresh ((recorded_iff hkey).mp h))
              (applyMutation_ends hs (hid ▸ hu) (by simpa using hfresh))
  · exact .refused rfl

theorem replaceUser_answer {id : Nat} (hu : s.user? id = some u) (payload : Json) :
    Answer client py s (.put id payload) (replaceUser client py s u payload) := by
  have hid : u.id = id := (ByKey.find_mem hu).2
  unfold replaceUser
  split
  · rename_i kvs
    cases hm : replaceMutation py kvs with
    | error e => exact .refused (replaceMutation_error hm)
    | ok m =>
      have hkey : requestKey client py s (.put id (.obj kvs)) =
          some (buildIdempotencyKey client (putExternalId kvs) "replace" (py.payloadHash (.obj kvs))) := by
        simp only [requestKey, Request.userId, hu, Option.bind_some]
      have hreq : requested py (.put id (.obj kvs)) = some m := by simp only [requested, hm, Except.toOption]
      simp only
      by_cases hrec : s.existingEvent (buildIdempotencyKey client (putExternalId kvs) "replace"
          (py.payloadHash (.obj kvs))) = true
      · have hrep := (recorded_iff hkey).mpr hrec
        unfold applyMutation
        rw [if_pos hrec]
        exact .replayed hrep
      · exact .mutated hu hreq (fun h => hrec ((recorded_iff hkey).mp h))
          (applyMutation_ends hs (hid ▸ hu) (by simpa using hrec))
  · exact .refused rfl

omit hs in
theorem Ends.respond {m : Mutation} {s' : Db} {a a' : Response} (h : Ends s u m (s', a)) (ha : a'.ok = a.ok) :
    Ends s u m (s', a') := by
  cases h with
  | refused h => exact .refused (ha.trans h)
  | rejected h h₁ h₂ h₃ => exact .rejected (ha.trans h) h₁ h₂ h₃
  | shadowed h h₁ h₂ => exact .shadowed h h₁ (ha.trans h₂)
  | applied h h₁ h₂ h₃ h₄ h₅ => exact .applied h h₁ h₂ h₃ h₄ (ha.trans h₅)

theorem deleteUser_answer {id : Nat} (hu : s.user? id = some u) :
    Answer client py s (.delete id) (deleteUser client py s u) := by
  have hid : u.id = id := (ByKey.find_mem hu).2
  unfold deleteUser
  cases hx : externalIdFor client s u with
  | error e => exact .refused (externalIdFor_error hx)
  | ok x =>
    have hkey : requestKey client py s (.delete id) =
        some (buildIdempotencyKey client x "delete" (py.payloadHash deletePayload)) := by
      simp only [requestKey, Request.userId, hu, Option.bind_some, hx, Except.toOption, Option.map_some]
    simp only
    by_cases hrec : s.existingEvent (buildIdempotencyKey client x "delete" (py.payloadHash deletePayload)) = true
    · have hrep := (recorded_iff hkey).mpr hrec
      unfold applyMutation
      rw [if_pos hrec]
      split <;> exact .replayed hrep
    · refine .mutated hu rfl (fun h => hrec ((recorded_iff hkey).mp h)) ?_
      have hends : Ends s u ⟨some false, none, none⟩
          (applyMutation client s u "delete" (py.payloadHash deletePayload) x ⟨some false, none, none⟩) :=
        applyMutation_ends hs (hid ▸ hu) (by simpa using hrec)
      generalize applyMutation client s u "delete" (py.payloadHash deletePayload) x ⟨some false, none, none⟩ = o at hends ⊢
      obtain ⟨s', a⟩ := o
      simp only
      split
      · rename_i hok
        exact Ends.respond hends (by rcases hok with h | h <;> simp [Response.ok, h])
      · exact hends

theorem handle_answer (r : Request) : Answer client py s r (handle client py s r) := by
  unfold handle
  split
  · exact .refused rfl
  · rename_i u hu
    cases r with
    | patch id payload => exact patchUser_answer hs hu payload
    | put id payload => exact replaceUser_answer hs hu payload
    | delete id => exact deleteUser_answer hs hu

theorem handle_wf (r : Request) : (handle client py s r).1.Wf := by
  have h : Answer client py s r (handle client py s r) := handle_answer hs r
  generalize handle client py s r = o at h ⊢
  cases h with
  | refused => exact hs
  | replayed => exact hs
  | mutated _ _ _ hends =>
    cases hends with
    | refused => exact hs
    | shadowed => exact hs
    | rejected _ hid hfree husers => exact wf_of_users hs husers (hid ▸ hfree)
    | applied _ hid hfree _ husers => exact wf_of_users hs husers (hid ▸ hfree)

omit hs in
theorem inEffect_iff {s' : Db} {r : Request} {m : Mutation} {w : User} (hm : requested py r = some m)
    (hw : s'.user? r.userId = some w) : InEffect py s' r ↔ Carries m w := by
  constructor
  · intro h
    obtain ⟨w', hw', hc⟩ := h m hm
    exact Option.some.inj (hw.symm.trans hw') ▸ hc
  · intro hc m' hm'
    exact ⟨w, hw, Option.some.inj (hm.symm.trans hm') ▸ hc⟩

theorem InEffect.meets {r : Request} (h : InEffect py s r) : Meets client py s r :=
  { emailFree := h.emailFree hs
    named := fun _ _ hm hw ⟨hn, hnone⟩ => by
      have hc := (inEffect_iff hm hw).mp h
      rw [hc.name "" hn] at hnone
      cases hnone
    fresh := Or.inr h }

/-- **One request.** A request answered with success is in effect afterwards
if and only if it met the condition before. -/
theorem handle_inEffect (r : Request) (hok : (handle client py s r).2.ok = true) :
    InEffect py (handle client py s r).1 r ↔ Meets client py s r := by
  have h : Answer client py s r (handle client py s r) := handle_answer hs r
  generalize handle client py s r = o at h hok ⊢
  cases h with
  | refused hno => rw [hno] at hok; cases hok
  | replayed hrec => exact ⟨fun h => h.meets hs, fun h => h.fresh.resolve_left (not_not.mpr hrec)⟩
  | @mutated u m _ hu hm hfresh hends =>
    have hid : u.id = r.userId := (ByKey.find_mem hu).2
    cases hends with
    | refused hno => rw [hno] at hok; cases hok
    | rejected hno => rw [hno] at hok; cases hok
    | shadowed he hconf _ =>
      rw [hid] at hconf
      exact ⟨fun h => h.meets hs, fun h => absurd hconf (h.emailFree m _ hm he)⟩
    | @applied tx u' a hcar hid' hfree hemail husers _ =>
      have hu' : tx.user? r.userId = some u' := by
        have hpre : s.user? u'.id = some u := by rw [hid', hid]; exact hu
        have h₁ := user?_setUser hpre
        unfold Db.user? at h₁ ⊢
        rw [husers, ← hid, ← hid']; exact h₁
      rw [inEffect_iff hm hu', hcar]
      constructor
      · intro hn
        refine ⟨fun m' e hm' he => ?_, fun m' w hm' hw => ?_, Or.inl hfresh⟩
        · cases Option.some.inj (hm.symm.trans hm')
          rw [← hid, ← hemail e he]; exact hfree
        · cases Option.some.inj (hm.symm.trans hm')
          cases Option.some.inj (hu.symm.trans hw)
          exact hn
      · intro h; exact h.named m u hm hu

end

/-! ## Runs -/

theorem next_wf {s s' : Db} (hs : s.Wf) {a : Act} (h : next client py s a = some s') : s'.Wf := by
  cases a with
  | request r => cases h; exact handle_wf hs r
  | other users identities =>
    simp only [next] at h
    split at h
    · rename_i hwf; cases h; exact hwf
    · cases h

/-- **SCIM requests take effect.** In every run of one client's requests and of
other writers, a request answered with success is in effect right afterwards if
and only if its email is free, it does not empty a missing name, and its key is
free or what it names was in effect already. -/
theorem scim_takes_effect (client : ScimClient) (py : Py) {s : Db} (hs : s.Wf) (as : List Act) :
    ∀ t ∈ Machine.trace (next client py) s as, ∀ r, t.act = .request r →
      (handle client py t.pre r).2.ok = true → (InEffect py t.post r ↔ Meets client py t.pre r) := by
  intro t ht r hr hok
  have hwf := (Machine.inv_of_step _ (fun _ _ _ h hn => next_wf h hn) hs t ht).1
  have hnext := Machine.trace_next _ ht
  rw [hr] at hnext
  rw [show t.post = (handle client py t.pre r).1 from (Option.some.inj hnext).symm]
  exact handle_inEffect hwf r hok

/-! Two users without an identity, and one payload that disables a user. -/

def pyAscii : Py where
  lower s := String.ofList (s.toList.map Char.toLower)
  strip s := String.ofList ((s.toList.dropWhile Char.isWhitespace).reverse.dropWhile Char.isWhitespace).reverse
  str
    | .num text _ => text
    | .bool true => "True"
    | .bool false => "False"
    | _ => "None"
  payloadHash
    | .obj [("Operations", _)] => "1c161582244932010ef1cecd3dba43ef777254fad79780f43f48868fe2893fc8"
    | _ => ""

def disablePayload : Json :=
  .obj [("Operations", .arr [.obj [("op", .str "replace"), ("path", .str "active"), ("value", .bool false)]])]

def twoUsers : Db where
  users := [⟨1, "ann@x", none, .user, true, none⟩, ⟨2, "bob@x", none, .user, true, none⟩]
  identities := []
  tokens := []
  families := []
  audit := []
  events := []

def okta : ScimClient := ⟨some 7, "7"⟩

theorem scim_takes_effect_two :
    let r := Request.patch 1 disablePayload
    let s' := (handle okta pyAscii twoUsers r).1
    InEffect pyAscii s' r ↔ Meets okta pyAscii twoUsers r :=
  scim_takes_effect okta pyAscii (by decide) [.request (.patch 1 disablePayload)]
    ⟨twoUsers, .request (.patch 1 disablePayload), _⟩ (List.mem_cons_self ..) _ rfl (by decide)

/-- The second user stays enabled behind a 200. -/
theorem scim_replay_other_user :
    ¬ ∀ (client : ScimClient) (py : Py) (s : Db) (as : List Act), s.Wf →
      ∀ t ∈ Machine.trace (next client py) s as, ∀ r, t.act = .request r →
        (handle client py t.pre r).2.ok = true → InEffect py t.post r := by
  intro h
  have h₂ := h okta pyAscii twoUsers [.request (.patch 1 disablePayload), .request (.patch 2 disablePayload)] (by decide)
    _ (List.mem_cons_of_mem _ (List.mem_cons_self ..)) _ rfl (by decide)
  obtain ⟨u, hu, hc⟩ := h₂ ⟨some false, none, none⟩ (by decide)
  have hstays : u.isActive = true := by
    have : u = ⟨2, "bob@x", none, .user, true, none⟩ := Option.some.inj (hu.symm.trans (by decide))
    rw [this]
  exact absurd (hc.active false rfl) (by rw [hstays]; decide)

end

end Cograph.Scim
