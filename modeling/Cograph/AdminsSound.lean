import Cograph.Admins
import Cograph.ScimSound

/-!
# The last administrator

Each guard looks at the other administrators before the commit, and locks
nothing. An administrator is left as long as what a transaction has read is
still so when it takes a right away.
-/

namespace Cograph.Admins

open Scim (User UserRole isAdminRole)

def ActiveAdmin (users : List User) (id : Nat) : Prop := ∃ v ∈ users, v.id = id ∧ isAdminRole v.role = true ∧ v.isActive = true

def HasAdmin (users : List User) : Prop := ∃ id, ActiveAdmin users id

/-- The write takes no right away. -/
def Write.promotes : Write → Bool
  | .setRole role => isAdminRole role
  | _ => false

/-- What the decision of a transaction rests on is still so: the actor who
demotes somebody else is an active administrator; the target is no
administrator if it was none when it was loaded, and else one of the
administrators that were counted is still active. -/
def Current (users : List User) (r : Request) (user : User) (counted : List Nat) : Prop :=
  match r with
  | .update actor target _ =>
    if actor = target then ∃ id ∈ counted, ActiveAdmin users id else ActiveAdmin users actor
  | _ =>
    if isAdminRole user.role then ∃ id ∈ counted, ActiveAdmin users id
    else ∀ v ∈ users, v.id = user.id → isAdminRole v.role = false

def Phase.Rests (users : List User) (r : Request) : Phase → Prop
  | .checked user counted w => w.promotes = true ∨ Current users r user counted
  | _ => True

/-- A commit that takes a right away rests on what is still so. -/
def Rests (s : St) : Act → Prop
  | .commit i => (s.txs i).phase.Rests s.users (s.txs i).request
  | _ => True

/-! ## Writes -/

section
variable {users : List User} {id other : Nat}

theorem apply_other (w : Write) (h : ActiveAdmin users other) (hne : other ≠ id) : ActiveAdmin (w.apply id users) other := by
  obtain ⟨v, hv, hid, hrole, hactive⟩ := h
  have hvid : v.id ≠ id := by
    rw [hid]
    exact hne
  refine ⟨v, ?_, hid, hrole, hactive⟩
  cases w with
  | setRole role => exact List.mem_map.mpr ⟨v, hv, if_neg hvid⟩
  | deactivate reason => exact List.mem_map.mpr ⟨v, hv, if_neg hvid⟩
  | delete => simp [Write.apply, hv, hvid]

theorem apply_promotes {w : Write} (hw : w.promotes = true) (h : ActiveAdmin users other) :
    ActiveAdmin (w.apply id users) other := by
  cases w with
  | setRole role =>
    obtain ⟨v, hv, hid, hrole, hactive⟩ := h
    refine ⟨_, List.mem_map.mpr ⟨v, hv, rfl⟩, ?_⟩
    by_cases hvid : v.id = id
    · simp only [if_pos hvid]
      exact ⟨hid, hw, hactive⟩
    · simp only [if_neg hvid]
      exact ⟨hid, hrole, hactive⟩
  | deactivate | delete => cases hw

theorem mem_remaining {user : User} (h : other ∈ remaining users user) : other ≠ user.id := by
  simp only [remaining, List.mem_map, List.mem_filter, decide_eq_true_eq] at h
  obtain ⟨v, ⟨_, hne, _⟩, rfl⟩ := h
  exact hne

theorem remaining_active {user : User} (h : other ∈ remaining users user) : ActiveAdmin users other := by
  simp only [remaining, List.mem_map, List.mem_filter, decide_eq_true_eq] at h
  obtain ⟨v, ⟨hv, _, hrole, hactive⟩, rfl⟩ := h
  exact ⟨v, hv, rfl, hrole, hactive⟩

end

/-- The guard of the deprovisioning cascade is the one of the sequential
model. -/
theorem remaining_count (s : Scim.Db) (user : User) :
    (remaining s.users user).isEmpty = decide (Scim.remainingAdmins s user = 0) := by
  rw [Scim.remainingAdmins, remaining, List.countP_eq_length_filter]
  cases s.users.filter _ <;> simp

/-! ## Transactions -/

structure Inv (s : St) : Prop where
  loaded : ∀ {i : Nat} {v : User}, (s.txs i).phase = .loaded v → v.id = (s.txs i).request.target
  target : ∀ {i : Nat} {v : User} {counted : List Nat} {w : Write}, (s.txs i).phase = .checked v counted w →
    v.id = (s.txs i).request.target
  others : ∀ {i : Nat} {v : User} {counted : List Nat} {w : Write}, (s.txs i).phase = .checked v counted w →
    ∀ id ∈ counted, id ≠ v.id

theorem Init.inv {s : St} (h : Init s) : Inv s where
  loaded hp := by simp [h.txs] at hp
  target hp := by simp [h.txs] at hp
  others hp := by simp [h.txs] at hp

section
variable {s : St} (h : Inv s)
include h

theorem Inv.set {s' : St} {i : Nat} {t : Tx} (htxs : s'.txs = Function.update s.txs i t)
    (hloaded : ∀ v, t.phase = .loaded v → v.id = t.request.target)
    (hchecked : ∀ v counted w, t.phase = .checked v counted w → v.id = t.request.target ∧ ∀ id ∈ counted, id ≠ v.id) :
    Inv s' := by
  have hself : s'.txs i = t := by rw [htxs, Function.update_self]
  have hother : ∀ {j : Nat}, j ≠ i → s'.txs j = s.txs j := fun hj => by rw [htxs, Function.update_of_ne hj]
  constructor
  · intro j v hp
    by_cases hj : j = i
    · subst hj
      rw [hself] at hp ⊢
      exact hloaded v hp
    · rw [hother hj] at hp ⊢
      exact h.loaded hp
  · intro j v counted w hp
    by_cases hj : j = i
    · subst hj
      rw [hself] at hp ⊢
      exact (hchecked v counted w hp).1
    · rw [hother hj] at hp ⊢
      exact h.target hp
  · intro j v counted w hp
    by_cases hj : j = i
    · subst hj
      rw [hself] at hp
      exact (hchecked v counted w hp).2
    · rw [hother hj] at hp
      exact h.others hp

theorem Inv.ended {s' : St} {i : Nat} (htxs : s'.txs = (s.goto i .ended).txs) : Inv s' := by
  apply h.set htxs <;> simp

theorem Inv.step {s' : St} {a : Act} (hn : next s a = some s') : Inv s' := by
  cases a with
  | authorise i r =>
    simp only [next, St.authorise] at hn
    split at hn
    · split at hn
      · cases hn
        apply h.set rfl <;> simp
      · split at hn
        · cases hn
        · split at hn
          · cases hn
            apply h.set rfl <;> simp
          · cases hn
    · cases hn
  | load i =>
    simp only [next, St.load] at hn
    split at hn
    · split at hn
      · cases hn
        exact h.ended rfl
      · rename_i v hv
        cases hn
        apply h.set rfl
        · intro u hu
          cases hu
          rcases Option.or_eq_some_iff.mp hv with hv | ⟨_, hv⟩
          · simpa using (Option.filter_eq_some_iff.mp hv).2
          · simpa using List.find?_some hv
        · simp
    · cases hn
  | check i =>
    simp only [next, St.check] at hn
    split at hn
    · rename_i v hp
      split at hn
      · cases hn
        exact h.ended rfl
      · cases hn
        exact h.ended rfl
      · cases hn
        apply h.set rfl
        · simp
        · intro u counted w hu
          cases hu
          exact ⟨h.loaded hp, fun id hid => mem_remaining hid⟩
    · cases hn
  | commit i =>
    simp only [next, St.commit] at hn
    split at hn
    · cases hn
      exact h.ended rfl
    · cases hn
  | abort i =>
    simp only [next, St.abort] at hn
    split at hn
    · cases hn
    · cases hn
      exact h.ended rfl

end

/-! ## Steps -/

theorem commit_keeps {s s' : St} (h : Inv s) (hadmin : HasAdmin s.users) {i : Nat} (hn : s.commit i = some s')
    (hrests : Rests s (.commit i)) : HasAdmin s'.users := by
  simp only [St.commit] at hn
  split at hn
  · rename_i v counted w hp
    cases hn
    have hcounted : (∃ id ∈ counted, ActiveAdmin s.users id) → HasAdmin (w.apply v.id s.users) := by
      intro hc
      obtain ⟨id, hid, hact⟩ := hc
      exact ⟨id, apply_other w hact (h.others hp id hid)⟩
    have hplain : (if isAdminRole v.role then ∃ id ∈ counted, ActiveAdmin s.users id
        else ∀ u ∈ s.users, u.id = v.id → isAdminRole u.role = false) → HasAdmin (w.apply v.id s.users) := by
      intro hc
      by_cases hrole : isAdminRole v.role = true
      · rw [if_pos hrole] at hc
        exact hcounted hc
      · rw [if_neg hrole] at hc
        -- whoever is an active administrator is somebody else
        obtain ⟨id, hact⟩ := hadmin
        refine ⟨id, apply_other w hact ?_⟩
        intro he
        obtain ⟨u, hu, hid, hurole, _⟩ := hact
        rw [hc u hu (hid.trans he)] at hurole
        cases hurole
    simp only [Rests, hp, Phase.Rests] at hrests
    rcases hrests with hpromotes | hcurrent
    · obtain ⟨id, hact⟩ := hadmin
      exact ⟨id, apply_promotes hpromotes hact⟩
    · have htarget := h.target hp
      generalize (s.txs i).request = r at hcurrent htarget
      cases r with
      | update actor target role =>
        simp only [Current] at hcurrent
        by_cases hself : actor = target
        · rw [if_pos hself] at hcurrent
          exact hcounted hcurrent
        · rw [if_neg hself] at hcurrent
          refine ⟨actor, apply_other w hcurrent ?_⟩
          rw [htarget]
          exact hself
      | disable | delete | scim => exact hplain hcurrent
  · cases hn

theorem step_users {s s' : St} {a : Act} (hn : next s a = some s') (ha : ∀ i, a ≠ .commit i) : s'.users = s.users := by
  cases a with
  | commit i => exact absurd rfl (ha i)
  | authorise | load | check | abort =>
    simp only [next, St.authorise, St.load, St.check, St.abort] at hn
    repeat' split at hn
    all_goals cases hn
    all_goals rfl

theorem step_keeps {s s' : St} {a : Act} (h : Inv s ∧ HasAdmin s.users) (hrests : Rests s a) (hn : next s a = some s') :
    Inv s' ∧ HasAdmin s'.users := by
  refine ⟨h.1.step hn, ?_⟩
  by_cases ha : ∃ i, a = .commit i
  · obtain ⟨i, rfl⟩ := ha
    exact commit_keeps h.1 h.2 hn hrests
  · rw [step_users hn fun i hi => ha ⟨i, hi⟩]
    exact h.2

/-! ## Runs -/

/-- **The last administrator survives.** If one is active at first, one is
active in every state of a run in which no commit takes a right away on reads
that are no longer so. -/
theorem last_admin_survives {s : St} (hs : Init s) (hadmin : HasAdmin s.users) {as : List Act}
    (hok : ∀ t ∈ Machine.trace next s as, Rests t.pre t.act) :
    ∀ t ∈ Machine.trace next s as, HasAdmin t.post.users := by
  intro t ht
  have hstep : ∀ s a s', Inv s ∧ HasAdmin s.users → Rests s a → next s a = some s' → Inv s' ∧ HasAdmin s'.users :=
    fun _ _ _ h hr hn => step_keeps h hr hn
  exact (Machine.inv_of_guarded next hstep ⟨hs.inv, hadmin⟩ hok t ht).2.2

theorem hasAdmin_iff {users : List User} :
    HasAdmin users ↔ users.any (fun v => isAdminRole v.role && v.isActive) = true := by
  simp [HasAdmin, ActiveAdmin]

instance (users : List User) : Decidable (HasAdmin users) := decidable_of_iff _ hasAdmin_iff.symm

instance (users : List User) (id : Nat) : Decidable (ActiveAdmin users id) :=
  inferInstanceAs (Decidable (∃ v ∈ users, v.id = id ∧ isAdminRole v.role = true ∧ v.isActive = true))

instance (users : List User) (r : Request) (user : User) (counted : List Nat) : Decidable (Current users r user counted) :=
  match r with
  | .update actor target _ => inferInstanceAs (Decidable
      (if actor = target then ∃ id ∈ counted, ActiveAdmin users id else ActiveAdmin users actor))
  | .disable .. | .delete .. | .scim .. => inferInstanceAs (Decidable
      (if isAdminRole user.role then ∃ id ∈ counted, ActiveAdmin users id
        else ∀ v ∈ users, v.id = user.id → isAdminRole v.role = false))

instance (users : List User) (r : Request) (p : Phase) : Decidable (p.Rests users r) :=
  match p with
  | .checked user counted w => inferInstanceAs (Decidable (w.promotes = true ∨ Current users r user counted))
  | .idle | .authorised | .loaded _ | .ended => isTrue trivial

instance (s : St) (a : Act) : Decidable (Rests s a) :=
  match a with
  | .commit i => inferInstanceAs (Decidable ((s.txs i).phase.Rests s.users (s.txs i).request))
  | .authorise .. | .load _ | .check _ | .abort _ => isTrue trivial

def person (id : Nat) (role : UserRole) : User := ⟨id, "", none, role, true, none⟩

/-- An owner, an administrator and a plain user. -/
def office : St where
  users := [person 1 .owner, person 2 .admin, person 3 .user]
  txs _ := ⟨.scim 0, none, .idle⟩

theorem office_init : Init office := ⟨fun _ => rfl⟩

def upToCheck (i : Nat) (r : Request) : List Act := [.authorise i r, .load i, .check i]

/-- The administrator promotes the user and is disabled, the owner is
deprovisioned, and the last one left is not. -/
def oneByOne : List Act :=
  upToCheck 1 (.update 2 3 (some .admin)) ++ [.commit 1] ++ upToCheck 2 (.disable 1 2 none) ++ [.commit 2] ++
    upToCheck 3 (.scim 1) ++ [.commit 3] ++ upToCheck 4 (.scim 3)

theorem oneByOne_rests : ∀ t ∈ Machine.trace next office oneByOne, Rests t.pre t.act := by decide

theorem one_by_one_survives : (Machine.run next office oneByOne).isSome = true ∧
    ∀ t ∈ Machine.trace next office oneByOne, HasAdmin t.post.users :=
  ⟨by decide, last_admin_survives office_init (by decide) oneByOne_rests⟩

/-- The two administrators disable each other; the administrator deletes the
owner, who demotes her; the owner is deprovisioned while the administrator is. -/
def atOnce : List (List Act) :=
  [upToCheck 1 (.disable 1 2 none) ++ upToCheck 2 (.disable 2 1 none) ++ [.commit 1, .commit 2],
    upToCheck 1 (.update 1 2 (some .user)) ++ upToCheck 2 (.delete 2 1) ++ [.commit 1, .commit 2],
    upToCheck 1 (.scim 1) ++ upToCheck 2 (.scim 2) ++ [.commit 1, .commit 2]]

theorem none_survives : Init office ∧ HasAdmin office.users ∧
    ∀ as ∈ atOnce, ∃ t ∈ Machine.trace next office as, ¬ HasAdmin t.post.users :=
  ⟨office_init, by decide, by decide⟩

end Cograph.Admins
