import Cograph.CredentialsSound

/-!
# Rotation of personal access tokens

A token and what is rotated from it hold at most one unrevoked token, and none
that was rotated before a revocation was answered, in the runs where a rotation
commits on a token that is still unrevoked and a revocation is answered for a
token whose replacements are revoked.
-/

namespace Cograph.Credentials

open Machine

/-- At most one token is unrevoked among a token and those rotated from it, and
where a revocation was answered none of those that a rotation begun before made. -/
structure OneSuccessor (s : St) : Prop where
  one : ∀ t d d' row row', s.tokens d = some row → s.tokens d' = some row' → t ∈ d :: row.lineage →
    t ∈ d' :: row'.lineage → row.revokedAt = none → row'.revokedAt = none → d = d'
  answered : ∀ x ∈ s.answers, ∀ d row, s.tokens d = some row → x.token ∈ row.lineage → row.request ∈ x.begun →
    row.revokedAt ≠ none

/-- The tokens rotated from it are revoked. -/
def Replaced (s : St) (t : Nat) : Prop := ∀ d row, s.tokens d = some row → t ∈ row.lineage → row.revokedAt ≠ none

/-- A rotation's commit finds its token unrevoked, a revocation's answer finds
the replacements of its tokens revoked. -/
def Undisturbed (s : St) (a : Action) : Prop :=
  match event s a with
  | .rotated _ t _ => (s.tokens t).any (·.revokedAt.isNone) = true
  | .revoked ts _ => ∀ t ∈ ts, Replaced s t
  | .revokedBefore t => Replaced s t
  | _ => True

/-! ## The invariant -/

/-- With a revocation that was answered the token and its replacements are
revoked, whenever they were made. -/
structure Settled (s : St) (t : Nat) : Prop where
  fresh : t < s.nextId
  token : ∀ row, s.tokens t = some row → row.revokedAt ≠ none
  replaced : Replaced s t

structure Rotating (s : St) : Prop where
  inv : Inv s
  one : ∀ t d d' row row', s.tokens d = some row → s.tokens d' = some row' → t ∈ d :: row.lineage →
    t ∈ d' :: row'.lineage → row.revokedAt = none → row'.revokedAt = none → d = d'
  settled : ∀ x ∈ s.answers, Settled s x.token

/-- The tokens keep their lineages, and those that are unrevoked were before. -/
def Shrinks (s s' : St) : Prop := ∀ d row, s'.tokens d = some row →
  ∃ row₀, s.tokens d = some row₀ ∧ row₀.lineage = row.lineage ∧ (row.revokedAt = none → row₀.revokedAt = none)

theorem shrinks_same {s s' : St} (h : s'.tokens = s.tokens) : Shrinks s s' :=
  fun _ row hrow => ⟨row, h ▸ hrow, rfl, id⟩

theorem shrinks_revoke {s s' : St} {ts : List Nat} {reason : String} (h : s'.tokens = (s.revoke ts reason).tokens) :
    Shrinks s s' := by
  intro d row hrow
  rw [h] at hrow
  obtain ⟨row', hrow', rfl⟩ := revoke_some hrow
  refine ⟨row', hrow', ?_, ?_⟩
  · split <;> rfl
  · split
    · exact fun hn => absurd hn (by simp)
    · exact id

theorem replaced_shrinks {s s' : St} (hs : Shrinks s s') {t : Nat} (h : Replaced s t) : Replaced s' t := by
  intro d row hrow ht hlive
  obtain ⟨row₀, hrow₀, hl, hlive₀⟩ := hs d row hrow
  exact h d row₀ hrow₀ (hl ▸ ht) (hlive₀ hlive)

theorem settled_shrinks {s s' : St} (hs : Shrinks s s') (hn : s.nextId ≤ s'.nextId) {t : Nat} (h : Settled s t) :
    Settled s' t where
  fresh := Nat.lt_of_lt_of_le h.fresh hn
  token row hrow hlive := by
    obtain ⟨row₀, hrow₀, -, hlive₀⟩ := hs t row hrow
    exact h.token row₀ hrow₀ (hlive₀ hlive)
  replaced := replaced_shrinks hs h.replaced

theorem one_shrinks {s s' : St} (h : Rotating s) (hs : Shrinks s s') {t d d' : Nat} {row row' : PersonalAccessToken}
    (hd : s'.tokens d = some row) (hd' : s'.tokens d' = some row') (ht : t ∈ d :: row.lineage)
    (ht' : t ∈ d' :: row'.lineage) (hlive : row.revokedAt = none) (hlive' : row'.revokedAt = none) : d = d' := by
  obtain ⟨row₀, hrow₀, hl, hlive₀⟩ := hs d row hd
  obtain ⟨row₁, hrow₁, hl₁, hlive₁⟩ := hs d' row' hd'
  exact h.one t d d' row₀ row₁ hrow₀ hrow₁ (hl ▸ ht) (hl₁ ▸ ht') (hlive₀ hlive) (hlive₁ hlive')

/-- A step that shrinks the unrevoked tokens, and answers for settled ones. -/
theorem rotating_shrinks {s s' : St} (h : Rotating s) (hi : Inv s') (hs : Shrinks s s') (hn : s.nextId ≤ s'.nextId)
    (ha : ∀ x ∈ s'.answers, x ∈ s.answers ∨ Settled s' x.token) : Rotating s' where
  inv := hi
  one _ _ _ _ _ hd hd' ht ht' hlive hlive' := one_shrinks h hs hd hd' ht ht' hlive hlive'
  settled x hx := (ha x hx).elim (fun hx => settled_shrinks hs hn (h.settled x hx)) id

/-- A step that shrinks the unrevoked tokens and stores one under a fresh id. -/
theorem rotating_stores {s s₁ s' : St} {new : PersonalAccessToken} (h : Rotating s) (hi : Inv s') (hs : Shrinks s s₁)
    (hid : s₁.nextId = s.nextId) (ht : s'.tokens = (s₁.setToken s₁.nextId new).tokens) (hn : s.nextId ≤ s'.nextId)
    (ha : s'.answers = s.answers)
    (hline : ∀ t ∈ new.lineage, t < s.nextId ∧ (∀ x ∈ s.answers, x.token ≠ t) ∧
      ∀ d row, s₁.tokens d = some row → row.revokedAt = none → t ∉ d :: row.lineage) : Rotating s' where
  inv := hi
  one := by
    -- the new token shares no ancestor with an unrevoked one
    have hnew : ∀ t d row, s₁.tokens d = some row → row.revokedAt = none → t ∈ s₁.nextId :: new.lineage →
        t ∉ d :: row.lineage := by
      intro t d row hrow hlive htn htd
      obtain ⟨row₀, hrow₀, hl, -⟩ := hs d row hrow
      rcases List.mem_cons.mp htn with rfl | htn
      · have := h.inv.fresh d row₀ hrow₀ s₁.nextId (hl ▸ htd)
        omega
      · exact (hline t htn).2.2 d row hrow hlive htd
    intro t d d' row row' hd hd' htd htd' hlive hlive'
    rw [ht] at hd hd'
    rcases stored_tokens hd with ⟨rfl, rfl⟩ | ⟨-, hold⟩
    · rcases stored_tokens hd' with ⟨rfl, -⟩ | ⟨-, hd'⟩
      · rfl
      · exact absurd htd' (hnew t d' row' hd' hlive' htd)
    · rcases stored_tokens hd' with ⟨rfl, rfl⟩ | ⟨-, hd'⟩
      · exact absurd htd (hnew t d row hold hlive htd')
      · exact one_shrinks h hs hold hd' htd htd' hlive hlive'
  settled x hx := by
    have hold := settled_shrinks hs (Nat.le_of_eq hid.symm) (h.settled x (ha ▸ hx))
    refine ⟨Nat.lt_of_lt_of_le (h.settled x (ha ▸ hx)).fresh hn, ?_, ?_⟩
    · intro row hrow
      rw [ht] at hrow
      rcases stored_tokens hrow with ⟨hx', -⟩ | ⟨-, hrow⟩
      · exact absurd hold.fresh (by omega)
      · exact hold.token row hrow
    · intro d row hrow hl
      rw [ht] at hrow
      rcases stored_tokens hrow with ⟨rfl, rfl⟩ | ⟨-, hrow⟩
      · exact absurd rfl ((hline x.token hl).2.1 x (ha ▸ hx))
      · exact hold.replaced d row hrow hl

/-! ## Steps -/

/-- The answer for tokens that are stored and revoked, with their replacements. -/
theorem settled_answer {s s' : St} {t : Nat} (hs : Shrinks s s') (hn : s'.nextId = s.nextId) (hfresh : t < s.nextId)
    (hrev : ∀ row, s'.tokens t = some row → row.revokedAt ≠ none) (hr : Replaced s t) : Settled s' t where
  fresh := hn ▸ hfresh
  token := hrev
  replaced := replaced_shrinks hs hr

theorem rotating_step {s s' : St} {a : Action} (h : Rotating s) (hok : Undisturbed s a) (hn : next s a = some s') :
    Rotating s' := by
  have heff := effect_of_next hn
  have hi := inv_step h.inv hn
  unfold Undisturbed at hok
  generalize event s a = e at heff hok
  cases heff with
  | quiet hq hb ha =>
    exact rotating_shrinks h hi (shrinks_same hq.tokens) (Nat.le_of_eq hq.nextId.symm) fun x hx => .inl (ha ▸ hx)
  | replayed hq _ _ _ ha =>
    exact rotating_shrinks h hi (shrinks_same hq.tokens) (Nat.le_of_eq hq.nextId.symm) fun x hx => .inl (ha ▸ hx)
  | deprovisioned hr => exact rotating_shrinks h hi (shrinks_revoke rfl) (Nat.le_refl _) fun x hx => .inl hx
  | stored hr => exact rotating_shrinks h hi (shrinks_same rfl) (Nat.le_add_right ..) fun x hx => .inl hx
  | exchanged hr hrow hlive => exact rotating_shrinks h hi (shrinks_same rfl) (Nat.le_add_right ..) fun x hx => .inl hx
  | reused hr => exact rotating_shrinks h hi (shrinks_same rfl) (Nat.le_refl _) fun x hx => .inl hx
  | minted hr =>
    exact rotating_stores h hi (shrinks_same rfl) rfl rfl (Nat.le_add_right ..) rfl fun t ht => absurd ht (by simp)
  | @rotated r t old hr =>
    obtain ⟨row, hrow, hlive⟩ : ∃ row, s.tokens t = some row ∧ row.revokedAt = none := by
      simpa [Option.any_eq_true] using hok
    obtain ⟨u, row', hu, hrow', hl⟩ := h.inv.found r _ old hr
    obtain rfl : t = u := Option.some.inj hu
    obtain rfl : row = row' := Option.some.inj (hrow.symm.trans hrow')
    refine rotating_stores h hi (@shrinks_revoke _ _ [t] "rotation" rfl) rfl rfl (Nat.le_add_right ..) rfl ?_
    intro v hv
    have hv' : v ∈ t :: row.lineage := hl ▸ hv
    refine ⟨h.inv.fresh t row hrow v hv', ?_, ?_⟩
    · -- an answered revocation leaves the token revoked
      rintro x hx rfl
      rcases List.mem_cons.mp hv' with hxt | hxt
      · exact (h.settled x hx).token row (hxt ▸ hrow) hlive
      · exact (h.settled x hx).replaced t row hrow hxt hlive
    · intro d row' hd hlive' hvd
      obtain ⟨row₀, hrow₀, rfl⟩ := revoke_some hd
      by_cases hdt : d ∈ [t]
      · simp [hdt] at hlive'
      · simp only [hdt, if_false] at hlive' hvd
        exact hdt (by simpa using (h.one v t d row row₀ hrow hrow₀ hv' hvd hlive hlive').symm)
  | @revoked r ts reason hr =>
    have hfresh : ∀ t ∈ ts, t < s.nextId := by
      rcases hr with hr | ⟨t, row, hr, rfl⟩
      · exact h.inv.listed r reason ts hr
      · obtain ⟨u, row', hu, hrow', -⟩ := h.inv.found r _ row hr
        obtain rfl : t = u := Option.some.inj hu
        simpa using h.inv.fresh t row' hrow' t (List.mem_cons_self ..)
    have hs : Shrinks s ((s.revoke ts reason).answerRevoke r ts) := shrinks_revoke rfl
    refine rotating_shrinks h hi hs (Nat.le_refl _) ?_
    intro x hx
    rcases List.mem_append.mp hx with hx | hx
    · obtain ⟨t, ht, rfl⟩ := List.mem_map.mp hx
      refine .inr (settled_answer hs rfl (hfresh t ht) ?_ (hok t ht))
      intro row hrow
      obtain ⟨row', -, rfl⟩ := revoke_some hrow
      simp [ht]
    · exact .inl hx
  | @revokedBefore r t row hr hrow hrev =>
    have hs : Shrinks s (s.answerRevoke r [t]) := shrinks_same rfl
    refine rotating_shrinks h hi hs (Nat.le_refl _) ?_
    intro x hx
    rcases List.mem_cons.mp hx with rfl | hx
    · refine .inr (settled_answer hs rfl (h.inv.fresh t row hrow t (List.mem_cons_self ..)) ?_ hok)
      intro row' hrow'
      obtain rfl : row = row' := Option.some.inj (hrow.symm.trans hrow')
      exact hrev
    · exact .inl hx

theorem rotating_one {s : St} (h : Rotating s) : OneSuccessor s where
  one := h.one
  answered x hx d row hrow hl _ := (h.settled x hx).replaced d row hrow hl

theorem rotating_init (user : User) : Rotating (.init user) where
  inv := inv_init user
  one := by simp [St.init]
  settled := by simp [St.init]

/-- **A token has one live successor**, in every run whose rotations and
revocations are undisturbed. -/
theorem one_successor {user : User} {as : List Action} (hok : ∀ t ∈ trace next (.init user) as, Undisturbed t.pre t.act) :
    ∀ t ∈ trace next (.init user) as, OneSuccessor t.post := by
  have hstep : ∀ s a s', Rotating s → Undisturbed s a → next s a = some s' → Rotating s' :=
    fun s a s' h hok hn => rotating_step h hok hn
  intro t ht
  exact rotating_one (inv_of_guarded next hstep (rotating_init user) hok t ht).2

/-- A token is minted, rotated, and its replacement is rotated. -/
def rotatedTwice : List Action :=
  [.arrive 0 (.createToken none), .load 0, .commit 0, .arrive 1 (.rotateToken 0), .load 1, .readToken 1, .commit 1,
    .arrive 2 (.rotateToken 1), .load 2, .readToken 2, .commit 2]

theorem one_successor_rotated_twice : (run next (.init ⟨true, none⟩) rotatedTwice).isSome ∧
    ∀ t ∈ trace next (.init ⟨true, none⟩) rotatedTwice, OneSuccessor t.post :=
  ⟨rfl, one_successor ((along_iff next).mp ⟨trivial, trivial, trivial, trivial, trivial, trivial, rfl, trivial, trivial,
    trivial, rfl, trivial⟩)⟩

/-- Two rotations that both read the token unrevoked. -/
theorem rotations_race : ¬∀ (user : User) (as : List Action), ∀ t ∈ trace next (.init user) as, OneSuccessor t.post := by
  intro h
  have hmem := @trace_last _ _ next (.init ⟨true, none⟩) _ _ [.arrive 0 (.createToken none), .load 0, .commit 0,
    .arrive 1 (.rotateToken 0), .load 1, .readToken 1, .arrive 2 (.rotateToken 0), .load 2, .readToken 2, .commit 1]
    (.commit 2) rfl rfl
  have := (h _ _ _ hmem).one 0 1 2 ⟨none, none, none, 1, [0]⟩ ⟨none, none, none, 2, [0]⟩ rfl rfl (by decide) (by decide)
    rfl rfl
  omega

end Cograph.Credentials
