import Cograph.Credentials

/-!
# What a request does to the credentials

Of all that the requests do, nine events reach the two tables of credentials.
Every other step leaves them as they are.
-/

namespace Cograph.Credentials

open Machine

/-! ## Events -/

inductive Event where
  | quiet
  /-- A SCIM disable succeeds without a cascade of its own. -/
  | replayed
  | deprovisioned (c : Cascade)
  | stored (request : Nat)
  | exchanged (family jti : Nat)
  | reused (family : Nat)
  | minted (request : Nat) (expiresAt : Option Nat)
  | rotated (request token : Nat) (old : PersonalAccessToken)
  | revoked (tokens : List Nat) (reason : String)
  /-- A revocation succeeds for a token that was revoked before. -/
  | revokedBefore (token : Nat)
  deriving DecidableEq

def commitEvent (s : St) (r : Nat) : Event :=
  match s.requests r with
  | .dropped key => if key ∈ s.events then .replayed else s.cascade.elim .quiet .deprovisioned
  | .unchanged _ => .replayed
  | .admitted (.login _) => .stored r
  | .admitted (.refresh f jti) => if matched s f jti then .exchanged f jti else .quiet
  | .admitted (.createToken expiresAt) => .minted r expiresAt
  | .reused f => .reused f
  | .found (.rotateToken t) old => .rotated r t old
  | .found (.revokeToken t) _ => .revoked [t] "user"
  | .listed reason ts => .revoked ts reason
  | _ => .quiet

def event (s : St) : Action → Event
  | .readEvent r =>
    match s.requests r with
    | .loaded (.scimDisable key _) _ => if key ∈ s.events then .replayed else .quiet
    | _ => .quiet
  | .readToken r =>
    match s.requests r with
    | .admitted (.revokeToken t) => if (s.tokens t).any (·.revokedAt.isSome) then .revokedBefore t else .quiet
    | _ => .quiet
  | .commit r => commitEvent s r
  | _ => .quiet

/-! ## Effects -/

def Request.names : Request → Option Nat
  | .rotateToken t | .revokeToken t => some t
  | _ => none

/-- What a request that has arrived holds of the tables. -/
structure Holds (s : St) (p : Phase) : Prop where
  found : ∀ q row, p = .found q row → ∃ t, q.names = some t ∧ s.tokens t = some row
  listed : ∀ reason ts, p = .listed reason ts → ∀ t ∈ ts, t < s.nextId

/-- The tables of credentials are left as they are. -/
structure Quiet (s s' : St) : Prop where
  families : s'.families = s.families
  tokens : s'.tokens = s.tokens
  issued : s'.issued = s.issued
  nextId : s'.nextId = s.nextId
  now : s.now ≤ s'.now
  begun : ∀ r ∈ s.begun, r ∈ s'.begun
  requests : ∀ r, s'.requests r = s.requests r ∨ (s.requests r ≠ .idle ∨ r ∈ s'.begun) ∧ Holds s (s'.requests r)

inductive Effect (s : St) : Event → St → Prop
  | quiet {s' : St} (h : Quiet s s') (hb : s'.barred = s.barred) (ha : s'.answers = s.answers) : Effect s .quiet s'
  | replayed {s' : St} (h : Quiet s s') (hnow : s'.now = s.now) (hbegun : s'.begun = s.begun)
    (hb : s'.barred = s.begun) (ha : s'.answers = s.answers) : Effect s .replayed s'
  | deprovisioned {r key : Nat} {c : Cascade} (hr : s.requests r ≠ .idle) :
    Effect s (.deprovisioned c) (St.answerScim { s.revoke c.tokens "idp_block" with
      user := ⟨false, some "scim"⟩
      families := fun f => if f ∈ c.families then none else s.families f
      events := key :: s.events
      cascade := none } r)
  | stored {r : Nat} (hr : s.requests r ≠ .idle) :
    Effect s (.stored r) { (s.setFamily s.nextId ⟨s.nextId + 1, none, r⟩).goto r (.answered true) with
      issued := (s.nextId, s.nextId + 1) :: s.issued
      nextId := s.nextId + 2 }
  | exchanged {r f jti : Nat} {row : RefreshTokenFamily} (hr : s.requests r ≠ .idle) (hrow : s.families f = some row)
    (hlive : row.revokedAt = none) :
    Effect s (.exchanged f jti) { (s.setFamily f { row with currentJti := s.nextId }).goto r (.answered true) with
      issued := (f, s.nextId) :: s.issued
      nextId := s.nextId + 1 }
  | reused {r f : Nat} (hr : s.requests r ≠ .idle) :
    Effect s (.reused f) ((s.revokeFamily f).goto r (.answered false))
  | minted {r : Nat} {expiresAt : Option Nat} (hr : s.requests r ≠ .idle) :
    Effect s (.minted r expiresAt) (createMyToken s r expiresAt)
  | rotated {r t : Nat} {old : PersonalAccessToken} (hr : s.requests r = .found (.rotateToken t) old) :
    Effect s (.rotated r t old)
      { ((s.revoke [t] "rotation").setToken s.nextId ⟨old.expiresAt, none, none, r, t :: old.lineage⟩).goto r
          (.answered true) with nextId := s.nextId + 1 }
  | revoked {r : Nat} {ts : List Nat} {reason : String}
    (hr : s.requests r = .listed reason ts ∨ ∃ t row, s.requests r = .found (.revokeToken t) row ∧ ts = [t]) :
    Effect s (.revoked ts reason) ((s.revoke ts reason).answerRevoke r ts)
  | revokedBefore {r t : Nat} {row : PersonalAccessToken} (hr : s.requests r ≠ .idle) (hrow : s.tokens t = some row)
    (hrev : row.revokedAt ≠ none) : Effect s (.revokedBefore t) (s.answerRevoke r [t])

theorem holds_plain {s : St} {p : Phase} (hf : ∀ q row, p ≠ .found q row) (hl : ∀ reason ts, p ≠ .listed reason ts) :
    Holds s p where
  found q row h := absurd h (hf q row)
  listed reason ts h := absurd h (hl reason ts)

theorem quiet_goto {s : St} {r : Nat} {p : Phase} (hr : s.requests r ≠ .idle) (hp : Holds s p) : Quiet s (s.goto r p) where
  families := rfl
  tokens := rfl
  issued := rfl
  nextId := rfl
  now := Nat.le_refl _
  begun _ h := h
  requests q := by
    by_cases hq : q = r
    · subst hq
      exact .inr ⟨.inl hr, by simpa [St.goto] using hp⟩
    · exact .inl (by simp [St.goto, hq])

theorem goto_quiet {s : St} {r : Nat} {p : Phase} (hr : s.requests r ≠ .idle) (hp : Holds s p) :
    Effect s .quiet (s.goto r p) := .quiet (quiet_goto hr hp) rfl rfl

/-- A move of a request that writes the user's row or the open cascade too. -/
theorem goto_writes {s : St} {r : Nat} {p : Phase} (hr : s.requests r ≠ .idle) (hp : Holds s p) (user : User)
    (cascade : Option Cascade) : Effect s .quiet { s.goto r p with user, cascade } := by
  have h := quiet_goto hr hp
  exact .quiet ⟨h.families, h.tokens, h.issued, h.nextId, h.now, h.begun, h.requests⟩ rfl rfl

theorem holds_answered (s : St) (success : Bool) : Holds s (.answered success) :=
  holds_plain (by simp) (by simp)

theorem holds_admitted (s : St) (q : Request) : Holds s (.admitted q) := holds_plain (by simp) (by simp)

theorem quiet_answer {s : St} {r : Nat} (hr : s.requests r ≠ .idle) (success : Bool) (events : List Nat)
    (cascade : Option Cascade) (barred : List Nat) (answers : List Answer) :
    Quiet s { s.goto r (.answered success) with events, cascade, barred, answers } := by
  have h := quiet_goto hr (holds_answered s success)
  exact ⟨h.families, h.tokens, h.issued, h.nextId, h.now, h.begun, h.requests⟩

theorem load_effect {s : St} {r : Nat} {q : Request} (hr : s.requests r ≠ .idle) : Effect s .quiet (load s r q) := by
  unfold load
  split
  · exact goto_quiet hr (holds_plain (by simp) (by simp))
  · exact goto_quiet hr (holds_plain (by simp) (by simp))
  · exact goto_quiet hr (holds_plain (by simp) (by simp))
  · split
    · exact goto_quiet hr (holds_admitted ..)
    · exact goto_quiet hr (holds_answered ..)
  · split
    · exact goto_quiet hr (holds_admitted ..)
    · exact goto_quiet hr (holds_answered ..)
  · split
    · exact goto_quiet hr (holds_admitted ..)
    · exact goto_quiet hr (holds_answered ..)
  · split
    · exact goto_quiet hr (holds_admitted ..)
    · exact goto_quiet hr (holds_answered ..)
  · unfold readFamily
    split
    · exact goto_quiet hr (holds_answered ..)
    · split
      · exact goto_quiet hr (holds_answered ..)
      · split
        · exact goto_quiet hr (holds_plain (by simp) (by simp))
        · exact goto_quiet hr (holds_admitted ..)
  · refine goto_quiet hr ⟨by simp, ?_⟩
    intro reason ts h t ht
    cases h
    exact List.mem_range.mp (List.mem_filter.mp ht).1

theorem commit_effect {s s' : St} {r : Nat} (h : commit s r = some s') : Effect s (commitEvent s r) s' := by
  unfold commit at h
  have hne : ∀ {p}, s.requests r = p → p ≠ .idle → s.requests r ≠ .idle := fun h hp => h ▸ hp
  split at h
  · rename_i key hr
    have hidle := hne hr (by simp)
    cases hc : s.cascade with
    | none => simp [hc] at h
    | some c =>
      simp only [hc, Option.map_some, Option.some.injEq] at h
      subst h
      by_cases hk : key ∈ s.events
      · simp only [commitEvent, hr, commitCascade, hk, if_true]
        exact .replayed (quiet_answer hidle true s.events none s.begun s.answers) rfl rfl rfl rfl
      · simp only [commitEvent, hr, commitCascade, hk, if_false, hc, Option.elim_some]
        exact .deprovisioned hidle
  · rename_i key hr
    cases h
    simp only [commitEvent, hr]
    exact .replayed (quiet_answer (hne hr (by simp)) true (key :: s.events) s.cascade s.begun s.answers) rfl rfl rfl rfl
  · rename_i key hr
    cases h
    simp only [commitEvent, hr]
    exact .quiet (quiet_answer (hne hr (by simp)) false (key :: s.events) s.cascade s.barred s.answers) rfl rfl
  · rename_i allowed reason active hr
    have hidle := hne hr (by simp)
    simp only [commitEvent, hr]
    unfold disableUser at h
    split at h
    · cases h
      exact goto_quiet hidle (holds_answered ..)
    · split at h
      · cases h
        exact goto_quiet hidle (holds_answered ..)
      · split at h
        · cases h
        · cases h
          exact goto_writes hidle (holds_answered s true) ..
  · rename_i active hr
    have hidle := hne hr (by simp)
    simp only [commitEvent, hr]
    unfold enableUser at h
    split at h
    · cases h
      exact goto_quiet hidle (holds_answered ..)
    · split at h
      · cases h
      · cases h
        exact goto_writes hidle (holds_answered s true) ..
  · rename_i valid hr
    simp only [commitEvent, hr]
    unfold login at h
    split at h
    · cases h
    · cases h
      exact .stored (hne hr (by simp))
  · rename_i f jti hr
    have hidle := hne hr (by simp)
    simp only [commitEvent, hr]
    unfold refreshTokens at h
    split at h
    · cases h
    · split at h
      · rename_i hrow
        cases h
        have hm : matched s f jti = false := by simp [matched, hrow]
        simp only [hm, Bool.false_eq_true, if_false]
        exact goto_quiet hidle (holds_answered ..)
      · rename_i row hrow
        split at h
        · rename_i hcas
          cases h
          have hm : matched s f jti = true := by simp [matched, hrow, hcas.1, hcas.2]
          simp only [hm, if_true]
          exact .exchanged hidle hrow hcas.2
        · rename_i hcas
          cases h
          have hm : matched s f jti = false := by simpa [matched, hrow] using hcas
          simp only [hm, Bool.false_eq_true, if_false]
          exact goto_quiet hidle (holds_answered ..)
  · rename_i expiresAt hr
    cases h
    simp only [commitEvent, hr]
    exact .minted (hne hr (by simp))
  · rename_i f hr
    simp only [commitEvent, hr]
    unfold revokeReused at h
    split at h
    · cases h
    · cases h
      exact .reused (hne hr (by simp))
  · rename_i t old hr
    simp only [commitEvent, hr]
    unfold rotateMyToken at h
    split at h
    · cases h
    · cases h
      exact .rotated hr
  · rename_i t row hr
    simp only [commitEvent, hr]
    unfold revokeTokens at h
    split at h
    · cases h
    · cases h
      exact .revoked (.inr ⟨t, row, hr, rfl⟩)
  · rename_i reason ts hr
    simp only [commitEvent, hr]
    unfold revokeTokens at h
    split at h
    · cases h
    · cases h
      exact .revoked (.inl hr)
  · cases h

theorem readToken_effect {s : St} {r t : Nat} {q : Request} (hr : s.requests r = .admitted q)
    (hq : q = .rotateToken t ∨ q = .revokeToken t) : Effect s (event s (.readToken r)) (readToken s r q t) := by
  have hidle : s.requests r ≠ .idle := by simp [hr]
  have hnames : q.names = some t := by
    rcases hq with rfl | rfl <;> rfl
  have hfound : ∀ row, s.tokens t = some row → Holds s (.found q row) := by
    intro row hrow
    refine ⟨?_, by simp⟩
    intro q' row' h
    cases h
    exact ⟨t, hnames, hrow⟩
  simp only [event, hr]
  cases hrow : s.tokens t with
  | none =>
    have : readToken s r q t = s.goto r (.answered false) := by simp [readToken, hrow]
    rw [this]
    rcases hq with rfl | rfl
    · exact goto_quiet hidle (holds_answered ..)
    · simpa [hrow] using goto_quiet hidle (holds_answered s false)
  | some row =>
    rcases hq with rfl | rfl
    · simp only [readToken, hrow]
      split
      · exact goto_quiet hidle (hfound row hrow)
      · exact goto_quiet hidle (holds_answered ..)
    · by_cases hlive : row.revokedAt = none
      · simpa [readToken, hrow, hlive] using goto_quiet hidle (hfound row hrow)
      · have hsome : row.revokedAt.isSome = true := Option.isSome_iff_ne_none.mpr hlive
        simp only [readToken, hrow, Option.any_some, hlive, hsome, if_false, if_true]
        exact .revokedBefore hidle hrow hlive

theorem effect_of_next {s s' : St} {a : Action} (h : next s a = some s') : Effect s (event s a) s' := by
  cases a with
  | tick now =>
    simp only [next] at h
    split at h
    · cases h
      exact .quiet ⟨rfl, rfl, rfl, rfl, ‹_›, fun _ => id, fun _ => .inl rfl⟩ rfl rfl
    · cases h
  | arrive r q =>
    simp only [next] at h
    split at h
    · cases h
      refine .quiet ⟨rfl, rfl, rfl, rfl, Nat.le_refl _, fun _ => List.mem_cons_of_mem _, ?_⟩ rfl rfl
      intro r'
      by_cases hr' : r' = r
      · subst hr'
        exact .inr ⟨.inr (List.mem_cons_self ..), by simpa [St.goto] using holds_plain (by simp) (by simp)⟩
      · exact .inl (by simp [St.goto, hr'])
    · cases h
  | load r =>
    simp only [next] at h
    split at h
    · rename_i q hr
      cases h
      exact load_effect (by simp [hr])
    · cases h
  | readEvent r =>
    simp only [next] at h
    split at h
    · rename_i key lastAdmin active hr
      cases h
      have hidle : s.requests r ≠ .idle := by simp [hr]
      simp only [event, hr, disableUserCascade]
      split
      · exact .replayed (quiet_answer hidle true s.events s.cascade s.begun s.answers) rfl rfl rfl rfl
      · split
        · exact goto_quiet hidle (holds_plain (by simp) (by simp))
        · split
          · exact goto_quiet hidle (holds_plain (by simp) (by simp))
          · exact goto_quiet hidle (holds_plain (by simp) (by simp))
    · cases h
  | revokeTokens r =>
    simp only [next] at h
    split at h
    · rename_i key hr _
      cases h
      have hidle : s.requests r ≠ .idle := by simp [hr]
      exact goto_writes hidle (holds_plain (p := .revoked key) (by simp) (by simp)) ..
    · cases h
  | dropFamilies r =>
    simp only [next] at h
    split at h
    · rename_i key c hr _
      cases h
      have hidle : s.requests r ≠ .idle := by simp [hr]
      exact goto_writes hidle (holds_plain (p := .dropped key) (by simp) (by simp)) ..
    · cases h
  | readToken r =>
    simp only [next] at h
    split at h
    · cases h
      exact readToken_effect ‹_› (.inl rfl)
    · cases h
      exact readToken_effect ‹_› (.inr rfl)
    · cases h
  | commit r => exact commit_effect h
  | fail r =>
    simp only [next] at h
    split at h
    · cases h
    · cases h
    · cases h
      exact .quiet (quiet_answer ‹_› false s.events _ s.barred s.answers) rfl rfl

/-! ## The invariant -/

structure Inv (s : St) : Prop where
  arrived : ∀ r, s.requests r ≠ .idle → r ∈ s.begun
  families : ∀ f row, s.families f = some row → row.request ∈ s.begun
  tokens : ∀ t row, s.tokens t = some row → row.request ∈ s.begun
  fresh : ∀ t row, s.tokens t = some row → ∀ u ∈ t :: row.lineage, u < s.nextId
  found : ∀ r q row, s.requests r = .found q row →
    ∃ t row', q.names = some t ∧ s.tokens t = some row' ∧ row'.lineage = row.lineage
  listed : ∀ r reason ts, s.requests r = .listed reason ts → ∀ t ∈ ts, t < s.nextId

theorem inv_init (user : User) : Inv (.init user) where
  arrived := by simp [St.init]
  families := by simp [St.init]
  tokens := by simp [St.init]
  fresh := by simp [St.init]
  found := by simp [St.init]
  listed := by simp [St.init]

theorem quiet_inv {s s' : St} (h : Inv s) (hq : Quiet s s') : Inv s' where
  arrived r hr := by
    rcases hq.requests r with he | ⟨hr' | hr', -⟩
    · exact hq.begun r (h.arrived r (he ▸ hr))
    · exact hq.begun r (h.arrived r hr')
    · exact hr'
  families f row hrow := hq.begun _ (h.families f row (hq.families ▸ hrow))
  tokens t row hrow := hq.begun _ (h.tokens t row (hq.tokens ▸ hrow))
  fresh t row hrow := by
    rw [hq.nextId]
    exact h.fresh t row (hq.tokens ▸ hrow)
  found r q row hr := by
    rw [hq.tokens]
    rcases hq.requests r with he | ⟨-, hh⟩
    · exact h.found r q row (he ▸ hr)
    · obtain ⟨t, ht, hrow⟩ := hh.found q row hr
      exact ⟨t, row, ht, hrow, rfl⟩
  listed r reason ts hr := by
    rw [hq.nextId]
    rcases hq.requests r with he | ⟨-, hh⟩
    · exact h.listed r reason ts (he ▸ hr)
    · exact hh.listed reason ts hr

/-- A step that ends a request, and keeps the tokens and their lineages. -/
structure Ends (s s' : St) (r : Nat) : Prop where
  requests : ∃ success, s'.requests = Function.update s.requests r (.answered success)
  idle : s.requests r ≠ .idle
  begun : s'.begun = s.begun
  nextId : s.nextId ≤ s'.nextId
  families : ∀ f row, s'.families f = some row → row.request = r ∨ ∃ row', s.families f = some row' ∧ row'.request = row.request
  kept : ∀ t row, s.tokens t = some row → ∃ row', s'.tokens t = some row' ∧ row'.lineage = row.lineage
  tokens : ∀ t row, s'.tokens t = some row →
    row.request = r ∧ (∀ u ∈ t :: row.lineage, u < s'.nextId) ∨
      ∃ row', s.tokens t = some row' ∧ row'.request = row.request ∧ row'.lineage = row.lineage

theorem ends_inv {s s' : St} {r : Nat} (h : Inv s) (he : Ends s s' r) : Inv s' := by
  obtain ⟨success, hreq⟩ := he.requests
  have hbegun := h.arrived r he.idle
  have hold : ∀ q, s'.requests q = s.requests q ∨ s'.requests q = .answered success ∧ q = r := by
    intro q
    rw [hreq]
    by_cases hq : q = r
    · exact .inr (by simp [hq])
    · exact .inl (by simp [hq])
  refine ⟨?_, ?_, ?_, ?_, ?_, ?_⟩
  · intro q hq
    rw [he.begun]
    rcases hold q with hs | ⟨-, rfl⟩
    · exact h.arrived q (hs ▸ hq)
    · exact hbegun
  · intro f row hrow
    rw [he.begun]
    rcases he.families f row hrow with rfl | ⟨row', hrow', hr⟩
    · exact hbegun
    · exact hr ▸ h.families f row' hrow'
  · intro t row hrow
    rw [he.begun]
    rcases he.tokens t row hrow with ⟨rfl, -⟩ | ⟨row', hrow', hr, -⟩
    · exact hbegun
    · exact hr ▸ h.tokens t row' hrow'
  · intro t row hrow
    rcases he.tokens t row hrow with ⟨-, hlt⟩ | ⟨row', hrow', -, hl⟩
    · exact hlt
    · exact fun u hu => Nat.lt_of_lt_of_le (h.fresh t row' hrow' u (hl ▸ hu)) he.nextId
  · intro q p row hq
    rcases hold q with hs | ⟨hs, -⟩
    · obtain ⟨t, row', ht, hrow', hl⟩ := h.found q p row (hs ▸ hq)
      obtain ⟨row'', hrow'', hl'⟩ := he.kept t row' hrow'
      exact ⟨t, row'', ht, hrow'', hl'.trans hl⟩
    · rw [hs] at hq
      cases hq
  · intro q reason ts hq t ht
    rcases hold q with hs | ⟨hs, -⟩
    · exact Nat.lt_of_lt_of_le (h.listed q reason ts (hs ▸ hq) t ht) he.nextId
    · rw [hs] at hq
      cases hq

theorem revoke_some {s : St} {ts : List Nat} {reason : String} {t : Nat} {row : PersonalAccessToken}
    (h : (s.revoke ts reason).tokens t = some row) :
    ∃ row', s.tokens t = some row' ∧
      row = if t ∈ ts then { row' with revokedAt := some s.now, revokedReason := some reason } else row' := by
  obtain ⟨row', hrow', he⟩ := Option.map_eq_some_iff.mp h
  exact ⟨row', hrow', he.symm⟩

theorem revoke_row {s : St} {ts : List Nat} {reason : String} {t : Nat} {row : PersonalAccessToken}
    (h : s.tokens t = some row) : ∃ row', (s.revoke ts reason).tokens t = some row' ∧ row'.lineage = row.lineage := by
  refine ⟨_, Option.map_eq_some_iff.mpr ⟨row, h, rfl⟩, ?_⟩
  split <;> rfl

theorem revoke_old {s : St} {ts : List Nat} {reason : String} {t : Nat} {row : PersonalAccessToken}
    (h : (s.revoke ts reason).tokens t = some row) :
    ∃ row', s.tokens t = some row' ∧ row'.request = row.request ∧ row'.lineage = row.lineage := by
  obtain ⟨row', hrow', rfl⟩ := revoke_some h
  refine ⟨row', hrow', ?_⟩
  split <;> exact ⟨rfl, rfl⟩

theorem ends_family {s s' : St} {r : Nat} (hreq : ∃ success, s'.requests = Function.update s.requests r (.answered success))
    (hidle : s.requests r ≠ .idle) (hb : s'.begun = s.begun) (hn : s.nextId ≤ s'.nextId) (ht : s'.tokens = s.tokens)
    (hf : ∀ f row, s'.families f = some row →
      row.request = r ∨ ∃ row', s.families f = some row' ∧ row'.request = row.request) : Ends s s' r where
  requests := hreq
  idle := hidle
  begun := hb
  nextId := hn
  families := hf
  kept _ row h := ⟨row, ht ▸ h, rfl⟩
  tokens _ row h := .inr ⟨row, ht ▸ h, rfl, rfl⟩

theorem stored_tokens {s : St} {t : Nat} {new row : PersonalAccessToken}
    (h : (s.setToken s.nextId new).tokens t = some row) : t = s.nextId ∧ row = new ∨ t ≠ s.nextId ∧ s.tokens t = some row := by
  by_cases ht : t = s.nextId
  · subst ht
    have : new = row := by simpa [St.setToken] using h
    exact .inl ⟨rfl, this.symm⟩
  · exact .inr ⟨ht, by simpa [St.setToken, ht] using h⟩

theorem inv_step {s s' : St} {a : Action} (h : Inv s) (hn : next s a = some s') : Inv s' := by
  have heff := effect_of_next hn
  generalize event s a = e at heff
  cases heff with
  | quiet hq => exact quiet_inv h hq
  | replayed hq => exact quiet_inv h hq
  | @deprovisioned r key c hr =>
    refine ends_inv h ⟨⟨true, rfl⟩, hr, rfl, Nat.le_refl _, ?_, fun _ _ => revoke_row, fun _ _ hrow => .inr (revoke_old hrow)⟩
    intro f row hrow
    by_cases hf : f ∈ c.families
    · simp [St.answerScim, St.goto, hf] at hrow
    · exact .inr ⟨row, by simpa [St.answerScim, St.goto, hf] using hrow, rfl⟩
  | @stored r hr =>
    refine ends_inv h (ends_family ⟨true, rfl⟩ hr rfl (Nat.le_add_right ..) rfl ?_)
    intro f row hrow
    by_cases hf : f = s.nextId
    · left
      subst hf
      have : (⟨s.nextId + 1, none, r⟩ : RefreshTokenFamily) = row := by simpa [St.setFamily, St.goto] using hrow
      exact this ▸ rfl
    · exact .inr ⟨row, by simpa [St.setFamily, St.goto, hf] using hrow, rfl⟩
  | @exchanged r f jti row hr hold hlive =>
    refine ends_inv h (ends_family ⟨true, rfl⟩ hr rfl (Nat.le_add_right ..) rfl ?_)
    intro g row' hrow
    by_cases hg : g = f
    · subst hg
      have : { row with currentJti := s.nextId } = row' := by simpa [St.setFamily, St.goto] using hrow
      exact .inr ⟨row, hold, this ▸ rfl⟩
    · exact .inr ⟨row', by simpa [St.setFamily, St.goto, hg] using hrow, rfl⟩
  | @reused r f hr =>
    refine ends_inv h (ends_family ⟨false, rfl⟩ hr rfl (Nat.le_refl _) rfl ?_)
    intro g row hrow
    obtain ⟨row', hrow', rfl⟩ := Option.map_eq_some_iff.mp hrow
    refine .inr ⟨row', hrow', ?_⟩
    split <;> rfl
  | @minted r expiresAt hr =>
    refine ends_inv h ⟨⟨true, rfl⟩, hr, rfl, Nat.le_add_right .., fun f row hrow => .inr ⟨row, hrow, rfl⟩, ?_, ?_⟩
    · intro t row hrow
      have ht : t ≠ s.nextId := Nat.ne_of_lt (h.fresh t row hrow t (List.mem_cons_self ..))
      exact ⟨row, by simpa [createMyToken, St.setToken, St.goto, ht] using hrow, rfl⟩
    · intro t row hrow
      rcases stored_tokens hrow with ⟨rfl, rfl⟩ | ⟨-, hrow⟩
      · exact .inl ⟨rfl, by simp [createMyToken]⟩
      · exact .inr ⟨row, hrow, rfl, rfl⟩
  | @rotated r t old hr =>
    obtain ⟨u, row', hu, hrow', hl⟩ := h.found r _ old hr
    obtain rfl : t = u := Option.some.inj hu
    refine ends_inv h ⟨⟨true, rfl⟩, by simp [hr], rfl, Nat.le_add_right .., fun f row hrow => .inr ⟨row, hrow, rfl⟩, ?_, ?_⟩
    · intro v row hrow
      have hv : v ≠ s.nextId := Nat.ne_of_lt (h.fresh v row hrow v (List.mem_cons_self ..))
      obtain ⟨row'', hrow'', hl'⟩ := @revoke_row s [t] "rotation" v row hrow
      exact ⟨row'', by simpa [St.setToken, St.goto, hv] using hrow'', hl'⟩
    · intro v row hrow
      rcases @stored_tokens (s.revoke [t] "rotation") v _ row hrow with ⟨rfl, rfl⟩ | ⟨-, hrow⟩
      · refine .inl ⟨rfl, ?_⟩
        intro w hw
        rcases List.mem_cons.mp hw with rfl | hw
        · exact Nat.lt_succ_self _
        · exact Nat.lt_succ_of_lt (h.fresh t row' hrow' w (hl ▸ hw))
      · exact .inr (revoke_old hrow)
  | @revoked r ts reason hr =>
    have hidle : s.requests r ≠ .idle := by
      rcases hr with hr | ⟨t, row, hr, -⟩ <;> simp [hr]
    exact ends_inv h ⟨⟨true, rfl⟩, hidle, rfl, Nat.le_refl _, fun f row hrow => .inr ⟨row, hrow, rfl⟩,
      fun _ _ => revoke_row, fun _ _ hrow => .inr (revoke_old hrow)⟩
  | @revokedBefore r t row hr hrow hrev =>
    exact ends_inv h (ends_family ⟨true, rfl⟩ hr rfl (Nat.le_refl _) rfl fun f row hrow => .inr ⟨row, hrow, rfl⟩)

end Cograph.Credentials
