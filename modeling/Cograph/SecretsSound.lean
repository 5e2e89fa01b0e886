import Cograph.Machine
import Cograph.Secrets

/-!
# Stored secrets stay readable

Processes with and without the independent keys save secrets while walks
re-encrypt them. Every token opens under one of the two keys, to a value that
was saved for its row; and after a walk under the new keys has come to its end
nothing is left under the old ones.
-/

namespace Cograph.Secrets

open Machine Sealing

section
variable {Key : Type} {crypto : Crypto Key}

/-- What is relied on of Fernet. -/
structure Crypto.Laws (crypto : Crypto Key) : Prop where
  lawful : crypto.fernet.Lawful
  nonempty : ∀ k iv v, crypto.fernet.sealWith k iv v ≠ []

/-! ## The walk over one table -/

/-- What becomes of one row. -/
def rowOutcome (crypto : Crypto Key) (legacy current : Key) (ivs : ℕ → ℕ) (row : ℕ × Option Str) : Rekeyed Str :=
  match row.2 with
  | none | some [] => .already
  | some token => rekey crypto.fernet legacy current (ivs row.1) token

/-- The values that are set, and the rows that open under neither key. -/
def setsOf (crypto : Crypto Key) (legacy current : Key) (ivs : ℕ → ℕ) (rows : List (ℕ × Option Str)) :
    List (ℕ × Str) :=
  rows.filterMap fun row =>
    match rowOutcome crypto legacy current ivs row with
    | .migrated token => some (row.1, token)
    | _ => none

def failedOf (crypto : Crypto Key) (legacy current : Key) (ivs : ℕ → ℕ) (rows : List (ℕ × Option Str)) : List ℕ :=
  rows.filterMap fun row =>
    match rowOutcome crypto legacy current ivs row with
    | .failed => some row.1
    | _ => none

def alreadyOf (crypto : Crypto Key) (legacy current : Key) (ivs : ℕ → ℕ) (rows : List (ℕ × Option Str)) : ℕ :=
  rows.countP fun row =>
    match rowOutcome crypto legacy current ivs row with
    | .already => true
    | _ => false

section
variable {legacy current : Key} {ivs : ℕ → ℕ} {rows : List (ℕ × Option Str)} {table : Table} {settings : Settings}

theorem reencryptRow_eq (stats : ReencryptionStats) (sets : List (ℕ × Str)) (row : ℕ × Option Str) :
    reencryptRow crypto legacy current ivs (stats, sets) row =
      match rowOutcome crypto legacy current ivs row with
      | .already => ({ stats with alreadyMigrated := stats.alreadyMigrated + 1 }, sets)
      | .failed => ({ stats with failed := stats.failed + 1, failedIds := stats.failedIds ++ [row.1] }, sets)
      | .migrated token' => ({ stats with migrated := stats.migrated + 1 }, sets ++ [(row.1, token')]) := by
  obtain ⟨id, _ | _ | ⟨c, token⟩⟩ := row
  · rfl
  · rfl
  · cases hrekey : rekey crypto.fernet legacy current (ivs id) (c :: token) <;>
      simp only [reencryptRow, rowOutcome, hrekey]

/-- **The loop over the rows.** Induction over the rows, with the counts so far. -/
theorem foldl_reencryptRow (stats : ReencryptionStats) (sets : List (ℕ × Str)) :
    rows.foldl (reencryptRow crypto legacy current ivs) (stats, sets) =
      (⟨stats.table, stats.total, stats.alreadyMigrated + alreadyOf crypto legacy current ivs rows,
          stats.migrated + (setsOf crypto legacy current ivs rows).length,
          stats.failed + (failedOf crypto legacy current ivs rows).length,
          stats.failedIds ++ failedOf crypto legacy current ivs rows⟩,
        sets ++ setsOf crypto legacy current ivs rows) := by
  induction rows generalizing stats sets with
  | nil => simp [alreadyOf, setsOf, failedOf]
  | cons row rows ih =>
    rw [List.foldl_cons, reencryptRow_eq]
    unfold alreadyOf setsOf failedOf at ih ⊢
    cases hrow : rowOutcome crypto legacy current ivs row with
    | already => simp [ih, hrow, Nat.add_assoc, Nat.add_comm 1]
    | failed => simp [ih, hrow, Nat.add_assoc, Nat.add_comm 1]
    | migrated token => simp [ih, hrow, Nat.add_assoc, Nat.add_comm 1]

theorem reencryptTable_eq :
    reencryptTable crypto table settings ivs rows =
      let legacy := cipher crypto table settings true
      let current := cipher crypto table settings false
      (⟨table, rows.length, alreadyOf crypto legacy current ivs rows, (setsOf crypto legacy current ivs rows).length,
          (failedOf crypto legacy current ivs rows).length, failedOf crypto legacy current ivs rows⟩,
        setsOf crypto legacy current ivs rows) := by
  unfold reencryptTable
  dsimp only
  rw [foldl_reencryptRow]
  simp

/-- Every row is counted once. -/
theorem counts_add_up :
    alreadyOf crypto legacy current ivs rows + (setsOf crypto legacy current ivs rows).length +
      (failedOf crypto legacy current ivs rows).length = rows.length := by
  unfold alreadyOf setsOf failedOf
  induction rows with
  | nil => rfl
  | cons row rows ih =>
    cases hrow : rowOutcome crypto legacy current ivs row with
    | already => simp [hrow]; omega
    | failed => simp [hrow]; omega
    | migrated token => simp [hrow]; omega

theorem rowOutcome_ne {row : ℕ × Option Str} (h : rowOutcome crypto legacy current ivs row ≠ .already) :
    ∃ token, row.2 = some token ∧ token ≠ [] ∧
      rowOutcome crypto legacy current ivs row = rekey crypto.fernet legacy current (ivs row.1) token := by
  obtain ⟨id, _ | _ | ⟨c, token⟩⟩ := row
  · exact absurd rfl h
  · exact absurd rfl h
  · exact ⟨c :: token, rfl, List.cons_ne_nil _ _, rfl⟩

theorem rowOutcome_some {id : ℕ} {token : Str} (hne : token ≠ []) :
    rowOutcome crypto legacy current ivs (id, some token) = rekey crypto.fernet legacy current (ivs id) token := by
  cases token with
  | nil => exact absurd rfl hne
  | cons c token => rfl

/-- What is set has been read, and was sealed under the old key. -/
theorem mem_setsOf {id : ℕ} {token' : Str} :
    (id, token') ∈ setsOf crypto legacy current ivs rows ↔ ∃ token, (id, some token) ∈ rows ∧ token ≠ [] ∧
      rekey crypto.fernet legacy current (ivs id) token = .migrated token' := by
  unfold setsOf
  rw [List.mem_filterMap]
  constructor
  · rintro ⟨⟨id', cell⟩, hrow, hset⟩
    split at hset
    · rename_i token₁ houtcome
      cases hset
      obtain ⟨token, rfl, hne, hrekey⟩ := rowOutcome_ne (by rw [houtcome]; nofun)
      rw [houtcome] at hrekey
      exact ⟨token, hrow, hne, hrekey.symm⟩
    · cases hset
  · rintro ⟨token, hrow, hne, hrekey⟩
    refine ⟨_, hrow, ?_⟩
    rw [rowOutcome_some hne, hrekey]

theorem mem_failedOf {id : ℕ} :
    id ∈ failedOf crypto legacy current ivs rows ↔ ∃ token, (id, some token) ∈ rows ∧ token ≠ [] ∧
      rekey crypto.fernet legacy current (ivs id) token = .failed := by
  unfold failedOf
  rw [List.mem_filterMap]
  constructor
  · rintro ⟨⟨id', cell⟩, hrow, hset⟩
    split at hset
    · rename_i houtcome
      cases hset
      obtain ⟨token, rfl, hne, hrekey⟩ := rowOutcome_ne (by rw [houtcome]; nofun)
      rw [houtcome] at hrekey
      exact ⟨token, hrow, hne, hrekey.symm⟩
    · cases hset
  · rintro ⟨token, hrow, hne, hrekey⟩
    refine ⟨_, hrow, ?_⟩
    rw [rowOutcome_some hne, hrekey]

end

/-! ## Rows, saves and sets -/

namespace St

variable (s : St)

def rows : Table → List (ℕ × Option Str)
  | .llmSecrets => s.secretRows
  | .identityProviders => s.providerRows

/-- The token is stored in the row of the table. -/
def stored (table : Table) (id : ℕ) (token : Str) : Prop := (id, some token) ∈ s.rows table

theorem stored_secret {id : ℕ} {token : Str} :
    s.stored .llmSecrets id token ↔ ∃ row ∈ s.secrets, row.id = id ∧ row.apiKeyEncrypted = token := by
  simp [stored, rows, secretRows]

theorem stored_provider {id : ℕ} {token : Str} :
    s.stored .identityProviders id token ↔
      ∃ row ∈ s.providers, row.id = id ∧ row.clientSecretEncrypted = some token := by
  simp [stored, rows, providerRows]

end St

namespace Walk

variable (w : Walk)

/-- What the walk has read of the table. -/
def result? : Table → Option (ReencryptionStats × List (ℕ × Str))
  | .llmSecrets => some w.llm
  | .identityProviders => w.oidc

/-- The walk is about to set the row. -/
def sets (table : Table) (id : ℕ) (token : Str) : Prop :=
  ∃ result, w.result? table = some result ∧ (id, token) ∈ result.2

end Walk

/-- The row and the value that the action saves. -/
def saved (s : St) : Act → Option (Table × ℕ × Str)
  | .createSecret _ _ _ payload => some (.llmSecrets, s.nextId, (normalize payload).apiKey.getD [])
  | .updateSecret _ _ _ id payload => (normalize payload).apiKey.map (.llmSecrets, id, ·)
  | .createProvider _ _ _ secret => (secret.filter (· ≠ [])).map (.identityProviders, s.nextId, ·)
  | .updateProvider _ _ id secret => secret.map (.identityProviders, id, ·)
  | _ => none

/-- The settings of the process that saves. -/
def Act.savesWith : Act → Option Settings
  | .createSecret settings .. | .updateSecret settings .. | .createProvider settings .. | .updateProvider settings .. =>
    some settings
  | _ => none

def Act.walksWith : Act → Option Settings
  | .walkStart settings .. => some settings
  | _ => none

/-- The step saves `value` in the row. -/
def Saves (table : Table) (id : ℕ) (value : Str) (t : Step St Act) : Prop := saved t.pre t.act = some (table, id, value)

theorem except_ok {ε α : Type} {r : Except ε α} {x : α} (h : r.toOption = some x) : r = .ok x := by
  cases r with
  | error e => cases h
  | ok y => exact congrArg Except.ok (Option.some.inj h)

section
variable {s s' : St} {settings : Settings} {iv actorId id : ℕ}

theorem createSecret_ok {payload : SecretUpsertInput}
    (h : s.createSecret crypto settings iv actorId payload = .ok s') :
    s' = { s with
      nextId := s.nextId + 1
      secrets := s.secrets ++ [⟨s.nextId, (normalize payload).name, (normalize payload).apiUrl,
        crypto.fernet.sealWith (cipher crypto .llmSecrets settings false) iv ((normalize payload).apiKey.getD []),
        actorId⟩] } := by
  unfold St.createSecret at h
  dsimp only at h
  cases hvalid : validate (normalize payload) true with
  | error e =>
    rw [hvalid] at h
    cases h
  | ok _ =>
    rw [hvalid] at h
    dsimp only [bind, Except.bind] at h
    split at h
    · cases h
    · cases h
      rfl

theorem updateSecret_ok {payload : SecretUpsertInput}
    (h : s.updateSecret crypto settings iv actorId id payload = .ok s') :
    s' = { s with secrets := s.secrets.map fun row =>
      if row.id = id then St.setSecret crypto settings iv actorId (normalize payload) row else row } := by
  unfold St.updateSecret at h
  dsimp only at h
  split at h
  · cases hvalid : validate (normalize payload) false with
    | error e =>
      rw [hvalid] at h
      cases h
    | ok _ =>
      rw [hvalid] at h
      dsimp only [bind, Except.bind] at h
      split at h
      · cases h
      · cases h
        rfl
  · cases h

theorem deleteSecret_ok (h : s.deleteSecret id = .ok s') :
    s.rolesUsingSecret id = [] ∧ s' = { s with secrets := s.secrets.filter (·.id ≠ id) } := by
  unfold St.deleteSecret at h
  split at h
  · split at h
    · cases h
    · rename_i hroles
      cases h
      exact ⟨not_not.1 hroles, rfl⟩
  · cases h

theorem upsertAssignment_ok {payload : LLMModelAssignment} (h : s.upsertAssignment payload = .ok s') :
    payloadErrors payload = [] ∧ (∃ row ∈ s.secrets, row.id = payload.secretId) ∧
      s' = { s with assignments := payload :: s.assignments.filter (·.role ≠ payload.role) } := by
  unfold St.upsertAssignment at h
  split at h
  · rename_i hfits
    cases hvalid : s.validateSecret payload.secretId with
    | error e =>
      rw [hvalid] at h
      cases h
    | ok _ =>
      rw [hvalid] at h
      cases h
      refine ⟨hfits.2.2, ?_, rfl⟩
      unfold St.validateSecret at hvalid
      split at hvalid
      · cases hvalid
      · rename_i secret hfind
        exact ⟨secret, List.mem_of_find?_eq_some hfind, by simpa using List.find?_some hfind⟩
  · cases h

theorem createIdentityProvider_ok {slug : Str} {secret : Option Str}
    (h : s.createIdentityProvider crypto settings iv slug secret = .ok s') :
    s' = { s with
      nextId := s.nextId + 1
      providers := s.providers ++ [⟨s.nextId, slug, (secret.filter (· ≠ [])).map fun value =>
        crypto.fernet.sealWith (cipher crypto .identityProviders settings false) iv value⟩] } := by
  unfold St.createIdentityProvider at h
  dsimp only at h
  split at h
  · cases h
  · cases h
    rfl

theorem updateIdentityProvider_ok {secret : Option Str}
    (h : s.updateIdentityProvider crypto settings iv id secret = .ok s') :
    s' = { s with providers := s.providers.map fun row =>
      if row.id = id then St.setClientSecret crypto settings iv secret row else row } := by
  unfold St.updateIdentityProvider at h
  split at h
  · cases h
    rfl
  · cases h

theorem deleteIdentityProvider_ok {inUse : Bool} (h : s.deleteIdentityProvider id inUse = .ok s') :
    s' = { s with providers := s.providers.filter (·.id ≠ id) } := by
  unfold St.deleteIdentityProvider at h
  split at h
  · split at h
    · cases h
    · cases h
      rfl
  · cases h

theorem walk?_some {w : Walk} (h : s.walk? id = some w) : w ∈ s.walks ∧ w.id = id :=
  ⟨List.mem_of_find?_eq_some h, by simpa using List.find?_some h⟩

end

/-! ## What one step does to the rows -/

section
variable {s s' : St}

/-- A token that a request seals. -/
def Fresh (crypto : Crypto Key) (s : St) (a : Act) (table : Table) (id : ℕ) (token : Str) : Prop :=
  ∃ settings iv value, a.savesWith = some settings ∧ saved s a = some (table, id, value) ∧
    token = crypto.fernet.sealWith (cipher crypto table settings false) iv value

/-- A row that a step leaves as it is has no value saved in it. -/
def Left (s : St) (a : Act) (table : Table) (id : ℕ) (token : Str) : Prop :=
  s.stored table id token ∧ ∀ value, saved s a = some (table, id, value) → id = s.nextId

/-- What a walk does to the rows at its end. -/
def Ended (s : St) (w : Walk) (table : Table) (id : ℕ) (token : Str) : Prop :=
  w.sets table id token ∨ s.stored table id token ∧ ∀ token', ¬w.sets table id token'

theorem setOf_some {sets : List (ℕ × Str)} {id : ℕ} {token : Str} (h : St.setOf sets id = some token) :
    (id, token) ∈ sets := by
  unfold St.setOf at h
  obtain ⟨⟨id', token'⟩, hfind, rfl⟩ := Option.map_eq_some_iff.1 h
  obtain rfl : id' = id := by simpa using List.find?_some hfind
  exact List.mem_of_find?_eq_some hfind

theorem setOf_none {sets : List (ℕ × Str)} {id : ℕ} (h : St.setOf sets id = none) (token : Str) :
    (id, token) ∉ sets := by
  unfold St.setOf at h
  rw [Option.map_eq_none_iff, List.find?_eq_none] at h
  intro hmem
  exact h _ hmem (by simp)

/-- A commit sets the rows that the walk has read, and no others. -/
theorem stored_commitSets {w : Walk} {oidc : ReencryptionStats × List (ℕ × Str)} (hw : w.oidc = some oidc)
    {table : Table} {id : ℕ} {token : Str} (h : (s.commitSets w.llm.2 oidc.2).stored table id token) :
    Ended s w table id token := by
  cases table with
  | llmSecrets =>
    obtain ⟨row, hrow, rfl, rfl⟩ := (St.stored_secret _).1 h
    obtain ⟨old, hold, rfl⟩ := List.mem_map.1 hrow
    dsimp only
    cases hset : St.setOf w.llm.2 old.id with
    | some token => exact .inl ⟨w.llm, rfl, setOf_some hset⟩
    | none =>
      refine .inr ⟨(St.stored_secret _).2 ⟨old, hold, rfl, rfl⟩, ?_⟩
      rintro token' ⟨result, hresult, hmem⟩
      cases hresult
      exact setOf_none hset token' hmem
  | identityProviders =>
    obtain ⟨row, hrow, rfl, htoken⟩ := (St.stored_provider _).1 h
    obtain ⟨old, hold, rfl⟩ := List.mem_map.1 hrow
    dsimp only at htoken ⊢
    cases hset : St.setOf oidc.2 old.id with
    | some token' =>
      rw [hset] at htoken
      cases htoken
      exact .inl ⟨oidc, hw, setOf_some hset⟩
    | none =>
      rw [hset] at htoken
      refine .inr ⟨(St.stored_provider _).2 ⟨old, hold, rfl, htoken⟩, ?_⟩
      rintro token' ⟨result, hresult, hmem⟩
      cases hw.symm.trans hresult
      exact setOf_none hset token' hmem

/-- **What a step can do to a row**: seal a new value in it, commit what a walk
has set, or leave it. -/
theorem next_stored {a : Act} (hn : next crypto s a = some s') {table : Table} {id : ℕ} {token : Str}
    (h : s'.stored table id token) :
    Fresh crypto s a table id token ∨ Left s a table id token ∨
      ∃ w ∈ s.walks, ∃ checked, a = .walkEnd w.id checked ∧ Ended s w table id token := by
  cases a with
  | createSecret settings iv actorId payload =>
    obtain rfl := createSecret_ok (except_ok hn)
    cases table with
    | llmSecrets =>
      obtain ⟨row, hrow, rfl, rfl⟩ := (St.stored_secret _).1 h
      obtain hold | hnew := List.mem_append.1 hrow
      · refine .inr (.inl ⟨(St.stored_secret _).2 ⟨row, hold, rfl, rfl⟩, fun value hvalue => ?_⟩)
        simp only [saved, Option.some.injEq, Prod.mk.injEq] at hvalue
        exact hvalue.2.1.symm
      · obtain rfl := List.mem_singleton.1 hnew
        exact .inl ⟨settings, iv, _, rfl, rfl, rfl⟩
    | identityProviders => exact .inr (.inl ⟨h, nofun⟩)
  | updateSecret settings iv actorId secretId payload =>
    simp only [next] at hn
    split at hn
    · cases hn
    obtain rfl := updateSecret_ok (except_ok hn)
    cases table with
    | llmSecrets =>
      obtain ⟨row, hrow, rfl, rfl⟩ := (St.stored_secret _).1 h
      obtain ⟨old, hold, rfl⟩ := List.mem_map.1 hrow
      by_cases hid : old.id = secretId
      · rw [if_pos hid]
        unfold St.setSecret
        dsimp only
        cases hkey : (normalize payload).apiKey with
        | none =>
          refine .inr (.inl ⟨(St.stored_secret _).2 ⟨old, hold, rfl, rfl⟩, fun value hvalue => ?_⟩)
          simp [saved, hkey] at hvalue
        | some apiKey =>
          refine .inl ⟨settings, iv, apiKey, rfl, ?_, rfl⟩
          simp [saved, hkey, hid]
      · rw [if_neg hid]
        refine .inr (.inl ⟨(St.stored_secret _).2 ⟨old, hold, rfl, rfl⟩, fun value hvalue => absurd ?_ hid⟩)
        obtain ⟨apiKey, -, hsaved⟩ := Option.map_eq_some_iff.1 hvalue
        cases hsaved
        rfl
    | identityProviders =>
      refine .inr (.inl ⟨h, fun value hvalue => ?_⟩)
      obtain ⟨apiKey, -, hsaved⟩ := Option.map_eq_some_iff.1 hvalue
      cases hsaved
  | deleteSecret secretId =>
    simp only [next] at hn
    split at hn
    · cases hn
    obtain ⟨-, rfl⟩ := deleteSecret_ok (except_ok hn)
    refine .inr (.inl ⟨?_, nofun⟩)
    cases table with
    | llmSecrets =>
      obtain ⟨row, hrow, hid, htoken⟩ := (St.stored_secret _).1 h
      exact (St.stored_secret _).2 ⟨row, List.mem_of_mem_filter hrow, hid, htoken⟩
    | identityProviders => exact h
  | upsertAssignment payload =>
    obtain ⟨-, -, rfl⟩ := upsertAssignment_ok (except_ok hn)
    refine .inr (.inl ⟨?_, nofun⟩)
    cases table <;> exact h
  | clearAssignment role =>
    cases hn
    refine .inr (.inl ⟨?_, nofun⟩)
    cases table <;> exact h
  | createProvider settings iv slug secret =>
    obtain rfl := createIdentityProvider_ok (except_ok hn)
    cases table with
    | llmSecrets =>
      refine .inr (.inl ⟨h, fun value hvalue => ?_⟩)
      obtain ⟨plaintext, -, hsaved⟩ := Option.map_eq_some_iff.1 hvalue
      cases hsaved
    | identityProviders =>
      obtain ⟨row, hrow, rfl, htoken⟩ := (St.stored_provider _).1 h
      obtain hold | hnew := List.mem_append.1 hrow
      · refine .inr (.inl ⟨(St.stored_provider _).2 ⟨row, hold, rfl, htoken⟩, fun value hvalue => ?_⟩)
        obtain ⟨plaintext, -, hsaved⟩ := Option.map_eq_some_iff.1 hvalue
        exact (congrArg (·.2.1) hsaved).symm
      · obtain rfl := List.mem_singleton.1 hnew
        obtain ⟨plaintext, hplaintext, rfl⟩ := Option.map_eq_some_iff.1 htoken
        refine .inl ⟨settings, iv, plaintext, rfl, ?_, rfl⟩
        exact congrArg (Option.map (Table.identityProviders, s.nextId, ·)) hplaintext
  | updateProvider settings iv providerId secret =>
    obtain rfl := updateIdentityProvider_ok (except_ok hn)
    cases table with
    | llmSecrets =>
      refine .inr (.inl ⟨h, fun value hvalue => ?_⟩)
      obtain ⟨plaintext, -, hsaved⟩ := Option.map_eq_some_iff.1 hvalue
      cases hsaved
    | identityProviders =>
      obtain ⟨row, hrow, rfl, htoken⟩ := (St.stored_provider _).1 h
      obtain ⟨old, hold, rfl⟩ := List.mem_map.1 hrow
      by_cases hid : old.id = providerId
      · rw [if_pos hid] at htoken ⊢
        cases secret with
        | none =>
          exact .inr (.inl ⟨(St.stored_provider _).2 ⟨old, hold, rfl, htoken⟩, nofun⟩)
        | some plaintext =>
          cases htoken
          refine .inl ⟨settings, iv, plaintext, rfl, ?_, rfl⟩
          rw [← hid]
          rfl
      · rw [if_neg hid] at htoken ⊢
        refine .inr (.inl ⟨(St.stored_provider _).2 ⟨old, hold, rfl, htoken⟩, fun value hvalue => absurd ?_ hid⟩)
        obtain ⟨plaintext, -, hsaved⟩ := Option.map_eq_some_iff.1 hvalue
        cases hsaved
        rfl
  | deleteProvider providerId inUse =>
    obtain rfl := deleteIdentityProvider_ok (except_ok hn)
    refine .inr (.inl ⟨?_, nofun⟩)
    cases table with
    | llmSecrets => exact h
    | identityProviders =>
      obtain ⟨row, hrow, hid, htoken⟩ := (St.stored_provider _).1 h
      exact (St.stored_provider _).2 ⟨row, List.mem_of_mem_filter hrow, hid, htoken⟩
  | walkStart settings ivs dryRun =>
    cases hn
    refine .inr (.inl ⟨?_, nofun⟩)
    cases table <;> exact h
  | walkTurn walkId ivs checked =>
    refine .inr (.inl ⟨?_, nofun⟩)
    simp only [next] at hn
    split at hn
    · split at hn
      · cases hn
      · cases hn
        unfold St.walkTurn at h
        split at h
        · cases table <;> exact h
        · cases table <;> exact h
    · cases hn
  | walkEnd walkId checked =>
    simp only [next] at hn
    split at hn
    · rename_i w hfind
      obtain ⟨hw, rfl⟩ := walk?_some hfind
      obtain ⟨oidc, hoidc, rfl⟩ := Option.map_eq_some_iff.1 hn
      unfold St.walkEnd at h
      dsimp only at h
      split at h
      · refine .inr (.inl ⟨?_, nofun⟩)
        cases table <;> exact h
      · split at h
        · refine .inr (.inr ⟨w, hw, checked, rfl, ?_⟩)
          have hended := stored_commitSets hoidc h
          cases table <;> exact hended
        · refine .inr (.inl ⟨?_, nofun⟩)
          cases table <;> exact h
    · cases hn
  | walkDie walkId =>
    cases hn
    refine .inr (.inl ⟨?_, nofun⟩)
    cases table <;> exact h

/-- **What a step can do to a walk**: start it with the secrets, let it read the
providers, or leave it. -/
theorem next_walk {a : Act} (hn : next crypto s a = some s') {w : Walk} (h : w ∈ s'.walks) :
    w ∈ s.walks ∨
      (∃ settings ivs dryRun, a = .walkStart settings ivs dryRun ∧
        w = ⟨s.nextWalk, settings, dryRun, reencryptTable crypto .llmSecrets settings ivs s.secretRows, none⟩) ∨
      ∃ w₀ ∈ s.walks, w₀.oidc = none ∧ ∃ ivs checked, a = .walkTurn w₀.id ivs checked ∧ w =
        { w₀ with oidc := some (reencryptTable crypto .identityProviders w₀.settings ivs s.providerRows) } := by
  cases a with
  | createSecret settings iv actorId payload =>
    obtain rfl := createSecret_ok (except_ok hn)
    exact .inl h
  | updateSecret settings iv actorId secretId payload =>
    simp only [next] at hn
    split at hn
    · cases hn
    obtain rfl := updateSecret_ok (except_ok hn)
    exact .inl h
  | deleteSecret secretId =>
    simp only [next] at hn
    split at hn
    · cases hn
    obtain ⟨-, rfl⟩ := deleteSecret_ok (except_ok hn)
    exact .inl h
  | upsertAssignment payload =>
    obtain ⟨-, -, rfl⟩ := upsertAssignment_ok (except_ok hn)
    exact .inl h
  | clearAssignment role =>
    cases hn
    exact .inl h
  | createProvider settings iv slug secret =>
    obtain rfl := createIdentityProvider_ok (except_ok hn)
    exact .inl h
  | updateProvider settings iv providerId secret =>
    obtain rfl := updateIdentityProvider_ok (except_ok hn)
    exact .inl h
  | deleteProvider providerId inUse =>
    obtain rfl := deleteIdentityProvider_ok (except_ok hn)
    exact .inl h
  | walkStart settings ivs dryRun =>
    cases hn
    obtain rfl | hold := List.mem_cons.1 h
    · exact .inr (.inl ⟨settings, ivs, dryRun, rfl, rfl⟩)
    · exact .inl hold
  | walkTurn walkId ivs checked =>
    simp only [next] at hn
    split at hn
    · rename_i w₀ hfind
      obtain ⟨hw, rfl⟩ := walk?_some hfind
      split at hn
      · cases hn
      · rename_i hguard
        cases hn
        unfold St.walkTurn at h
        split at h
        · obtain ⟨x, hx, rfl⟩ := List.mem_map.1 h
          split
          · exact .inr (.inr ⟨w₀, hw, by simpa using fun hsome => hguard (.inl hsome), ivs, checked, rfl, rfl⟩)
          · exact .inl hx
        · exact .inl (List.mem_of_mem_filter h)
    · cases hn
  | walkEnd walkId checked =>
    simp only [next] at hn
    split at hn
    · obtain ⟨oidc, -, rfl⟩ := Option.map_eq_some_iff.1 hn
      unfold St.walkEnd at h
      dsimp only at h
      split at h
      · exact .inl (List.mem_of_mem_filter h)
      · split at h
        · exact .inl (List.mem_of_mem_filter h)
        · exact .inl (List.mem_of_mem_filter h)
    · cases hn
  | walkDie walkId =>
    cases hn
    exact .inl (List.mem_of_mem_filter h)

/-- What a walk is about to set it was about to set before, or has just read. -/
theorem next_sets {a : Act} (hn : next crypto s a = some s') {w : Walk} (h : w ∈ s'.walks) {table : Table}
    {result : ReencryptionStats × List (ℕ × Str)} (hresult : w.result? table = some result) :
    (∃ w₀ ∈ s.walks, w₀.id = w.id ∧ w₀.settings = w.settings ∧ w₀.dryRun = w.dryRun ∧ w₀.result? table = some result) ∨
      saved s a = none ∧ ∃ ivs, result = reencryptTable crypto table w.settings ivs (s.rows table) := by
  obtain hold | ⟨settings, ivs, dryRun, rfl, rfl⟩ | ⟨w₀, hw₀, hnone, ivs, checked, rfl, rfl⟩ := next_walk hn h
  · exact .inl ⟨w, hold, rfl, rfl, rfl, hresult⟩
  · cases table with
    | llmSecrets =>
      cases hresult
      exact .inr ⟨rfl, ivs, rfl⟩
    | identityProviders => cases hresult
  · cases table with
    | llmSecrets => exact .inl ⟨w₀, hw₀, rfl, rfl, rfl, hresult⟩
    | identityProviders =>
      cases hresult
      exact .inr ⟨rfl, ivs, rfl⟩

/-- A report is printed by a walk that has read both tables; unless it was a dry
run, what it has read is committed. -/
theorem next_report {a : Act} (hn : next crypto s a = some s') {n : ℕ} {report : ReencryptionReport}
    (h : (n, report) ∈ s'.reports) :
    (n, report) ∈ s.reports ∨ ∃ w ∈ s.walks, w.id = n ∧ ∃ oidc, w.oidc = some oidc ∧
      report = ⟨w.llm.1, oidc.1, w.dryRun⟩ ∧
      (w.dryRun = false → ∀ table id token, s'.stored table id token → Ended s w table id token) := by
  cases a with
  | createSecret settings iv actorId payload =>
    obtain rfl := createSecret_ok (except_ok hn)
    exact .inl h
  | updateSecret settings iv actorId secretId payload =>
    simp only [next] at hn
    split at hn
    · cases hn
    obtain rfl := updateSecret_ok (except_ok hn)
    exact .inl h
  | deleteSecret secretId =>
    simp only [next] at hn
    split at hn
    · cases hn
    obtain ⟨-, rfl⟩ := deleteSecret_ok (except_ok hn)
    exact .inl h
  | upsertAssignment payload =>
    obtain ⟨-, -, rfl⟩ := upsertAssignment_ok (except_ok hn)
    exact .inl h
  | createProvider settings iv slug secret =>
    obtain rfl := createIdentityProvider_ok (except_ok hn)
    exact .inl h
  | updateProvider settings iv providerId secret =>
    obtain rfl := updateIdentityProvider_ok (except_ok hn)
    exact .inl h
  | deleteProvider providerId inUse =>
    obtain rfl := deleteIdentityProvider_ok (except_ok hn)
    exact .inl h
  | walkTurn walkId ivs checked =>
    simp only [next] at hn
    split at hn
    · split at hn
      · cases hn
      · cases hn
        unfold St.walkTurn at h
        split at h
        · exact .inl h
        · exact .inl h
    · cases hn
  | walkEnd walkId checked =>
    simp only [next] at hn
    split at hn
    · rename_i w hfind
      obtain ⟨hw, rfl⟩ := walk?_some hfind
      obtain ⟨oidc, hoidc, rfl⟩ := Option.map_eq_some_iff.1 hn
      unfold St.walkEnd at h ⊢
      dsimp only at h ⊢
      split at h
      · rename_i hdry
        obtain hnew | hold := List.mem_cons.1 h
        · cases hnew
          exact .inr ⟨w, hw, rfl, oidc, hoidc, rfl, fun hcommit => absurd hdry (by simp [hcommit])⟩
        · exact .inl hold
      · rename_i hcommit
        split at h
        · rename_i hfound
          obtain hnew | hold := List.mem_cons.1 h
          · cases hnew
            refine .inr ⟨w, hw, rfl, oidc, hoidc, rfl, fun _ table id token hstored => ?_⟩
            rw [if_neg hcommit, if_pos hfound] at hstored
            have hended := stored_commitSets hoidc hstored
            cases table <;> exact hended
          · exact .inl hold
        · exact .inl h
    · cases hn
  | _ =>
    cases hn
    exact .inl h

/-- Ids are never given twice. -/
theorem next_ids {a : Act} (hn : next crypto s a = some s') {table : Table} {id : ℕ}
    (h : id ∈ (s'.rows table).map (·.1)) :
    id ∈ (s.rows table).map (·.1) ∨ id < s'.nextId := by
  cases a with
  | createSecret settings iv actorId payload =>
    obtain rfl := createSecret_ok (except_ok hn)
    cases table with
    | llmSecrets =>
      simp only [St.rows, St.secretRows, List.map_append, List.mem_append, List.map_cons, List.map_nil,
        List.mem_singleton] at h
      obtain hold | rfl := h
      · exact .inl hold
      · exact .inr (Nat.lt_succ_self _)
    | identityProviders => exact .inl h
  | updateSecret settings iv actorId secretId payload =>
    simp only [next] at hn
    split at hn
    · cases hn
    obtain rfl := updateSecret_ok (except_ok hn)
    refine .inl ?_
    cases table with
    | llmSecrets =>
      obtain ⟨pair, hpair, rfl⟩ := List.mem_map.1 h
      obtain ⟨row, hrow, rfl⟩ := List.mem_map.1 hpair
      obtain ⟨old, hold, rfl⟩ := List.mem_map.1 hrow
      refine List.mem_map.2 ⟨_, List.mem_map_of_mem hold, ?_⟩
      dsimp only
      split <;> rfl
    | identityProviders => exact h
  | deleteSecret secretId =>
    simp only [next] at hn
    split at hn
    · cases hn
    obtain ⟨-, rfl⟩ := deleteSecret_ok (except_ok hn)
    refine .inl ?_
    cases table with
    | llmSecrets =>
      obtain ⟨pair, hpair, rfl⟩ := List.mem_map.1 h
      obtain ⟨row, hrow, rfl⟩ := List.mem_map.1 hpair
      exact List.mem_map.2 ⟨_, List.mem_map_of_mem (List.mem_of_mem_filter hrow), rfl⟩
    | identityProviders => exact h
  | upsertAssignment payload =>
    obtain ⟨-, -, rfl⟩ := upsertAssignment_ok (except_ok hn)
    refine .inl ?_
    cases table <;> exact h
  | createProvider settings iv slug secret =>
    obtain rfl := createIdentityProvider_ok (except_ok hn)
    cases table with
    | llmSecrets => exact .inl h
    | identityProviders =>
      simp only [St.rows, St.providerRows, List.map_append, List.mem_append, List.map_cons, List.map_nil,
        List.mem_singleton] at h
      obtain hold | rfl := h
      · exact .inl hold
      · exact .inr (Nat.lt_succ_self _)
  | updateProvider settings iv providerId secret =>
    obtain rfl := updateIdentityProvider_ok (except_ok hn)
    refine .inl ?_
    cases table with
    | llmSecrets => exact h
    | identityProviders =>
      obtain ⟨pair, hpair, rfl⟩ := List.mem_map.1 h
      obtain ⟨row, hrow, rfl⟩ := List.mem_map.1 hpair
      obtain ⟨old, hold, rfl⟩ := List.mem_map.1 hrow
      refine List.mem_map.2 ⟨_, List.mem_map_of_mem hold, ?_⟩
      dsimp only
      split
      · cases secret <;> rfl
      · rfl
  | deleteProvider providerId inUse =>
    obtain rfl := deleteIdentityProvider_ok (except_ok hn)
    refine .inl ?_
    cases table with
    | llmSecrets => exact h
    | identityProviders =>
      obtain ⟨pair, hpair, rfl⟩ := List.mem_map.1 h
      obtain ⟨row, hrow, rfl⟩ := List.mem_map.1 hpair
      exact List.mem_map.2 ⟨_, List.mem_map_of_mem (List.mem_of_mem_filter hrow), rfl⟩
  | walkTurn walkId ivs checked =>
    simp only [next] at hn
    split at hn
    · split at hn
      · cases hn
      · cases hn
        refine .inl ?_
        unfold St.walkTurn at h
        split at h <;> cases table <;> exact h
    · cases hn
  | walkEnd walkId checked =>
    simp only [next] at hn
    split at hn
    · obtain ⟨oidc, -, rfl⟩ := Option.map_eq_some_iff.1 hn
      refine .inl ?_
      unfold St.walkEnd at h
      dsimp only at h
      split at h
      · cases table <;> exact h
      · split at h
        · cases table with
          | llmSecrets => simpa [St.rows, St.secretRows, St.commitSets, St.dropWalk] using h
          | identityProviders => simpa [St.rows, St.providerRows, St.commitSets, St.dropWalk] using h
        · cases table <;> exact h
    · cases hn
  | _ =>
    cases hn
    refine .inl ?_
    cases table <;> exact h

theorem next_counters {a : Act} (hn : next crypto s a = some s') : s.nextId ≤ s'.nextId ∧ s.nextWalk ≤ s'.nextWalk := by
  cases a with
  | createSecret settings iv actorId payload =>
    obtain rfl := createSecret_ok (except_ok hn)
    exact ⟨Nat.le_succ _, Nat.le_refl _⟩
  | updateSecret settings iv actorId secretId payload =>
    simp only [next] at hn
    split at hn
    · cases hn
    obtain rfl := updateSecret_ok (except_ok hn)
    exact ⟨Nat.le_refl _, Nat.le_refl _⟩
  | deleteSecret secretId =>
    simp only [next] at hn
    split at hn
    · cases hn
    obtain ⟨-, rfl⟩ := deleteSecret_ok (except_ok hn)
    exact ⟨Nat.le_refl _, Nat.le_refl _⟩
  | upsertAssignment payload =>
    obtain ⟨-, -, rfl⟩ := upsertAssignment_ok (except_ok hn)
    exact ⟨Nat.le_refl _, Nat.le_refl _⟩
  | createProvider settings iv slug secret =>
    obtain rfl := createIdentityProvider_ok (except_ok hn)
    exact ⟨Nat.le_succ _, Nat.le_refl _⟩
  | updateProvider settings iv providerId secret =>
    obtain rfl := updateIdentityProvider_ok (except_ok hn)
    exact ⟨Nat.le_refl _, Nat.le_refl _⟩
  | deleteProvider providerId inUse =>
    obtain rfl := deleteIdentityProvider_ok (except_ok hn)
    exact ⟨Nat.le_refl _, Nat.le_refl _⟩
  | walkStart settings ivs dryRun =>
    cases hn
    exact ⟨Nat.le_refl _, Nat.le_succ _⟩
  | walkTurn walkId ivs checked =>
    simp only [next] at hn
    split at hn
    · split at hn
      · cases hn
      · cases hn
        unfold St.walkTurn
        split <;> exact ⟨Nat.le_refl _, Nat.le_refl _⟩
    · cases hn
  | walkEnd walkId checked =>
    simp only [next] at hn
    split at hn
    · obtain ⟨oidc, -, rfl⟩ := Option.map_eq_some_iff.1 hn
      unfold St.walkEnd
      dsimp only
      split
      · exact ⟨Nat.le_refl _, Nat.le_refl _⟩
      · split <;> exact ⟨Nat.le_refl _, Nat.le_refl _⟩
    · cases hn
  | _ =>
    cases hn
    exact ⟨Nat.le_refl _, Nat.le_refl _⟩

end

/-! ## The keys of a deployment -/

/-- The secrets that an operator moves between: processes run with the JWT
secret, and with an independent secret for a table or not yet with one. -/
structure Deployment where
  jwtSecret : Str
  llmEncryptionSecret : Str
  oidcEncryptionSecret : Str

namespace Deployment

variable (d : Deployment)

/-- The settings at the end of the move. -/
def settings : Settings := ⟨d.jwtSecret, some d.llmEncryptionSecret, some d.oidcEncryptionSecret⟩

structure Has (settings : Settings) : Prop where
  jwt : settings.jwtSecret = d.jwtSecret
  llm : ∀ secret, settings.llmEncryptionSecret = some secret → secret = d.llmEncryptionSecret
  oidc : ∀ secret, settings.oidcEncryptionSecret = some secret → secret = d.oidcEncryptionSecret

def legacy (crypto : Crypto Key) (table : Table) : Key := cipher crypto table d.settings true

def current (crypto : Crypto Key) (table : Table) : Key := cipher crypto table d.settings false

/-- The processes of a run belong to the deployment. -/
def Runs (a : Act) : Prop := ∀ settings, a.savesWith = some settings ∨ a.walksWith = some settings → d.Has settings

end Deployment

section
variable {d : Deployment} {settings : Settings} {table : Table}

theorem Deployment.has_settings : d.Has d.settings :=
  ⟨rfl, fun _ h => (Option.some.inj h).symm, fun _ h => (Option.some.inj h).symm⟩

theorem fernetKey_legacy (independent : Option Str) (domain : Str) :
    fernetKey crypto independent domain settings true = crypto.key (domain ++ settings.jwtSecret) := by
  cases independent <;> rfl

theorem Deployment.Has.legacy (h : d.Has settings) : cipher crypto table settings true = d.legacy crypto table := by
  unfold Deployment.legacy cipher llmFernetKey oidcFernetKey
  cases table with
  | llmSecrets => simp only [fernetKey_legacy, h.jwt, Deployment.settings]
  | identityProviders => simp only [fernetKey_legacy, h.jwt, Deployment.settings]

theorem Deployment.Has.current (h : d.Has settings) :
    cipher crypto table settings false = d.legacy crypto table ∨
      cipher crypto table settings false = d.current crypto table := by
  rw [← h.legacy]
  unfold Deployment.current cipher llmFernetKey oidcFernetKey
  cases table with
  | llmSecrets =>
    cases hsecret : settings.llmEncryptionSecret with
    | none => exact .inl rfl
    | some secret =>
      rw [h.llm secret hsecret]
      exact .inr rfl
  | identityProviders =>
    cases hsecret : settings.oidcEncryptionSecret with
    | none => exact .inl rfl
    | some secret =>
      rw [h.oidc secret hsecret]
      exact .inr rfl

end

/-! ## What every state keeps -/

section
variable {d : Deployment} {s s' : St} {a : Act} {ts : List (Step St Act)}

/-- Every token opens under one of the two keys, and what walks set under the
new one. -/
structure Keyed (crypto : Crypto Key) (d : Deployment) (s : St) : Prop where
  ids : ∀ table, ∀ id ∈ (s.rows table).map (·.1), id < s.nextId
  walkIds : ∀ w ∈ s.walks, w.id < s.nextWalk
  reportIds : ∀ r ∈ s.reports, r.1 < s.nextWalk
  settings : ∀ w ∈ s.walks, d.Has w.settings
  stored : ∀ table id token, s.stored table id token → ∃ k value,
    (k = d.legacy crypto table ∨ k = d.current crypto table) ∧ crypto.fernet.Sealed k value token
  sets : ∀ w ∈ s.walks, ∀ table id token, w.sets table id token →
    ∃ value, crypto.fernet.Sealed (d.current crypto table) value token

theorem Init.keyed (h : Init s) : Keyed crypto d s where
  ids table id hid := by
    cases table with
    | llmSecrets => simp [St.rows, St.secretRows, h.secrets] at hid
    | identityProviders => simp [St.rows, St.providerRows, h.providers] at hid
  walkIds w hw := by
    rw [h.walks] at hw
    cases hw
  reportIds r hr := by
    rw [h.reports] at hr
    cases hr
  settings w hw := by
    rw [h.walks] at hw
    cases hw
  stored table id token hstored := by
    cases table with
    | llmSecrets => simp [St.stored, St.rows, St.secretRows, h.secrets] at hstored
    | identityProviders => simp [St.stored, St.rows, St.providerRows, h.providers] at hstored
  sets w hw := by
    rw [h.walks] at hw
    cases hw

theorem Keyed.id_lt (h : Keyed crypto d s) {table : Table} {id : ℕ} {token : Str} (hstored : s.stored table id token) :
    id < s.nextId :=
  h.ids table id (List.mem_map_of_mem hstored)

/-- What is left in a row is not saved over. -/
theorem Keyed.left (h : Keyed crypto d s) {table : Table} {id : ℕ} {token value : Str} (hleft : Left s a table id token)
    (hsaved : saved s a = some (table, id, value)) : False := by
  have hid := hleft.2 value hsaved
  have hlt := h.id_lt hleft.1
  omega

/-- A value that is read and set again was sealed under the old key, and is
sealed under the new one. -/
theorem Keyed.reads (laws : crypto.Laws) (h : Keyed crypto d s) {settings : Settings} (hsettings : d.Has settings)
    {ivs : ℕ → ℕ} {table : Table} {id : ℕ} {token : Str}
    (hset : (id, token) ∈ (reencryptTable crypto table settings ivs (s.rows table)).2) :
    ∃ old value, s.stored table id old ∧ crypto.fernet.Sealed (d.legacy crypto table) value old ∧
      crypto.fernet.Sealed (d.current crypto table) value token := by
  rw [reencryptTable_eq] at hset
  obtain ⟨old, hold, -, hrekey⟩ := mem_setsOf.1 hset
  obtain ⟨hnone, value, hopen, rfl⟩ := rekey_migrated hrekey
  obtain ⟨k, value', -, hsealed⟩ := h.stored table id old hold
  obtain ⟨rfl, rfl⟩ := (hsealed.open_iff laws.lawful).1 hopen
  refine ⟨old, value, hold, hsettings.legacy ▸ hsealed, ivs id, ?_⟩
  obtain hlegacy | hcurrent : cipher crypto table settings false = d.legacy crypto table ∨
      cipher crypto table settings false = d.current crypto table := hsettings.current
  · rw [hsettings.legacy, ← hlegacy, hnone] at hopen
    cases hopen
  · rw [hcurrent]

/-- **Step lemma.** -/
theorem Keyed.next (laws : crypto.Laws) (h : Keyed crypto d s) (hruns : d.Runs a)
    (hn : Secrets.next crypto s a = some s') : Keyed crypto d s' where
  ids table id hid := by
    obtain hold | hlt := next_ids hn hid
    · exact Nat.lt_of_lt_of_le (h.ids table id hold) (next_counters hn).1
    · exact hlt
  walkIds w hw := by
    have hle := (next_counters hn).2
    obtain hold | ⟨settings, ivs, dryRun, rfl, rfl⟩ | ⟨w₀, hw₀, -, ivs, checked, -, rfl⟩ := next_walk hn hw
    · exact Nat.lt_of_lt_of_le (h.walkIds w hold) hle
    · cases hn
      exact Nat.lt_succ_self _
    · exact Nat.lt_of_lt_of_le (h.walkIds w₀ hw₀) hle
  reportIds r hr := by
    have hle := (next_counters hn).2
    obtain ⟨n, report⟩ := r
    obtain hold | ⟨w, hw, rfl, -⟩ := next_report hn hr
    · exact Nat.lt_of_lt_of_le (h.reportIds _ hold) hle
    · exact Nat.lt_of_lt_of_le (h.walkIds w hw) hle
  settings w hw := by
    obtain hold | ⟨settings, ivs, dryRun, rfl, rfl⟩ | ⟨w₀, hw₀, -, ivs, checked, -, rfl⟩ := next_walk hn hw
    · exact h.settings w hold
    · exact hruns settings (.inr rfl)
    · exact h.settings w₀ hw₀
  stored table id token hstored := by
    obtain ⟨settings, iv, value, hwith, -, rfl⟩ | hleft | ⟨w, hw, -, -, hset | hold⟩ := next_stored hn hstored
    · exact ⟨_, value, (hruns settings (.inl hwith)).current, iv, rfl⟩
    · exact h.stored table id token hleft.1
    · obtain ⟨value, hsealed⟩ := h.sets w hw table id token hset
      exact ⟨_, value, .inr rfl, hsealed⟩
    · exact h.stored table id token hold.1
  sets w hw table id token hset := by
    obtain ⟨result, hresult, hmem⟩ := hset
    obtain ⟨w₀, hw₀, -, -, -, hold⟩ | ⟨-, ivs, rfl⟩ := next_sets hn hw hresult
    · exact h.sets w₀ hw₀ table id token ⟨result, hold, hmem⟩
    · have hsettings : d.Has w.settings := by
        obtain hold | ⟨settings, ivs, dryRun, rfl, rfl⟩ | ⟨w₀, hw₀, -, ivs, checked, -, rfl⟩ := next_walk hn hw
        · exact h.settings w hold
        · exact hruns settings (.inr rfl)
        · exact h.settings w₀ hw₀
      obtain ⟨-, value, -, -, hsealed⟩ := h.reads laws hsettings hmem
      exact ⟨value, hsealed⟩

/-! ## Where the values come from -/

/-- The row holds `value`, and so does what walks are about to set in it. -/
structure Settled (crypto : Crypto Key) (table : Table) (id : ℕ) (value : Str) (s : St) : Prop where
  stored : ∀ token, s.stored table id token → ∃ k, crypto.fernet.Sealed k value token
  sets : ∀ w ∈ s.walks, ∀ token, w.sets table id token → ∃ k, crypto.fernet.Sealed k value token

/-- A save that no walk holds the row under settles its value. -/
theorem Settled.save (h : Keyed crypto d s) (hn : Secrets.next crypto s a = some s') {table : Table} {id : ℕ}
    {value : Str} (hsaved : saved s a = some (table, id, value))
    (hfree : ∀ w ∈ s.walks, ∀ token, ¬w.sets table id token) : Settled crypto table id value s' where
  stored token hstored := by
    obtain ⟨settings, iv, value', -, hsaved', rfl⟩ | hleft | ⟨w, -, checked, rfl, -⟩ := next_stored hn hstored
    · cases hsaved.symm.trans hsaved'
      exact ⟨_, iv, rfl⟩
    · exact (h.left hleft hsaved).elim
    · cases hsaved
  sets w hw token hset := by
    obtain ⟨result, hresult, hmem⟩ := hset
    obtain ⟨w₀, hw₀, -, -, -, hold⟩ | ⟨hnone, -⟩ := next_sets hn hw hresult
    · exact (hfree w₀ hw₀ token ⟨result, hold, hmem⟩).elim
    · rw [hnone] at hsaved
      cases hsaved

/-- A settled value stays until another is saved. -/
theorem Settled.next (laws : crypto.Laws) (h : Keyed crypto d s) (hruns : d.Runs a)
    (hn : Secrets.next crypto s a = some s') {table : Table} {id : ℕ} {value : Str}
    (hsettled : Settled crypto table id value s) (hsaved : ∀ v, saved s a ≠ some (table, id, v)) :
    Settled crypto table id value s' where
  stored token hstored := by
    obtain ⟨settings, iv, value', -, hsaved', -⟩ | hleft | ⟨w, hw, -, -, hset | hold⟩ := next_stored hn hstored
    · exact absurd hsaved' (hsaved value')
    · exact hsettled.stored token hleft.1
    · exact hsettled.sets w hw token hset
    · exact hsettled.stored token hold.1
  sets w hw token hset := by
    obtain ⟨result, hresult, hmem⟩ := hset
    obtain ⟨w₀, hw₀, -, -, -, hold⟩ | ⟨-, ivs, rfl⟩ := next_sets hn hw hresult
    · exact hsettled.sets w₀ hw₀ token ⟨result, hold, hmem⟩
    · obtain ⟨old, value', hold, hlegacy, hcurrent⟩ := h.reads laws ((h.next laws hruns hn).settings w hw) hmem
      obtain ⟨k, hsealed⟩ := hsettled.stored old hold
      rw [hsealed.value_unique laws.lawful hlegacy] at hcurrent
      exact ⟨_, hcurrent⟩

/-- The last value that the steps saved in the row, at a time when no walk was
about to set it. -/
def LastSaved (table : Table) (id : ℕ) (value : Str) (ts : List (Step St Act)) : Prop :=
  ∃ past t rest, ts = past ++ t :: rest ∧ Saves table id value t ∧
    (∀ w ∈ t.pre.walks, ∀ token, ¬w.sets table id token) ∧ ∀ t' ∈ rest, ∀ v, ¬Saves table id v t'

structure Traced (crypto : Crypto Key) (d : Deployment) (ts : List (Step St Act)) (s : St) : Prop where
  keyed : Keyed crypto d s
  stored : ∀ table id token k value, s.stored table id token → crypto.fernet.Sealed k value token →
    Once (fun _ t => Saves table id value t) ts
  sets : ∀ w ∈ s.walks, ∀ table id token k value, w.sets table id token → crypto.fernet.Sealed k value token →
    Once (fun _ t => Saves table id value t) ts
  last : ∀ table id value, LastSaved table id value ts → Settled crypto table id value s

theorem Init.traced (h : Init s) : Traced crypto d [] s where
  keyed := h.keyed
  stored table id token k value hstored := by
    cases table with
    | llmSecrets => simp [St.stored, St.rows, St.secretRows, h.secrets] at hstored
    | identityProviders => simp [St.stored, St.rows, St.providerRows, h.providers] at hstored
  sets w hw := by
    rw [h.walks] at hw
    cases hw
  last table id value hlast := by
    obtain ⟨past, t, rest, heq, -⟩ := hlast
    simp at heq

/-- **Step lemma.** -/
theorem Traced.next (laws : crypto.Laws) (h : Traced crypto d ts s) (hruns : d.Runs a)
    (hn : Secrets.next crypto s a = some s') : Traced crypto d (ts ++ [⟨s, a, s'⟩]) s' where
  keyed := h.keyed.next laws hruns hn
  stored table id token k value hstored hsealed := by
    obtain ⟨settings, iv, value', -, hsaved, rfl⟩ | hleft | ⟨w, hw, -, -, hset | hold⟩ := next_stored hn hstored
    · obtain rfl := hsealed.value_unique laws.lawful ⟨iv, rfl⟩
      exact Once.now hsaved
    · exact (h.stored table id token k value hleft.1 hsealed).later _
    · exact (h.sets w hw table id token k value hset hsealed).later _
    · exact (h.stored table id token k value hold.1 hsealed).later _
  sets w hw table id token k value hset hsealed := by
    obtain ⟨result, hresult, hmem⟩ := hset
    obtain ⟨w₀, hw₀, -, -, -, hold⟩ | ⟨-, ivs, rfl⟩ := next_sets hn hw hresult
    · exact (h.sets w₀ hw₀ table id token k value ⟨result, hold, hmem⟩ hsealed).later _
    · obtain ⟨old, value', hold, hlegacy, hcurrent⟩ :=
        h.keyed.reads laws ((h.keyed.next laws hruns hn).settings w hw) hmem
      obtain rfl := hsealed.value_unique laws.lawful hcurrent
      exact (h.stored table id old _ _ hold hlegacy).later _
  last table id value hlast := by
    obtain ⟨past, t, rest, heq, hsaves, hfree, hlater⟩ := hlast
    obtain rfl | ⟨rest, u, rfl⟩ := List.eq_nil_or_concat rest
    · obtain ⟨rfl, hstep⟩ := List.append_inj' heq rfl
      obtain rfl := List.singleton_inj.1 hstep
      exact Settled.save h.keyed hn hsaves hfree
    · rw [List.concat_eq_append, ← List.cons_append, ← List.append_assoc] at heq
      obtain ⟨hts, hstep⟩ := List.append_inj' heq rfl
      obtain rfl := List.singleton_inj.1 hstep
      refine (h.last table id value ⟨past, t, rest, hts, hsaves, hfree, fun t' ht' => ?_⟩).next laws h.keyed hruns hn ?_
      · exact hlater t' (by simp [ht'])
      · exact hlater ⟨s, a, s'⟩ (by simp)

end

end

namespace Sample

/-- Each character of the key is written out, then the random number, then the
value. -/
def sealWith : Str → ℕ → Str → Str
  | [], iv, v => List.replicate iv 'i' ++ 'v' :: v
  | c :: k, iv, v => 'k' :: c :: sealWith k iv v

def open? : Str → Str → Option Str
  | [], token =>
    match token.dropWhile (· = 'i') with
    | 'v' :: v => some v
    | _ => none
  | c :: k, 'k' :: c' :: token => if c = c' then open? k token else none
  | _ :: _, _ => none

def crypto : Crypto Str := ⟨id, ⟨sealWith, open?⟩⟩

theorem dropWhile_sealed (iv : ℕ) (v : Str) :
    (List.replicate iv 'i' ++ 'v' :: v).dropWhile (· = 'i') = 'v' :: v := by
  induction iv with
  | zero => rfl
  | succ iv ih => simp [List.replicate_succ]

theorem opens (k : Str) (iv : ℕ) (v : Str) : open? k (sealWith k iv v) = some v := by
  induction k with
  | nil =>
    rw [sealWith, open?, dropWhile_sealed]
    rfl
  | cons c k ih => rw [sealWith, open?, if_pos rfl, ih]

theorem refuses (k k' : Str) (iv : ℕ) (v : Str) (h : k ≠ k') : open? k' (sealWith k iv v) = none := by
  induction k generalizing k' with
  | nil =>
    cases k' with
    | nil => exact absurd rfl h
    | cons c k' => cases iv <;> rfl
  | cons c k ih =>
    cases k' with
    | nil => rfl
    | cons c' k' =>
      rw [sealWith, open?]
      split
      · rename_i hc
        exact ih k' fun heq => h (by rw [hc, heq])
      · rfl

theorem laws : crypto.Laws where
  lawful := ⟨opens, refuses⟩
  nonempty k iv v := by
    cases k with
    | nil => cases iv <;> nofun
    | cons c k => nofun

def deployment : Deployment := ⟨"j".toList, "l".toList, "o".toList⟩

/-- Not yet with the independent secrets. -/
def before : Settings := ⟨"j".toList, none, none⟩

theorem has_before : deployment.Has before := ⟨rfl, nofun, nofun⟩

def first : St := ⟨0, [], [], [], 0, [], []⟩

theorem first_init : Init first := ⟨rfl, rfl, rfl, rfl, rfl⟩

/-- A secret is saved and assigned before the move. -/
def saves : List Act := [
  .createSecret before 1 7 ⟨"p".toList, "u".toList, some "sk".toList⟩,
  .upsertAssignment ⟨.completionFast, 0, "m".toList, none, none⟩]

/-- The rest of a walk, with a save between its reads. -/
def walk : List Act := [
  .createProvider deployment.settings 2 "idp".toList (some "cs".toList),
  .walkTurn 0 id true,
  .walkEnd 0 true]

def saved : St :=
  ⟨1, [⟨0, "p".toList, "u".toList, sealWith (cipher crypto .llmSecrets before false) 1 "sk".toList, 7⟩], [],
    [⟨.completionFast, 0, "m".toList, none, none⟩], 0, [], []⟩

def report : ReencryptionReport := ⟨⟨.llmSecrets, 1, 0, 1, 0, []⟩, ⟨.identityProviders, 1, 1, 0, 0, []⟩, false⟩

def moved : St :=
  ⟨2, [⟨0, "p".toList, "u".toList, sealWith "l".toList 0 "sk".toList, 7⟩],
    [⟨1, "idp".toList, some (sealWith "o".toList 2 "cs".toList)⟩],
    [⟨.completionFast, 0, "m".toList, none, none⟩], 1, [], [(0, report)]⟩

theorem saves_run : run (Secrets.next crypto) first saves = some saved := by rfl

theorem walk_run :
    run (Secrets.next crypto) saved (.walkStart deployment.settings id false :: walk) = some moved := by rfl

theorem saves_runs : ∀ a ∈ saves, deployment.Runs a := by
  intro a ha settings hwith
  simp only [saves, List.mem_cons, List.not_mem_nil, or_false] at ha
  obtain rfl | rfl := ha
  · simp only [Act.savesWith, Act.walksWith, Option.some.injEq, reduceCtorEq, or_false] at hwith
    exact hwith ▸ has_before
  · simp [Act.savesWith, Act.walksWith] at hwith

theorem walk_saves : ∀ a ∈ walk, ∀ settings, a.savesWith = some settings → settings = deployment.settings := by
  intro a ha settings hwith
  simp only [walk, List.mem_cons, List.not_mem_nil, or_false] at ha
  obtain rfl | rfl | rfl := ha
  · exact (Option.some.inj hwith).symm
  · cases hwith
  · cases hwith

theorem walk_runs : ∀ a ∈ walk, deployment.Runs a := by
  intro a ha settings hwith
  obtain hwith | hwith := hwith
  · rw [walk_saves a ha settings hwith]
    exact Deployment.has_settings
  · simp only [walk, List.mem_cons, List.not_mem_nil, or_false] at ha
    obtain rfl | rfl | rfl := ha <;> cases hwith

theorem all_runs : ∀ a ∈ saves ++ .walkStart deployment.settings id false :: walk, deployment.Runs a := by
  intro a ha
  obtain ha | ha := List.mem_append.1 ha
  · exact saves_runs a ha
  · obtain rfl | ha := List.mem_cons.1 ha
    · intro settings hwith
      obtain hwith | hwith := hwith
      · cases hwith
      · cases hwith
        exact Deployment.has_settings
    · exact walk_runs a ha

end Sample

section
variable {Key : Type} {crypto : Crypto Key} {s : St}

/-- **Stored secrets stay readable.** However requests of processes with and
without the independent secrets, walks, their dry runs and their deaths
interleave, every stored token opens under one of the two keys of its table and
no other, to a value that was saved for its row; and to the last one, if no walk
was about to set the row when it was saved. -/
theorem stored_secret_kept (laws : crypto.Laws) {d : Deployment} {s₀ : St} {as : List Act} (hinit : Init s₀)
    (hruns : ∀ a ∈ as, d.Runs a) (hrun : run (Secrets.next crypto) s₀ as = some s) {table : Table} {id : ℕ}
    {token : Str} (hstored : s.stored table id token) :
    ∃ k value, (k = d.legacy crypto table ∨ k = d.current crypto table) ∧
      (∀ k' value', crypto.fernet.open? k' token = some value' ↔ k' = k ∧ value' = value) ∧
      Once (fun _ t => Saves table id value t) (trace (Secrets.next crypto) s₀ as) ∧
      ∀ value', LastSaved table id value' (trace (Secrets.next crypto) s₀ as) → value = value' := by
  have htraced : Traced crypto d (trace (Secrets.next crypto) s₀ as) s :=
    @run_history_ok _ _ (Secrets.next crypto) (Traced crypto d) d.Runs
      (fun _ _ _ _ h hok hn => h.next laws hok hn) [] _ _ _ hinit.traced hruns hrun
  obtain ⟨k, value, hk, hsealed⟩ := htraced.keyed.stored table id token hstored
  refine ⟨k, value, hk, fun _ _ => hsealed.open_iff laws.lawful, ?_, fun value' hlast => ?_⟩
  · exact htraced.stored table id token k value hstored hsealed
  · obtain ⟨k', hsettled⟩ := (htraced.last table id value' hlast).stored token hstored
    exact hsettled.value_unique laws.lawful hsealed

end

theorem stored_secret_kept_sample :
    ∃ k, Sample.crypto.fernet.open? k (Sample.sealWith "l".toList 0 "sk".toList) = some "sk".toList ∧
      Once (fun _ t => Saves .llmSecrets 0 "sk".toList t) (trace (Secrets.next Sample.crypto) Sample.first
        (Sample.saves ++ .walkStart Sample.deployment.settings id false :: Sample.walk)) := by
  have hrun : run (Secrets.next Sample.crypto) Sample.first
      (Sample.saves ++ .walkStart Sample.deployment.settings id false :: Sample.walk) = some Sample.moved := rfl
  have hstored : Sample.moved.stored .llmSecrets 0 (Sample.sealWith "l".toList 0 "sk".toList) :=
    List.mem_singleton.2 rfl
  obtain ⟨k, value, -, hopen, honce, -⟩ :=
    stored_secret_kept Sample.laws Sample.first_init Sample.all_runs hrun hstored
  have hsealed : Sample.crypto.fernet.open? "l".toList (Sample.sealWith "l".toList 0 "sk".toList) = some "sk".toList :=
    Sample.opens _ _ _
  obtain ⟨-, rfl⟩ := (hopen _ _).1 hsealed
  exact ⟨_, hsealed, honce⟩

section
variable {Key : Type} {crypto : Crypto Key}

/-! ## The end of the move -/

section
variable {d : Deployment} {s s' : St} {a : Act}

/-- Roles are assigned to secrets that there are. -/
structure Assigned (s : St) : Prop where
  secrets : ∀ row ∈ s.assignments, ∃ secret ∈ s.secrets, secret.id = row.secretId
  fits : ∀ row ∈ s.assignments, row.fits

theorem fits_of_payloadErrors {payload : LLMModelAssignment} (h : payloadErrors payload = []) : payload.fits := by
  unfold payloadErrors at h
  unfold LLMModelAssignment.fits
  by_cases hrole : payload.role = .embedding
  · by_cases hdim : payload.embeddingDim = some embeddingDimDefault
    · cases heffort : payload.reasoningEffort <;> simp_all [embeddingDimDefault]
    · simp_all
  · by_cases hreasoning : payload.role = .completionReasoning
    · cases hdim : payload.embeddingDim <;> simp_all
    · cases hdim : payload.embeddingDim <;> cases heffort : payload.reasoningEffort <;> simp_all

/-- A secret that stays keeps its id. -/
theorem Assigned.mono (h : Assigned s) (hassignments : ∀ row ∈ s'.assignments, row ∈ s.assignments)
    (hsecrets : ∀ row ∈ s.assignments, ∀ secret ∈ s.secrets, secret.id = row.secretId →
      ∃ secret' ∈ s'.secrets, secret'.id = row.secretId) : Assigned s' where
  secrets row hrow := by
    obtain ⟨secret, hsecret, hid⟩ := h.secrets row (hassignments row hrow)
    exact hsecrets row (hassignments row hrow) secret hsecret hid
  fits row hrow := h.fits row (hassignments row hrow)

theorem Assigned.next (h : Assigned s) (hn : Secrets.next crypto s a = some s') : Assigned s' := by
  cases a with
  | createSecret settings iv actorId payload =>
    obtain rfl := createSecret_ok (except_ok hn)
    exact h.mono (fun _ => id) fun _ _ secret hsecret hid => ⟨secret, List.mem_append_left _ hsecret, hid⟩
  | updateSecret settings iv actorId secretId payload =>
    simp only [Secrets.next] at hn
    split at hn
    · cases hn
    obtain rfl := updateSecret_ok (except_ok hn)
    refine h.mono (fun _ => id) fun _ _ secret hsecret hid => ⟨_, List.mem_map_of_mem hsecret, ?_⟩
    split
    · exact hid
    · exact hid
  | deleteSecret secretId =>
    simp only [Secrets.next] at hn
    split at hn
    · cases hn
    obtain ⟨hroles, rfl⟩ := deleteSecret_ok (except_ok hn)
    refine h.mono (fun _ => id) fun row hrow secret hsecret hid => ⟨secret, List.mem_filter.2 ⟨hsecret, ?_⟩, hid⟩
    -- the secret of a row is in use, and is not the one deleted
    refine decide_eq_true fun heq => ?_
    have hmem : row.role ∈ s.rolesUsingSecret secretId :=
      List.mem_map_of_mem (List.mem_filter.2 ⟨hrow, by simp [← hid, heq]⟩)
    rw [hroles] at hmem
    cases hmem
  | upsertAssignment payload =>
    obtain ⟨herrors, hsecret, rfl⟩ := upsertAssignment_ok (except_ok hn)
    constructor
    · intro row hrow
      obtain rfl | hold := List.mem_cons.1 hrow
      · exact hsecret
      · exact h.secrets row (List.mem_of_mem_filter hold)
    · intro row hrow
      obtain rfl | hold := List.mem_cons.1 hrow
      · exact fits_of_payloadErrors herrors
      · exact h.fits row (List.mem_of_mem_filter hold)
  | clearAssignment role =>
    cases hn
    exact h.mono (fun _ => List.mem_of_mem_filter) fun _ _ secret hsecret hid => ⟨secret, hsecret, hid⟩
  | createProvider settings iv slug secret =>
    obtain rfl := createIdentityProvider_ok (except_ok hn)
    exact h.mono (fun _ => id) fun _ _ secret hsecret hid => ⟨secret, hsecret, hid⟩
  | updateProvider settings iv providerId secret =>
    obtain rfl := updateIdentityProvider_ok (except_ok hn)
    exact h.mono (fun _ => id) fun _ _ secret hsecret hid => ⟨secret, hsecret, hid⟩
  | deleteProvider providerId inUse =>
    obtain rfl := deleteIdentityProvider_ok (except_ok hn)
    exact h.mono (fun _ => id) fun _ _ secret hsecret hid => ⟨secret, hsecret, hid⟩
  | walkTurn walkId ivs checked =>
    simp only [Secrets.next] at hn
    split at hn
    · split at hn
      · cases hn
      · cases hn
        unfold St.walkTurn
        split
        · exact h.mono (fun _ => id) fun _ _ secret hsecret hid => ⟨secret, hsecret, hid⟩
        · exact h.mono (fun _ => id) fun _ _ secret hsecret hid => ⟨secret, hsecret, hid⟩
    · cases hn
  | walkEnd walkId checked =>
    simp only [Secrets.next] at hn
    split at hn
    · obtain ⟨oidc, -, rfl⟩ := Option.map_eq_some_iff.1 hn
      unfold St.walkEnd
      dsimp only
      split
      · exact h.mono (fun _ => id) fun _ _ secret hsecret hid => ⟨secret, hsecret, hid⟩
      · split
        · exact h.mono (fun _ => id) fun _ _ secret hsecret hid => ⟨_, List.mem_map_of_mem hsecret, hid⟩
        · exact h.mono (fun _ => id) fun _ _ secret hsecret hid => ⟨secret, hsecret, hid⟩
    · cases hn
  | _ =>
    cases hn
    exact h.mono (fun _ => id) fun _ _ secret hsecret hid => ⟨secret, hsecret, hid⟩

/-- Nothing is stored under the old keys. -/
def AllCurrent (crypto : Crypto Key) (d : Deployment) (s : St) : Prop :=
  ∀ table id token, s.stored table id token → ∃ value, crypto.fernet.Sealed (d.current crypto table) value token

/-- The walk `n` is about to set what it has read under an old key; once it has
reported, nothing is left there. -/
structure Covered (crypto : Crypto Key) (d : Deployment) (n : ℕ) (s : St) : Prop where
  keyed : Keyed crypto d s
  started : n < s.nextWalk
  walking : ∀ w ∈ s.walks, w.id = n → w.settings = d.settings ∧ w.dryRun = false ∧
    ∀ table result, w.result? table = some result → result.1.failed = 0 ∧
      ∀ id token, s.stored table id token →
        (∃ value, crypto.fernet.Sealed (d.current crypto table) value token) ∨ ∃ token', (id, token') ∈ result.2
  reported : ∀ report, (n, report) ∈ s.reports → report.hasFailures = false ∧ AllCurrent crypto d s

/-- What a walk under the new keys has read is there already, or is about to be
set: it fails nowhere. -/
theorem Keyed.covers (laws : crypto.Laws) (h : Keyed crypto d s) {ivs : ℕ → ℕ} {table : Table} :
    (reencryptTable crypto table d.settings ivs (s.rows table)).1.failed = 0 ∧
      ∀ id token, s.stored table id token → (∃ value, crypto.fernet.Sealed (d.current crypto table) value token) ∨
        ∃ token', (id, token') ∈ (reencryptTable crypto table d.settings ivs (s.rows table)).2 := by
  rw [reencryptTable_eq]
  constructor
  · rw [List.length_eq_zero_iff, List.eq_nil_iff_forall_not_mem]
    intro id hid
    obtain ⟨token, hstored, -, hfailed⟩ := mem_failedOf.1 hid
    obtain ⟨hnew, hold⟩ := rekey_failed_iff.1 hfailed
    obtain ⟨k, value, rfl | rfl, hsealed⟩ := h.stored table id token hstored
    · rw [show cipher crypto table d.settings true = d.legacy crypto table from rfl,
        hsealed.open_self laws.lawful] at hold
      cases hold
    · rw [show cipher crypto table d.settings false = d.current crypto table from rfl,
        hsealed.open_self laws.lawful] at hnew
      cases hnew
  · intro id token hstored
    obtain ⟨k, value, hk, hsealed⟩ := h.stored table id token hstored
    by_cases hcurrent : k = d.current crypto table
    · exact .inl ⟨value, hcurrent ▸ hsealed⟩
    · obtain rfl := hk.resolve_right hcurrent
      let token' := crypto.fernet.sealWith (d.current crypto table) (ivs id) value
      refine .inr ⟨token', mem_setsOf.2 ⟨token, hstored, ?_, ?_⟩⟩
      · obtain ⟨iv, rfl⟩ := hsealed
        exact laws.nonempty _ _ _
      · unfold rekey
        rw [show cipher crypto table d.settings false = d.current crypto table from rfl,
          show cipher crypto table d.settings true = d.legacy crypto table from rfl,
          hsealed.open_none laws.lawful (Ne.symm hcurrent), hsealed.open_self laws.lawful]

theorem Covered.start (laws : crypto.Laws) (h : Keyed crypto d s) {ivs : ℕ → ℕ}
    (hn : Secrets.next crypto s (.walkStart d.settings ivs false) = some s') : Covered crypto d s.nextWalk s' where
  keyed := h.next laws (fun _ hwith => by
    obtain hwith | hwith := hwith
    · cases hwith
    · cases hwith
      exact Deployment.has_settings) hn
  started := by
    cases hn
    exact Nat.lt_succ_self _
  walking w hw hid := by
    cases hn
    obtain rfl | hold := List.mem_cons.1 hw
    · refine ⟨rfl, rfl, fun table result hresult => ?_⟩
      cases table with
      | llmSecrets =>
        cases hresult
        exact h.covers laws
      | identityProviders => cases hresult
    · have hlt := h.walkIds w hold
      omega
  reported report hreport := by
    cases hn
    have hlt := h.reportIds _ hreport
    dsimp only at hlt
    omega

/-- Nothing new is stored under the old keys. -/
theorem Keyed.next_stored (h : Keyed crypto d s)
    (hsaves : ∀ settings, a.savesWith = some settings → settings = d.settings)
    (hn : Secrets.next crypto s a = some s') {table : Table} {id : ℕ} {token : Str}
    (hstored : s'.stored table id token) :
    (∃ value, crypto.fernet.Sealed (d.current crypto table) value token) ∨ s.stored table id token := by
  obtain ⟨settings, iv, value, hwith, -, rfl⟩ | hleft | ⟨w, hw, -, -, hset | hold⟩ := Secrets.next_stored hn hstored
  · obtain rfl := hsaves settings hwith
    exact .inl ⟨value, iv, rfl⟩
  · exact .inr hleft.1
  · exact .inl (h.sets w hw table id token hset)
  · exact .inr hold.1

/-- **Step lemma.** Saves are under the new keys. -/
theorem Covered.next (laws : crypto.Laws) {n : ℕ} (h : Covered crypto d n s) (hruns : d.Runs a)
    (hsaves : ∀ settings, a.savesWith = some settings → settings = d.settings)
    (hn : Secrets.next crypto s a = some s') : Covered crypto d n s' where
  keyed := h.keyed.next laws hruns hn
  started := Nat.lt_of_lt_of_le h.started (next_counters hn).2
  walking w hw hid := by
    have hw₀ : w.settings = d.settings ∧ w.dryRun = false := by
      obtain hold | ⟨settings, ivs, dryRun, rfl, rfl⟩ | ⟨w₀, hw₀, -, ivs, checked, -, rfl⟩ := next_walk hn hw
      · exact ⟨(h.walking w hold hid).1, (h.walking w hold hid).2.1⟩
      · exact absurd hid (Nat.ne_of_gt h.started)
      · exact ⟨(h.walking w₀ hw₀ hid).1, (h.walking w₀ hw₀ hid).2.1⟩
    refine ⟨hw₀.1, hw₀.2, fun table result hresult => ?_⟩
    have hcovers : result.1.failed = 0 ∧ ∀ id token, s.stored table id token →
        (∃ value, crypto.fernet.Sealed (d.current crypto table) value token) ∨ ∃ token', (id, token') ∈ result.2 := by
      obtain ⟨w₀, hmem, hid₀, -, -, hold⟩ | ⟨-, ivs, rfl⟩ := next_sets hn hw hresult
      · exact (h.walking w₀ hmem (hid₀.trans hid)).2.2 table result hold
      · rw [hw₀.1]
        exact h.keyed.covers laws
    refine ⟨hcovers.1, fun id token hstored => ?_⟩
    obtain hcurrent | hold := h.keyed.next_stored hsaves hn hstored
    · exact .inl hcurrent
    · exact hcovers.2 id token hold
  reported report hreport := by
    obtain hold | ⟨w, hw, hid, oidc, hoidc, rfl, hended⟩ := next_report hn hreport
    · obtain ⟨hfailures, hall⟩ := h.reported report hold
      refine ⟨hfailures, fun table id token hstored => ?_⟩
      exact (h.keyed.next_stored hsaves hn hstored).elim (fun hcurrent => hcurrent) (hall table id token)
    · obtain ⟨-, hdry, hcovers⟩ := h.walking w hw hid
      constructor
      · have hllm := (hcovers .llmSecrets w.llm rfl).1
        have hidp := (hcovers .identityProviders oidc hoidc).1
        simp [ReencryptionReport.hasFailures, hllm, hidp]
      · intro table id token hstored
        obtain hset | ⟨hold, hnone⟩ := hended hdry table id token hstored
        · exact h.keyed.sets w hw table id token hset
        · obtain ⟨result, hresult⟩ : ∃ result, w.result? table = some result := by
            cases table with
            | llmSecrets => exact ⟨w.llm, rfl⟩
            | identityProviders => exact ⟨oidc, hoidc⟩
          obtain hcurrent | ⟨token', hset⟩ := (hcovers table result hresult).2 id token hold
          · exact hcurrent
          · exact absurd ⟨result, hresult, hset⟩ (hnone token')

/-- Whoever reads under the new keys can. -/
theorem AllCurrent.resolve (laws : crypto.Laws) (h : AllCurrent crypto d s) (hassigned : Assigned s)
    {row : LLMModelAssignment} (hrow : row ∈ s.assignments) :
    ∃ client, s.resolve crypto d.settings row.role = .ok client := by
  unfold St.resolve
  split
  · rename_i hnone
    rw [List.find?_eq_none] at hnone
    exact absurd (decide_eq_true rfl) (hnone row hrow)
  · rename_i found hfind
    obtain ⟨secret, hsecret, hid⟩ := hassigned.secrets found (List.mem_of_find?_eq_some hfind)
    split
    · rename_i hnone
      rw [List.find?_eq_none] at hnone
      exact absurd hid (by simpa using hnone secret hsecret)
    · rename_i secret' hfind'
      obtain ⟨value, hsealed⟩ :=
        h .llmSecrets secret'.id _ ((St.stored_secret _).2 ⟨secret', List.mem_of_find?_eq_some hfind', rfl, rfl⟩)
      have hne : secret'.apiKeyEncrypted ≠ [] := by
        obtain ⟨iv, hseal⟩ := hsealed
        rw [hseal]
        exact laws.nonempty _ _ _
      have hopen := hsealed.open_self laws.lawful
      unfold decrypt
      rw [if_neg hne, show cipher crypto .llmSecrets d.settings false = d.current crypto .llmSecrets from rfl, hopen]
      exact ⟨_, rfl⟩

theorem AllCurrent.clientSecret (laws : crypto.Laws) (h : AllCurrent crypto d s) {provider : IdentityProvider}
    (hprovider : provider ∈ s.providers) : ∃ secret, St.clientSecret crypto d.settings provider = .ok secret := by
  unfold St.clientSecret
  split
  · exact ⟨none, rfl⟩
  · exact ⟨none, rfl⟩
  · rename_i token hne htoken
    obtain ⟨value, hsealed⟩ :=
      h .identityProviders provider.id token ((St.stored_provider _).2 ⟨provider, hprovider, rfl, htoken⟩)
    unfold decrypt
    rw [show cipher crypto .identityProviders d.settings false = d.current crypto .identityProviders from rfl,
      hsealed.open_self laws.lawful]
    exact ⟨some value, rfl⟩

/-- Another walk finds nothing to do. -/
theorem AllCurrent.reencrypt (laws : crypto.Laws) (h : AllCurrent crypto d s) (table : Table) (ivs : ℕ → ℕ) :
    reencryptTable crypto table d.settings ivs (s.rows table) =
      (⟨table, (s.rows table).length, (s.rows table).length, 0, 0, []⟩, []) := by
  have halready : ∀ id token, s.stored table id token →
      rekey crypto.fernet (cipher crypto table d.settings true) (cipher crypto table d.settings false) (ivs id) token =
        .already := by
    intro id token hstored
    obtain ⟨value, hsealed⟩ := h table id token hstored
    exact rekey_already_iff.2 ⟨value, hsealed.open_self laws.lawful⟩
  have hsets : setsOf crypto (cipher crypto table d.settings true) (cipher crypto table d.settings false) ivs
      (s.rows table) = [] := by
    refine List.eq_nil_iff_forall_not_mem.2 fun set hset => ?_
    obtain ⟨token, hstored, -, hrekey⟩ := mem_setsOf.1 (show (set.1, set.2) ∈ _ from hset)
    rw [halready set.1 token hstored] at hrekey
    cases hrekey
  have hfailed : failedOf crypto (cipher crypto table d.settings true) (cipher crypto table d.settings false) ivs
      (s.rows table) = [] := by
    refine List.eq_nil_iff_forall_not_mem.2 fun id hid => ?_
    obtain ⟨token, hstored, -, hrekey⟩ := mem_failedOf.1 hid
    rw [halready id token hstored] at hrekey
    cases hrekey
  have hcounts := @counts_add_up _ crypto (cipher crypto table d.settings true) (cipher crypto table d.settings false)
    ivs (s.rows table)
  rw [hsets, hfailed] at hcounts
  simp only [List.length_nil, Nat.add_zero] at hcounts
  rw [reencryptTable_eq]
  dsimp only
  rw [hsets, hfailed, hcounts]
  rfl

end

/-- **The move ends.** Let a walk start under the new settings that is no dry run,
in any reachable state, and from then on let processes save under the new
settings only, whatever other walks, under old or new settings, do meanwhile.
Once the walk has reported, no failure is in its report, nothing is stored under
the old keys, every assigned role resolves and every identity provider's secret
is read under the new settings, and another walk finds everything migrated. -/
theorem move_ends (laws : crypto.Laws) {d : Deployment} {s₀ s₁ s : St} {as₁ as₂ : List Act} {ivs : ℕ → ℕ}
    (hinit : Init s₀) (hruns₁ : ∀ a ∈ as₁, d.Runs a) (hrun₁ : run (Secrets.next crypto) s₀ as₁ = some s₁)
    (hruns₂ : ∀ a ∈ as₂, d.Runs a)
    (hsaves : ∀ a ∈ as₂, ∀ settings, a.savesWith = some settings → settings = d.settings)
    (hrun₂ : run (Secrets.next crypto) s₁ (.walkStart d.settings ivs false :: as₂) = some s)
    {report : ReencryptionReport} (hreport : (s₁.nextWalk, report) ∈ s.reports) :
    report.exitCode = 0 ∧ AllCurrent crypto d s ∧
      (∀ row ∈ s.assignments, row.fits ∧ ∃ client, s.resolve crypto d.settings row.role = .ok client) ∧
      (∀ provider ∈ s.providers, ∃ secret, St.clientSecret crypto d.settings provider = .ok secret) ∧
      ∀ table ivs, reencryptTable crypto table d.settings ivs (s.rows table) =
        (⟨table, (s.rows table).length, (s.rows table).length, 0, 0, []⟩, []) := by
  have hkeyed : Keyed crypto d s₁ := @run_inv _ _ (Secrets.next crypto) (Keyed crypto d) d.Runs
    (fun _ _ _ h hok hn => h.next laws hok hn) _ _ _ hinit.keyed hruns₁ hrun₁
  have hfirst : Assigned s₀ := by
    constructor
    · intro row hrow
      rw [hinit.assignments] at hrow
      cases hrow
    · intro row hrow
      rw [hinit.assignments] at hrow
      cases hrow
  have hassigned₁ : Assigned s₁ := @run_inv _ _ (Secrets.next crypto) Assigned (fun _ => True)
    (fun _ _ _ h _ hn => h.next hn) _ _ _ hfirst (fun _ _ => trivial) hrun₁
  have hassigned : Assigned s := @run_inv _ _ (Secrets.next crypto) Assigned (fun _ => True)
    (fun _ _ _ h _ hn => h.next hn) _ _ _ hassigned₁ (fun _ _ => trivial) hrun₂
  obtain ⟨s₂, hstart, hrun⟩ := run_next (Secrets.next crypto) hrun₂
  have hcovered : Covered crypto d s₁.nextWalk s :=
    @run_inv _ _ (Secrets.next crypto) (Covered crypto d s₁.nextWalk)
      (fun a => d.Runs a ∧ ∀ settings, a.savesWith = some settings → settings = d.settings)
      (fun _ _ _ h hok hn => h.next laws hok.1 hok.2 hn) _ _ _ (Covered.start laws hkeyed hstart)
      (fun a ha => ⟨hruns₂ a ha, hsaves a ha⟩) hrun
  obtain ⟨hfailures, hall⟩ := hcovered.reported report hreport
  refine ⟨?_, hall, fun row hrow => ⟨hassigned.fits row hrow, hall.resolve laws hassigned hrow⟩,
    fun provider hprovider => hall.clientSecret laws hprovider, fun table ivs => hall.reencrypt laws table ivs⟩
  unfold ReencryptionReport.exitCode
  rw [hfailures]
  rfl

end

theorem move_ends_sample :
    Sample.report.exitCode = 0 ∧
      ∃ client, Sample.moved.resolve Sample.crypto Sample.deployment.settings .completionFast = .ok client := by
  obtain ⟨hexit, -, hroles, -⟩ := move_ends Sample.laws (d := Sample.deployment) Sample.first_init Sample.saves_runs
    Sample.saves_run Sample.walk_runs Sample.walk_saves Sample.walk_run (List.mem_singleton.2 rfl)
  exact ⟨hexit, (hroles ⟨.completionFast, 0, "m".toList, none, none⟩ (List.mem_singleton.2 rfl)).2⟩

end Cograph.Secrets
