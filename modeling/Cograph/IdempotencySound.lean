import Cograph.ByKey
import Cograph.Idempotency

/-!
# One key, one repository

A key stands for one repository in a run just when no request arrives between
the creation of a repository and the storing of its answer.
-/

namespace Cograph.Idempotency

open Machine
open Pipeline (RepoSyncTriggerKind)

/-- What a step of a key's run shows: one repository at most, the created one
replayed to every request that is looked up, and no write after a 202. -/
structure OneRepository (t : Step St Request) : Prop where
  atMostOne : t.post.created.length ≤ 1
  replayed : ∀ body ∈ t.pre.created, t.act.refused = none → t.post.answers.head? = some (.accepted body)
  quiet : (∃ body, .accepted body ∈ t.pre.answers) → t.post.db = t.pre.db

def Db.claim (db : Db) (keyHash : String) : Option IdempotencyKey := db.idempotencyKeys.find? (·.keyHash = keyHash)

/-- The answer of the key's first request is stored. -/
def Db.completed (db : Db) (keyHash : String) : Bool := (db.claim keyHash).any (·.responsePayload.isSome)

/-- A request that is looked up after a repository was created finds the stored
answer, and its lookup does not fail. -/
def FindsAnswer (keyHash : String) (s : St) (q : Request) : Prop :=
  s.created ≠ [] → q.refused = none → q.fault ≠ some .lookup ∧ s.db.completed keyHash

/-! ## What a request leaves -/

inductive Handled (keyHash : String) (db : Db) (q : Request) : Outcome → Prop where
  | refused {status : Nat} {code : String} (h : q.refused ≠ none) :
      Handled keyHash db q ⟨db, none, .error status code⟩
  | failed {status : Nat} {code : String} (h : q.refused = none)
      (hf : q.fault = some .lookup ∨ ¬db.completed keyHash) : Handled keyHash db q ⟨db, none, .error status code⟩
  | replayed {k : IdempotencyKey} {body : RepositoryResponse} (hf : q.fault ≠ some .lookup)
      (hk : db.claim keyHash = some k) (hp : k.responsePayload = some body) :
      Handled keyHash db q ⟨db, none, .accepted body⟩
  | created {db' : Db} {body : RepositoryResponse} {answer : Answer} (h : q.refused = none)
      (hc : ¬db.completed keyHash)
      (hkeys : ∀ k, db'.claim keyHash = some k → ∀ p, k.responsePayload = some p → p = body)
      (hanswer : answer = .accepted body ∨ ∃ status code, answer = .error status code) :
      Handled keyHash db q ⟨db', some body, answer⟩

theorem refused_error {q : Request} {answer : Answer} (h : q.refused = some answer) :
    ∃ status code, answer = .error status code := by
  unfold Request.refused at h
  split at h
  · exact ⟨_, _, (Option.some.inj h).symm⟩
  · cases h
  · simp only [UploadForm.refused] at h
    split at h
    · exact ⟨_, _, (Option.some.inj h).symm⟩
    · split at h
      · exact ⟨_, _, (Option.some.inj h).symm⟩
      · split at h
        · cases h
        · exact ⟨_, _, (Option.some.inj h).symm⟩

section
variable {urlparse : Str → Option Str × Str}

theorem resolveHost_error {db : Db} {payload : CreateRepositoryRequest} {host : Str} {answer : Answer}
    (h : resolveHost urlparse db payload host = .error answer) : ∃ status code, answer = .error status code := by
  unfold resolveHost at h
  repeat' split at h
  all_goals
    cases h
    try exact ⟨_, _, rfl⟩

theorem createRow_error {db : Db} {payload : CreateRepositoryRequest} {head : Str} {uuid : Nat} {answer : Answer}
    (h : createRow urlparse db payload head uuid = .error answer) : ∃ status code, answer = .error status code := by
  unfold createRow at h
  split at h
  · cases h
    exact ⟨_, _, rfl⟩
  · split at h
    · cases h
      exact ⟨_, _, rfl⟩
    · rename_i slug _
      cases hr : resolveHost urlparse db payload slug.host with
      | ok hostId =>
        rw [hr] at h
        cases h
      | error e =>
        rw [hr] at h
        cases h
        exact resolveHost_error hr

theorem row_error {db : Db} {q : Request} {answer : Answer} (h : q.row urlparse db = .error answer) :
    ∃ status code, answer = .error status code := by
  unfold Request.row at h
  split at h
  · exact createRow_error h
  · unfold uploadRow at h
    split at h
    · cases h
      exact ⟨_, _, rfl⟩
    · cases h

theorem caught_error {p : Payload} {e : EnqueueError} {answer : Answer} (h : p.caught e = some answer) :
    ∃ status code, answer = .error status code := by
  unfold Payload.caught at h
  split at h <;> cases h <;> exact ⟨_, _, rfl⟩

/-! ## The key's row -/

theorem enqueue_keys (db : Db) (id : Nat) (trigger : RepoSyncTriggerKind) (o : Enqueue) :
    (enqueueRepositorySync db id trigger o).1.idempotencyKeys = db.idempotencyKeys := by
  unfold enqueueRepositorySync
  split
  · rfl
  · dsimp only
    split
    · rfl
    · split
      · rfl
      · rfl
      · rfl
      · split <;> rfl
      · rfl

theorem stale_kept {db : Db} {keyHash : String} {now : Nat}
    (hlive : ∀ k ∈ db.idempotencyKeys, k.keyHash = keyHash → k.stale now = false) :
    (db.idempotencyKeys.filter (! ·.stale now)).find? (·.keyHash = keyHash) = db.claim keyHash := by
  rw [List.find?_filter, Db.claim]
  apply List.find?_congr
  intro k hk
  by_cases hkey : k.keyHash = keyHash
  · simp [hkey, hlive k hk hkey]
  · simp [hkey]

theorem checkOrClaim_found {db : Db} {keyHash : String} {userId recordId now : Nat} {k : IdempotencyKey}
    (hlive : ∀ k ∈ db.idempotencyKeys, k.keyHash = keyHash → k.stale now = false)
    (hk : db.claim keyHash = some k) :
    checkOrClaim db keyHash userId recordId now =
      ({ db with idempotencyKeys := db.idempotencyKeys.filter (! ·.stale now) }, ⟨k.id, true, k.responsePayload⟩) := by
  rw [checkOrClaim, stale_kept hlive, hk]

theorem checkOrClaim_fresh {db : Db} {keyHash : String} {userId recordId now : Nat}
    (hlive : ∀ k ∈ db.idempotencyKeys, k.keyHash = keyHash → k.stale now = false)
    (hk : db.claim keyHash = none) :
    checkOrClaim db keyHash userId recordId now =
      ({ db with idempotencyKeys :=
          ⟨recordId, keyHash, userId, none, now⟩ :: db.idempotencyKeys.filter (! ·.stale now) },
        ⟨recordId, false, none⟩) := by
  rw [checkOrClaim, stale_kept hlive, hk]

/-- The claim the lookup leaves to be committed has the stored body of the row
it found, or none. -/
theorem checkOrClaim_claim {db : Db} {keyHash : String} {userId recordId now : Nat}
    (hlive : ∀ k ∈ db.idempotencyKeys, k.keyHash = keyHash → k.stale now = false) :
    ∃ k, (checkOrClaim db keyHash userId recordId now).1.claim keyHash = some k ∧
      k.id = (checkOrClaim db keyHash userId recordId now).2.recordId ∧
      k.responsePayload = (checkOrClaim db keyHash userId recordId now).2.payload := by
  cases hk : db.claim keyHash with
  | some k =>
    rw [checkOrClaim_found hlive hk]
    exact ⟨k, (stale_kept hlive).trans hk, rfl, rfl⟩
  | none =>
    rw [checkOrClaim_fresh hlive hk]
    exact ⟨⟨recordId, keyHash, userId, none, now⟩, List.find?_cons_of_pos (by simp), rfl, rfl⟩

theorem checkOrClaim_payload {db : Db} {keyHash : String} {userId recordId now : Nat}
    (hlive : ∀ k ∈ db.idempotencyKeys, k.keyHash = keyHash → k.stale now = false) :
    (checkOrClaim db keyHash userId recordId now).2.payload = (db.claim keyHash).bind (·.responsePayload) := by
  cases hk : db.claim keyHash with
  | some k => rw [checkOrClaim_found hlive hk]; rfl
  | none => rw [checkOrClaim_fresh hlive hk]; rfl

theorem markComplete_claim {db : Db} {keyHash : String} {k : IdempotencyKey} {body : RepositoryResponse}
    (hk : db.claim keyHash = some k) :
    (markComplete db k.id body).claim keyHash = some { k with responsePayload := some body } := by
  have hkeys : (fun k' : IdempotencyKey => decide (k'.keyHash = keyHash)) ∘
      (fun k' => if k'.id = k.id then { k' with responsePayload := some body } else k') =
        fun k' => decide (k'.keyHash = keyHash) := by
    funext k'
    simp only [Function.comp]
    split <;> rfl
  have hfind : db.idempotencyKeys.find? (·.keyHash = keyHash) = some k := hk
  rw [Db.claim, markComplete, List.find?_map, hkeys, hfind]
  simp

theorem completed_payload (db : Db) (keyHash : String) :
    db.completed keyHash = ((db.claim keyHash).bind (·.responsePayload)).isSome := by
  cases hk : db.claim keyHash <;> simp [Db.completed, hk]

/-! ## The routes -/

/-- The row is committed: the body of the repository is the one stored, if one
is, and the one answered with 202, if that is the answer. -/
theorem afterCommit_cases {keyHash : String} {q : Request} {record : IdempotencyRecord} {db : Db}
    {repository : Repository} {k : IdempotencyKey} (hk : db.claim keyHash = some k) (hid : k.id = record.recordId)
    (hp : k.responsePayload = none) :
    (afterCommit q record db repository).created = some (buildRepositoryResponse repository) ∧
    ((afterCommit q record db repository).answer = .accepted (buildRepositoryResponse repository) ∨
      ∃ status code, (afterCommit q record db repository).answer = .error status code) ∧
    ∀ k', (afterCommit q record db repository).db.claim keyHash = some k' → ∀ p, k'.responsePayload = some p →
      p = buildRepositoryResponse repository := by
  have hpending : ∀ {db' : Db}, db'.idempotencyKeys = db.idempotencyKeys → ∀ k', db'.claim keyHash = some k' →
      ∀ p, k'.responsePayload = some p → p = buildRepositoryResponse repository := by
    intro db' hkeys k' hk' p hp'
    rw [Db.claim, hkeys, ← Db.claim, hk] at hk'
    cases hk'
    rw [hp] at hp'
    cases hp'
  unfold afterCommit
  dsimp only
  split
  · exact ⟨rfl, .inr ⟨_, _, rfl⟩, hpending rfl⟩
  · split
    · rename_i db' e message ho
      have hkeys : db'.idempotencyKeys = db.idempotencyKeys := by
        rw [← enqueue_keys db repository.id _ q.enqueue, ho]
      split
      · exact ⟨rfl, .inr ⟨_, _, rfl⟩, hpending hkeys⟩
      · rename_i answer hanswer
        split
        · exact ⟨rfl, .inr ⟨_, _, rfl⟩, hpending hkeys⟩
        · exact ⟨rfl, .inr (caught_error hanswer), hpending hkeys⟩
    · rename_i db' ho
      have hkeys : db'.idempotencyKeys = db.idempotencyKeys := by
        rw [← enqueue_keys db repository.id _ q.enqueue, ho]
      split
      · exact ⟨rfl, .inl rfl, hpending hkeys⟩
      · split
        · exact ⟨rfl, .inr ⟨_, _, rfl⟩, hpending hkeys⟩
        · refine ⟨rfl, .inl rfl, ?_⟩
          have hk'' : db'.claim keyHash = some k := by rw [Db.claim, hkeys, ← Db.claim, hk]
          intro k' hk' p hp'
          rw [← hid, markComplete_claim hk''] at hk'
          cases hk'
          exact (Option.some.inj hp').symm

theorem handle_cases {keyHash : String} {userId : Nat} {db : Db} {q : Request}
    (hlive : ∀ k ∈ db.idempotencyKeys, k.keyHash = keyHash → k.stale q.now = false) :
    Handled keyHash db q (handle urlparse keyHash userId db q) := by
  unfold handle
  split
  · rename_i answer h
    obtain ⟨status, code, rfl⟩ := refused_error h
    exact .refused (by simp [h])
  · rename_i h
    split
    · rename_i hf
      exact .failed h (.inl hf)
    · rename_i hf
      have hpayload := @checkOrClaim_payload db keyHash userId q.recordId q.now hlive
      obtain ⟨k, hk, hid, hp⟩ := @checkOrClaim_claim db keyHash userId q.recordId q.now hlive
      generalize checkOrClaim db keyHash userId q.recordId q.now = c at hpayload hk hid hp ⊢
      obtain ⟨claimed, record⟩ := c
      dsimp only at hpayload hk hid hp ⊢
      split
      · rename_i body hbody
        rw [hbody] at hpayload
        obtain ⟨row, hrow, hrowp⟩ := Option.bind_eq_some_iff.mp hpayload.symm
        exact .replayed hf hrow hrowp
      · rename_i hnone
        have hc : ¬db.completed keyHash := by
          rw [completed_payload, ← hpayload, hnone]
          simp
        split
        · rename_i answer hanswer
          obtain ⟨status, code, rfl⟩ := row_error hanswer
          exact .failed h (.inr hc)
        · rename_i repository _
          split
          · exact .failed h (.inr hc)
          · split
            · exact .failed h (.inr hc)
            · have hk' : ({ claimed with repositories := repository :: claimed.repositories } : Db).claim keyHash =
                  some k := hk
              obtain ⟨hcreated, hanswer, hkeys⟩ :=
                @afterCommit_cases keyHash q record _ repository _ hk' hid (hp.trans hnone)
              generalize afterCommit q record { claimed with repositories := repository :: claimed.repositories }
                repository = o at hcreated hanswer hkeys ⊢
              obtain ⟨db', created, answer⟩ := o
              cases hcreated
              exact .created h hc hkeys hanswer

end

/-! ## Runs -/

structure Inv (keyHash : String) (s : St) : Prop where
  one : s.created.length ≤ 1
  stored : ∀ k, s.db.claim keyHash = some k → ∀ body, k.responsePayload = some body → s.created = [body]
  answered : (∃ body, .accepted body ∈ s.answers) → s.created ≠ []

theorem Inv.init {keyHash : String} {db : Db} (h : ∀ k ∈ db.idempotencyKeys, k.keyHash ≠ keyHash) :
    Inv keyHash (.init db) where
  one := by simp [St.init]
  stored k hk := by
    rw [Db.claim] at hk
    obtain ⟨hmem, hkey⟩ := ByKey.find_mem hk
    exact absurd hkey (h k hmem)
  answered := by simp [St.init]

section
variable {sha256 : String → String} {urlparse : Str → Option Str × Str} {rawKey : String} {userId : Nat}

theorem next_cases {s s' : St} {q : Request} (h : next sha256 urlparse rawKey userId s q = some s') :
    ∃ o, Handled (deriveKey sha256 rawKey userId) s.db q o ∧
      s' = ⟨o.db, o.created.toList ++ s.created, o.answer :: s.answers⟩ := by
  unfold next at h
  split at h
  · cases h
  · rename_i hlive
    have hlive' : ∀ k ∈ s.db.idempotencyKeys, k.keyHash = deriveKey sha256 rawKey userId → k.stale q.now = false := by
      simpa using hlive
    exact ⟨_, handle_cases hlive', (Option.some.inj h).symm⟩

/-- **One request.** It keeps the key to one repository just when it finds the
stored answer, should there be a repository already. -/
theorem oneRepository_iff {s s' : St} {q : Request} (hs : Inv (deriveKey sha256 rawKey userId) s)
    (h : next sha256 urlparse rawKey userId s q = some s') :
    OneRepository ⟨s, q, s'⟩ ↔ FindsAnswer (deriveKey sha256 rawKey userId) s q := by
  obtain ⟨o, ho, rfl⟩ := next_cases h
  constructor
  · intro hone hcreated hq
    obtain ⟨body, hbody⟩ := List.exists_mem_of_ne_nil _ hcreated
    have hanswer := hone.replayed body hbody hq
    cases ho with
    | refused hr => exact absurd hq hr
    | failed _ hf => simp at hanswer
    | replayed hf hk hp => exact ⟨hf, by simp [completed_payload, hk, hp]⟩
    | created _ _ _ _ =>
      have htwo := hone.atMostOne
      have hpos := List.length_pos_iff.mpr hcreated
      simp only [Option.toList_some, List.singleton_append, List.length_cons] at htwo
      omega
  · intro hfinds
    have hquiet : s.created = [] → ¬∃ body, .accepted body ∈ s.answers := fun hnil hacc => hs.answered hacc hnil
    cases ho with
    | refused hr => exact ⟨hs.one, fun _ _ hq => absurd hq hr, fun _ => rfl⟩
    | failed hq hf =>
      have hnil : s.created = [] := by
        by_contra hne
        obtain ⟨hlook, hdone⟩ := hfinds hne hq
        exact hf.elim hlook (· hdone)
      refine ⟨hs.one, ?_, fun hacc => absurd hacc (hquiet hnil)⟩
      simp [hnil]
    | replayed hf hk hp =>
      have hbody := hs.stored _ hk _ hp
      refine ⟨hs.one, ?_, fun _ => rfl⟩
      simp [hbody]
    | created hq hc hkeys hanswer =>
      have hnil : s.created = [] := by
        by_contra hne
        exact hc (hfinds hne hq).2
      refine ⟨?_, ?_, fun hacc => absurd hacc (hquiet hnil)⟩
      · simp [hnil]
      · simp [hnil]

theorem inv_step {s s' : St} {q : Request} (hs : Inv (deriveKey sha256 rawKey userId) s)
    (h : next sha256 urlparse rawKey userId s q = some s') (hone : OneRepository ⟨s, q, s'⟩) :
    Inv (deriveKey sha256 rawKey userId) s' := by
  obtain ⟨o, ho, rfl⟩ := next_cases h
  have herror : ∀ {status : Nat} {code : String}, (∃ body, .accepted body ∈ Answer.error status code :: s.answers) →
      s.created ≠ [] := by
    intro status code hacc
    obtain ⟨body, hbody⟩ := hacc
    exact hs.answered ⟨body, (List.mem_cons.mp hbody).resolve_left (by simp)⟩
  cases ho with
  | refused _ => exact ⟨hs.one, hs.stored, herror⟩
  | failed _ _ => exact ⟨hs.one, hs.stored, herror⟩
  | replayed _ hk hp => exact ⟨hs.one, hs.stored, fun _ => by simp [hs.stored _ hk _ hp]⟩
  | created _ _ hkeys _ =>
    have hnil : s.created = [] := by
      have := hone.atMostOne
      simpa using this
    refine ⟨hone.atMostOne, ?_, fun _ => by simp⟩
    intro k hk body hbody
    simp [hnil, hkeys k hk body hbody]

/-- **Idempotency, exactly.** Over a run of requests with one key, the key
stands for one repository just when no request is looked up after a repository
was created and before its answer is stored, or fails in the lookup then. -/
theorem one_repository_iff {db : Db} (hfresh : ∀ k ∈ db.idempotencyKeys, k.keyHash ≠ deriveKey sha256 rawKey userId)
    (qs : List Request) :
    (∀ t ∈ trace (next sha256 urlparse rawKey userId) (.init db) qs, OneRepository t) ↔
      ∀ t ∈ trace (next sha256 urlparse rawKey userId) (.init db) qs,
        FindsAnswer (deriveKey sha256 rawKey userId) t.pre t.act := by
  have hiff : ∀ s q s', Inv (deriveKey sha256 rawKey userId) s → next sha256 urlparse rawKey userId s q = some s' →
      (OneRepository ⟨s, q, s'⟩ ↔ FindsAnswer (deriveKey sha256 rawKey userId) s q) :=
    fun _ _ _ hs h => oneRepository_iff hs h
  have hstep : ∀ s q s', Inv (deriveKey sha256 rawKey userId) s → next sha256 urlparse rawKey userId s q = some s' →
      OneRepository ⟨s, q, s'⟩ → Inv (deriveKey sha256 rawKey userId) s' :=
    fun _ _ _ hs h hone => inv_step hs h hone
  exact trace_iff _ hiff hstep (Inv.init hfresh)

end

/-- `urlparse` on an HTTPS URL without port or query. -/
def httpsParts (url : Str) : Option Str × Str :=
  (some ((url.drop 8).takeWhile (· ≠ '/')), (url.drop 8).dropWhile (· ≠ '/'))

def post (gitUrl : String) (uuid : Nat) (enqueue : Enqueue) : Request where
  rejected := none
  payload := .create ⟨gitUrl.toList, some "main".toList, none, none, none, none⟩ []
  now := 0
  uuid
  recordId := uuid
  enqueue
  fault := none

def queued : Enqueue := .queued "main".toList "abc".toList true

/-- Two requests with the key, the second with another URL. -/
def retried : List Request :=
  [post "https://github.com/owner/repo" 0 queued, post "https://github.com/owner/other" 1 queued]

theorem retried_one_repository :
    (run (next id httpsParts "key" 7) (.init ⟨[], [], [], []⟩) retried).isSome ∧
      ∀ t ∈ trace (next id httpsParts "key" 7) (.init ⟨[], [], [], []⟩) retried, OneRepository t := by
  refine ⟨by decide +kernel, (one_repository_iff (by simp) retried).mpr ((along_iff _).mp ?_)⟩
  exact ⟨fun h => absurd rfl h, fun _ _ => ⟨by decide +kernel, by decide +kernel⟩, trivial⟩

/-- The queue is down for the first request; the retry has another URL. -/
theorem retry_creates_another : ¬∀ (sha256 : String → String) (urlparse : Str → Option Str × Str) (rawKey : String)
    (userId : Nat) (db : Db) (qs : List Request),
    (∀ k ∈ db.idempotencyKeys, k.keyHash ≠ deriveKey sha256 rawKey userId) →
      ∀ t ∈ trace (next sha256 urlparse rawKey userId) (.init db) qs, OneRepository t := by
  intro h
  have hmem := @trace_last _ _ (next id httpsParts "key" 7) (.init ⟨[], [], [], []⟩) _ _
    [post "https://github.com/owner/repo" 0 (.failed .jobEnqueue "down".toList true)]
    (post "https://github.com/owner/other" 1 queued) rfl rfl
  have hone := (h id httpsParts "key" 7 _ _ (by simp) _ hmem).atMostOne
  exact absurd hone (by decide +kernel)

end Cograph.Idempotency
