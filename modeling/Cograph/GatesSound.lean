import Cograph.CoverageSound
import Cograph.Gates

/-!
# What a page ships with

The citation loop ends with a body whose citations stand. The coverage loop may
put a reply of its own in that body's place, and nothing looks at the citations
of that reply again.
-/

namespace Cograph.Wiki

/-! ## The citation loop -/

section
variable (calls : Nat → RepairCall)

/-- What is rejected at the end was read off the text at the end, with no more
evidence than there is now. -/
theorem repairCitations_spec (left attempt : Nat) (d : Draft) (invalid : List InvalidCitation)
    (h : ∃ l, l.records ⊆ d.ledger.records ∧ invalid = validateCitations d.body l .pre) :
    let out := repairCitations calls left attempt d invalid
    ∃ l, l.records ⊆ out.1.ledger.records ∧ out.2 = validateCitations out.1.body l .pre := by
  induction left generalizing attempt d invalid with
  | zero => exact h
  | succ left ih =>
    simp only [repairCitations]
    split
    · exact h
    · cases hr : (calls attempt).reply with
      | none =>
        obtain ⟨l, hl, hi⟩ := h
        exact ⟨l, List.Subset.trans hl (recordAll_subset _ _), hi⟩
      | some r => exact ih _ _ _ ⟨_, List.Subset.refl _, rfl⟩

theorem citationRepairs_spec (d : Draft) : ∃ l, l.records ⊆ (citationRepairs calls d).1.ledger.records ∧
    (citationRepairs calls d).2 = validateCitations (citationRepairs calls d).1.body l .pre :=
  repairCitations_spec calls _ _ d _ ⟨_, List.Subset.refl _, rfl⟩

theorem runCitationGateLoop_stands (d : Draft)
    (h : Unwraps (citationRepairs calls d).1.body (citationRepairs calls d).2) :
    let out := (runCitationGateLoop calls d).1
    (∀ m ∈ cites out.body, Stands out.ledger .pre m = true) ∧
      (Tame (citationRepairs calls d).1.body → Tame out.body) := by
  obtain ⟨l, hl, hi⟩ := citationRepairs_spec calls d
  simp only [runCitationGateLoop]
  split
  · rename_i hnil
    rw [hi] at hnil
    exact ⟨fun m hm => stands_mono hl (validateCitations_nil.1 hnil m hm), id⟩
  · rw [hi] at h ⊢
    obtain ⟨hc, ht⟩ := stripInvalidCitations_cites h
    refine ⟨fun m hm => ?_, ht⟩
    rw [hc, List.mem_filter] at hm
    exact stands_mono hl hm.2

end

/-! ## The coverage loop -/

section
variable (covers : List ReaderQuestion) (calls : Nat → RepairCall)

/-- The reply the coverage loop puts in place of the body. -/
def keptReply (d : Draft) : Option Str :=
  let body := ensureInferredAnswerMarkers d.body covers d.ledger
  if covers = [] ∨ (validateCoverage body covers d.ledger).isClean then none
  else ((calls 0).reply.map Reply.repaired).filter (· ≠ [])

/-- What ships of a kept reply: the fallback takes its forbidden sections out. -/
def shippedPart (reply : Str) (ledger : Ledger) : Str :=
  let body := ensureInferredAnswerMarkers reply covers ledger
  if (validateCoverage body covers ledger).hasForbiddenSection then stripForbiddenSections body else reply

theorem stripToShip_cites {body : Str} (h : Tame body) (result : CoverageResult) :
    cites (stripToShip body result) =
      cites (if result.hasForbiddenSection then stripForbiddenSections body else body) := by
  have ht : Tame (if result.hasForbiddenSection then stripForbiddenSections body else body) := by
    split
    · exact (stripForbiddenSections_cites h).2
    · exact h
  simp only [stripToShip]
  by_cases hm : result.markersWithoutGrounding = []
  · rw [if_pos hm]
  · rw [if_neg hm]
    exact (stripUnansweredMarkers_cites ht _).1

theorem stripToShip_subset {body : Str} (h : Tame body) (result : CoverageResult) :
    cites (stripToShip body result) ⊆ cites body := by
  rw [stripToShip_cites h]
  split
  · exact (stripForbiddenSections_cites h).1
  · exact List.Subset.refl _

theorem repairCoverage_own {d : Draft} (hc : covers ≠ []) (hk : keptReply covers calls d = none) :
    let body := ensureInferredAnswerMarkers d.body covers d.ledger
    let out := repairCoverage covers calls coverageGateMaxRepairs 0 ⟨body, d.ledger⟩
      (validateCoverage body covers d.ledger)
    out.1.body = body ∧ d.ledger.records ⊆ out.1.ledger.records := by
  simp only [keptReply, hc, false_or] at hk
  simp only [coverageGateMaxRepairs, repairCoverage]
  by_cases hclean : (validateCoverage (ensureInferredAnswerMarkers d.body covers d.ledger) covers d.ledger).isClean = true
  · rw [if_pos hclean]
    exact ⟨rfl, List.Subset.refl _⟩
  · rw [if_neg hclean] at hk ⊢
    cases hr : (calls 0).reply with
    | none => exact ⟨rfl, recordAll_subset _ _⟩
    | some r =>
      have hblank : r.repaired = [] := by simpa [hr] using hk
      simp only [hblank, if_true]
      exact ⟨trivial, recordAll_subset _ _⟩

theorem repairCoverage_kept {d : Draft} {reply : Str} (hk : keptReply covers calls d = some reply) :
    let body := ensureInferredAnswerMarkers d.body covers d.ledger
    let ledger := d.ledger.recordAll (calls 0).evidence
    let new := ensureInferredAnswerMarkers reply covers ledger
    covers ≠ [] ∧ repairCoverage covers calls coverageGateMaxRepairs 0 ⟨body, d.ledger⟩
      (validateCoverage body covers d.ledger) = (⟨new, ledger⟩, validateCoverage new covers ledger) := by
  simp only [keptReply] at hk
  split at hk
  · simp at hk
  · rename_i h
    obtain ⟨hc, hclean⟩ := not_or.1 h
    refine ⟨hc, ?_⟩
    simp only [coverageGateMaxRepairs, repairCoverage]
    rw [if_neg hclean]
    cases hr : (calls 0).reply with
    | none => simp [hr] at hk
    | some r =>
      simp only [hr, Option.map_some, Option.filter_eq_some_iff, Option.some.injEq, decide_eq_true_eq] at hk
      obtain ⟨rfl, hne⟩ := hk
      simp [hne]

theorem runCoverageGateLoop_own {d : Draft} (status : QualityStatus) (hk : keptReply covers calls d = none)
    (ht : covers ≠ [] → Tame d.body) :
    cites (runCoverageGateLoop covers calls d status).1.body ⊆ cites d.body ∧
      d.ledger.records ⊆ (runCoverageGateLoop covers calls d status).1.ledger.records := by
  by_cases hc : covers = []
  · simp [runCoverageGateLoop, hc]
  · obtain ⟨hb, htb⟩ := ensureInferredAnswerMarkers_cites (ht hc) covers d.ledger
    obtain ⟨hbody, hl⟩ := repairCoverage_own covers calls hc hk
    simp only [runCoverageGateLoop, if_neg hc]
    split
    · rw [hbody, hb]
      exact ⟨List.Subset.refl _, hl⟩
    · refine ⟨?_, hl⟩
      simp only [hbody]
      rw [← hb]
      exact stripToShip_subset htb _

theorem runCoverageGateLoop_kept {d : Draft} {reply : Str} (status : QualityStatus)
    (hk : keptReply covers calls d = some reply) (ht : Tame reply) :
    let out := (runCoverageGateLoop covers calls d status).1
    cites out.body = cites (shippedPart covers reply out.ledger) := by
  obtain ⟨hc, hrep⟩ := repairCoverage_kept covers calls hk
  obtain ⟨hb, htb⟩ := ensureInferredAnswerMarkers_cites ht covers (d.ledger.recordAll (calls 0).evidence)
  simp only [runCoverageGateLoop, if_neg hc, hrep]
  split
  · rename_i hclean
    have hf : (validateCoverage (ensureInferredAnswerMarkers reply covers (d.ledger.recordAll (calls 0).evidence)) covers
        (d.ledger.recordAll (calls 0).evidence)).hasForbiddenSection = false := by
      simp only [CoverageResult.isClean, decide_eq_true_eq] at hclean
      simpa using hclean.2
    simp [shippedPart, hf, hb]
  · simp only [shippedPart]
    rw [stripToShip_cites htb]
    split
    · rfl
    · exact hb

end

/-! ## Both loops -/

/-- The texts the loops cut are closed where they are cut: what the citation
loop unwraps where its text ships, and the lines of the text the coverage loop
works on. -/
def Smooth (covers : List ReaderQuestion) (citationCalls coverageCalls : Nat → RepairCall) (d : Draft) : Prop :=
  match keptReply covers coverageCalls (runCitationGateLoop citationCalls d).1 with
  | some reply => Tame reply
  | none =>
    let (last, invalid) := citationRepairs citationCalls d
    Unwraps last.body invalid ∧ (covers ≠ [] → Tame last.body)

def noCall : Nat → RepairCall := fun _ => ⟨[], none⟩

def oneReply (es : List EvidenceRecord) (text : Str) : Nat → RepairCall := fun _ => ⟨es, some ⟨none, text⟩⟩

end Cograph.Wiki
