import Cograph.GoBuildSound

/-!
# The value of a build constraint under every assignment

An expression whose evaluation ends has the Kleene value of its tree, so a
definite answer is the two-valued one however the selectors that the profile
does not model are decided.
-/

namespace Cograph.GoVariants

open Kleene

section
variable {profile : GoIndexProfile} {s : Str} {f : Formula Str}

/-- The expression read to its end, when the reading ends at all. -/
theorem derives_value {ts : List Str} {v : TruthValue} (hf : Derives .or ts f)
    (h : evaluateTokens profile ts = .ok v) : v.known = treeValue profile f := by
  rw [evaluateTokens, if_neg (derives_ne_nil hf)] at h
  rcases derives_parsed profile hf [] with ⟨name, hopen⟩ | hhead | ⟨w, hw, hrun⟩
  · rw [List.append_nil] at hopen
    change (parseExpression profile).run ts = _ at hopen
    rw [hopen] at h
    cases h
  · simp at hhead
  · rw [List.append_nil, loop_stop (by simp)] at hrun
    change (parseExpression profile).run ts = _ at hrun
    rw [hrun] at h
    cases h
    exact hw

theorem generated_value {v : TruthValue} (hf : Generated s f) (h : evaluateBuildExpression profile s = .ok v) :
    v.known = treeValue profile f := by
  cases ht : tokenize s with
  | error e =>
    rw [evaluateBuildExpression, ht] at h
    cases h
  | ok ts =>
    have heval : evaluateBuildExpression profile s = evaluateTokens profile ts := by
      rw [evaluateBuildExpression, ht]
      rfl
    apply derives_value
    · exact (generated_cut (tokenize_ok.1 ht) f).1 hf
    · rw [← heval]
      exact h

/-- The two-valued reading of identifiers: those the profile decides, and the
others as `unknown` says. -/
def assigned (profile : GoIndexProfile) (unknown : Str → Bool) (x : Str) : Bool :=
  completed (fun x => (evaluateIdentifier profile x).known) unknown x

theorem holds_of_value {v : TruthValue} {b : Bool} (hf : Generated s f)
    (h : evaluateBuildExpression profile s = .ok v) (hv : v.known = some b) (unknown : Str → Bool) :
    f.holds (assigned profile unknown) = b := by
  rw [generated_value hf h] at hv
  exact Formula.value_sound _ unknown f b hv

end

/-- **A definite value of a build constraint is its two-valued value**, whatever
the unknown selectors are, and an expression and its negation are not both
true. -/
theorem build_value_sound :
    (∀ (profile : GoIndexProfile) (s : Str) (f : Formula Str), Generated s f → ∀ unknown : Str → Bool,
      (evaluateBuildExpression profile s = .ok .true → f.holds (assigned profile unknown) = true) ∧
      (evaluateBuildExpression profile s = .ok .false → f.holds (assigned profile unknown) = false)) ∧
    ∀ (profile : GoIndexProfile) (s s' : Str) (f : Formula Str), Generated s f → Generated s' (.not f) →
      ¬(evaluateBuildExpression profile s = .ok .true ∧ evaluateBuildExpression profile s' = .ok .true) := by
  constructor
  · intro profile s f hf unknown
    constructor
    · intro h
      exact holds_of_value hf h rfl unknown
    · intro h
      exact holds_of_value hf h rfl unknown
  · intro profile s s' f hf hnot hboth
    have htrue := holds_of_value hf hboth.1 rfl fun _ => true
    have hfalse := holds_of_value hnot hboth.2 rfl fun _ => true
    simp [Formula.holds, htrue] at hfalse

theorem build_value_sound_or :
    (Formula.or (.atom "linux".toList) (.atom "gc".toList)).holds (assigned canonical fun _ => false) = true ∧
      ¬(evaluateBuildExpression canonical "linux".toList = .ok .true ∧
        evaluateBuildExpression canonical "!linux".toList = .ok .true) := by
  have hlinux : Ident "linux".toList := ⟨by simp, by simp [isWord]⟩
  have hgc : Ident "gc".toList := ⟨by simp, by simp [isWord]⟩
  have htree : Derives .or (["linux", "||", "gc"].map String.toList) (.or (.atom "linux".toList) (.atom "gc".toList)) :=
    .or (.conj (.unary (.ident hlinux))) (.unary (.ident hgc))
  have htokens : tokenize "linux || gc".toList = .ok (["linux", "||", "gc"].map String.toList) := by decide
  have hvalue : evaluateBuildExpression canonical "linux || gc".toList = .ok .true := by
    have hplain : Plain (["linux", "||", "gc"].map String.toList) := by
      refine ⟨by decide, ?_⟩
      intro ops h
      cases h
      simpa using ⟨hlinux, hgc⟩
    obtain ⟨v, hv, hk⟩ := ((right_iff canonical _).2 hplain).1 _ htree
    have htrue : v.known = some true := hk.trans (by decide)
    rw [evaluateBuildExpression, htokens]
    cases v with
    | true => exact hv
    | false | unknown => simp [TruthValue.known] at htrue
  have hor := (generated_cut (tokenize_ok.1 htokens) _).2 htree
  have hpos : Generated "linux".toList (.atom "linux".toList) :=
    ⟨_, .conj (.unary (.ident hlinux)), cut_spelled (tokenize_ok.1 (by decide))⟩
  constructor
  · exact (build_value_sound.1 canonical _ _ hor fun _ => false).1 hvalue
  · apply build_value_sound.2 canonical _ _ _ hpos
    exact ⟨_, .conj (.unary (.not (.ident hlinux))), cut_spelled (tokenize_ok.1 (by decide))⟩

end Cograph.GoVariants
