import Cograph.ToolUse

/-!
# The conversation of the tool-use loop

Every request opens with the system text and the first user message and answers
the tool calls of its assistant messages. Tools are offered within the budget,
until they are first withheld.
-/

namespace Cograph.ToolUse

/-! ## Rounds -/

/-- The tool calls of each assistant message are answered, each with one tool
message under its id, before the next message of another kind. -/
def Answered (messages : List Message) : Prop :=
  ∀ before content calls after, messages = before ++ .assistant content calls :: after →
    (after.takeWhile Message.isTool).filterMap Message.toolCallId = calls.map (·.id)

/-- User messages, and assistant messages with their answers. -/
inductive Rounds : List Message → Prop
  | nil : Rounds []
  | user (content : Str) {rest} : Rounds rest → Rounds (.user content :: rest)
  | round (content : Str) (calls : List ToolCall) (results : List Message) {rest} :
      (∀ m ∈ results, m.isTool = true) → results.filterMap Message.toolCallId = calls.map (·.id) → Rounds rest →
        Rounds (.assistant content calls :: (results ++ rest))

theorem Rounds.append {xs ys : List Message} (hx : Rounds xs) (hy : Rounds ys) : Rounds (xs ++ ys) := by
  induction hx with
  | nil => exact hy
  | user content _ ih => exact .user content ih
  | round content calls results htool hids _ ih =>
    rw [List.cons_append, List.append_assoc]
    exact .round content calls results htool hids ih

/-- No round begins with a tool message. -/
theorem Rounds.takeWhile_tools {rest : List Message} (h : Rounds rest) {results : List Message}
    (htool : ∀ m ∈ results, m.isTool = true) : (results ++ rest).takeWhile Message.isTool = results := by
  have hrest : rest.takeWhile Message.isTool = [] := by
    cases h <;> rfl
  rw [List.takeWhile_append_of_pos htool, hrest, List.append_nil]

theorem Answered.cons {m : Message} (hm : ∀ content calls, m ≠ .assistant content calls) {rest : List Message}
    (h : Answered rest) : Answered (m :: rest) := by
  intro before content calls after heq
  cases before with
  | nil => exact absurd (List.cons.inj heq).1 (hm content calls)
  | cons m' before => exact h before content calls after (List.cons.inj heq).2

theorem Answered.tools {results rest : List Message} (htool : ∀ m ∈ results, m.isTool = true) (h : Answered rest) :
    Answered (results ++ rest) := by
  induction results with
  | nil => exact h
  | cons m results ih =>
    refine Answered.cons ?_ (ih fun m' hm' => htool m' (List.mem_cons_of_mem m hm'))
    intro content calls hm
    have := htool m List.mem_cons_self
    rw [hm] at this
    cases this

theorem Rounds.answered {messages : List Message} (h : Rounds messages) : Answered messages := by
  induction h with
  | nil =>
    intro before content calls after heq
    exact absurd heq.symm (by simp)
  | user content _ ih => exact ih.cons fun _ _ => Message.noConfusion
  | round content calls results htool hids hrest ih =>
    intro before content' calls' after heq
    cases before with
    | nil =>
      obtain ⟨hm, hafter⟩ := List.cons.inj heq
      cases hm
      rw [← hafter, hrest.takeWhile_tools htool]
      exact hids
    | cons m before => exact ih.tools htool before content' calls' after (List.cons.inj heq).2

/-! ## Compaction -/

theorem compactToolMessage_isTool (cap : Nat) (m : Message) : (compactToolMessage cap m).isTool = m.isTool := by
  cases m <;> rfl

theorem compactToolMessage_id (cap : Nat) (m : Message) : (compactToolMessage cap m).toolCallId = m.toolCallId := by
  cases m <;> rfl

theorem Rounds.compact (cap : Nat) {messages : List Message} (h : Rounds messages) :
    Rounds (compactToolMessages cap messages) := by
  induction h with
  | nil => exact .nil
  | user content _ ih => exact .user content ih
  | round content calls results htool hids _ ih =>
    rw [compactToolMessages, List.map_cons, List.map_append]
    refine .round content calls _ ?_ ?_ ih
    · intro m hm
      obtain ⟨m', hm', rfl⟩ := List.mem_map.1 hm
      rw [compactToolMessage_isTool]
      exact htool m' hm'
    · rw [List.filterMap_map, ← hids]
      exact List.filterMap_congr fun m _ => compactToolMessage_id cap m

/-! ## One turn -/

/-- The conversation opens with the system text and the first user message. -/
def Opens (system firstUser : Str) (messages : List Message) : Prop :=
  ∃ rest, messages = .system system :: .user firstUser :: rest ∧ Rounds rest

section
variable {σ τ : Type} {system firstUser : Str} {messages : List Message}

theorem Opens.answered (h : Opens system firstUser messages) : Answered messages := by
  obtain ⟨rest, rfl, hrest⟩ := h
  exact (hrest.answered.cons fun _ _ => Message.noConfusion).cons fun _ _ => Message.noConfusion

theorem Opens.append (h : Opens system firstUser messages) {more : List Message} (hmore : Rounds more) :
    Opens system firstUser (messages ++ more) := by
  obtain ⟨rest, rfl, hrest⟩ := h
  exact ⟨rest ++ more, rfl, hrest.append hmore⟩

theorem Opens.compact (cap : Nat) (h : Opens system firstUser messages) :
    Opens system firstUser (compactToolMessages cap messages) := by
  obtain ⟨rest, rfl, hrest⟩ := h
  exact ⟨_, rfl, hrest.compact cap⟩

variable {l : Loop σ} {maxInputChars : Option Int}

theorem checkBudget_opens (h : Opens system firstUser l.messages) :
    Opens system firstUser (checkBudget maxInputChars l).messages := by
  unfold checkBudget
  split
  · exact h
  · dsimp only
    split
    · exact h.compact _
    · exact (h.compact _).append (.user budgetNotice .nil)

theorem checkBudget_exceeded (h : l.budgetExceeded = true) : checkBudget maxInputChars l = l := by
  rw [checkBudget, if_pos (Or.inl h)]

/-- Where tools are not yet withheld the messages are within the budget. -/
theorem checkBudget_within (h : (checkBudget maxInputChars l).budgetExceeded = false) :
    withinBudget maxInputChars (checkBudget maxInputChars l).messages = true := by
  revert h
  unfold checkBudget
  split
  · next hl =>
    intro h
    rcases hl with hl | hl
    · rw [hl] at h
      cases h
    · exact hl
  · dsimp only
    split
    · next hwithin =>
      intro _
      exact hwithin
    · intro h
      cases h

variable (P : Parties σ τ)

/-- The tool calls of a reply append one tool message each. -/
theorem callTools (calls : List ToolCall) (l : Loop σ) :
    ∃ results : List Message, (calls.foldl (Loop.callTool P) l).messages = l.messages ++ results ∧
      (∀ m ∈ results, m.isTool = true) ∧ results.filterMap Message.toolCallId = calls.map (·.id) ∧
        (calls.foldl (Loop.callTool P) l).budgetExceeded = l.budgetExceeded := by
  induction calls generalizing l with
  | nil => exact ⟨[], by simp, by simp, rfl, rfl⟩
  | cons call calls ih =>
    obtain ⟨results, hmessages, htool, hids, hbudget⟩ := ih (l.callTool P call)
    refine ⟨.tool call.id (toolResult (P.dispatch l.parties call.name (payload call.arguments)).2) :: results,
      ?_, ?_, ?_, hbudget⟩
    · rw [List.foldl_cons, hmessages, Loop.callTool, List.append_assoc]
      rfl
    · intro m hm
      rcases List.mem_cons.1 hm with rfl | hm
      · rfl
      · exact htool m hm
    · rw [List.map_cons, ← hids]
      rfl

theorem answer_opens (h : Opens system firstUser l.messages) (soft : Int) (maxTurns turns : Nat) (r : Reply) :
    Opens system firstUser (l.answer P soft maxTurns turns r).messages := by
  obtain ⟨results, hmessages, htool, hids, -⟩ :=
    callTools P r.toolCalls { l with messages := l.messages ++ [.assistant (r.content.getD []) r.toolCalls] }
  have hround : Opens system firstUser (r.toolCalls.foldl (Loop.callTool P)
      { l with messages := l.messages ++ [.assistant (r.content.getD []) r.toolCalls] }).messages := by
    rw [hmessages, List.append_assoc]
    have hone := Rounds.round (r.content.getD []) r.toolCalls results htool hids .nil
    rw [List.append_nil] at hone
    exact h.append hone
  unfold Loop.answer
  dsimp only
  split
  · exact hround.append (.user _ .nil)
  · exact hround

theorem answer_budget (soft : Int) (maxTurns turns : Nat) (r : Reply) :
    (l.answer P soft maxTurns turns r).budgetExceeded = l.budgetExceeded := by
  obtain ⟨_, _, _, _, hbudget⟩ :=
    callTools P r.toolCalls { l with messages := l.messages ++ [.assistant (r.content.getD []) r.toolCalls] }
  unfold Loop.answer
  dsimp only
  split
  · exact hbudget
  · exact hbudget

/-! ## All turns -/

/-- A request is well formed and offers tools within the budget only. -/
structure Sent (system firstUser : Str) (maxInputChars : Option Int) (q : Request τ) : Prop where
  opens : ∃ rest, q.messages = .system system :: .user firstUser :: rest
  answered : Answered q.messages
  within : q.tools ≠ none → withinBudget maxInputChars q.messages = true

/-- All requests of a run. -/
structure Kept (system firstUser : Str) (maxInputChars : Option Int) (maxTurns : Nat) (sent : List (Request τ)) : Prop where
  each : ∀ q ∈ sent, Sent system firstUser maxInputChars q
  withheld : sent.Pairwise fun q q' => q.tools = none → q'.tools = none
  bounded : sent.length ≤ maxTurns

theorem request_sent (h : Opens system firstUser l.messages) (tools : List τ) :
    Sent system firstUser maxInputChars ((checkBudget maxInputChars l).request tools) := by
  have hopens : Opens system firstUser (checkBudget maxInputChars l).messages := checkBudget_opens h
  refine ⟨?_, hopens.answered, ?_⟩
  · obtain ⟨rest, hrest, -⟩ := hopens
    exact ⟨rest, hrest⟩
  · intro htools
    cases hb : (checkBudget maxInputChars l).budgetExceeded with
    | false => exact checkBudget_within hb
    | true => exact absurd (by rw [Loop.request, hb]; rfl) htools

variable (tools : List τ) (soft : Int) (maxTurns : Nat)

/-- A turn sends one request. The turns behind it, if any, start with the rounds
it adds. -/
theorem runTurns_succ (left : Nat) (l : Loop σ) (h : Opens system firstUser l.messages) :
    (runTurns P tools soft maxInputChars maxTurns (left + 1) l).1 = [(checkBudget maxInputChars l).request tools] ∨
      ∃ l', Opens system firstUser l'.messages ∧ l'.budgetExceeded = (checkBudget maxInputChars l).budgetExceeded ∧
        (runTurns P tools soft maxInputChars maxTurns (left + 1) l).1 =
          (checkBudget maxInputChars l).request tools :: (runTurns P tools soft maxInputChars maxTurns left l').1 := by
  have hopens : Opens system firstUser (checkBudget maxInputChars l).messages := checkBudget_opens h
  rw [runTurns]
  split
  · exact Or.inl rfl
  · exact Or.inl rfl
  · next r _ =>
    split
    · exact Or.inl rfl
    · refine Or.inr ⟨_, ?_, ?_, rfl⟩
      · apply answer_opens
        exact hopens
      · rw [answer_budget]
        rfl

theorem runTurns_withheld (left : Nat) (l : Loop σ) (h : Opens system firstUser l.messages)
    (hb : l.budgetExceeded = true) : ∀ q ∈ (runTurns P tools soft maxInputChars maxTurns left l).1, q.tools = none := by
  induction left generalizing l with
  | zero =>
    intro q hq
    cases hq
  | succ left ih =>
    have hone : ((checkBudget maxInputChars l).request tools).tools = none := by
      rw [checkBudget_exceeded hb, Loop.request, hb]
      rfl
    intro q hq
    rcases runTurns_succ P tools soft maxTurns left l h with hsent | ⟨l', hopens, hb', hsent⟩
    · rw [hsent, List.mem_singleton] at hq
      rw [hq]
      exact hone
    · rw [checkBudget_exceeded hb, hb] at hb'
      rw [hsent] at hq
      rcases List.mem_cons.1 hq with rfl | hq
      · exact hone
      · exact ih l' hopens hb' q hq

theorem runTurns_kept (left : Nat) (l : Loop σ) (h : Opens system firstUser l.messages) :
    Kept system firstUser maxInputChars left (runTurns P tools soft maxInputChars maxTurns left l).1 := by
  induction left generalizing l with
  | zero => exact ⟨by simp [runTurns], by simp [runTurns], by simp [runTurns]⟩
  | succ left ih =>
    have hone : Sent system firstUser maxInputChars ((checkBudget maxInputChars l).request tools) := request_sent h tools
    rcases runTurns_succ P tools soft maxTurns left l h with hsent | ⟨l', hopens, hb', hsent⟩
    · rw [hsent]
      exact ⟨by simpa using hone, List.pairwise_singleton _ _, by simp⟩
    · have hrest := ih l' hopens
      rw [hsent]
      refine ⟨?_, List.pairwise_cons.2 ⟨?_, hrest.withheld⟩, Nat.succ_le_succ hrest.bounded⟩
      · intro q hq
        rcases List.mem_cons.1 hq with rfl | hq
        · exact hone
        · exact hrest.each q hq
      · intro q hq hnone
        apply runTurns_withheld P tools soft maxTurns left l' hopens _ q hq
        rw [hb']
        cases hb : (checkBudget maxInputChars l).budgetExceeded with
        | true => rfl
        | false =>
          rw [Loop.request, hb] at hnone
          cases hnone

end

/-- Whatever the model and the tools reply, the requests of the loop keep the
conversation whole and offer tools within the budget. -/
theorem conversation_kept {σ τ : Type} (P : Parties σ τ) (parties : σ) (system : Str) (blocks : List Str)
    (tools : List τ) (maxTurns : Nat) (softTurnBudget : Int) (maxInputChars : Option Int) :
    Kept system (joinBlocks blocks) maxInputChars maxTurns
      (completeWithTools P parties system blocks tools maxTurns softTurnBudget maxInputChars).1 :=
  runTurns_kept P tools softTurnBudget maxTurns maxTurns _ ⟨[], rfl, .nil⟩

end Cograph.ToolUse
