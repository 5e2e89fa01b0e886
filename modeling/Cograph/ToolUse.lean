import Cograph.Dict
import Cograph.JsonText

/-!
# The tool-use loop of the wiki writer

`complete_with_tools` of `wiki/llm_client.py`: the requests it sends to the model,
turn by turn, with the replies of the model and of the tools between them. A
request with its retries is one request.
-/

namespace Cograph.ToolUse

open JsonText (Json)

/-! ## Messages -/

structure ToolCall where
  id : Str
  name : Str
  arguments : Option Str

inductive Message where
  | system (content : Str)
  | user (content : Str)
  | assistant (content : Str) (toolCalls : List ToolCall)
  | tool (toolCallId content : Str)

def Message.isTool : Message → Bool
  | .tool _ _ => true
  | _ => false

def Message.toolCallId : Message → Option Str
  | .tool id _ => some id
  | _ => none

/-- What `_measure_messages_chars` adds for a message. -/
def measureMessageChars : Message → Nat
  | .system content | .user content | .tool _ content => content.length
  | .assistant content calls => content.length + (calls.map fun call => (call.arguments.getD []).length).sum

def measureMessagesChars (messages : List Message) : Nat := (messages.map measureMessageChars).sum

/-! ## JSON texts -/

def hexDigits (n : Nat) : Str := ("0000".toList ++ Nat.toDigits 16 n).rtake 4

/-- A character of a string of `json.dumps`. -/
def escape (c : Char) : Str :=
  if c = '"' then "\\\"".toList
  else if c = '\\' then "\\\\".toList
  else if c = '\n' then "\\n".toList
  else if c = '\r' then "\\r".toList
  else if c = '\t' then "\\t".toList
  else if c.toNat = 8 then "\\b".toList
  else if c.toNat = 12 then "\\f".toList
  else if 32 ≤ c.toNat ∧ c.toNat < 127 then [c]
  else if c.toNat < 0x10000 then "\\u".toList ++ hexDigits c.toNat
  else
    "\\u".toList ++ hexDigits (0xd800 + (c.toNat - 0x10000) / 0x400) ++
      "\\u".toList ++ hexDigits (0xdc00 + (c.toNat - 0x10000) % 0x400)

def quoted (s : Str) : Str := '"' :: s.flatMap escape ++ ['"']

mutual

/-- `json.dumps`. A string or a number of a value stands for its text. -/
def dumps : Json → Str
  | .word raw => raw
  | .str raw => '"' :: raw ++ ['"']
  | .arr items => '[' :: dumpsItems items ++ [']']
  | .obj members => '\x7b' :: dumpsMembers members ++ ['\x7d']

def dumpsItems : List Json → Str
  | [] => []
  | [item] => dumps item
  | item :: items => dumps item ++ ", ".toList ++ dumpsItems items

def dumpsMembers : List (Str × Json) → Str
  | [] => []
  | [(key, value)] => '"' :: key ++ "\": ".toList ++ dumps value
  | (key, value) :: members => '"' :: key ++ "\": ".toList ++ dumps value ++ ", ".toList ++ dumpsMembers members

end

/-! ## Compaction -/

/-- `_TOOL_RESULT_COMPACT_CHAR_CAP`. -/
def toolResultCompactCharCap : Nat := 4000

def compactionNotice : Str :=
  ("Tool output was compacted to keep the LLM context within " ++
    "budget. Re-run the same tool with narrower arguments or " ++
    "line offsets if omitted detail is needed.").toList

def compactToolResultContent (cap : Nat) (content : Str) : Str :=
  if content.length ≤ cap then content
  else
    "\x7b\"truncated\": true, \"original_chars\": ".toList ++ (toString content.length).toList ++
      ", \"prefix\": ".toList ++ quoted (content.take cap) ++ ", \"message\": ".toList ++ quoted compactionNotice ++ ['\x7d']

def compactToolMessage (cap : Nat) : Message → Message
  | .tool id content => .tool id (if cap < content.length then compactToolResultContent cap content else content)
  | message => message

def compactToolMessages (cap : Nat) (messages : List Message) : List Message := messages.map (compactToolMessage cap)

/-! ## Requests and replies -/

structure Request (τ : Type) where
  messages : List Message
  tools : Option (List τ)

structure Usage where
  promptTokens : Nat
  completionTokens : Nat
  cachedTokens : Nat

structure Reply where
  content : Option Str
  toolCalls : List ToolCall
  finishReason : Option Str
  usage : Option Usage

/-- What comes of a request: a reply, an overflow of the model's context window
or another exception. -/
inductive Answer where
  | reply (r : Reply)
  | contextLengthExceeded
  | raised

/-- The model and the tools, with what they keep in mind. -/
structure Parties (σ τ : Type) where
  create : σ → Request τ → σ × Answer
  dispatch : σ → Str → List (Str × Json) → σ × Except Str Json

/-- `json.loads`, of what must be an object. -/
def payload (arguments : Option Str) : List (Str × Json) :=
  match arguments with
  | none | some [] => []
  | some raw =>
    match JsonText.loads raw with
    | some (.obj members) => members
    | _ => []

/-- The content of a tool message. -/
def toolResult : Except Str Json → Str
  | .ok (.obj members) => dumps (.obj members)
  | .ok raw => dumps (.obj [("result".toList, raw)])
  | .error e => "\x7b\"error\": ".toList ++ quoted e ++ ['\x7d']

/-! ## The loop -/

section
variable {σ τ : Type} (P : Parties σ τ)

/-- What the loop holds between two turns. -/
structure Loop (σ : Type) where
  parties : σ
  messages : List Message
  budgetExceeded : Bool
  toolsCalled : Dict.Items Str Nat
  lastText : Option Str
  tokensIn : Nat
  tokensOut : Nat
  cacheRead : Nat
  stopReason : Str

structure Result where
  finalText : Str
  turnsUsed : Nat
  toolsCalled : Dict.Items Str Nat
  tokensIn : Nat
  tokensOut : Nat
  cacheReadTokens : Nat
  stopReason : Str

def budgetNotice : Str :=
  ("Context budget reached — DO NOT call any more " ++ "tools. Produce the final markdown body now using " ++
    "the evidence you already have. Cite only the " ++ "qualified names and file paths you have already " ++
    "verified via prior tool calls.").toList

def turnNotice (turns maxTurns : Nat) : Str :=
  ("You've used " ++ toString turns ++ "/" ++ toString maxTurns ++ " turns. " ++
    "Wrap up your investigation now and produce the " ++ "final output.").toList

def withinBudget (maxInputChars : Option Int) (messages : List Message) : Bool :=
  match maxInputChars with
  | none => true
  | some limit => (measureMessagesChars messages : Int) ≤ limit

/-- The check at the start of a turn. -/
def checkBudget (maxInputChars : Option Int) (l : Loop σ) : Loop σ :=
  if l.budgetExceeded ∨ withinBudget maxInputChars l.messages then l
  else
    let messages := compactToolMessages toolResultCompactCharCap l.messages
    if withinBudget maxInputChars messages then { l with messages := messages }
    else { l with messages := messages ++ [.user budgetNotice], budgetExceeded := true }

def Loop.request (tools : List τ) (l : Loop σ) : Request τ :=
  ⟨l.messages, if l.budgetExceeded then none else some tools⟩

def normaliseFinishReason (reason : Str) : Str :=
  if reason = "stop".toList then "end_turn".toList
  else if reason = "length".toList then "max_tokens".toList
  else if reason = "tool_calls".toList then "tool_use".toList
  else reason

/-- The usage, the finish reason and the text of a reply. -/
def Loop.read (l : Loop σ) (r : Reply) : Loop σ :=
  let usage := r.usage.getD ⟨0, 0, 0⟩
  { l with
    tokensIn := l.tokensIn + usage.promptTokens
    tokensOut := l.tokensOut + usage.completionTokens
    cacheRead := l.cacheRead + usage.cachedTokens
    stopReason := normaliseFinishReason (if r.finishReason.getD [] = [] then "stop".toList else r.finishReason.getD [])
    lastText := if r.content.getD [] = [] then l.lastText else r.content }

/-- One tool call, answered with one tool message. -/
def Loop.callTool (l : Loop σ) (call : ToolCall) : Loop σ :=
  let out := P.dispatch l.parties call.name (payload call.arguments)
  { l with
    parties := out.1
    toolsCalled := Dict.put l.toolsCalled call.name ((Dict.get l.toolsCalled call.name).getD 0 + 1)
    messages := l.messages ++ [.tool call.id (toolResult out.2)] }

/-- The tool calls of a reply, and the nudge behind them. -/
def Loop.answer (softTurnBudget : Int) (maxTurns turns : Nat) (l : Loop σ) (r : Reply) : Loop σ :=
  let l := { l with messages := l.messages ++ [.assistant (r.content.getD []) r.toolCalls] }
  let l := r.toolCalls.foldl (Loop.callTool P) l
  if softTurnBudget ≤ turns ∧ turns < maxTurns then { l with messages := l.messages ++ [.user (turnNotice turns maxTurns)] }
  else l

def Loop.finish (l : Loop σ) (turns : Nat) : Result :=
  ⟨l.lastText.getD [], turns, l.toolsCalled, l.tokensIn, l.tokensOut, l.cacheRead, l.stopReason⟩

/-- The turns from here on, `left` of them allowed: the requests sent, and the
result unless an exception is raised. -/
def runTurns (tools : List τ) (softTurnBudget : Int) (maxInputChars : Option Int) (maxTurns : Nat) :
    Nat → Loop σ → List (Request τ) × Option Result
  | 0, l => ([], some ({ l with stopReason := "budget_exhausted".toList }.finish maxTurns))
  | left + 1, l =>
    let turns := maxTurns - left
    let l := checkBudget maxInputChars l
    let out := P.create l.parties (l.request tools)
    let l' := { l with parties := out.1 }
    match out.2 with
    | .raised => ([l.request tools], none)
    | .contextLengthExceeded =>
      ([l.request tools], some ({ l' with stopReason := "budget_exhausted".toList }.finish turns))
    | .reply r =>
      if r.toolCalls = [] then ([l.request tools], some ((l'.read r).finish turns))
      else
        let rest := runTurns tools softTurnBudget maxInputChars maxTurns left
          ((l'.read r).answer P softTurnBudget maxTurns turns r)
        (l.request tools :: rest.1, rest.2)

/-- `_join_blocks`, of the texts of the blocks. -/
def joinBlocks (blocks : List Str) : Str := "\n\n".toList.intercalate (blocks.filter (· ≠ []))

def completeWithTools (parties : σ) (system : Str) (blocks : List Str) (tools : List τ) (maxTurns : Nat)
    (softTurnBudget : Int) (maxInputChars : Option Int) : List (Request τ) × Option Result :=
  runTurns P tools softTurnBudget maxInputChars maxTurns maxTurns
    ⟨parties, [.system system, .user (joinBlocks blocks)], false, [], none, 0, 0, 0, "end_turn".toList⟩

end

end Cograph.ToolUse
