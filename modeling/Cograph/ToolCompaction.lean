import Cograph.ToolUse
import Cograph.JsonDump

/-!
# Compaction of the tool results

`_measure_messages_chars` and `_compact_tool_messages` of `wiki/llm_client.py`
on any list of chat messages. Those of the tool-use loop are of this kind.
-/

namespace Cograph.ToolCompaction

open ToolUse (ToolCall compactToolResultContent)

/-- A part of a content, with the text it holds or as its JSON text. -/
inductive Part where
  | text (s : Str)
  | other (json : Str)
  deriving DecidableEq

inductive Content where
  | str (s : Str)
  | parts (ps : List Part)
  | other (json : Str)
  deriving DecidableEq

structure ChatMessage where
  role : Option Str
  content : Content
  toolCalls : List ToolCall
  toolCallId : Option Str

def Part.chars : Part → Nat
  | .text s => s.length
  | .other _ => 0

def Content.chars : Content → Nat
  | .str s => s.length
  | .parts ps => (ps.map Part.chars).sum
  | .other _ => 0

def ChatMessage.chars (msg : ChatMessage) : Nat :=
  msg.content.chars + (msg.toolCalls.map fun tc => (tc.arguments.getD []).length).sum

def measureMessagesChars (messages : List ChatMessage) : Nat := (messages.map ChatMessage.chars).sum

def compactToolMessage (cap : Nat) (msg : ChatMessage) : ChatMessage :=
  if msg.role = some "tool".toList then
    match msg.content with
    | .str content =>
      if cap < content.length then { msg with content := .str (compactToolResultContent cap content) } else msg
    | _ => msg
  else msg

def compactToolMessages (cap : Nat) (messages : List ChatMessage) : List ChatMessage :=
  messages.map (compactToolMessage cap)

/-! ## The messages of the loop -/

def ofLoop : ToolUse.Message → ChatMessage
  | .system content => ⟨some "system".toList, .str content, [], none⟩
  | .user content => ⟨some "user".toList, .str content, [], none⟩
  | .assistant content calls => ⟨some "assistant".toList, .str content, calls, none⟩
  | .tool id content => ⟨some "tool".toList, .str content, [], some id⟩

theorem measure_ofLoop (messages : List ToolUse.Message) :
    measureMessagesChars (messages.map ofLoop) = ToolUse.measureMessagesChars messages := by
  have hone : ∀ m, (ofLoop m).chars = ToolUse.measureMessageChars m := by
    intro m
    cases m <;> rfl
  rw [measureMessagesChars, ToolUse.measureMessagesChars, List.map_map]
  exact congrArg List.sum (List.map_congr_left fun m _ => hone m)

theorem compact_ofLoop (cap : Nat) (messages : List ToolUse.Message) :
    compactToolMessages cap (messages.map ofLoop) = (ToolUse.compactToolMessages cap messages).map ofLoop := by
  have hone : ∀ m, compactToolMessage cap (ofLoop m) = ofLoop (ToolUse.compactToolMessage cap m) := by
    intro m
    cases m with
    | tool id content =>
      by_cases hcap : cap < content.length <;> simp [compactToolMessage, ofLoop, ToolUse.compactToolMessage, hcap]
    | _ => rfl
  rw [compactToolMessages, ToolUse.compactToolMessages, List.map_map, List.map_map]
  exact List.map_congr_left fun m _ => hone m

end Cograph.ToolCompaction

/-!
## What compaction settles on

A result longer than the cap becomes an envelope, which is longer than the cap
again. The envelope says how long the result was and how it began, so it is kept
by the next compaction only if it agrees with the result in both.
-/

namespace Cograph.ToolCompaction

open ToolUse (compactToolResultContent escape quoted hexDigits compactionNotice)

/-! ## Escapes -/

theorem digitChar_eq {n : Nat} (hn : n < 16) : Nat.digitChar n = JsonDump.hexDigit n := by
  have hall : ∀ k : Fin 16, Nat.digitChar k = JsonDump.hexDigit k := by decide
  exact hall ⟨n, hn⟩

/-- Four digits of a number below 16 ^ 4, the leading ones being zeros. -/
theorem hexDigits_eq {n : Nat} (hn : n < 0x10000) : hexDigits n = JsonDump.hex4 n := by
  have hcons : ∀ m, 16 ≤ m → Nat.toDigits 16 m = Nat.toDigits 16 (m / 16) ++ [JsonDump.hexDigit (m % 16)] := by
    intro m hm
    rw [Nat.toDigits_of_base_le (by decide) hm, digitChar_eq (Nat.mod_lt m (by decide))]
  have hone : ∀ m, m < 16 → Nat.toDigits 16 m = [JsonDump.hexDigit m] := by
    intro m hm
    rw [Nat.toDigits_of_lt_base hm, digitChar_eq hm]
  have hzero : JsonDump.hexDigit 0 = '0' := by decide
  have hzeros : "0000".toList = ['0', '0', '0', '0'] := by decide
  have h4 : n / 16 / 16 = n / 256 := Nat.div_div_eq_div_mul n 16 16
  have h8 : n / 256 / 16 = n / 4096 := Nat.div_div_eq_div_mul n 256 16
  rw [hexDigits, JsonDump.hex4, List.rtake, hzeros]
  by_cases h1 : n < 16
  · have hdiv : n / 4096 = 0 ∧ n / 256 = 0 ∧ n / 16 = 0 ∧ n % 16 = n := by omega
    simp [hone n h1, hdiv, hzero]
  by_cases h2 : n < 256
  · have hdiv : n / 4096 = 0 ∧ n / 256 = 0 ∧ n / 16 % 16 = n / 16 := by omega
    simp [hcons n (by omega), hone (n / 16) (by omega), hdiv, hzero]
  by_cases h3 : n < 4096
  · have hdiv : n / 4096 = 0 ∧ n / 256 % 16 = n / 256 := by omega
    simp [hcons n (by omega), hcons (n / 16) (by omega), h4, hone (n / 256) (by omega), hdiv, hzero]
  · have hdiv : n / 4096 % 16 = n / 4096 := by omega
    simp [hcons n (by omega), hcons (n / 16) (by omega), h4, hcons (n / 256) (by omega), h8, hone (n / 4096) (by omega),
      hdiv]

theorem escape_eq (c : Char) : escape c = JsonDump.escapeChar c := by
  have hvalid := JsonDump.toNat_valid c
  have hback : c.toNat = 8 ↔ c = '\x08' := by
    rw [← Char.toNat_inj]
    rfl
  have hfeed : c.toNat = 12 ↔ c = '\x0c' := by
    rw [← Char.toNat_inj]
    rfl
  have hprint : (32 ≤ c.toNat ∧ c.toNat < 127) ↔ 32 ≤ c.toNat ∧ c.toNat ≤ 126 := by omega
  have hunicode : ∀ n, n < 0x10000 → "\\u".toList ++ hexDigits n = JsonDump.unicodeEscape n := by
    intro n hn
    rw [hexDigits_eq hn]
    rfl
  unfold escape JsonDump.escapeChar
  simp only [hback, hfeed, hprint]
  by_cases hquote : c = '"'
  · rw [if_pos hquote, if_pos hquote]
    rfl
  by_cases hslash : c = '\\'
  · simp only [if_neg hquote, if_pos hslash]
    rfl
  by_cases hnewline : c = '\n'
  · simp only [if_neg hquote, if_neg hslash, if_pos hnewline]
    rfl
  by_cases hreturn : c = '\r'
  · simp only [if_neg hquote, if_neg hslash, if_neg hnewline, if_pos hreturn]
    rfl
  by_cases htab : c = '\t'
  · simp only [if_neg hquote, if_neg hslash, if_neg hnewline, if_neg hreturn, if_pos htab]
    rfl
  simp only [if_neg hquote, if_neg hslash, if_neg hnewline, if_neg hreturn, if_neg htab]
  by_cases height : c = '\x08'
  · subst height
    rfl
  rw [if_neg height, if_neg height]
  split
  · rfl
  split
  · rfl
  split
  · next hbmp => exact hunicode _ hbmp
  · rw [List.append_assoc, hunicode (0xdc00 + _) (by omega), hunicode (0xd800 + _) (by omega)]

theorem quoted_eq (s : Str) : quoted s = JsonDump.str s := by
  rw [quoted, JsonDump.str, JsonDump.escape, funext escape_eq]
  rfl

/-! ## The envelope -/

/-- The envelope up to the escaped beginning of the result. -/
def opening (n : Nat) : Str :=
  "\x7b\"truncated\": true, \"original_chars\": ".toList ++ (toString n).toList ++ ", \"prefix\": \"".toList

def closing : Str := "\", \"message\": ".toList ++ quoted compactionNotice ++ ['\x7d']

variable {cap : Nat} {content : Str}

theorem compact_eq (h : cap < content.length) : compactToolResultContent cap content =
    opening content.length ++ (content.take cap).flatMap escape ++ closing := by
  have hopening : opening content.length = "\x7b\"truncated\": true, \"original_chars\": ".toList ++
      (toString content.length).toList ++ (", \"prefix\": ".toList ++ ['"']) := rfl
  have hclosing : closing = '"' :: ", \"message\": ".toList ++ quoted compactionNotice ++ ['\x7d'] := rfl
  have hquoted : quoted (content.take cap) = '"' :: (content.take cap).flatMap escape ++ ['"'] := rfl
  rw [compactToolResultContent, if_neg (not_le.2 h), hquoted, hopening, hclosing]
  simp only [List.append_assoc, List.cons_append, List.nil_append]

theorem length_opening (n : Nat) : (opening n).length = 51 + (toString n).length := by
  have hfirst : "\x7b\"truncated\": true, \"original_chars\": ".toList.length = 38 := by decide
  have hsecond : ", \"prefix\": \"".toList.length = 13 := by decide
  have hparts : ∀ a d b : Str, (a ++ d ++ b).length = a.length + b.length + d.length := by
    intro a d b
    simp only [List.length_append]
    omega
  exact (hparts _ _ _).trans (by rw [hfirst, hsecond, String.length_toList])

theorem length_closing : closing.length = 171 := by decide +kernel

theorem length_escaped (s : Str) : s.length ≤ (s.flatMap escape).length := by
  rw [funext escape_eq]
  exact JsonDump.length_escape s

theorem length_compact (h : cap < content.length) : (compactToolResultContent cap content).length =
    222 + (toString content.length).length + ((content.take cap).flatMap escape).length := by
  rw [compact_eq h, List.length_append, List.length_append, length_opening, length_closing]
  omega

/-- An envelope is always longer than the cap. -/
theorem cap_lt_compact (h : cap < content.length) : cap < (compactToolResultContent cap content).length := by
  have hprefix := length_escaped (content.take cap)
  rw [List.length_take_of_le h.le] at hprefix
  rw [length_compact h]
  omega

/-- A number ends at the comma that follows it. -/
theorem digits_inj {n m : Nat} {u v : Str} (h : (toString n).toList ++ ',' :: u = (toString m).toList ++ ',' :: v) :
    n = m ∧ u = v := by
  have hread : ∀ k w, ((toString k).toList ++ ',' :: w).takeWhile Char.isDigit = Nat.toDigits 10 k := by
    intro k w
    have hdigit : ∀ c ∈ Nat.toDigits 10 k, c.isDigit := fun c hc =>
      Nat.isDigit_of_mem_toDigits (by decide) (by decide) hc
    have hdigits : (toString k).toList = Nat.toDigits 10 k := Nat.toList_repr
    rw [hdigits, List.takeWhile_append_of_pos hdigit]
    exact List.append_nil _
  have hdigits : Nat.toDigits 10 n = Nat.toDigits 10 m := by rw [← hread n u, h, hread]
  have hnumber : n = m := by
    rw [← @Nat.ofDigitChars_ten_toDigits n, hdigits, Nat.ofDigitChars_ten_toDigits]
  subst hnumber
  exact ⟨rfl, (List.cons.inj (List.append_cancel_left h)).2⟩

theorem opening_inj {n m : Nat} {u v : Str} (h : opening n ++ u = opening m ++ v) : n = m ∧ u = v := by
  have hsplit : ∀ k w, opening k ++ w = "\x7b\"truncated\": true, \"original_chars\": ".toList ++
      ((toString k).toList ++ ',' :: (" \"prefix\": \"".toList ++ w)) := by
    intro k w
    have hcomma : ", \"prefix\": \"".toList = ',' :: " \"prefix\": \"".toList := rfl
    unfold opening
    rw [List.append_assoc, List.append_assoc, hcomma, List.cons_append]
  rw [hsplit, hsplit] at h
  obtain ⟨hnumber, hrest⟩ := digits_inj (List.append_cancel_left h)
  exact ⟨hnumber, List.append_cancel_left hrest⟩

theorem envelope_inj {n m : Nat} {s t : Str}
    (h : opening n ++ s.flatMap escape ++ closing = opening m ++ t.flatMap escape ++ closing) : n = m ∧ s = t := by
  rw [List.append_assoc, List.append_assoc] at h
  obtain ⟨hnumber, hrest⟩ := opening_inj h
  have hescaped := List.append_cancel_right hrest
  rw [funext escape_eq] at hescaped
  have hquoted : JsonDump.str s ++ [] = JsonDump.str t ++ [] := by
    rw [JsonDump.str, JsonDump.str, JsonDump.escape, JsonDump.escape, hescaped]
  exact ⟨hnumber, (JsonDump.str_inj hquoted).1⟩

/-! ## Results that are kept -/

/-- The result begins as its own envelope does, and is as long. -/
structure OwnEnvelope (cap : Nat) (content : Str) : Prop where
  length : content.length = 222 + (toString content.length).length + ((content.take cap).flatMap escape).length
  beginning : content.take cap = (opening content.length ++ (content.take cap).flatMap escape).take cap

example : OwnEnvelope 1 ('\x7b' :: List.replicate 225 'a') := ⟨by decide +kernel, by decide +kernel⟩

theorem take_compact (h : cap < content.length) : (compactToolResultContent cap content).take cap =
    (opening content.length ++ (content.take cap).flatMap escape).take cap := by
  have hprefix := length_escaped (content.take cap)
  rw [List.length_take_of_le h.le] at hprefix
  rw [compact_eq h, List.take_append_of_le_length]
  rw [List.length_append]
  omega

theorem compact_twice_iff (h : cap < content.length) :
    compactToolResultContent cap (compactToolResultContent cap content) = compactToolResultContent cap content ↔
      OwnEnvelope cap content := by
  constructor
  · intro htwice
    rw [compact_eq (cap_lt_compact h), compact_eq h] at htwice
    obtain ⟨hlen, htake⟩ := envelope_inj htwice
    rw [← compact_eq h] at hlen htake
    exact ⟨by rw [← length_compact h, hlen], by rw [← take_compact h, htake]⟩
  · intro hown
    have hlen : (compactToolResultContent cap content).length = content.length :=
      (length_compact h).trans hown.length.symm
    have htake : (compactToolResultContent cap content).take cap = content.take cap :=
      (take_compact h).trans hown.beginning.symm
    rw [compact_eq (cap_lt_compact h), hlen, htake, ← compact_eq h]

/-! ## Lists of messages -/

/-- The message is a tool result of this text, longer than the cap. -/
def Oversize (cap : Nat) (msg : ChatMessage) (content : Str) : Prop :=
  msg.role = some "tool".toList ∧ msg.content = .str content ∧ cap < content.length

theorem compact_oversize {msg : ChatMessage} (h : Oversize cap msg content) :
    compactToolMessage cap msg = { msg with content := .str (compactToolResultContent cap content) } := by
  obtain ⟨hrole, hcontent, hcap⟩ := h
  rw [compactToolMessage, if_pos hrole, hcontent]
  exact if_pos hcap

theorem Oversize.compact {msg : ChatMessage} (h : Oversize cap msg content) :
    Oversize cap (compactToolMessage cap msg) (compactToolResultContent cap content) := by
  rw [compact_oversize h]
  exact ⟨h.1, rfl, cap_lt_compact h.2.2⟩

theorem compact_other {msg : ChatMessage} (h : ∀ content, ¬Oversize cap msg content) :
    compactToolMessage cap msg = msg := by
  unfold compactToolMessage
  split
  · next hrole =>
    split
    · next content hcontent => exact if_neg fun hcap => h content ⟨hrole, hcontent, hcap⟩
    · rfl
  · rfl

/-- The message is not a result that the envelope disagrees with. -/
def Kept (cap : Nat) (msg : ChatMessage) : Prop := ∀ content, Oversize cap msg content → OwnEnvelope cap content

theorem compact_twice_message_iff (msg : ChatMessage) :
    compactToolMessage cap (compactToolMessage cap msg) = compactToolMessage cap msg ↔ Kept cap msg := by
  by_cases hover : ∃ content, Oversize cap msg content
  · obtain ⟨content, hover⟩ := hover
    have honly : Kept cap msg ↔ OwnEnvelope cap content := by
      refine ⟨fun h => h content hover, fun h content' hover' => ?_⟩
      rwa [← Content.str.inj (hover.2.1.symm.trans hover'.2.1)]
    rw [honly, ← compact_twice_iff hover.2.2, compact_oversize hover.compact, compact_oversize hover]
    constructor
    · intro h
      exact Content.str.inj (congrArg ChatMessage.content h)
    · intro h
      rw [h]
  · have hnone : ∀ content, ¬Oversize cap msg content := fun content h => hover ⟨content, h⟩
    rw [compact_other hnone, compact_other hnone]
    exact ⟨fun _ content h => absurd h (hnone content), fun _ => rfl⟩

theorem Kept.chars {msg : ChatMessage} (h : Kept cap msg) :
    (compactToolMessage cap msg).content.chars = msg.content.chars ∧
      (compactToolMessage cap msg).chars = msg.chars := by
  by_cases hover : ∃ content, Oversize cap msg content
  · obtain ⟨content, hover⟩ := hover
    have hlen : (compactToolResultContent cap content).length = content.length :=
      (length_compact hover.2.2).trans (h content hover).length.symm
    rw [compact_oversize hover, ChatMessage.chars, ChatMessage.chars, hover.2.1]
    simp only [Content.chars, hlen, and_self]
  · rw [compact_other fun content h => hover ⟨content, h⟩]
    exact ⟨rfl, rfl⟩

/-- What compaction is for: nothing gets longer, only tool messages change, and
what is compacted once stays as it is. -/
structure Settles (cap : Nat) (messages : List ChatMessage) : Prop where
  measure : measureMessagesChars (compactToolMessages cap messages) ≤ measureMessagesChars messages
  shorter : List.Forall₂ (fun msg msg' => msg'.content.chars ≤ msg.content.chars) messages
    (compactToolMessages cap messages)
  others : List.Forall₂ (fun msg msg' => msg.role ≠ some "tool".toList → msg' = msg) messages
    (compactToolMessages cap messages)
  twice : compactToolMessages cap (compactToolMessages cap messages) = compactToolMessages cap messages

/-- **Compaction.** It shrinks and settles exactly on the messages whose
oversized tool results are as long as their own envelopes and begin alike. -/
theorem settles_iff (cap : Nat) (messages : List ChatMessage) :
    Settles cap messages ↔ ∀ msg ∈ messages, Kept cap msg := by
  have hmap : ∀ f : ChatMessage → ChatMessage, ∀ R : ChatMessage → ChatMessage → Prop,
      List.Forall₂ R messages (messages.map f) ↔ ∀ msg ∈ messages, R msg (f msg) := by
    intro f R
    rw [List.forall₂_map_right_iff, List.forall₂_same]
  constructor
  · intro h msg hmsg
    have htwice := h.twice
    rw [compactToolMessages, compactToolMessages, List.map_map] at htwice
    exact (compact_twice_message_iff msg).1 (List.map_inj_left.1 htwice msg hmsg)
  · intro hkept
    refine ⟨?_, (hmap _ _).2 fun msg hmsg => (hkept msg hmsg).chars.1.le, (hmap _ _).2 fun msg _ hrole => ?_, ?_⟩
    · rw [measureMessagesChars, compactToolMessages, List.map_map]
      exact (congrArg List.sum (List.map_congr_left fun msg hmsg => (hkept msg hmsg).chars.2)).le
    · exact compact_other fun content hover => hrole hover.1
    · rw [compactToolMessages, compactToolMessages, List.map_map]
      exact List.map_congr_left fun msg hmsg => (compact_twice_message_iff msg).2 (hkept msg hmsg)

/-- The message of a tool's result. -/
def toolResult (content : Str) : ChatMessage where
  role := some "tool".toList
  content := .str content
  toolCalls := []
  toolCallId := some "call_1".toList

theorem measure_toolResult (content : Str) : measureMessagesChars [toolResult content] = content.length := by
  simp [measureMessagesChars, ChatMessage.chars, Content.chars, toolResult]

theorem compact_toolResult (h : cap < content.length) :
    compactToolMessages cap [toolResult content] = [toolResult (compactToolResultContent cap content)] := by
  rw [compactToolMessages, List.map_singleton, compact_oversize ⟨rfl, rfl, h⟩]
  rfl

/-- A result one character longer than the cap of the loop. -/
def longResult : Str := List.replicate 4001 'a'

/-- It gets longer. -/
theorem long_result_grows : measureMessagesChars [toolResult longResult] = 4001 ∧
    4222 ≤ measureMessagesChars (compactToolMessages ToolUse.toolResultCompactCharCap [toolResult longResult]) ∧
    ¬Settles ToolUse.toolResultCompactCharCap [toolResult longResult] := by
  have hlong : longResult.length = 4001 := List.length_replicate
  have hover : ToolUse.toolResultCompactCharCap < longResult.length := by
    rw [hlong]
    decide
  have hescaped := length_escaped (longResult.take ToolUse.toolResultCompactCharCap)
  rw [List.length_take_of_le hover.le] at hescaped
  have hcap : ToolUse.toolResultCompactCharCap = 4000 := rfl
  have hlen := length_compact hover
  have hbefore := measure_toolResult longResult
  have hafter := congrArg measureMessagesChars (compact_toolResult hover)
  rw [measure_toolResult] at hafter
  refine ⟨by omega, by omega, fun h => ?_⟩
  have hmeasure := h.measure
  omega

end Cograph.ToolCompaction
