import CodexAgents.Lib.Text

/-!
# The history of a thread

`core/src/context_manager/history.rs`: the items that a model has been shown, oldest first.  Items
are recorded at the end (`recordItem`), a compaction puts another list in their place
(`replaceAnnotated`), and a rollback takes the last instruction turns off (`dropLastNUserTurns`),
with the context updates directly before them.

Compactions of old rollouts do not say what is to stand in place of the history.  It is rebuilt for
them from the messages of the user and the summary (`buildCompactedHistory` of
`core/src/compact.rs`).

How a text is classified, counted and truncated is a parameter (`Env`).
-/

namespace Session

open Text

/-! ## Items -/

/-- A part of a message. -/
inductive ContentItem where
  | inputText (text : Str)
  | inputImage (imageUrl : Str) (detail : Option Str)
  | inputAudio (audioUrl : Str)
  | outputText (text : Str)
  deriving DecidableEq

/-- A part of a message between agents. -/
inductive AgentMessageInputContent where
  | inputText (text : Str)
  | encryptedContent (encryptedContent : Str)
  deriving DecidableEq

/-- `InternalChatMessageMetadataPassthrough`. -/
structure Passthrough where
  turnId : Option Str
  executedToolCalls : Option Str := none
  deriving DecidableEq

/-- What a function returned. -/
inductive FunctionCallOutputBody where
  | text (content : Str)
  | contentItems (items : List Str)
  deriving DecidableEq

/-- What it returned, and if it succeeded. -/
structure FunctionCallOutputPayload where
  body : FunctionCallOutputBody
  success : Option Bool
  deriving DecidableEq

/-- The items of a conversation.  Fields that nothing here looks at are one text, `rest`. -/
inductive ResponseItem where
  | additionalTools (rest : Str)
  | message (id : Option Str) (role : Str) (content : List ContentItem) (phase : Option Str)
      (metadata : Option Passthrough)
  | agentMessage (id : Option Str) (author recipient : Str)
      (content : List AgentMessageInputContent) (metadata : Option Passthrough)
  | reasoning (rest : Str) (metadata : Option Passthrough)
  | localShellCall (id callId : Option Str) (rest : Str) (metadata : Option Passthrough)
  | functionCall (id : Option Str) (callId : Str) (rest : Str) (metadata : Option Passthrough)
  | toolSearchCall (id callId : Option Str) (rest : Str) (metadata : Option Passthrough)
  | functionCallOutput (id : Option Str) (callId : Str) (output : FunctionCallOutputPayload)
      (metadata : Option Passthrough)
  | customToolCall (id : Option Str) (callId : Str) (rest : Str) (metadata : Option Passthrough)
  | customToolCallOutput (id : Option Str) (callId : Str) (name : Option Str)
      (output : FunctionCallOutputPayload) (metadata : Option Passthrough)
  | toolSearchOutput (id callId : Option Str) (status execution : Str) (tools : List Str)
      (metadata : Option Passthrough)
  | webSearchCall (rest : Str) (metadata : Option Passthrough)
  | imageGenerationCall (rest : Str) (metadata : Option Passthrough)
  | compaction (rest : Str) (metadata : Option Passthrough)
  | compactionTrigger
  | contextCompaction (rest : Str) (metadata : Option Passthrough)
  | other
  deriving DecidableEq

namespace ResponseItem

/-- `internal_chat_message_metadata_passthrough`. -/
def metadata? : ResponseItem → Option Passthrough
  | message _ _ _ _ m | agentMessage _ _ _ _ m | reasoning _ m | localShellCall _ _ _ m
  | functionCall _ _ _ m | toolSearchCall _ _ _ m | functionCallOutput _ _ _ m
  | customToolCall _ _ _ m | customToolCallOutput _ _ _ _ m | toolSearchOutput _ _ _ _ _ m
  | webSearchCall _ m | imageGenerationCall _ m | compaction _ m | contextCompaction _ m => m
  | additionalTools _ | compactionTrigger | other => none

/-- The non-empty turn id stamped onto an item. -/
def turnId (item : ResponseItem) : Option Str :=
  (item.metadata?.bind Passthrough.turnId).filter (· ≠ [])

/-- Every item except those of the system. -/
def isApiMessage : ResponseItem → Bool
  | message _ role _ _ _ => role ≠ "system"
  | compactionTrigger | other => false
  | _ => true

end ResponseItem

/-- `ResponseItemEnvelope`: an item and what the harness knows of it. -/
structure Envelope where
  item : ResponseItem
  metadata : Option Unit := none
  deriving DecidableEq

/-- `InterAgentCommunication`. -/
structure InterAgentCommunication where
  id : Option Str
  author : Str
  recipient : Str
  content : Str
  encryptedContent : Option Str
  metadata : Option Passthrough
  triggerTurn : Bool

/-- The message as the model sees it. -/
def InterAgentCommunication.toModelInputItem (c : InterAgentCommunication) : ResponseItem :=
  let content :=
    match c.encryptedContent with
    | some encrypted =>
      let messageType := if c.triggerTurn then "NEW_TASK" else "MESSAGE"
      [.inputText ("Message Type: " ++ messageType ++ "\nTask name: " ++ c.recipient ++
          "\nSender: " ++ c.author ++ "\nPayload:\n"),
        .encryptedContent encrypted]
    | none => [.inputText c.content]
  .agentMessage c.id c.author c.recipient content c.metadata

/-! ## What is given -/

/-- The parts of the session that are left open. -/
structure Env where
  isContextualUserMessageContent : List ContentItem → Bool
  isContextualDevMessageContent : List ContentItem → Bool
  hasNonContextualDevMessageContent : List ContentItem → Bool
  /-- `ModelSwitchInstructions::matches_text`. -/
  isModelSwitchText : Str → Bool
  /-- The text is that of an `InterAgentCommunication`. -/
  isInterAgentText : Str → Bool
  /-- `truncate_text` and its like for lists, with the policy of the model. -/
  truncateOutputText : Str → Str
  truncateOutputItems : List Str → List Str
  /-- The text of an item that `parse_turn_item` reads as a message of the user. -/
  userMessageText : ResponseItem → Option Str
  summaryHead : Str
  approxTokenCount : Str → Nat
  /-- `truncate_text` to a number of tokens. -/
  truncateToTokens : Nat → Str → Str

variable (env : Env)

/-! ## Turn boundaries -/

/-- The text is one between agents. -/
def isInterAgentInstructionContent : List ContentItem → Bool
  | [.inputText text] | [.outputText text] => env.isInterAgentText text
  | _ => false

/-- The item begins a turn. -/
def isUserTurnBoundary : ResponseItem → Bool
  | .agentMessage .. => true
  | .message _ role content _ _ =>
    (role = "user" && !env.isContextualUserMessageContent content) ||
      (role = "assistant" && isInterAgentInstructionContent env content)
  | _ => false

/-- Where turns begin. -/
def userMessagePositions (items : List Envelope) : List Nat :=
  (items.zipIdx.filter fun (envelope, _) => isUserTurnBoundary env envelope.item).map Prod.snd

/-! ## The manager -/

/-- `TurnContextItem`, with what is not looked at in `rest`. -/
structure TurnContextItem where
  turnId : Option Str
  model : Str
  compHash : Option Str
  realtimeActive : Option Bool
  rest : Str := []
  deriving DecidableEq

/-- A world state, as the text of its JSON value. -/
abbrev WorldStateSnapshot := Str

/-- The history, and what is known about it. -/
structure ContextManager where
  items : List Envelope := []
  historyVersion : Nat := 0
  referenceContextItem : Option TurnContextItem := none
  worldStateBaseline : Option WorldStateSnapshot := none

namespace ContextManager

/-- Another history, as a new version. -/
def replaceAnnotated (m : ContextManager) (items : List Envelope) : ContextManager :=
  { m with
    items := items
    historyVersion := min (m.historyVersion + 1) (2 ^ 64 - 1)
    worldStateBaseline := none }

end ContextManager

/-- Long outputs are cut. -/
def truncateFunctionOutputPayload (output : FunctionCallOutputPayload) :
    FunctionCallOutputPayload :=
  { output with
    body :=
      match output.body with
      | .text content => .text (env.truncateOutputText content)
      | .contentItems items => .contentItems (env.truncateOutputItems items) }

/-- An item as it is recorded. -/
def processItem : ResponseItem → ResponseItem
  | .functionCallOutput id callId output m =>
    .functionCallOutput id callId (truncateFunctionOutputPayload env output) m
  | .customToolCallOutput id callId name output m =>
    .customToolCallOutput id callId name (truncateFunctionOutputPayload env output) m
  | item => item

namespace ContextManager

/-- `record_items_with_metadata`, for one item. -/
def recordItem (m : ContextManager) (envelope : Envelope) : ContextManager :=
  if envelope.item.isApiMessage then
    { m with items := m.items ++ [⟨processItem env envelope.item, envelope.metadata⟩] }
  else m

/-- The walk back over context updates, with the reference context that is left. -/
def trimPreTurnContextUpdates (snapshot : List Envelope) (firstInstructionTurnIdx : Nat) :
    Nat → Option TurnContextItem → Nat × Option TurnContextItem
  | 0, reference => (0, reference)
  | cut + 1, reference =>
    if firstInstructionTurnIdx < cut + 1 then
      match (snapshot[cut]?).map Envelope.item with
      | some (.message _ role content _ _) =>
        if role = "developer" ∧ env.isContextualDevMessageContent content then
          let reference :=
            if env.hasNonContextualDevMessageContent content then none else reference
          trimPreTurnContextUpdates snapshot firstInstructionTurnIdx cut reference
        else if role = "user" ∧ env.isContextualUserMessageContent content then
          trimPreTurnContextUpdates snapshot firstInstructionTurnIdx cut reference
        else (cut + 1, reference)
      | _ => (cut + 1, reference)
    else (cut + 1, reference)

/-- An item without the fragments that announce the model of a turn; none if nothing is left. -/
def retainWithoutModelSwitch (firstTurnId : Str) (envelope : Envelope) : Option Envelope :=
  match envelope.item with
  | .message id role content phase metadata =>
    if envelope.item.turnId = some firstTurnId ∧ role = "developer" then
      let content := content.filter fun
        | .inputText text => !env.isModelSwitchText text
        | _ => true
      if content = [] then none
      else some { envelope with item := .message id role content phase metadata }
    else some envelope
  | _ => some envelope

/-- The last turns are taken back. -/
def dropLastNUserTurns (m : ContextManager) (numTurns : Nat) : ContextManager :=
  if numTurns = 0 then m
  else
    let snapshot := m.items
    match userMessagePositions env snapshot with
    | [] => m.replaceAnnotated snapshot
    | first :: others =>
      let positions := first :: others
      let cut :=
        if positions.length ≤ numTurns then first
        else positions.getD (positions.length - numTurns) first
      let (cut, reference) :=
        trimPreTurnContextUpdates env snapshot first cut m.referenceContextItem
      let retained := snapshot.take cut
      let retained :=
        match (snapshot[first]?).bind (·.item.turnId) with
        | some firstTurnId =>
          if cut = first then retained.filterMap (retainWithoutModelSwitch env firstTurnId)
          else retained
        | none => retained
      { m with referenceContextItem := reference }.replaceAnnotated retained

end ContextManager

/-! ## Rebuilding a history from its user messages -/

/-- A message of the user that is kept in a compaction. -/
structure CompactedUserMessage where
  message : Str
  metadata : Option Passthrough
  harnessMetadata : Option Unit

/-- The message is the summary of a compaction. -/
def isSummaryMessage (message : Str) : Bool :=
  startsWith message (env.summaryHead ++ "\n")

/-- The message of an item, if it is kept. -/
def compactedUserMessage (envelope : Envelope) : Option CompactedUserMessage :=
  match env.userMessageText envelope.item with
  | none => none
  | some message =>
    if isSummaryMessage env message then none
    else
      let metadata :=
        match envelope.item with
        | .message _ _ _ _ metadata => metadata
        | _ => none
      some ⟨message, metadata, envelope.metadata⟩

/-- The messages that can be kept. -/
def collectAnnotatedUserMessages (items : List Envelope) : List CompactedUserMessage :=
  items.filterMap (compactedUserMessage env)

/-- How many tokens of messages are kept. -/
def compactUserMessageMaxTokens : Nat := 20000

/-- The newest messages that fit, newest first; the last of them may be truncated. -/
def selectMessages : Nat → List CompactedUserMessage → List CompactedUserMessage
  | _, [] => []
  | remaining, message :: older =>
    if remaining = 0 then []
    else
      let tokens := env.approxTokenCount message.message
      if tokens ≤ remaining then message :: selectMessages (remaining - tokens) older
      else [{ message with message := env.truncateToTokens remaining message.message }]

/-- A kept message as an item. -/
def userMessageEnvelope (message : CompactedUserMessage) : Envelope :=
  ⟨.message none "user" [.inputText message.message] none message.metadata,
    message.harnessMetadata⟩

/-- The newest messages that fit, and the summary. -/
def buildCompactedHistory (initialContext : List Envelope)
    (userMessages : List CompactedUserMessage) (summaryText : Str) : List Envelope :=
  let selected := (selectMessages env compactUserMessageMaxTokens userMessages.reverse).reverse
  let summaryText := if summaryText = [] then "(no summary available)".toList else summaryText
  initialContext ++ selected.map userMessageEnvelope ++
    [⟨.message none "user".toList [.inputText summaryText] none none, none⟩]

end Session
