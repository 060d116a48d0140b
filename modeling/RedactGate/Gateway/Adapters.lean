import RedactGate.Library.Json

/-!
# Translating providers

The request bodies of the Anthropic, Gemini and Bedrock providers. Each goes over the
messages of a payload, flattens their contents, takes the system messages out and writes
the others in its own format.
-/
namespace RedactGate

open Library

/-- What a provider raises for messages that it cannot go over, by the class of the exception. -/
inductive AdapterError where
  | typeError
  | attributeError
  deriving DecidableEq

def flatPartTypes : List Text := ["text".toList, "input_text".toList]

/-- What a part of a content list adds to the text of a message: its text, if it is an object of one
of the types that are flattened. -/
def partText : Json → Option Text
  | .obj fields =>
    match Fields.get? fields "type".toList, Fields.get? fields "text".toList with
    | some (.str type), some (.str text) => if type ∈ flatPartTypes then some text else none
    | _, _ => none
  | _ => none

/-- `_content_to_text`, in the same words in the three providers: a string, or the texts of its
parts joined; anything else is empty. -/
def contentToText : Json → Text
  | .str s => s
  | .arr parts => (parts.filterMap partText).flatten
  | _ => []

/-- The elements of `for x in value or []`: a list has its items, a text its characters, an object
its keys, and anything else raises unless it counts as false. -/
def loopOver (value : Json) : Except AdapterError (List Json) :=
  if !value.truthy then .ok []
  else match value with
    | .arr items => .ok items
    | .str s => .ok (s.map fun c => .str [c])
    | .obj fields => .ok (fields.map fun field => .str field.1)
    | _ => .error .typeError

def isRole (name : Text) : Json → Bool
  | .obj fields =>
    match Fields.get? fields "role".toList with
    | some (.str role) => role = name
    | _ => false
  | _ => false

def isSystem (message : Json) : Bool := isRole "system".toList message

def isAssistant (message : Json) : Bool := isRole "assistant".toList message

/-- `_content_to_text(msg.get("content"))`. -/
def messageText : Json → Text
  | .obj fields => contentToText (Fields.getOrNull fields "content".toList)
  | _ => []

/-- The system chunks and the translated messages so far. -/
structure Split where
  systemChunks : List Text
  messages : List Json

/-- A message as a provider writes it: `render` is told whether the assistant speaks. -/
def renderMessage (render : Bool → Text → Json) (message : Json) : Json :=
  render (isAssistant message) (messageText message)

/-- One round of the loop over the messages: a system message adds its text to the chunks, any other
one is rendered. A message that is no object has no `get`. -/
def splitMessage (render : Bool → Text → Json) (split : Split) (message : Json) :
    Except AdapterError Split :=
  match message with
  | .obj _ =>
    if isSystem message then
      if (messageText message).isEmpty then .ok split
      else .ok { split with systemChunks := split.systemChunks ++ [messageText message] }
    else .ok { split with messages := split.messages ++ [renderMessage render message] }
  | _ => .error .attributeError

def splitMessages (render : Bool → Text → Json) (payload : Fields) : Except AdapterError Split := do
  let messages ← loopOver (payload.getOrNull "messages".toList)
  messages.foldlM (splitMessage render) ⟨[], []⟩

/-- `"\n\n".join(system_chunks) if system_chunks else None`. -/
def Split.system (split : Split) : Option Text :=
  if split.systemChunks.isEmpty then none
  else some (List.intercalate "\n\n".toList split.systemChunks)

/-- Assign a member, if there is a value for it. -/
def setMember (key : Text) (value : Option Json) (body : Fields) : Fields :=
  match value with
  | some value => body.set key value
  | none => body

/-- `if payload.get(source) is not None: body[target] = payload[source]`. -/
def copyMember (payload : Fields) (source target : Text) (body : Fields) : Fields :=
  match payload.getOrNull source with
  | .null => body
  | value => body.set target value

/-- `payload.get("max_tokens") or _DEFAULT_MAX_TOKENS`. -/
def maxTokens (payload : Fields) : Json :=
  if (payload.getOrNull "max_tokens".toList).truthy then payload.getOrNull "max_tokens".toList
  else .number 1024

namespace AnthropicProvider

def message (assistant : Bool) (text : Text) : Json :=
  .obj [("role".toList, .str (if assistant then "assistant".toList else "user".toList)),
    ("content".toList, .str text)]

/-- `_translate`. -/
def translate (payload : Fields) : Except AdapterError (Option Text × List Json) := do
  let split ← splitMessages message payload
  pure (split.system, split.messages)

/-- `_body`, with the model that `_resolve_model` finds: model, messages, length and streaming, and
a system text and the temperature if they are given. -/
def body (model : Text) (payload : Fields) (stream : Bool) : Except AdapterError Fields := do
  let (system, messages) ← translate payload
  let body : Fields := [("model".toList, .str model), ("messages".toList, .arr messages),
    ("max_tokens".toList, maxTokens payload), ("stream".toList, .bool stream)]
  let body := setMember "system".toList ((system.filter (!·.isEmpty)).map .str) body
  pure (copyMember payload "temperature".toList "temperature".toList body)

end AnthropicProvider

namespace GeminiProvider

def textParts (text : Text) : Json := .arr [.obj [("text".toList, .str text)]]

def message (assistant : Bool) (text : Text) : Json :=
  .obj [("role".toList, .str (if assistant then "model".toList else "user".toList)),
    ("parts".toList, textParts text)]

/-- `_translate`. -/
def translate (payload : Fields) : Except AdapterError (Option Json × List Json) := do
  let split ← splitMessages message payload
  pure (split.system.map fun system => .obj [("parts".toList, textParts system)], split.messages)

/-- `_body`: the contents, and the system instruction and the settings of the generation if there
are any, under the names that Gemini has for them. -/
def body (payload : Fields) : Except AdapterError Fields := do
  let (system, contents) ← translate payload
  let body : Fields := [("contents".toList, .arr contents)]
  let body := setMember "systemInstruction".toList system body
  let genConfig := copyMember payload "max_tokens".toList "maxOutputTokens".toList
    (copyMember payload "temperature".toList "temperature".toList [])
  pure (setMember "generationConfig".toList
    (if genConfig.isEmpty then none else some (.obj genConfig)) body)

end GeminiProvider

namespace BedrockProvider

/-- `_anthropic_body`: the messages as Anthropic has them, with the version that Bedrock asks for, a
system text if there is any chunk, and the temperature if it is given. -/
def anthropicBody (payload : Fields) : Except AdapterError Fields := do
  let split ← splitMessages AnthropicProvider.message payload
  let body : Fields := [("anthropic_version".toList, .str "bedrock-2023-05-31".toList),
    ("messages".toList, .arr split.messages), ("max_tokens".toList, maxTokens payload)]
  let body := setMember "system".toList (split.system.map .str) body
  pure (copyMember payload "temperature".toList "temperature".toList body)

end BedrockProvider

/-! ## Members of a body -/

theorem setMember_get?_of_ne {key other : Text} (ne : key ≠ other) (value : Option Json)
    (body : Fields) : (setMember key value body).get? other = body.get? other := by
  cases value with
  | none => rfl
  | some value => exact Fields.get?_set_of_ne ne body value

theorem setMember_get?_self {key : Text} {body : Fields} (absent : body.get? key = none)
    (value : Option Json) : (setMember key value body).get? key = value := by
  cases value with
  | none => exact absent
  | some value => exact Fields.get?_set_self body key value

theorem copyMember_get?_of_ne (payload body : Fields) (source : Text) {target other : Text}
    (ne : target ≠ other) :
    (copyMember payload source target body).get? other = body.get? other := by
  rw [copyMember]
  split
  · rfl
  · exact Fields.get?_set_of_ne ne _ _

/-! ## What a loop over the messages returns -/

/-- The chunks of the system messages; an empty one is left out. -/
def systemChunks (messages : List Json) : List Text :=
  ((messages.filter isSystem).map messageText).filter (!·.isEmpty)

/-- The other messages. -/
def spoken (messages : List Json) : List Json := messages.filter (!isSystem ·)

/-- The messages a provider goes over. -/
structure Loops (payload : Fields) (messages : List Json) : Prop where
  elements : loopOver (payload.getOrNull "messages".toList) = .ok messages
  objects : ∀ message ∈ messages, ∃ fields, message = .obj fields

/-- One round of the loop over the messages, if it raises nothing: a system message goes to the
chunks, any other one to the messages, and one without text to neither. -/
theorem splitMessage_eq {render : Bool → Text → Json} {split out : Split} {message : Json}
    (done : splitMessage render split message = .ok out) : (∃ fields, message = .obj fields) ∧
      out = ⟨split.systemChunks ++ systemChunks [message],
        split.messages ++ (spoken [message]).map (renderMessage render)⟩ := by
  cases message with
  | obj fields =>
    refine ⟨⟨fields, rfl⟩, ?_⟩
    rw [splitMessage] at done
    by_cases system : isSystem (.obj fields) = true
    · by_cases empty : (messageText (.obj fields)).isEmpty = true
      · rw [if_pos system, if_pos empty] at done
        simp [systemChunks, spoken, system, empty, (Except.ok.inj done)]
      · rw [if_pos system, if_neg empty] at done
        simp [systemChunks, spoken, system, empty, ← (Except.ok.inj done)]
    · rw [if_neg system] at done
      simp [systemChunks, spoken, system, ← (Except.ok.inj done)]
  | _ => cases done

theorem foldlM_splitMessage {render : Bool → Text → Json} {messages : List Json}
    {split out : Split} (done : messages.foldlM (splitMessage render) split = .ok out) :
    (∀ message ∈ messages, ∃ fields, message = .obj fields) ∧
      out = ⟨split.systemChunks ++ systemChunks messages,
        split.messages ++ (spoken messages).map (renderMessage render)⟩ := by
  induction messages generalizing split with
  | nil =>
    cases done
    simp [systemChunks, spoken]
  | cons message rest ih =>
    rw [List.foldlM_cons] at done
    cases first : splitMessage render split message with
    | error e =>
      rw [first] at done
      cases done
    | ok next =>
      rw [first] at done
      obtain ⟨object, rfl⟩ := splitMessage_eq first
      obtain ⟨objects, rfl⟩ := ih done
      refine ⟨List.forall_mem_cons.mpr ⟨object, objects⟩, ?_⟩
      -- a message goes to the system text or to the others, and each keeps its order
      have chunks :
          systemChunks (message :: rest) = systemChunks [message] ++ systemChunks rest := by
        rw [systemChunks, ← List.singleton_append, List.filter_append, List.map_append,
          List.filter_append]
        rfl
      have others : spoken (message :: rest) = spoken [message] ++ spoken rest := by
        rw [spoken, ← List.singleton_append, List.filter_append]
        rfl
      rw [chunks, others, List.map_append, List.append_assoc, List.append_assoc]

theorem splitMessages_eq {render : Bool → Text → Json} {payload : Fields} {split : Split}
    (done : splitMessages render payload = .ok split) : ∃ messages, Loops payload messages ∧
      split = ⟨systemChunks messages, (spoken messages).map (renderMessage render)⟩ := by
  rw [splitMessages] at done
  cases elements : loopOver (payload.getOrNull "messages".toList) with
  | error e =>
    rw [elements] at done
    cases done
  | ok messages =>
    rw [elements] at done
    obtain ⟨objects, rfl⟩ := foldlM_splitMessage done
    exact ⟨messages, ⟨elements, objects⟩, rfl⟩

/-- A loop of a provider that raises nothing goes over the list under `messages` or over nothing: no
other kind of value there gives it a message. -/
theorem Loops.list {payload : Fields} {messages : List Json} (loops : Loops payload messages) :
    messages = [] ∨ payload.getOrNull "messages".toList = .arr messages := by
  obtain ⟨elements, objects⟩ := loops
  generalize payload.getOrNull "messages".toList = value at elements ⊢
  unfold loopOver at elements
  split at elements
  · exact .inl (Except.ok.inj elements).symm
  -- a string or a non-empty object would give the loop items that are no objects
  · cases value with
    | arr items => exact .inr (by rw [Except.ok.inj elements])
    | str s =>
      refine .inl (List.eq_nil_iff_forall_not_mem.mpr fun message member => ?_)
      obtain ⟨fields, rfl⟩ := objects message member
      simp [← Except.ok.inj elements] at member
    | obj fields =>
      refine .inl (List.eq_nil_iff_forall_not_mem.mpr fun message member => ?_)
      obtain ⟨fields, rfl⟩ := objects message member
      simp [← Except.ok.inj elements] at member
    | _ => cases elements

end RedactGate
