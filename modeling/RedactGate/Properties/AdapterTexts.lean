import RedactGate.Gateway.Adapters
import RedactGate.Schemas.OpenAI

/-!
# Texts that translating providers send

The text walk and the flattening of the providers are two traversals of the same
messages. The second passes over some of the texts of the first and sends no others, so
that what is sent is determined by what has been redacted.

A provider does not look at the tool calls of a message, at which the walk can raise. A
payload on which it does is not sent by the proxy, but the provider would translate it.
-/
namespace RedactGate

open Library Library.Json

inductive Adapter where
  | anthropic
  | gemini
  | bedrock

namespace Adapter

/-- The body of a request to the provider of the adapter; Gemini puts the model and the streaming
into the address. -/
def body (adapter : Adapter) (model : Text) (payload : Fields) (stream : Bool) :
    Except AdapterError Fields :=
  match adapter with
  | anthropic => AnthropicProvider.body model payload stream
  | gemini => GeminiProvider.body payload
  | bedrock => BedrockProvider.anthropicBody payload

def messagesKey : Adapter → Text
  | anthropic => "messages".toList
  | gemini => "contents".toList
  | bedrock => "messages".toList

/-- The place of its text in a message. -/
def textPath : Adapter → Path
  | anthropic => [.key "content".toList]
  | gemini => [.key "parts".toList, .index 0, .key "text".toList]
  | bedrock => [.key "content".toList]

/-- The place of the system text in a body. -/
def systemPath : Adapter → Path
  | anthropic => [.key "system".toList]
  | gemini => [.key "systemInstruction".toList, .key "parts".toList, .index 0, .key "text".toList]
  | bedrock => [.key "system".toList]

/-- What stands in the messages of a body at the place where the adapter puts their texts. -/
def messageTexts (adapter : Adapter) (body : Fields) : List (Option Json) :=
  match body.get? adapter.messagesKey with
  | some (.arr messages) => messages.map (·.at? adapter.textPath)
  | _ => []

def systemText (adapter : Adapter) (body : Fields) : Option Json :=
  (Json.obj body).at? adapter.systemPath

end Adapter

/-- The strings that the walk visits in the messages, in their order. -/
def visitedInMessages (payload : Fields) : List (Path × Text) :=
  (mapTexts payload).calls.filter fun call => call.1.head? = some (.key "messages".toList)

/-- Texts that were visited, one after the other. -/
def joined (parts : List (Path × Text)) : Text := (parts.map Prod.snd).flatten

/-- Whenever the provider succeeds, the texts of its messages are made of visited
strings in walk order, and so is the system text. -/
def ForwardsVisited (adapter : Adapter) (payload : Fields) : Prop :=
  ∀ model stream body, adapter.body model payload stream = .ok body →
    ∃ messages system : List (List (Path × Text)),
      messages.flatten.Sublist (visitedInMessages payload) ∧
      system.flatten.Sublist (visitedInMessages payload) ∧
      adapter.messageTexts body = messages.map (fun parts => some (.str (joined parts))) ∧
      adapter.systemText body = if system.isEmpty then none
        else some (.str (List.intercalate "\n\n".toList (system.map joined)))

/-! ## Bodies -/

/-- The text of the system messages, in a body. -/
def systemValue (chunks : List Text) : Option Json :=
  if chunks.isEmpty then none else some (.str (List.intercalate "\n\n".toList chunks))

theorem intercalate_ne_nil {separator : Text} {chunks : List Text} (some : chunks ≠ [])
    (full : ∀ chunk ∈ chunks, chunk ≠ []) : List.intercalate separator chunks ≠ [] := by
  obtain ⟨chunk, rest, rfl⟩ := List.exists_cons_of_ne_nil some
  have first := full chunk List.mem_cons_self
  cases rest with
  | nil => simpa [List.intercalate] using first
  | cons next rest => simp [List.intercalate, first]

theorem systemChunks_ne_nil {messages : List Json} :
    ∀ chunk ∈ systemChunks messages, chunk ≠ [] := by
  intro chunk member
  simpa using (List.mem_filter.mp member).2

/-- An empty system text would be left out, but the chunks never make one, since each of them has
some text. -/
theorem filter_system (messages : List Json) (others : List Json) :
    (Split.system ⟨systemChunks messages, others⟩).filter (!·.isEmpty) =
      Split.system ⟨systemChunks messages, others⟩ := by
  rw [Split.system]
  split
  · rfl
  · rename_i some
    have full : List.intercalate "\n\n".toList (systemChunks messages) ≠ [] :=
      intercalate_ne_nil (by simpa using some) systemChunks_ne_nil
    rw [Option.filter_some, if_pos (by simpa using full)]

theorem map_system (messages : List Json) (others : List Json) :
    (Split.system ⟨systemChunks messages, others⟩).map Json.str =
      systemValue (systemChunks messages) := by
  rw [Split.system, systemValue]
  split <;> rfl

/-- What a provider sends of the messages it goes over: the text of each one, and the system texts
joined. -/
structure Sends (adapter : Adapter) (messages : List Json) (body : Fields) : Prop where
  texts : adapter.messageTexts body =
    (spoken messages).map fun message => some (.str (messageText message))
  system : adapter.systemText body = systemValue (systemChunks messages)

theorem messageTexts_of_get? {adapter : Adapter} {key : Text} (named : adapter.messagesKey = key)
    {render : Bool → Text → Json}
    (text : ∀ assistant text, (render assistant text).at? adapter.textPath = some (.str text))
    {messages : List Json} {body : Fields}
    (found : body.get? key = some (.arr ((spoken messages).map (renderMessage render)))) :
    adapter.messageTexts body =
      (spoken messages).map fun message => some (.str (messageText message)) := by
  rw [Adapter.messageTexts, named, found]
  simp only [List.map_map]
  exact List.map_congr_left fun message _ => text _ _

theorem at?_key (fields : Fields) (key : Text) :
    (Json.obj fields).at? [.key key] = fields.get? key := by
  rw [Json.at?]
  cases fields.get? key <;> simp

theorem at?_content (assistant : Bool) (text : Text) :
    (AnthropicProvider.message assistant text).at? [.key "content".toList] = some (.str text) := by
  rw [AnthropicProvider.message, at?_key, Fields.get?_cons, if_neg (by decide),
    Fields.get?_cons, if_pos rfl]

theorem sends_anthropic {model : Text} {payload : Fields} {stream : Bool} {body : Fields}
    (sent : AnthropicProvider.body model payload stream = .ok body) :
    ∃ messages, Loops payload messages ∧ Sends .anthropic messages body := by
  rw [AnthropicProvider.body, AnthropicProvider.translate] at sent
  cases translated : splitMessages AnthropicProvider.message payload with
  | error e =>
    rw [translated] at sent
    cases sent
  | ok split =>
    rw [translated] at sent
    obtain ⟨messages, loops, rfl⟩ := splitMessages_eq translated
    have same := Except.ok.inj sent
    have key : Adapter.messagesKey .anthropic = "messages".toList := rfl
    refine ⟨messages, loops, messageTexts_of_get? key at?_content ?_, (at?_key _ _).trans ?_⟩
    -- the members copied afterwards have other names
    · rw [← same, copyMember_get?_of_ne _ _ _ (by decide),
        setMember_get?_of_ne (by decide), Fields.get?_cons, if_neg (by decide),
        Fields.get?_cons, if_pos rfl]
    · have absent : "system".toList ∉
          ["model".toList, "messages".toList, "max_tokens".toList, "stream".toList] := by
        decide
      rw [← same, copyMember_get?_of_ne _ _ _ (by decide),
        setMember_get?_self (Fields.get?_of_not_mem_keys absent), filter_system, map_system]

theorem sends_bedrock {payload body : Fields}
    (sent : BedrockProvider.anthropicBody payload = .ok body) :
    ∃ messages, Loops payload messages ∧ Sends .bedrock messages body := by
  rw [BedrockProvider.anthropicBody] at sent
  cases translated : splitMessages AnthropicProvider.message payload with
  | error e =>
    rw [translated] at sent
    cases sent
  | ok split =>
    rw [translated] at sent
    obtain ⟨messages, loops, rfl⟩ := splitMessages_eq translated
    have same := Except.ok.inj sent
    have key : Adapter.messagesKey .bedrock = "messages".toList := rfl
    refine ⟨messages, loops, messageTexts_of_get? key at?_content ?_, (at?_key _ _).trans ?_⟩
    · rw [← same, copyMember_get?_of_ne _ _ _ (by decide),
        setMember_get?_of_ne (by decide), Fields.get?_cons, if_neg (by decide),
        Fields.get?_cons, if_pos rfl]
    · have absent : "system".toList ∉
          ["anthropic_version".toList, "messages".toList, "max_tokens".toList] := by
        decide
      rw [← same, copyMember_get?_of_ne _ _ _ (by decide),
        setMember_get?_self (Fields.get?_of_not_mem_keys absent), map_system]

/-- The text of a list of one text part. -/
theorem at?_textParts {fields : Fields} {key : Text} {text : Text}
    (found : fields.get? key = some (GeminiProvider.textParts text)) :
    (Json.obj fields).at? [.key key, .index 0, .key "text".toList] = some (.str text) := by
  rw [Json.at?, found, Option.bind_some, GeminiProvider.textParts, Json.at?,
    List.getElem?_cons_zero, Option.bind_some, at?_key, Fields.get?_cons, if_pos rfl]

theorem at?_parts (assistant : Bool) (text : Text) :
    (GeminiProvider.message assistant text).at? (Adapter.textPath .gemini) = some (.str text) := by
  refine at?_textParts ?_
  rw [Fields.get?_cons, if_neg (by decide), Fields.get?_cons, if_pos rfl]

theorem sends_gemini {payload body : Fields} (sent : GeminiProvider.body payload = .ok body) :
    ∃ messages, Loops payload messages ∧ Sends .gemini messages body := by
  rw [GeminiProvider.body, GeminiProvider.translate] at sent
  cases translated : splitMessages GeminiProvider.message payload with
  | error e =>
    rw [translated] at sent
    cases sent
  | ok split =>
    rw [translated] at sent
    obtain ⟨messages, loops, rfl⟩ := splitMessages_eq translated
    have same := Except.ok.inj sent
    have key : Adapter.messagesKey .gemini = "contents".toList := rfl
    refine ⟨messages, loops, messageTexts_of_get? key at?_parts ?_, ?_⟩
    · rw [← same, setMember_get?_of_ne (by decide),
        setMember_get?_of_ne (by decide),
        Fields.get?_cons, if_pos rfl]
    -- the system text is a member of its own, with the parts in it
    · have instruction : body.get? "systemInstruction".toList =
          (Split.system ⟨systemChunks messages, (spoken messages).map
            (renderMessage GeminiProvider.message)⟩).map fun system =>
              .obj [("parts".toList, GeminiProvider.textParts system)] := by
        rw [← same, setMember_get?_of_ne (by decide),
          setMember_get?_self]
        rw [Fields.get?_cons, if_neg (by decide)]
        rfl
      rw [Adapter.systemText, Adapter.systemPath, Json.at?, instruction, ← map_system messages]
      cases Split.system ⟨systemChunks messages, (spoken messages).map
        (renderMessage GeminiProvider.message)⟩ with
      | none => rfl
      | some system =>
        have parts : Fields.get? [("parts".toList, GeminiProvider.textParts system)]
            "parts".toList = some (GeminiProvider.textParts system) := by
          rw [Fields.get?_cons, if_pos rfl]
        exact at?_textParts parts

theorem Adapter.sends {adapter : Adapter} {model : Text} {payload : Fields} {stream : Bool}
    {body : Fields} (sent : adapter.body model payload stream = .ok body) :
    ∃ messages, Loops payload messages ∧ Sends adapter messages body := by
  cases adapter with
  | anthropic => exact sends_anthropic sent
  | gemini => exact sends_gemini sent
  | bedrock => exact sends_bedrock sent

/-! ## The walk of a provider -/

/-- The parts of a content that a provider flattens into the text of the message, by their types. -/
def isFlatPart : Json → Bool
  | .obj fields =>
    match Fields.get? fields "type".toList with
    | some (.str type) => type ∈ flatPartTypes
    | _ => false
  | _ => false

def flatPart (part : Json) : Walk Json :=
  if isFlatPart part then Walk.object [("text".toList, Walk.text)] part else .done part

def flatContent : Json → Walk Json := Walk.textOrList flatPart

/-- The texts of a message that a provider sends. -/
def flatMessage : Json → Walk Json := Walk.object [("content".toList, flatContent)]

theorem calm_flatPart : Walk.Calm flatPart := fun part => by
  rw [flatPart]
  split
  · exact calm_textMember _ part
  · rfl

theorem calm_flatContent : Walk.Calm flatContent := Walk.calm_textOrList calm_flatPart

theorem calm_flatMessage : Walk.Calm flatMessage := Walk.calm_object (by simp [calm_flatContent])

theorem isTextPart_of_isFlatPart {part : Json} (flat : isFlatPart part = true) :
    isTextPart part = true := by
  cases part with
  | obj fields =>
    have fewer : flatPartTypes ⊆ textPartTypes := by simp [flatPartTypes, textPartTypes]
    simp only [isFlatPart] at flat
    simp only [isTextPart]
    cases found : Fields.get? fields "type".toList with
    | none => simp only [found, Bool.false_eq_true] at flat
    | some type =>
      rw [found] at flat
      cases type with
      | str type => exact decide_eq_true (fewer (of_decide_eq_true flat))
      | _ => cases flat
  | _ => cases flat

/-- A provider passes over texts of the walk. -/
theorem sublist_flatPart (part : Json) : (flatPart part).calls.Sublist (walkPart part).calls := by
  rw [flatPart, walkPart]
  by_cases flat : isFlatPart part = true
  · rw [if_pos flat, if_pos (isTextPart_of_isFlatPart flat)]
  · rw [if_neg flat]
    exact List.nil_sublist _

theorem sublist_flatContent (content : Json) :
    (flatContent content).calls.Sublist (walkContent content).calls := by
  cases content with
  | arr parts =>
    exact Walk.sublist_items calm_flatPart sublist_flatPart (Walk.goes_items calm_walkPart 0 parts)
  | _ => exact List.Sublist.refl _

theorem sublist_flatMessage (message : Json) :
    (flatMessage message).calls.Sublist (walkMessage message).calls := by
  cases message with
  | obj fields =>
    have walked : (flatMessage (.obj fields)).calls =
        (Walk.members [("content".toList, flatContent)] fields).calls := rfl
    rw [walked]
    cases found : Fields.get? fields "content".toList with
    | none =>
      rw [Walk.members_cons_none found]
      exact List.nil_sublist _
    | some content =>
      rw [Walk.calls_members_cons found (calm_flatContent content)]
      have whole : (walkMessage (.obj fields)).calls = _ ++ _ :=
        Walk.calls_members_cons found (calm_walkContent content) _
      rw [whole]
      exact List.Sublist.append (Walk.sublist_under _ (sublist_flatContent content))
        (List.nil_sublist _)
  | _ => exact List.nil_sublist _

/-- `type in types`, for a type that may be any value. -/
def typeIn (types : List Text) : Json → Bool
  | .str type => type ∈ types
  | _ => false

theorem isFlatPart_eq (fields : Fields) :
    isFlatPart (.obj fields) = typeIn flatPartTypes (fields.getOrNull "type".toList) := by
  simp only [isFlatPart, Fields.getOrNull]
  cases Fields.get? fields "type".toList with
  | none => rfl
  | some type => cases type <;> rfl

/-- `x if isinstance(x, str)`. -/
def stringOf : Option Json → Option Text
  | some (.str s) => some s
  | _ => none

theorem texts_textMember (key : Text) (fields : Fields) :
    (Walk.object [(key, Walk.text)] (.obj fields)).texts = (stringOf (fields.get? key)).toList := by
  have walked : (Walk.object [(key, Walk.text)] (.obj fields)).texts =
      (Walk.members [(key, Walk.text)] fields).calls.map Prod.snd := rfl
  rw [walked]
  cases found : fields.get? key with
  | none =>
    rw [Walk.members_cons_none found]
    rfl
  | some value =>
    rw [Walk.calls_members_cons found (Walk.calm_text value)]
    cases value <;> rfl

theorem partText_eq (fields : Fields) : partText (.obj fields) =
    if isFlatPart (.obj fields) then stringOf (fields.get? "text".toList) else none := by
  rw [isFlatPart_eq, Fields.getOrNull]
  simp only [partText]
  cases Fields.get? fields "type".toList with
  | none => rfl
  | some type =>
    cases type with
    | str type =>
      cases Fields.get? fields "text".toList with
      | none => simp [stringOf]
      | some text => cases text <;> simp [stringOf, typeIn]
    | _ => rfl

theorem texts_flatPart (part : Json) : (flatPart part).texts = (partText part).toList := by
  cases part with
  | obj fields =>
    rw [flatPart, partText_eq]
    cases isFlatPart (.obj fields) with
    | true => exact texts_textMember _ fields
    | false => rfl
  | _ => rfl

theorem joined_flatContent (content : Json) :
    joined (flatContent content).calls = contentToText content := by
  cases content with
  | arr parts =>
    have texts :
        (flatContent (.arr parts)).texts = parts.flatMap fun part => (flatPart part).texts :=
      Walk.texts_items (Walk.goes_items calm_flatPart 0 parts)
    have flat :
        joined (flatContent (.arr parts)).calls = (flatContent (.arr parts)).texts.flatten := rfl
    rw [flat, texts, contentToText, List.filterMap_eq_flatMap_toList]
    simp only [texts_flatPart]
  | str s => exact List.append_nil s
  | _ => rfl

theorem joined_flatMessage (message : Json) :
    joined (flatMessage message).calls = messageText message := by
  cases message with
  | obj fields =>
    have walked : (flatMessage (.obj fields)).calls =
        (Walk.members [("content".toList, flatContent)] fields).calls := rfl
    rw [walked, messageText, Fields.getOrNull]
    cases found : Fields.get? fields "content".toList with
    | none =>
      rw [Walk.members_cons_none found]
      rfl
    | some content =>
      have texts : joined (Walk.under (.key "content".toList) (flatContent content)).calls =
          joined (flatContent content).calls := congrArg List.flatten (Walk.texts_under _ _)
      rw [Walk.calls_members_cons found (calm_flatContent content), Option.getD_some,
        ← joined_flatContent, ← texts]
      exact congrArg joined (List.append_nil _)
  | _ => rfl

/-! ## Visited strings -/

/-- The texts a provider sends of the message of an index, where the walk visits them. -/
def messageParts (message : Json × Nat) : List (Path × Text) :=
  (Walk.under (.key "messages".toList)
    (Walk.under (.index message.2) (flatMessage message.1))).calls

theorem joined_messageParts (message : Json × Nat) :
    joined (messageParts message) = messageText message.1 := by
  rw [← joined_flatMessage, messageParts, joined]
  exact congrArg List.flatten ((Walk.texts_under _ _).trans (Walk.texts_under _ _))

/-- The walk of a payload that it goes through visits the texts of all messages in their order, each
under the index of its message, and then those of the input. -/
theorem sublist_mapTexts {payload : Fields} (goes : (mapTexts payload).raises = false)
    {messages : List Json} (loops : Loops payload messages) :
    (messages.zipIdx.flatMap messageParts).Sublist (mapTexts payload).calls := by
  -- a payload without messages sends none; else the loop over them is the first member of the walk
  rcases loops.list with rfl | there
  · exact List.nil_sublist _
  · have found : payload.get? "messages".toList = some (.arr messages) := by
      rw [Fields.getOrNull] at there
      cases value : payload.get? "messages".toList with
      | none => simp only [value, Option.getD_none, reduceCtorEq] at there
      | some v => rw [value, Option.getD_some] at there; rw [there]
    have loop : walkLoop walkMessage (.arr messages) = Walk.list walkMessage (.arr messages) := by
      simp [walkLoop, unloopable, iterable]
    rw [mapTexts, Walk.members_cons_some found] at goes
    have first : (Walk.items walkMessage 0 messages).raises = false := by
      have first := (Walk.goes_of_both goes).1
      rwa [loop] at first
    have goes' : (walkLoop walkMessage (.arr messages)).raises = false := by
      rw [loop]
      exact first
    rw [mapTexts, Walk.calls_members_cons found goes', loop]
    refine List.Sublist.trans ?_ (List.sublist_append_left _ _)
    have part := Walk.sublist_items calm_flatMessage sublist_flatMessage first
    rw [Walk.calls_items (Walk.goes_items calm_flatMessage 0 messages)] at part
    have under := part.map fun c => (Step.key "messages".toList :: c.1, c.2)
    rw [List.map_flatMap] at under
    exact under

theorem sublist_visitedInMessages {payload : Fields} (goes : (mapTexts payload).raises = false)
    {messages : List Json} (loops : Loops payload messages) :
    (messages.zipIdx.flatMap messageParts).Sublist (visitedInMessages payload) := by
  have kept := (sublist_mapTexts goes loops).filter
    fun call => call.1.head? = some (.key "messages".toList)
  rwa [List.filter_eq_self.mpr] at kept
  intro call member
  obtain ⟨message, _, member⟩ := List.mem_flatMap.mp member
  obtain ⟨_, _, rfl⟩ := List.mem_map.mp member
  exact decide_eq_true rfl

theorem map_joined (test : Json → Bool) (messages : List Json) :
    (((messages.zipIdx.filter (test ·.1)).map messageParts).map joined) =
      (messages.filter test).map messageText := by
  conv_rhs => rw [← List.zipIdx_map_fst 0 messages]
  rw [List.filter_map, List.map_map, List.map_map]
  exact List.map_congr_left fun m _ => joined_messageParts m

theorem systemChunks_eq (messages : List Json) : systemChunks messages =
    (messages.filter fun m => !(messageText m).isEmpty && isSystem m).map messageText := by
  rw [systemChunks, List.filter_map, List.filter_filter]
  rfl

theorem forwardsVisited (adapter : Adapter) {payload : Fields}
    (goes : (mapTexts payload).raises = false) : ForwardsVisited adapter payload := by
  intro model stream body sent
  obtain ⟨messages, loops, texts, system⟩ := adapter.sends sent
  have visited := sublist_visitedInMessages goes loops
  have selected (test : Json → Bool) :
      ((messages.zipIdx.filter (test ·.1)).map messageParts).flatten.Sublist
        (visitedInMessages payload) := by
    rw [← List.flatMap_def]
    exact (List.filter_sublist.flatMap messageParts).trans visited
  refine ⟨_, _, selected (!isSystem ·), selected fun m => !(messageText m).isEmpty && isSystem m,
    ?_, ?_⟩
  · have same := congrArg (List.map fun text => some (Json.str text))
      (map_joined (!isSystem ·) messages)
    rw [texts, spoken]
    simpa only [List.map_map, Function.comp_def] using same.symm
  · rw [system, systemValue, systemChunks_eq, ← map_joined]
    simp only [List.isEmpty_map]

/-! ## Payloads that agree -/

def roleOf : Json → Json
  | .obj fields => Fields.getOrNull fields "role".toList
  | _ => .null

def contentOf : Json → Json
  | .obj fields => Fields.getOrNull fields "content".toList
  | _ => .null

/-- The type of a part that is an object, and whether it has a text: what decides whether the walk
visits it. -/
def partShape : Json → Option (Json × Bool)
  | .obj fields => some (Fields.getOrNull fields "type".toList,
      (stringOf (Fields.get? fields "text".toList)).isSome)
  | _ => none

inductive ContentShape where
  | text
  | parts (shapes : List (Option (Json × Bool)))
  | other

def contentShape : Json → ContentShape
  | .str _ => .text
  | .arr parts => .parts (parts.map partShape)
  | _ => .other

/-- Two messages of one role and one shape of content, with the same visited strings. -/
structure Agrees (message message' : Json) : Prop where
  role : roleOf message = roleOf message'
  content : contentShape (contentOf message) = contentShape (contentOf message')
  visited : (walkMessage message).texts = (walkMessage message').texts

/-- The messages of two payloads that a provider goes over agree with one another, one by one. -/
def MessagesAgree (payload payload' : Fields) : Prop :=
  ∃ messages messages', loopOver (payload.getOrNull "messages".toList) = .ok messages ∧
    loopOver (payload'.getOrNull "messages".toList) = .ok messages' ∧
    List.Forall₂ Agrees messages messages'

theorem isTextPart_eq (fields : Fields) :
    isTextPart (.obj fields) = typeIn textPartTypes (fields.getOrNull "type".toList) := by
  simp only [isTextPart, Fields.getOrNull]
  cases Fields.get? fields "type".toList with
  | none => rfl
  | some type => cases type <;> rfl

theorem isRole_eq (name : Text) (message : Json) :
    isRole name message = typeIn [name] (roleOf message) := by
  cases message with
  | obj fields =>
    simp only [isRole, roleOf, Fields.getOrNull]
    cases Fields.get? fields "role".toList with
    | none => rfl
    | some role => cases role <;> simp [typeIn]
  | _ => rfl

theorem texts_walkPart (fields : Fields) : (walkPart (.obj fields)).texts =
    if isTextPart (.obj fields) then (stringOf (fields.get? "text".toList)).toList else [] := by
  rw [walkPart]
  cases isTextPart (.obj fields) with
  | true => exact texts_textMember _ fields
  | false => rfl

/-- Parts of one shape have equally many visited strings, and these strings determine the text of
the part: whatever else the part holds is not read. -/
theorem part_agrees {part part' : Json} (shape : partShape part = partShape part') :
    (walkPart part).texts.length = (walkPart part').texts.length ∧
      ((walkPart part).texts = (walkPart part').texts → partText part = partText part') := by
  cases part with
  | obj fields =>
    cases part' with
    | obj fields' =>
      obtain ⟨type, hasText⟩ := Prod.mk.inj (Option.some.inj shape)
      have text : isTextPart (.obj fields) = isTextPart (.obj fields') := by
        rw [isTextPart_eq, isTextPart_eq, type]
      have flat : isFlatPart (.obj fields) = isFlatPart (.obj fields') := by
        rw [isFlatPart_eq, isFlatPart_eq, type]
      rw [texts_walkPart, texts_walkPart, partText_eq, partText_eq, ← text, ← flat]
      -- only whether there is a text matters from here on, not where it comes from
      generalize stringOf (Fields.get? fields "text".toList) = string at hasText ⊢
      generalize stringOf (Fields.get? fields' "text".toList) = string' at hasText ⊢
      constructor
      · split
        · cases string <;> cases string' <;> simp at hasText ⊢
        · rfl
      · intro same
        by_cases sent : isFlatPart (.obj fields) = true
        · -- what is sent is visited, so the visited strings tell it
          rw [if_pos (isTextPart_of_isFlatPart sent),
            if_pos (isTextPart_of_isFlatPart sent)] at same
          rw [if_pos sent, if_pos sent]
          cases string <;> cases string' <;> simp at same ⊢
          exact same
        · rw [if_neg sent, if_neg sent]
    | _ => cases shape
  | _ =>
    cases part' with
    | obj fields' => cases shape
    | _ => exact ⟨rfl, fun _ => rfl⟩

theorem parts_agree {parts parts' : List Json}
    (shapes : parts.map partShape = parts'.map partShape) :
    (parts.flatMap fun part => (walkPart part).texts).length =
      (parts'.flatMap fun part => (walkPart part).texts).length ∧
    ((parts.flatMap fun part => (walkPart part).texts) =
      (parts'.flatMap fun part => (walkPart part).texts) →
      parts.filterMap partText = parts'.filterMap partText) := by
  induction parts generalizing parts' with
  | nil =>
    obtain rfl := List.map_eq_nil_iff.mp shapes.symm
    exact ⟨rfl, fun _ => rfl⟩
  | cons part rest ih =>
    obtain ⟨part', rest', rfl, shape, shapes⟩ := List.map_eq_cons_iff.mp shapes.symm
    obtain ⟨width, text⟩ := part_agrees shape.symm
    obtain ⟨widths, texts⟩ := ih shapes.symm
    simp only [List.flatMap_cons]
    constructor
    · rw [List.length_append, List.length_append, width, widths]
    · intro same
      obtain ⟨here, there⟩ := List.append_inj same width
      rw [List.filterMap_cons, List.filterMap_cons, text here, texts there]

theorem content_agrees {content content' : Json}
    (shape : contentShape content = contentShape content') :
    (walkContent content).texts.length = (walkContent content').texts.length ∧
      ((walkContent content).texts = (walkContent content').texts →
        contentToText content = contentToText content') := by
  have walked (parts : List Json) : (walkContent (.arr parts)).texts =
      parts.flatMap fun part => (walkPart part).texts :=
    Walk.texts_items (Walk.goes_items calm_walkPart 0 parts)
  -- a string is one visited text, a list has those of its parts, and anything else none
  cases content with
  | str s =>
    cases content' with
    | str s' =>
      exact ⟨rfl, fun same => (List.cons.inj same).1⟩
    | _ => cases shape
  | arr parts =>
    cases content' with
    | arr parts' =>
      obtain ⟨widths, texts⟩ := parts_agree (ContentShape.parts.inj shape)
      rw [walked, walked]
      exact ⟨widths, fun same => congrArg List.flatten (texts same)⟩
    | _ => cases shape
  | _ =>
    cases content' with
    | str s' => cases shape
    | arr parts' => cases shape
    | _ => exact ⟨rfl, fun _ => rfl⟩

/-- The strings of the content come first among those that the walk of a message visits; the
arguments of tool calls come behind them. -/
theorem content_prefix (message : Json) :
    (walkContent (contentOf message)).texts <+: (walkMessage message).texts := by
  cases message with
  | obj fields =>
    rw [contentOf, Fields.getOrNull]
    cases found : Fields.get? fields "content".toList with
    | none => exact List.nil_prefix
    | some content =>
      have whole : (walkMessage (.obj fields)).calls = _ ++ _ :=
        Walk.calls_members_cons found (calm_walkContent content) _
      have texts : (walkMessage (.obj fields)).texts =
          (Walk.under (.key "content".toList) (walkContent content)).texts ++ _ :=
        (congrArg (List.map Prod.snd) whole).trans (List.map_append ..)
      rw [texts, Walk.texts_under, Option.getD_some]
      exact List.prefix_append _ _
  | _ => exact List.nil_prefix

theorem Agrees.messageText {message message' : Json} (agrees : Agrees message message') :
    messageText message = messageText message' := by
  obtain ⟨width, text⟩ := content_agrees agrees.content
  obtain ⟨rest, first⟩ := content_prefix message
  obtain ⟨rest', first'⟩ := content_prefix message'
  have same := agrees.visited
  rw [← first, ← first'] at same
  have content (message : Json) : RedactGate.messageText message =
      contentToText (contentOf message) := by
    cases message <;> rfl
  rw [content, content]
  exact text (List.append_inj same width).1

theorem Agrees.isSystem {message message' : Json} (agrees : Agrees message message') :
    isSystem message = isSystem message' := by
  rw [RedactGate.isSystem, RedactGate.isSystem, isRole_eq, isRole_eq, agrees.role]

theorem spoken_agree {messages messages' : List Json}
    (agree : List.Forall₂ Agrees messages messages') :
    (spoken messages).map messageText = (spoken messages').map messageText := by
  induction agree with
  | nil => rfl
  | @cons message message' rest rest' agrees _ ih =>
    rw [spoken, spoken, List.filter_cons, List.filter_cons, ← agrees.isSystem]
    split
    · rw [List.map_cons, List.map_cons, ← agrees.messageText]
      exact congrArg _ ih
    · exact ih

theorem systemChunks_agree {messages messages' : List Json}
    (agree : List.Forall₂ Agrees messages messages') :
    systemChunks messages = systemChunks messages' := by
  rw [systemChunks_eq, systemChunks_eq]
  induction agree with
  | nil => rfl
  | @cons message message' rest rest' agrees _ ih =>
    rw [List.filter_cons, List.filter_cons, ← agrees.isSystem, ← agrees.messageText]
    split
    · rw [List.map_cons, List.map_cons, ← agrees.messageText]
      exact congrArg _ ih
    · exact ih

/-- Two payloads whose messages agree in their shapes and visited strings make each adapter send the
same texts, in the messages and in the system text. -/
theorem sends_agree {adapter : Adapter} {model model' : Text} {payload payload' : Fields}
    {stream stream' : Bool} {body body' : Fields} (agree : MessagesAgree payload payload')
    (sent : adapter.body model payload stream = .ok body)
    (sent' : adapter.body model' payload' stream' = .ok body') :
    adapter.messageTexts body = adapter.messageTexts body' ∧
      adapter.systemText body = adapter.systemText body' := by
  obtain ⟨messages, messages', elements, elements', agree⟩ := agree
  obtain ⟨_, loops, texts, system⟩ := adapter.sends sent
  obtain ⟨_, loops', texts', system'⟩ := adapter.sends sent'
  obtain rfl := Except.ok.inj (elements.symm.trans loops.elements)
  obtain rfl := Except.ok.inj (elements'.symm.trans loops'.elements)
  constructor
  · have same := congrArg (List.map fun text => some (Json.str text)) (spoken_agree agree)
    rw [texts, texts']
    simpa only [List.map_map, Function.comp_def] using same
  · rw [system, system', systemChunks_agree agree]

/-! ## Providers -/

/-- Of the body that an adapter builds a provider reads visited strings only: for every payload that
the walk goes over without raising, the texts of the messages and the system text are made of
visited strings in the order of the walk. Two payloads whose messages agree in role, shape of
content and visited strings give the same texts, so that other members of messages do not show. -/
theorem adapters_send_visited (adapter : Adapter) :
    (∀ payload, (mapTexts payload).raises = false → ForwardsVisited adapter payload) ∧
    ∀ payload payload', MessagesAgree payload payload' →
      ∀ model model' stream stream' body body',
        adapter.body model payload stream = .ok body →
        adapter.body model' payload' stream' = .ok body' →
        adapter.messageTexts body = adapter.messageTexts body' ∧
          adapter.systemText body = adapter.systemText body' := by
  constructor
  · intro payload goes
    exact forwardsVisited adapter goes
  · intro payload payload' agree model model' stream stream' body body' sent sent'
    exact sends_agree agree sent sent'

/-- A greeting of a user, with a name that is not walked. -/
def greeting (name : Text) : Fields :=
  [("messages".toList, .arr [.obj [("role".toList, .str "user".toList),
    ("content".toList, .str "hello".toList), ("name".toList, .str name)]])]

theorem adapters_send_visited_greeting : ForwardsVisited .gemini (greeting "Ann".toList) ∧
    ∀ body body', Adapter.body .gemini [] (greeting "Ann".toList) false = .ok body →
      Adapter.body .gemini [] (greeting "Bob".toList) false = .ok body' →
      Adapter.messageTexts .gemini body = Adapter.messageTexts .gemini body' := by
  obtain ⟨visited, same⟩ := adapters_send_visited .gemini
  have agree : MessagesAgree (greeting "Ann".toList) (greeting "Bob".toList) := by
    refine ⟨_, _, rfl, rfl, .cons ⟨?_, ?_, ?_⟩ .nil⟩
    · rw [roleOf, roleOf, Fields.getOrNull, Fields.getOrNull, Fields.get?_cons, if_pos rfl,
        Fields.get?_cons, if_pos rfl]
    · have other : "role".toList ≠ "content".toList := by decide
      rw [contentOf, contentOf, Fields.getOrNull, Fields.getOrNull, Fields.get?_cons, if_neg other,
        Fields.get?_cons, if_pos rfl, Fields.get?_cons, if_neg other, Fields.get?_cons, if_pos rfl]
    · decide
  exact ⟨visited _ (by decide), fun body body' sent sent' =>
    (same _ _ agree _ _ _ _ body body' sent sent').1⟩

/-- A message of a user. -/
def said (text : Text) : Json :=
  .obj [("role".toList, .str "user".toList), ("content".toList, .str text)]

/-- The walk raises at the first message, before it comes to the second. -/
def toolCallsNumber : Fields :=
  [("messages".toList, .arr [.obj [("tool_calls".toList, .number 5)], said "call Ann".toList])]

theorem anthropic_sends_unvisited : ¬ForwardsVisited .anthropic toolCallsNumber := by
  intro all
  have calls : (mapTexts toolCallsNumber).calls = [] := by decide
  cases sent : Adapter.body .anthropic [] toolCallsNumber false with
  | error e =>
    have succeeds : (Adapter.body .anthropic [] toolCallsNumber false).isOk = true := by
      decide
    rw [sent] at succeeds
    cases succeeds
  | ok body =>
    obtain ⟨messages, _, visited, _, texts, _⟩ := all _ _ body sent
    obtain ⟨elements, loops, sends, _⟩ := Adapter.sends sent
    obtain rfl := Except.ok.inj loops.elements
    rw [visitedInMessages, calls, List.filter_nil, List.sublist_nil,
      List.flatten_eq_nil_iff] at visited
    -- the text of the tool calls is in the body, although the walk has visited nothing
    have member : some (Json.str "call Ann".toList) ∈ Adapter.messageTexts .anthropic body := by
      rw [sends]
      have text : messageText (said "call Ann".toList) = "call Ann".toList := by decide
      refine List.mem_map.mpr ⟨said "call Ann".toList, List.mem_filter.mpr ⟨?_, ?_⟩, by rw [text]⟩
      · exact List.mem_cons_of_mem _ List.mem_cons_self
      · decide
    rw [texts] at member
    obtain ⟨parts, among, same⟩ := List.mem_map.mp member
    rw [visited parts among] at same
    have empty := Json.str.inj (Option.some.inj same)
    exact absurd empty (by decide)

end RedactGate
