import RedactGate.Gateway.OpenAI
import RedactGate.Schemas.OpenAI

/-!
# Completeness of the text walk

The places that carry prompt text, and which of them the walk reaches. The walk takes
one of several branches for each element of the `input` list, filters content parts by
their type and ends at the first value it cannot loop over, so a place is reached under
conditions on its surroundings.
-/
namespace RedactGate

open Library Library.Json

/-! ## Places of prompt text -/

/-- The places of a message, or of a message-like element of `input`, that hold text of a prompt:
contents, parts and arguments. -/
inductive MessagePlace : Path → Prop
  | content : MessagePlace [.key "content".toList]
  | part (j : Nat) : MessagePlace [.key "content".toList, .index j, .key "text".toList]
  | toolArguments (k : Nat) : MessagePlace [.key "tool_calls".toList, .index k,
      .key "function".toList, .key "arguments".toList]
  | functionArguments : MessagePlace [.key "function_call".toList, .key "arguments".toList]

/-- The places of a request payload that hold text of a prompt, in its messages, its input and its
instructions. -/
inductive PromptPlace : Path → Prop
  | message (i : Nat) {p : Path} : MessagePlace p →
      PromptPlace (.key "messages".toList :: .index i :: p)
  | input : PromptPlace [.key "input".toList]
  | item (i : Nat) {p : Path} : MessagePlace p → PromptPlace (.key "input".toList :: .index i :: p)
  | itemString (i : Nat) {key : Text} :
      key ∈ ["text".toList, "arguments".toList, "output".toList] →
      PromptPlace [.key "input".toList, .index i, .key key]
  | instructions : PromptPlace [.key "instructions".toList]

/-- The walk hands the string at each of these places to the callback exactly once, and
a pass-through provider is sent what the callback made of it. -/
def PassedOnce (payload : Fields) : Prop :=
  ∀ p text, PromptPlace p → (Json.obj payload).at? p = some (.str text) →
    (∀ (σ : Type) (fn : Path → Text → StateM σ Text) (s : σ),
      (((mapTexts payload).run (Walk.traced fn)).run ([], s)).2.1.count (p, text) = 1) ∧
    ∀ (redact : Path → Text → Text) (out : Fields) (model : Text) (stream : Bool),
      (mapTexts payload).run (m := Id) redact = some out →
      (Json.obj (OpenAIProvider.body model out stream)).at? p = some (.str (redact p text))

/-! ## Places that are reached -/

/-- The tool calls of a message cannot be looped over, so that the walk raises there and comes to no
later place. -/
def stops : Json → Bool
  | .obj fields =>
    match Fields.get? fields "tool_calls".toList with
    | some calls => unloopable calls
    | none => false
  | _ => false

inductive MessageReaches (msg : Json) : Path → Prop
  | content : MessageReaches msg [.key "content".toList]
  | part {j : Nat} {part : Json} : msg.at? [.key "content".toList, .index j] = some part →
      isTextPart part = true →
      MessageReaches msg [.key "content".toList, .index j, .key "text".toList]
  | toolArguments (k : Nat) : MessageReaches msg [.key "tool_calls".toList, .index k,
      .key "function".toList, .key "arguments".toList]
  | functionArguments : stops msg = false →
      MessageReaches msg [.key "function_call".toList, .key "arguments".toList]

/-- The loop over the messages comes to its end. -/
def messagesPass (payload : Fields) : Prop :=
  ∀ value, payload.get? "messages".toList = some value → unloopable value = false ∧
    ∀ xs, value = .arr xs → ∀ msg ∈ xs, stops msg = false

inductive Reached (payload : Fields) : Path → Prop
  | message {xs : List Json} {i : Nat} {msg : Json} {p : Path} :
      payload.get? "messages".toList = some (.arr xs) → xs[i]? = some msg →
      (∀ before ∈ xs.take i, stops before = false) → MessageReaches msg p →
      Reached payload (.key "messages".toList :: .index i :: p)
  | input : messagesPass payload → Reached payload [.key "input".toList]
  | messageItem {xs : List Json} {i : Nat} {item : Json} {p : Path} : messagesPass payload →
      payload.get? "input".toList = some (.arr xs) → xs[i]? = some item →
      (∀ before ∈ xs.take i, stops before = false) → isMessageItem item = true →
      MessageReaches item p → Reached payload (.key "input".toList :: .index i :: p)
  | bareItem {xs : List Json} {i : Nat} {item : Json} : messagesPass payload →
      payload.get? "input".toList = some (.arr xs) → xs[i]? = some item →
      (∀ before ∈ xs.take i, stops before = false) → isMessageItem item = false →
      Reached payload [.key "input".toList, .index i, .key "text".toList]

/-- Every string at a place of prompt text is at a place that is reached. -/
def Covered (payload : Fields) : Prop :=
  ∀ p text, PromptPlace p → (Json.obj payload).at? p = some (.str text) → Reached payload p

/-! ## The walk of a message -/

theorem walkMessage_raises (msg : Json) : (walkMessage msg).raises = stops msg := by
  cases msg with
  | obj fields =>
    have content (v : Json) := calm_walkContent v
    have function (v : Json) := calm_walkFunction v
    have calls (v : Json) := walkLoop_raises calm_walkToolCall v
    simp only [walkMessage, Walk.object, Walk.map, Walk.members, stops]
    cases Fields.get? fields "content".toList <;>
      cases Fields.get? fields "tool_calls".toList <;>
      cases Fields.get? fields "function_call".toList <;>
      simp [Walk.both, Walk.under, Walk.done, content, function, calls]
  | _ => rfl

theorem mem_walkPart {part : Json} {p : Path} : p ∈ (walkPart part).paths ↔
    isTextPart part = true ∧ p = [.key "text".toList] ∧ ∃ s, part.at? p = some (.str s) := by
  rw [walkPart]
  split
  next typed => rw [Walk.mem_paths_textMember]; simp [typed]
  next untyped => simp [untyped, Walk.done, Walk.paths]

theorem mem_walkContent {content : Json} {p : Path} : p ∈ (walkContent content).paths ↔
    (∃ s, content.at? p = some (.str s)) ∧ (p = [] ∨ ∃ j part, content.at? [.index j] = some part ∧
      isTextPart part = true ∧ p = [.index j, .key "text".toList]) := by
  constructor
  · intro member
    refine ⟨lawful_walkContent.string_of_mem member, ?_⟩
    rcases Walk.mem_paths_textOrList.mp member with ⟨rfl, _⟩ | listed
    · exact .inl rfl
    · obtain ⟨parts, j, part, q, rfl, at_j, rfl, within, _⟩ := Walk.mem_paths_list.mp listed
      obtain ⟨typed, rfl, _⟩ := mem_walkPart.mp within
      exact .inr ⟨j, part, Json.at?_index_eq_some.mpr ⟨parts, part, rfl, at_j, Json.at?_nil part⟩,
        typed, rfl⟩
  · rintro ⟨⟨s, there⟩, rfl | ⟨j, part, at_j, typed, rfl⟩⟩
    · rw [Json.at?_nil, Option.some.injEq] at there
      exact Walk.mem_paths_textOrList.mpr (.inl ⟨rfl, s, there⟩)
    · obtain ⟨parts, item, rfl, here, rest⟩ := Json.at?_index_eq_some.mp there
      obtain ⟨_, _, same, here', rest'⟩ := Json.at?_index_eq_some.mp at_j
      cases same
      rw [here, Option.some.injEq] at here'
      rw [Json.at?_nil, Option.some.injEq] at rest'
      subst here' rest'
      exact Walk.mem_paths_textOrList.mpr (.inr (Walk.mem_paths_list.mpr ⟨parts, j, item, _, rfl,
        here, rfl, mem_walkPart.mpr ⟨typed, rfl, s, rest⟩, fun y _ => calm_walkPart y⟩))

theorem mem_walkToolCalls {calls : Json} {p : Path} : p ∈ (walkLoop walkToolCall calls).paths ↔
    (∃ s, calls.at? p = some (.str s)) ∧
      ∃ k, p = [.index k, .key "function".toList, .key "arguments".toList] := by
  constructor
  · intro member
    refine ⟨(lawful_walkLoop lawful_walkToolCall).string_of_mem member, ?_⟩
    rw [walkLoop] at member
    split at member
    · simp [Walk.raise, Walk.paths] at member
    · obtain ⟨_, k, _, _, _, _, rfl, within, _⟩ := Walk.mem_paths_list.mp member
      obtain ⟨_, _, _, _, _, rfl, here⟩ := Walk.mem_paths_member.mp within
      obtain ⟨rfl, _⟩ := Walk.mem_paths_textMember.mp here
      exact ⟨k, rfl⟩
  · rintro ⟨⟨s, there⟩, k, rfl⟩
    obtain ⟨items, call, rfl, at_k, rest⟩ := Json.at?_index_eq_some.mp there
    obtain ⟨fields, function, rfl, found, last⟩ := Json.at?_key_eq_some.mp rest
    have loops : unloopable (.arr items) = false := by simp [unloopable, iterable]
    rw [walkLoop, loops, if_neg Bool.false_ne_true]
    exact Walk.mem_paths_list.mpr ⟨items, k, _, _, rfl, at_k, rfl, Walk.mem_paths_member.mpr
      ⟨fields, function, _, rfl, found, rfl, Walk.mem_paths_textMember.mpr ⟨rfl, s, last⟩⟩,
      fun y _ => calm_walkToolCall y⟩

theorem stops_eq_false {fields : Fields} : stops (.obj fields) = false ↔
    ∀ calls, Fields.get? fields "tool_calls".toList = some calls →
      (walkLoop walkToolCall calls).raises = false := by
  simp only [walkLoop_raises calm_walkToolCall]
  rw [stops]
  cases Fields.get? fields "tool_calls".toList with
  | none => simp
  | some calls => simp

theorem mem_walkMessage {msg : Json} {p : Path} : p ∈ (walkMessage msg).paths ↔
    (∃ s, msg.at? p = some (.str s)) ∧ MessageReaches msg p := by
  constructor
  · intro member
    refine ⟨lawful_walkMessage.string_of_mem member, ?_⟩
    obtain ⟨fields, rfl, member⟩ := Walk.mem_paths_object.mp member
    -- content, then tool calls, then the function call, each reached only if those before do not
    -- raise
    rcases Walk.mem_paths_members_cons.mp member with ⟨content, q, found, rfl, here⟩ | ⟨_, member⟩
    · rcases (mem_walkContent.mp here).2 with rfl | ⟨j, part, at_j, typed, rfl⟩
      · exact .content
      · exact .part (Json.at?_key_eq_some.mpr ⟨fields, content, rfl, found, at_j⟩) typed
    rcases Walk.mem_paths_members_cons.mp member with ⟨calls, q, _, rfl, here⟩ | ⟨goes, member⟩
    · obtain ⟨k, rfl⟩ := (mem_walkToolCalls.mp here).2
      exact .toolArguments k
    rcases Walk.mem_paths_members_cons.mp member with ⟨function, q, _, rfl, here⟩ | ⟨_, nowhere⟩
    · obtain ⟨rfl, _⟩ := Walk.mem_paths_textMember.mp here
      exact .functionArguments (stops_eq_false.mpr goes)
    · exact absurd nowhere Walk.mem_paths_members_nil
  · rintro ⟨⟨s, there⟩, reaches⟩
    have content_calm : ∀ fields value, Fields.get? fields "content".toList = some value →
        (walkContent value).raises = false := fun _ value _ => calm_walkContent value
    cases reaches with
    | content =>
      obtain ⟨fields, content, rfl, found, rest⟩ := Json.at?_key_eq_some.mp there
      exact Walk.mem_paths_object.mpr ⟨fields, rfl, Walk.mem_paths_members_cons.mpr
        (.inl ⟨content, _, found, rfl, mem_walkContent.mpr ⟨⟨s, rest⟩, .inl rfl⟩⟩)⟩
    | @part j part at_part typed =>
      obtain ⟨fields, content, rfl, found, rest⟩ := Json.at?_key_eq_some.mp there
      rw [Json.at?, found, Option.bind_some] at at_part
      exact Walk.mem_paths_object.mpr ⟨fields, rfl, Walk.mem_paths_members_cons.mpr (.inl
        ⟨content, _, found, rfl,
          mem_walkContent.mpr ⟨⟨s, rest⟩, .inr ⟨j, part, at_part, typed, rfl⟩⟩⟩)⟩
    | toolArguments k =>
      obtain ⟨fields, calls, rfl, found, rest⟩ := Json.at?_key_eq_some.mp there
      exact Walk.mem_paths_object.mpr ⟨fields, rfl, Walk.mem_paths_members_cons.mpr (.inr
        ⟨content_calm fields, Walk.mem_paths_members_cons.mpr (.inl
          ⟨calls, _, found, rfl, mem_walkToolCalls.mpr ⟨⟨s, rest⟩, k, rfl⟩⟩)⟩)⟩
    | functionArguments goes =>
      obtain ⟨fields, function, rfl, found, rest⟩ := Json.at?_key_eq_some.mp there
      exact Walk.mem_paths_object.mpr ⟨fields, rfl, Walk.mem_paths_members_cons.mpr (.inr
        ⟨content_calm fields, Walk.mem_paths_members_cons.mpr (.inr ⟨stops_eq_false.mp goes,
          Walk.mem_paths_members_cons.mpr (.inl
            ⟨function, _, found, rfl, Walk.mem_paths_textMember.mpr ⟨rfl, s, rest⟩⟩)⟩)⟩)⟩

/-! ## The walk of a payload -/

theorem walkInputItem_raises (item : Json) : (walkInputItem item).raises = stops item := by
  rw [walkInputItem]
  cases message : isMessageItem item with
  | true => exact walkMessage_raises item
  | false =>
    have calm : Walk.Calm (Walk.object [("text".toList, Walk.text)]) :=
      Walk.calm_object (by simp [Walk.calm_text])
    have bare := calm item
    cases item with
    | obj fields =>
      have absent : Fields.get? fields "tool_calls".toList = none := by
        simp only [isMessageItem, Bool.or_eq_false_iff, Fields.hasKey, Option.isSome_eq_false_iff,
          Option.isNone_iff_eq_none] at message
        exact message.2
      rw [stops, absent]
      exact bare
    | _ => exact bare

theorem mem_walkInputItem {item : Json} {p : Path} : p ∈ (walkInputItem item).paths ↔
    (∃ s, item.at? p = some (.str s)) ∧
      if isMessageItem item then MessageReaches item p else p = [.key "text".toList] := by
  rw [walkInputItem]
  split
  · exact mem_walkMessage
  · rw [Walk.mem_paths_textMember, and_comm]

theorem messagesPass_iff {payload : Fields} : messagesPass payload ↔
    ∀ value, payload.get? "messages".toList = some value →
      (walkLoop walkMessage value).raises = false := by
  refine forall₂_congr fun value _ => ?_
  rw [walkLoop]
  cases loops : unloopable value with
  | true => simp [Walk.raise]
  | false =>
    rw [if_neg Bool.false_ne_true]
    cases value with
    | arr xs =>
      simp only [true_and, Walk.list, Walk.map, Walk.raises_items, walkMessage_raises,
        List.any_eq_false, Bool.not_eq_true]
      exact ⟨fun all => all xs rfl, fun all ys same => Json.arr.inj same ▸ all⟩
    | _ => simp [Walk.list, Walk.done]

theorem mem_walkMessages {messages : Json} {p : Path} :
    p ∈ (walkLoop walkMessage messages).paths ↔ ∃ xs i msg q, messages = .arr xs ∧
      xs[i]? = some msg ∧ p = .index i :: q ∧ ((∃ s, msg.at? q = some (.str s)) ∧
      MessageReaches msg q) ∧ ∀ before ∈ xs.take i, stops before = false := by
  simp only [← mem_walkMessage, ← walkMessage_raises]
  rw [walkLoop]
  split
  next raises =>
    constructor
    · intro member
      simp [Walk.raise, Walk.paths] at member
    · rintro ⟨xs, _, _, _, rfl, _⟩
      simp [unloopable, iterable] at raises
  · exact Walk.mem_paths_list

theorem mem_walkInput {input : Json} {p : Path} : p ∈ (walkInput input).paths ↔
    (p = [] ∧ ∃ s, input = .str s) ∨ ∃ xs i item q, input = .arr xs ∧ xs[i]? = some item ∧
      p = .index i :: q ∧ q ∈ (walkInputItem item).paths ∧
      ∀ before ∈ xs.take i, stops before = false := by
  simp only [← walkInputItem_raises]
  rw [walkInput, Walk.mem_paths_textOrList, Walk.mem_paths_list]

/-- The places whose strings are handed to the callback are exactly the ones that hold a string and
that the walk reaches before it raises. -/
theorem mem_mapTexts {payload : Fields} {p : Path} : p ∈ (mapTexts payload).paths ↔
    (∃ s, (Json.obj payload).at? p = some (.str s)) ∧ Reached payload p := by
  constructor
  · intro member
    obtain ⟨text, called⟩ := Walk.mem_paths.mp member
    refine ⟨⟨text, mapTexts_sound called⟩, ?_⟩
    -- messages, then input: a raise in the first leaves the second unvisited
    rcases Walk.mem_paths_members_cons.mp member with ⟨messages, q, found, rfl, here⟩ |
      ⟨goes, member⟩
    · obtain ⟨xs, i, msg, q, rfl, at_i, rfl, ⟨_, reaches⟩, before⟩ := mem_walkMessages.mp here
      exact .message found at_i before reaches
    rcases Walk.mem_paths_members_cons.mp member with ⟨input, q, found, rfl, here⟩ | ⟨_, nowhere⟩
    · have pass := messagesPass_iff.mpr goes
      rcases mem_walkInput.mp here with ⟨rfl, _⟩ | ⟨xs, i, item, q, rfl, at_i, rfl, within, before⟩
      · exact .input pass
      · have reaches := (mem_walkInputItem.mp within).2
        cases message : isMessageItem item with
        | true =>
          exact .messageItem pass found at_i before message (by simpa [message] using reaches)
        | false =>
          rw [message, if_neg Bool.false_ne_true] at reaches
          exact reaches ▸ .bareItem pass found at_i before message
    · exact absurd nowhere Walk.mem_paths_members_nil
  · rintro ⟨⟨s, there⟩, reached⟩
    cases reached with
    | message found at_i before reaches =>
      rw [Json.at?, found, Option.bind_some, Json.at?, at_i, Option.bind_some] at there
      exact Walk.mem_paths_members_cons.mpr (.inl ⟨_, _, found, rfl, mem_walkMessages.mpr
        ⟨_, _, _, _, rfl, at_i, rfl, ⟨⟨s, there⟩, reaches⟩, before⟩⟩)
    | input pass =>
      obtain ⟨fields, input, same, found, rest⟩ := Json.at?_key_eq_some.mp there
      obtain rfl := Json.obj.inj same
      rw [Json.at?_nil, Option.some.injEq] at rest
      exact Walk.mem_paths_members_cons.mpr (.inr ⟨messagesPass_iff.mp pass,
        Walk.mem_paths_members_cons.mpr (.inl ⟨input, _, found, rfl,
          mem_walkInput.mpr (.inl ⟨rfl, s, rest⟩)⟩)⟩)
    | messageItem pass found at_i before message reaches =>
      rw [Json.at?, found, Option.bind_some, Json.at?, at_i, Option.bind_some] at there
      exact Walk.mem_paths_members_cons.mpr (.inr ⟨messagesPass_iff.mp pass,
        Walk.mem_paths_members_cons.mpr (.inl ⟨_, _, found, rfl, mem_walkInput.mpr (.inr
          ⟨_, _, _, _, rfl, at_i, rfl, mem_walkInputItem.mpr
            ⟨⟨s, there⟩, by rw [message, if_pos rfl]; exact reaches⟩, before⟩)⟩)⟩)
    | bareItem pass found at_i before message =>
      rw [Json.at?, found, Option.bind_some, Json.at?, at_i, Option.bind_some] at there
      exact Walk.mem_paths_members_cons.mpr (.inr ⟨messagesPass_iff.mp pass,
        Walk.mem_paths_members_cons.mpr (.inl ⟨_, _, found, rfl, mem_walkInput.mpr (.inr
          ⟨_, _, _, _, rfl, at_i, rfl, mem_walkInputItem.mpr
            ⟨⟨s, there⟩, by rw [message, if_neg Bool.false_ne_true]⟩, before⟩)⟩)⟩)

/-- A place whose string is handed to the callback holds the callback's answer afterwards: no later
assignment of the walk goes there. -/
theorem at?_of_run {payload out : Fields} {redact : Path → Text → Text}
    (ran : (mapTexts payload).run (m := Id) redact = some out) {p : Path} {text : Text}
    (called : (p, text) ∈ (mapTexts payload).calls) :
    (Json.obj out).at? p = some (.str (redact p text)) := by
  rw [Walk.run_pure] at ran
  split at ran
  · cases ran
  next goes =>
    rw [Option.some.injEq] at ran
    have length : ((mapTexts payload).calls.map fun c => redact c.1 c.2).length =
      (mapTexts payload).calls.length := List.length_map _
    have again := mapTexts_stable (Bool.eq_false_iff.mpr goes) length
    rw [ran] at again
    refine mapTexts_sound ?_
    rw [again, Walk.refill, Walk.paths, List.zip_map']
    exact List.mem_map.mpr ⟨_, called, rfl⟩

/-- The walk passes every string at a place of prompt text exactly once if and only if every such
place is reached. This holds of every payload, also of one at which the walk raises. -/
theorem passedOnce_iff (payload : Fields) : PassedOnce payload ↔ Covered payload := by
  -- a place passed once is called, and a called place is answered in the body
  constructor
  · intro once p text place there
    have counted := (once p text place there).1 Unit (fun _ text => pure text) ()
    rw [Walk.run_traced] at counted
    have called := List.count_pos_iff.mp (counted ▸ Nat.one_pos)
    exact (mem_mapTexts.mp (Walk.mem_paths.mpr ⟨text, called⟩)).2
  · intro covered p text place there
    have called : (p, text) ∈ (mapTexts payload).calls := by
      obtain ⟨text', called⟩ :=
        Walk.mem_paths.mp (mem_mapTexts.mpr ⟨⟨text, there⟩, covered p text place there⟩)
      have same := (mapTexts_sound called).symm.trans there
      rw [Option.some.injEq, Json.str.injEq] at same
      exact same ▸ called
    constructor
    · intro σ fn s
      rw [Walk.run_traced]
      exact List.count_eq_one_of_mem (mapTexts_distinct payload).of_map called
    · intro redact out model stream ran
      have answered := at?_of_run ran called
      obtain ⟨key, among, q, rfl⟩ :=
        Walk.head_mem_of_mem_members (Walk.mem_paths.mpr ⟨text, called⟩)
      have apart : ∀ key ∈ ["messages".toList, "input".toList],
          key ≠ "model".toList ∧ key ≠ "stream".toList := by decide
      rw [OpenAIProvider.at?_body (apart key among).1 (apart key among).2]
      exact answered

/-- A payload with an input and with instructions: the walk goes to the input only, and the
instructions are sent as they are. -/
theorem instructions_not_passed :
    ¬PassedOnce
      [("input".toList, .str "hi".toList), ("instructions".toList, .str "SIN".toList)] := by
  intro once
  have counted := (once [.key "instructions".toList] "SIN".toList .instructions rfl).1 Unit
    (fun _ text => pure text) ()
  rw [Walk.run_traced] at counted
  revert counted
  decide

end RedactGate
