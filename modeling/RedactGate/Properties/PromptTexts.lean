import RedactGate.Properties.AdapterTexts
import RedactGate.Library.Edits
import Mathlib.Algebra.GroupWithZero.Nat
import Mathlib.Data.List.Flatten

/-!
# Texts that translating providers drop

The providers flatten the contents of the messages. The walk also visits the `input` of a
request and parts of the type `output_text`, and what it finds there is in no body that a
provider builds.

The lengths decide: what is placed for a message has room for all of its texts only if the
provider has taken them all.
-/
namespace RedactGate

open Library Library.Json

/-- A text of a content or of the input: no arguments of a call, and not empty. -/
def isPrompt (call : Path × Text) : Bool :=
  !call.2.isEmpty && decide (call.1.getLast? ≠ some (.key "arguments".toList))

/-- The content and input texts that the walk visits, in its order. -/
def promptTexts (payload : Fields) : List (Path × Text) := (mapTexts payload).calls.filter isPrompt

/-- Those of the message of an index. -/
def promptOf (payload : Fields) (i : Nat) : List Text :=
  ((promptTexts payload).filter fun call =>
    decide (call.1.take 2 = [.key "messages".toList, .index i])).map Prod.snd

/-- The texts stand in the whole one after the other, whatever is between them. -/
def InOrder (texts : List Text) (whole : Text) : Prop :=
  ∃ gaps : List Text, gaps.length = texts.length + 1 ∧ whole = Edit.weave gaps texts

/-- Every prompt text is one of a message, and stands in what the body has for that
message: a system message in a chunk of the system text, another one in its content. -/
def CarriesPrompt (adapter : Adapter) (payload body : Fields) : Prop :=
  ∃ (messages : List Json) (texts : List Text), Loops payload messages ∧
    texts.length = messages.length ∧
    adapter.messageTexts body = ((messages.zip texts).filter (!isSystem ·.1)).map
      (fun placed => some (.str placed.2)) ∧
    adapter.systemText body = systemValue ((((messages.zip texts).filter (isSystem ·.1)).map
      Prod.snd).filter (!·.isEmpty)) ∧
    (∀ i text, texts[i]? = some text → InOrder (promptOf payload i) text) ∧
    ∀ call ∈ promptTexts payload, call.1.head? = some (.key "messages".toList)

/-- There is no text in `input`, and none in a part of the type `output_text`: the walk visits both,
and no adapter sends them. -/
structure NothingDropped (payload : Fields) : Prop where
  input : ∀ call ∈ promptTexts payload, call.1.head? ≠ some (.key "input".toList)
  parts : ∀ i j part text, (Json.obj payload).at?
      [.key "messages".toList, .index i, .key "content".toList, .index j] = some (.obj part) →
    Fields.get? part "type".toList = some (.str "output_text".toList) →
    Fields.get? part "text".toList = some (.str text) → text = []

/-! ## The prompt texts of a message -/

/-- A step in front of a path does not change where it ends. -/
theorem isPrompt_cons {step : Step} {path : Path} (some : path ≠ []) (text : Text) :
    isPrompt (step :: path, text) = isPrompt (path, text) := by
  rw [isPrompt, isPrompt, List.getLast?_cons_of_ne_nil some]

theorem filter_under {α : Type} {w : Walk α} {step : Step} (inner : ∀ p ∈ w.paths, p ≠ []) :
    (Walk.under step w).calls.filter isPrompt =
      (w.calls.filter isPrompt).map fun call => (step :: call.1, call.2) := by
  rw [Walk.under, List.filter_map]
  refine congrArg _ (List.filter_congr fun call member => ?_)
  exact isPrompt_cons (inner call.1 (List.mem_map_of_mem member)) call.2

theorem ne_nil_of_walkMessage {message : Json} {p : Path} (member : p ∈ (walkMessage message).paths) :
    p ≠ [] := by
  obtain ⟨fields, rfl, member⟩ := Walk.mem_paths_object.mp member
  obtain ⟨key, _, q, rfl⟩ := Walk.head_mem_of_mem_members member
  exact List.cons_ne_nil _ _

theorem getLast?_walkFunction {json : Json} {p : Path} (member : p ∈ (walkFunction json).paths) :
    p = [.key "arguments".toList] :=
  (Walk.mem_paths_textMember.mp member).1

theorem getLast?_toolCalls {json : Json} {p : Path}
    (member : p ∈ (walkLoop walkToolCall json).paths) :
    p.getLast? = some (.key "arguments".toList) := by
  rw [walkLoop] at member
  split at member
  · cases member
  · obtain ⟨_, k, call, q, _, _, rfl, member, _⟩ := Walk.mem_paths_list.mp member
    obtain ⟨_, _, q, _, _, rfl, inner⟩ := Walk.mem_paths_member.mp member
    rw [getLast?_walkFunction inner]
    rfl

/-- The walk of a content ends at the content itself or at the text of one of its parts, so that
what it visits is prompt text unless it is empty. -/
theorem isPrompt_walkContent {content : Json} {call : Path × Text}
    (member : call ∈ (walkContent content).calls) :
    isPrompt (.key "content".toList :: call.1, call.2) = !call.2.isEmpty := by
  obtain ⟨p, text⟩ := call
  have path : p ∈ (walkContent content).paths := Walk.mem_paths.mpr ⟨text, member⟩
  have last : (Step.key "content".toList :: p).getLast? ≠ some (.key "arguments".toList) := by
    rcases Walk.mem_paths_textOrList.mp path with ⟨rfl, _⟩ | inner
    · decide
    · obtain ⟨_, k, part, q, _, _, rfl, inner, _⟩ := Walk.mem_paths_list.mp inner
      rw [walkPart] at inner
      split at inner
      · obtain ⟨rfl, _⟩ := Walk.mem_paths_textMember.mp inner
        rw [List.getLast?_cons_cons, List.getLast?_cons_cons]
        decide
      · cases inner
  rw [isPrompt, decide_eq_true last, Bool.and_true]

/-- The prompt texts of a message are the texts of its content that are not empty: what the walk
visits in its tool calls is none of them. -/
theorem texts_isPrompt (fields : Fields) :
    ((walkMessage (.obj fields)).calls.filter isPrompt).map Prod.snd =
      (walkContent (contentOf (.obj fields))).texts.filter (!·.isEmpty) := by
  have calls : (walkMessage (.obj fields)).calls =
      (Walk.members [("content".toList, walkContent), ("tool_calls".toList, walkLoop walkToolCall),
        ("function_call".toList, walkFunction)] fields).calls := rfl
  -- the arguments of calls are no prompt texts
  have rest : (Walk.members [("tool_calls".toList, walkLoop walkToolCall),
      ("function_call".toList, walkFunction)] fields).calls.filter isPrompt = [] := by
    refine List.filter_eq_nil_iff.mpr fun call member => ?_
    have path := Walk.mem_paths.mpr ⟨call.2, member⟩
    have last : call.1.getLast? = some (.key "arguments".toList) := by
      rcases Walk.mem_paths_members_cons.mp path with ⟨value, q, _, same, inner⟩ | ⟨_, path⟩
      · have last := getLast?_toolCalls inner
        have some : q ≠ [] := by rintro rfl; cases last
        rw [same, List.getLast?_cons_of_ne_nil some, last]
      · rcases Walk.mem_paths_members_cons.mp path with ⟨value, q, _, same, inner⟩ | ⟨_, path⟩
        · rw [same, getLast?_walkFunction inner]
          rfl
        · cases path
    simp [isPrompt, last]
  rw [calls, contentOf, Fields.getOrNull]
  cases found : Fields.get? fields "content".toList with
  | none =>
    rw [Walk.members_cons_none found, rest]
    rfl
  | some content =>
    rw [Walk.calls_members_cons found (calm_walkContent content), List.filter_append, rest,
      List.append_nil, Walk.under, List.filter_map, Option.getD_some, Walk.texts, List.filter_map,
      List.map_map]
    have kept : (walkContent content).calls.filter
          (isPrompt ∘ fun c => (Step.key "content".toList :: c.1, c.2)) =
        (walkContent content).calls.filter ((!·.isEmpty) ∘ Prod.snd) :=
      List.filter_congr fun call member => isPrompt_walkContent member
    rw [kept]
    rfl

theorem filter_flatMap_zipIdx {α β : Type} (xs : List α) {f : α × Nat → List β}
    (tag : β → Nat → Bool) (own : ∀ x j, ∀ b ∈ f (x, j), ∀ i, tag b i = decide (j = i)) {n i : Nat}
    {x : α} (found : xs[i]? = some x) :
    ((xs.zipIdx n).flatMap f).filter (tag · (n + i)) = f (x, n + i) := by
  induction xs generalizing n i with
  | nil => cases found
  | cons first rest ih =>
    rw [List.zipIdx_cons, List.flatMap_cons, List.filter_append]
    -- by induction: the index looked for is the first one, or one of the rest
    cases i with
    | zero =>
      obtain rfl : first = x := by simpa using found
      have here : (f (first, n)).filter (tag · (n + 0)) = f (first, n) :=
        List.filter_eq_self.mpr fun b member => by simp [own first n b member]
      have later : ((rest.zipIdx (n + 1)).flatMap f).filter (tag · (n + 0)) = [] := by
        refine List.filter_eq_nil_iff.mpr fun b member => ?_
        obtain ⟨⟨y, j⟩, among, member⟩ := List.mem_flatMap.mp member
        have bound := List.le_snd_of_mem_zipIdx among
        have other : j ≠ n := by omega
        simp [own y j b member, other]
      rw [here, later, List.append_nil, Nat.add_zero]
    | succ i =>
      have here : (f (first, n)).filter (tag · (n + (i + 1))) = [] := by
        refine List.filter_eq_nil_iff.mpr fun b member => ?_
        simp [own first n b member]
      have later := ih (n := n + 1) (i := i) (by simpa using found)
      rw [Nat.add_right_comm n 1 i] at later
      rw [here, List.nil_append]
      exact later

theorem loopOver_arr {items messages : List Json}
    (elements : loopOver (.arr items) = .ok messages) : items = messages := by
  rw [loopOver] at elements
  split at elements
  · rename_i empty
    rw [← Except.ok.inj elements]
    simpa [truthy] using empty
  · exact Except.ok.inj elements

/-- The calls of a walk that does not raise are those of the messages, each under its index and in
their order, and then those of the input. -/
theorem calls_mapTexts {payload : Fields} (goes : (mapTexts payload).raises = false)
    {messages : List Json} (loops : Loops payload messages) :
    ∃ input : List (Path × Text), (∀ call ∈ input, call.1.head? = some (.key "input".toList)) ∧
      (mapTexts payload).calls = (messages.zipIdx.flatMap fun m =>
        (Walk.under (.key "messages".toList)
          (Walk.under (.index m.2) (walkMessage m.1))).calls) ++ input := by
  have behind (call) (member : call ∈ (Walk.members [("input".toList, walkInput)] payload).calls) :
      call.1.head? = some (.key "input".toList) := by
    obtain ⟨key, among, q, same⟩ :=
      Walk.head_mem_of_mem_members (Walk.mem_paths.mpr ⟨call.2, member⟩)
    obtain rfl := List.mem_singleton.mp among
    rw [same]
    rfl
  refine ⟨_, behind, ?_⟩
  cases found : payload.get? "messages".toList with
  | none =>
    have none : messages = [] := by
      rcases loops.list with rfl | there
      · rfl
      · rw [Fields.getOrNull, found] at there
        cases there
    rw [mapTexts, Walk.members_cons_none found, none]
    rfl
  | some value =>
    rw [mapTexts, Walk.members_cons_some found] at goes
    have first : (walkLoop walkMessage value).raises = false := (Walk.goes_of_both goes).1
    rw [mapTexts, Walk.calls_members_cons found first]
    congr 1
    have value_eq : payload.getOrNull "messages".toList = value := by
      rw [Fields.getOrNull, found]
      rfl
    have elements := loops.elements
    rw [value_eq] at elements
    cases value with
    | arr items =>
      have same : items = messages := loopOver_arr elements
      have loop : walkLoop walkMessage (.arr items) = Walk.list walkMessage (.arr items) := by
        simp [walkLoop, unloopable, iterable]
      rw [loop] at first
      have walked : (Walk.under (.key "messages".toList) (Walk.list walkMessage (.arr items))).calls =
          (Walk.items walkMessage 0 items).calls.map fun c => (.key "messages".toList :: c.1, c.2) :=
        rfl
      rw [loop, walked, Walk.calls_items first, List.map_flatMap, same]
      rfl
    | _ =>
      -- anything else is gone over without visiting a text, and no provider takes messages from it
      have none : messages = [] := by
        rcases loops.list with rfl | there
        · rfl
        · rw [value_eq] at there
          cases there
      rw [none, walkLoop]
      split <;> rfl

/-- The prompt texts of a payload that the walk goes through are those of its messages, each under
its index, and those of the input behind them. -/
theorem promptTexts_eq {payload : Fields} (goes : (mapTexts payload).raises = false)
    {messages : List Json} (loops : Loops payload messages) :
    ∃ input : List (Path × Text), (∀ call ∈ input, call.1.head? = some (.key "input".toList)) ∧
      promptTexts payload = (messages.zipIdx.flatMap fun m =>
        ((walkMessage m.1).calls.filter isPrompt).map fun call =>
          (.key "messages".toList :: .index m.2 :: call.1, call.2)) ++ input := by
  obtain ⟨input, behind, calls⟩ := calls_mapTexts goes loops
  refine ⟨input.filter isPrompt, fun call member => behind call (List.mem_filter.mp member).1, ?_⟩
  rw [promptTexts, calls, List.filter_append, List.filter_flatMap]
  congr 2
  funext m
  have inner : ∀ p ∈ (Walk.under (.index m.2) (walkMessage m.1)).paths, p ≠ [] := by
    intro p member
    obtain ⟨q, rfl, _⟩ := Walk.mem_paths_under.mp member
    exact List.cons_ne_nil _ _
  rw [filter_under inner, filter_under fun p => ne_nil_of_walkMessage, List.map_map]
  rfl

/-- The prompt texts under the index of a message are the texts of its content that are not empty:
those of other messages and of the input are elsewhere. -/
theorem promptOf_eq {payload : Fields} (goes : (mapTexts payload).raises = false)
    {messages : List Json} (loops : Loops payload messages) {i : Nat} {message : Json}
    (found : messages[i]? = some message) :
    promptOf payload i = (walkContent (contentOf message)).texts.filter (!·.isEmpty) := by
  obtain ⟨input, behind, prompts⟩ := promptTexts_eq goes loops
  -- the walk calls `input` first, and no path there names a message
  have none : input.filter
      (fun call => decide (call.1.take 2 = [.key "messages".toList, .index i])) = [] := by
    refine List.filter_eq_nil_iff.mpr fun call member => ?_
    obtain ⟨p, text⟩ := call
    have head := behind _ member
    cases p with
    | nil => cases head
    | cons step p =>
      obtain rfl : step = .key "input".toList := Option.some.inj head
      simp
  have own := filter_flatMap_zipIdx messages (f := fun m =>
      ((walkMessage m.1).calls.filter isPrompt).map fun call =>
        ((.key "messages".toList :: .index m.2 :: call.1 : Path), call.2))
    (fun call i => decide (call.1.take 2 = [.key "messages".toList, .index i]))
    (fun message j call member i => by
      obtain ⟨inner, _, rfl⟩ := List.mem_map.mp member
      simp)
    (n := 0) found
  obtain ⟨fields, rfl⟩ := loops.objects message (List.mem_of_getElem? found)
  rw [Nat.zero_add] at own
  rw [promptOf, prompts, List.filter_append, none, List.append_nil, own, List.map_map,
    ← texts_isPrompt]
  rfl

/-! ## Lengths -/

/-- The text of a part that the walk visits and no provider takes, which is that of an `output_text`
part. -/
def droppedText : Json → Text
  | .obj fields =>
    if typeIn ["output_text".toList] (Fields.getOrNull fields "type".toList) then
      (stringOf (Fields.get? fields "text".toList)).getD []
    else []
  | _ => []

/-- What stands in a list content. -/
def partsOf : Json → List Json
  | .arr parts => parts
  | _ => []

/-- The visited texts of a part are its text, if the adapters take it, and else what they drop: no
part has both. -/
theorem flatten_walkPart (part : Json) :
    (walkPart part).texts.flatten = (partText part).getD [] ++ droppedText part := by
  cases part with
  | obj fields =>
    rw [texts_walkPart, partText_eq, isTextPart_eq, isFlatPart_eq, droppedText]
    generalize stringOf (Fields.get? fields "text".toList) = text
    cases Fields.getOrNull fields "type".toList with
    | str type =>
      have apart : "output_text".toList ∉ flatPartTypes := by decide
      have types : textPartTypes = flatPartTypes ++ ["output_text".toList] := rfl
      generalize "output_text".toList = output at apart types
      simp only [typeIn, types, List.mem_append, List.mem_singleton]
      by_cases flat : type ∈ flatPartTypes
      · have other : type ≠ output := by rintro rfl; exact apart flat
        cases text <;> simp [flat, other]
      · by_cases same : type = output
        · subst same
          cases text <;> simp [flat]
        · simp [flat, same]
    | _ => simp [typeIn]
  | _ => rfl

theorem length_flatMap_walkPart (parts : List Json) :
    (parts.flatMap fun part => (walkPart part).texts).flatten.length =
      (parts.filterMap partText).flatten.length +
        (parts.map fun part => (droppedText part).length).sum := by
  induction parts with
  | nil => rfl
  | cons part rest ih =>
    have here := congrArg List.length (flatten_walkPart part)
    rw [List.length_append] at here
    rw [List.flatMap_cons, List.flatten_append, List.length_append, ih, here, List.filterMap_cons,
      List.map_cons, List.sum_cons]
    cases partText part with
    | none =>
      simp only [Option.getD_none, List.length_nil]
      omega
    | some text =>
      simp only [Option.getD_some, List.flatten_cons, List.length_append]
      omega

/-- The walk of a content visits as much text as a provider takes of it together with what is
dropped. -/
theorem length_walkContent (content : Json) : (walkContent content).texts.flatten.length =
    (contentToText content).length +
      ((partsOf content).map fun part => (droppedText part).length).sum := by
  cases content with
  | arr parts =>
    have texts : (walkContent (.arr parts)).texts = parts.flatMap fun part => (walkPart part).texts :=
      Walk.texts_items (Walk.goes_items calm_walkPart 0 parts)
    rw [texts]
    exact length_flatMap_walkPart parts
  | str s => exact congrArg List.length (List.append_nil s)
  | _ => rfl

theorem flatten_filter_isEmpty (texts : List Text) :
    (texts.filter (!·.isEmpty)).flatten = texts.flatten := by
  induction texts with
  | nil => rfl
  | cons text rest ih =>
    rw [List.filter_cons]
    cases text with
    | nil => exact ih
    | cons c text => simpa using ih

theorem length_promptOf {payload : Fields} (goes : (mapTexts payload).raises = false)
    {messages : List Json} (loops : Loops payload messages) {i : Nat} {message : Json}
    (found : messages[i]? = some message) : (promptOf payload i).flatten.length =
      (messageText message).length +
        ((partsOf (contentOf message)).map fun part => (droppedText part).length).sum := by
  obtain ⟨fields, rfl⟩ := loops.objects message (List.mem_of_getElem? found)
  rw [promptOf_eq goes loops found, flatten_filter_isEmpty, length_walkContent]
  rfl

/-- Texts that stand in order in a whole are together no longer than the whole. -/
theorem InOrder.length_le {texts : List Text} {whole : Text} (placed : InOrder texts whole) :
    texts.flatten.length ≤ whole.length := by
  obtain ⟨gaps, fit, rfl⟩ := placed
  induction texts generalizing gaps with
  | nil => exact Nat.zero_le _
  | cons text rest ih =>
    cases gaps with
    | nil => cases fit
    | cons gap gaps =>
      have later := ih gaps (Nat.succ.inj fit)
      simp only [Edit.weave, List.flatten_cons, List.length_append]
      omega

theorem inOrder_flatten (texts : List Text) : InOrder texts texts.flatten := by
  refine ⟨List.replicate (texts.length + 1) [], List.length_replicate, ?_⟩
  induction texts with
  | nil => rfl
  | cons text rest ih =>
    rw [List.length_cons, List.replicate_succ, Edit.weave, ← ih]
    rfl

theorem length_intercalate (separator : Text) {chunks : List Text} (some : chunks ≠ []) :
    (List.intercalate separator chunks).length + separator.length =
      chunks.flatten.length + separator.length * chunks.length := by
  induction chunks with
  | nil => exact absurd rfl some
  | cons chunk rest ih =>
    cases rest with
    | nil => simp [List.intercalate]
    | cons next rest =>
      have later := ih (List.cons_ne_nil _ _)
      have unfolded : List.intercalate separator (chunk :: next :: rest) =
          chunk ++ separator ++ List.intercalate separator (next :: rest) := by
        simp [List.intercalate]
      rw [unfolded, List.length_append, List.length_append, List.flatten_cons, List.length_append,
        List.length_cons, Nat.mul_succ]
      omega

/-- A system text determines how long its chunks are together with two characters for each chunk,
since they are joined by two line feeds. -/
theorem length_of_systemValue {chunks chunks' : List Text}
    (same : systemValue chunks = systemValue chunks') :
    chunks.flatten.length + 2 * chunks.length = chunks'.flatten.length + 2 * chunks'.length := by
  rw [systemValue, systemValue] at same
  by_cases none : chunks = []
  · by_cases none' : chunks' = []
    · rw [none, none']
    · simp [none, none'] at same
  · by_cases none' : chunks' = []
    · simp [none, none'] at same
    · have values : List.intercalate "\n\n".toList chunks = List.intercalate "\n\n".toList chunks' := by
        simpa [none, none'] using same
      have total := length_intercalate "\n\n".toList none
      have total' := length_intercalate "\n\n".toList none'
      have separator : "\n\n".toList.length = 2 := rfl
      rw [values, separator] at total
      rw [separator] at total'
      omega

/-- If every placed text has room for its source and the system text is that of the
sources, nothing else is placed. -/
theorem length_of_placed {pairs : List (Text × Text)}
    (room : ∀ pair ∈ pairs, pair.1.length ≤ pair.2.length)
    (same : systemValue ((pairs.map Prod.snd).filter (!·.isEmpty)) =
      systemValue ((pairs.map Prod.fst).filter (!·.isEmpty))) :
    ∀ pair ∈ pairs, pair.2.length = pair.1.length := by
  have total := length_of_systemValue same
  rw [flatten_filter_isEmpty, flatten_filter_isEmpty] at total
  -- there are at least as many chunks, which are at least as long
  have grow (pairs : List (Text × Text)) (room : ∀ pair ∈ pairs, pair.1.length ≤ pair.2.length) :
      (pairs.map Prod.fst).flatten.length ≤ (pairs.map Prod.snd).flatten.length ∧
      ((pairs.map Prod.fst).filter (!·.isEmpty)).length ≤
        ((pairs.map Prod.snd).filter (!·.isEmpty)).length := by
    induction pairs with
    | nil => exact ⟨Nat.le_refl _, Nat.le_refl _⟩
    | cons pair rest ih =>
      obtain ⟨longer, more⟩ := ih fun pair member => room pair (List.mem_cons_of_mem _ member)
      obtain ⟨text, whole⟩ := pair
      have here : text.length ≤ whole.length := room _ List.mem_cons_self
      simp only [List.map_cons, List.flatten_cons, List.length_append, List.filter_cons]
      refine ⟨by omega, ?_⟩
      cases text with
      | nil =>
        cases whole with
        | nil => exact more
        | cons c whole => exact Nat.le_succ_of_le more
      | cons c text =>
        cases whole with
        | nil => cases here
        | cons d whole => exact Nat.succ_le_succ more
  obtain ⟨longer, more⟩ := grow pairs room
  have exact : (pairs.map Prod.snd).flatten.length = (pairs.map Prod.fst).flatten.length := by omega
  clear same total longer more
  induction pairs with
  | nil => exact fun pair member => absurd member List.not_mem_nil
  | cons pair rest ih =>
    obtain ⟨here, later⟩ := List.forall_mem_cons.mp room
    obtain ⟨longer, _⟩ := grow rest later
    simp only [List.map_cons, List.flatten_cons, List.length_append] at exact
    exact List.forall_mem_cons.mpr ⟨by omega, ih later (by omega)⟩

/-! ## Parts of the messages -/

/-- The places under `content` of the messages are the parts that the adapters go over, in the same
order, if the contents are lists. -/
theorem at?_part {payload : Fields} {messages : List Json} (loops : Loops payload messages)
    {i j : Nat} {part : Json} : (Json.obj payload).at?
      [.key "messages".toList, .index i, .key "content".toList, .index j] = some part ↔
    ∃ message, messages[i]? = some message ∧ (partsOf (contentOf message))[j]? = some part := by
  constructor
  -- a path that is there goes through four containers of the right kind
  · intro there
    obtain ⟨_, list, same, found, there⟩ := at?_key_eq_some.mp there
    obtain ⟨items, message, rfl, at_i, there⟩ := at?_index_eq_some.mp there
    obtain ⟨fields, content, rfl, has, there⟩ := at?_key_eq_some.mp there
    obtain ⟨parts, last, rfl, at_j, there⟩ := at?_index_eq_some.mp there
    obtain rfl : last = part := by simpa using there
    obtain rfl := Json.obj.inj same
    have elements := loops.elements
    rw [Fields.getOrNull, found, Option.getD_some] at elements
    refine ⟨_, loopOver_arr elements ▸ at_i, ?_⟩
    rw [contentOf, Fields.getOrNull, has, Option.getD_some]
    exact at_j
  -- and back, where a missing content has no parts
  · rintro ⟨message, at_i, at_j⟩
    obtain ⟨fields, rfl⟩ := loops.objects message (List.mem_of_getElem? at_i)
    have list : payload.getOrNull "messages".toList = .arr messages := by
      rcases loops.list with rfl | list
      · cases at_i
      · exact list
    have found : payload.get? "messages".toList = some (.arr messages) := by
      rw [Fields.getOrNull] at list
      cases value : payload.get? "messages".toList with
      | none => simp only [value, Option.getD_none, reduceCtorEq] at list
      | some v => rw [value, Option.getD_some] at list; rw [list]
    rw [contentOf, Fields.getOrNull] at at_j
    cases has : Fields.get? fields "content".toList with
    | none =>
      rw [has, Option.getD_none] at at_j
      cases at_j
    | some content =>
      rw [has, Option.getD_some] at at_j
      cases content with
      | arr parts =>
        refine at?_key_eq_some.mpr ⟨payload, _, rfl, found, ?_⟩
        refine at?_index_eq_some.mpr ⟨messages, _, rfl, at_i, ?_⟩
        refine at?_key_eq_some.mpr ⟨fields, _, rfl, has, ?_⟩
        exact at?_index_eq_some.mpr ⟨parts, part, rfl, at_j, at?_nil part⟩
      | _ => cases at_j

theorem stringOf_eq_some {value : Option Json} {text : Text} :
    stringOf value = some text ↔ value = some (.str text) := by
  cases value with
  | none => simp [stringOf]
  | some value => cases value <;> simp [stringOf]

theorem typeIn_singleton {fields : Fields} {key name : Text} :
    typeIn [name] (fields.getOrNull key) = true ↔ fields.get? key = some (.str name) := by
  rw [Fields.getOrNull]
  cases fields.get? key with
  | none => simp [typeIn]
  | some value => cases value <;> simp [typeIn]

theorem droppedText_eq_nil {part : Json} : droppedText part = [] ↔ ∀ fields text,
    part = .obj fields → Fields.get? fields "type".toList = some (.str "output_text".toList) →
    Fields.get? fields "text".toList = some (.str text) → text = [] := by
  cases part with
  | obj fields =>
    rw [droppedText]
    constructor
    · intro none fields' text same type has
      obtain rfl := Json.obj.inj same
      rw [if_pos (typeIn_singleton.mpr type), stringOf_eq_some.mpr has] at none
      exact none
    · intro empty
      split
      · rename_i output
        cases has : stringOf (Fields.get? fields "text".toList) with
        | none => rfl
        | some text => exact empty fields text rfl (typeIn_singleton.mp output) (stringOf_eq_some.mp has)
      · rfl
  | _ => simp [droppedText]

/-- That no `output_text` part has a text can be said of the places in the payload and of the parts
of the messages alike. -/
theorem dropped_iff {payload : Fields} {messages : List Json} (loops : Loops payload messages) :
    (∀ i j part text, (Json.obj payload).at?
        [.key "messages".toList, .index i, .key "content".toList, .index j] = some (.obj part) →
      Fields.get? part "type".toList = some (.str "output_text".toList) →
      Fields.get? part "text".toList = some (.str text) → text = []) ↔
    ∀ message ∈ messages, ∀ part ∈ partsOf (contentOf message), droppedText part = [] := by
  constructor
  · intro empty message member part among
    obtain ⟨i, at_i⟩ := List.mem_iff_getElem?.mp member
    obtain ⟨j, at_j⟩ := List.mem_iff_getElem?.mp among
    refine droppedText_eq_nil.mpr fun fields text same => ?_
    subst same
    exact empty i j fields text ((at?_part loops).mpr ⟨message, at_i, at_j⟩)
  · intro none i j part text there
    obtain ⟨message, at_i, at_j⟩ := (at?_part loops).mp there
    have empty := none message (List.mem_of_getElem? at_i) _ (List.mem_of_getElem? at_j)
    exact droppedText_eq_nil.mp empty part text rfl

/-- Where nothing is dropped, the texts that the walk visits in a content are what a provider takes
of it. -/
theorem flatten_walkContent {content : Json}
    (none : ∀ part ∈ partsOf content, droppedText part = []) :
    (walkContent content).texts.flatten = contentToText content := by
  have taken : (contentToText content).Sublist (walkContent content).texts.flatten := by
    rw [← joined_flatContent]
    exact ((sublist_flatContent content).map Prod.snd).flatten
  have dropped : ((partsOf content).map fun part => (droppedText part).length).sum = 0 := by
    rw [List.sum_eq_zero_iff_forall_eq_nat]
    intro length member
    obtain ⟨part, among, rfl⟩ := List.mem_map.mp member
    rw [none part among, List.length_nil]
  have length := length_walkContent content
  rw [dropped, Nat.add_zero] at length
  exact (taken.eq_of_length length.symm).symm

/-! ## What is carried -/

theorem filter_zip {messages : List Json} {texts : List Text}
    (fit : texts.length = messages.length) (test : Json → Bool) :
    ((messages.zip texts).filter (test ·.1)).map (messageText ·.1) =
      (messages.filter test).map messageText := by
  have first : (messages.zip texts).map Prod.fst = messages := List.map_fst_zip (by omega)
  conv_rhs => rw [← first]
  rw [List.filter_map, List.map_map]
  rfl

/-- Where a body has for every message a text with room for what is taken of it, the text
is no longer than that. -/
theorem length_of_sent {adapter : Adapter} {messages : List Json} {body : Fields}
    (sends : Sends adapter messages body) {texts : List Text}
    (fit : texts.length = messages.length)
    (spokenTexts : adapter.messageTexts body =
      ((messages.zip texts).filter (!isSystem ·.1)).map fun placed => some (.str placed.2))
    (system : adapter.systemText body = systemValue ((((messages.zip texts).filter
      (isSystem ·.1)).map Prod.snd).filter (!·.isEmpty)))
    (room : ∀ pair ∈ messages.zip texts, (messageText pair.1).length ≤ pair.2.length) :
    ∀ pair ∈ messages.zip texts, pair.2.length = (messageText pair.1).length := by
  intro pair member
  by_cases isSys : isSystem pair.1 = true
  · -- the system text has no more room than its chunks need
    rw [sends.system, systemChunks, ← filter_zip fit isSystem] at system
    have same : systemValue ((((messages.zip texts).filter (isSystem ·.1)).map fun pair =>
          (messageText pair.1, pair.2)).map Prod.snd |>.filter (!·.isEmpty)) =
        systemValue ((((messages.zip texts).filter (isSystem ·.1)).map fun pair =>
          (messageText pair.1, pair.2)).map Prod.fst |>.filter (!·.isEmpty)) := by
      rw [List.map_map, List.map_map]
      exact system.symm
    refine length_of_placed (fun found among => ?_) same (messageText pair.1, pair.2)
      (List.mem_map_of_mem (List.mem_filter.mpr ⟨member, isSys⟩))
    obtain ⟨other, chosen, rfl⟩ := List.mem_map.mp among
    exact room other (List.mem_filter.mp chosen).1
  · have values : ((messages.zip texts).filter (!isSystem ·.1)).map
          (fun pair => some (Json.str pair.2)) =
        (((messages.zip texts).filter (!isSystem ·.1)).map (messageText ·.1)).map
          fun text => some (Json.str text) := by
      rw [filter_zip fit (!isSystem ·), List.map_map, ← spokenTexts, sends.texts]
      rfl
    have chosen : pair ∈ (messages.zip texts).filter (!isSystem ·.1) :=
      List.mem_filter.mpr ⟨member, by simpa using isSys⟩
    rw [List.map_map] at values
    have same := List.map_inj_left.mp values pair chosen
    rw [Json.str.inj (Option.some.inj same)]

/-- What an adapter sends carries every prompt text, message by message, if and only if nothing is
dropped: the walk visits `output_text` parts, and the adapters leave them out. -/
theorem carriesPrompt_iff (adapter : Adapter) {model : Text} {payload : Fields} {stream : Bool}
    {body : Fields} (goes : (mapTexts payload).raises = false)
    (sent : adapter.body model payload stream = .ok body) :
    CarriesPrompt adapter payload body ↔ NothingDropped payload := by
  obtain ⟨messages, loops, sends⟩ := adapter.sends sent
  constructor
  · rintro ⟨messages', texts, loops', fit, spokenTexts, system, placed, visited⟩
    obtain rfl : messages' = messages :=
      Except.ok.inj (loops'.elements.symm.trans loops.elements)
    refine ⟨fun call member => ?_, (dropped_iff loops).mpr fun message member part among => ?_⟩
    · rw [visited call member]
      decide
    -- there is room for what the walk visits, so for what a provider takes and what is dropped
    have room (pair) (member : pair ∈ messages'.zip texts) : (messageText pair.1).length +
        ((partsOf (contentOf pair.1)).map fun part => (droppedText part).length).sum ≤
          pair.2.length := by
      obtain ⟨i, at_i⟩ := List.mem_iff_getElem?.mp member
      obtain ⟨at_i, text_i⟩ := List.getElem?_zip_eq_some.mp at_i
      rw [← length_promptOf goes loops at_i]
      exact (placed i _ text_i).length_le
    have exact := length_of_sent sends fit spokenTexts system fun pair member =>
      Nat.le_trans (Nat.le_add_right _ _) (room pair member)
    rw [← List.map_fst_zip (Nat.le_of_eq fit.symm)] at member
    obtain ⟨pair, zipped, rfl⟩ := List.mem_map.mp member
    have fits := room pair zipped
    rw [exact pair zipped] at fits
    have zero : ((partsOf (contentOf pair.1)).map fun part => (droppedText part).length).sum = 0 := by
      omega
    rw [List.sum_eq_zero_iff_forall_eq_nat] at zero
    exact List.eq_nil_of_length_eq_zero (zero _ (List.mem_map_of_mem among))
  · rintro ⟨input, parts⟩
    have none := (dropped_iff loops).mp parts
    have fit : (messages.map messageText).length = messages.length := List.length_map _
    have placed (test : Json → Bool) :
        ((messages.zip (messages.map messageText)).filter (test ·.1)).map Prod.snd =
          (messages.filter test).map messageText := by
      rw [← filter_zip fit test]
      refine List.map_congr_left fun pair among => ?_
      obtain ⟨i, at_i⟩ := List.mem_iff_getElem?.mp (List.mem_filter.mp among).1
      obtain ⟨at_i, text_i⟩ := List.getElem?_zip_eq_some.mp at_i
      rw [List.getElem?_map, at_i] at text_i
      exact (Option.some.inj text_i).symm
    refine ⟨messages, messages.map messageText, loops, fit, ?_, ?_, fun i text text_i => ?_, ?_⟩
    · have same := congrArg (List.map fun text => some (Json.str text)) (placed (!isSystem ·))
      rw [List.map_map, List.map_map] at same
      rw [sends.texts]
      exact same.symm
    · rw [sends.system, systemChunks, placed isSystem]
    · obtain ⟨message, at_i, rfl⟩ := Option.map_eq_some_iff.mp (List.getElem?_map .. ▸ text_i)
      have member := List.mem_of_getElem? at_i
      obtain ⟨fields, rfl⟩ := loops.objects message member
      have whole : messageText (.obj fields) = (promptOf payload i).flatten := by
        rw [promptOf_eq goes loops at_i, flatten_filter_isEmpty, flatten_walkContent (none _ member)]
        rfl
      rw [whole]
      exact inOrder_flatten _
    · intro call member
      have list := Walk.mem_paths.mpr ⟨call.2, (List.mem_filter.mp member).1⟩
      obtain ⟨key, among, q, same⟩ := Walk.head_mem_of_mem_members list
      have other := input call member
      rw [same] at other ⊢
      simp only [List.map_cons, List.map_nil, List.mem_cons, List.not_mem_nil, or_false] at among
      rcases among with rfl | rfl
      · rfl
      · exact absurd rfl other

/-- Whenever a provider builds a body for a payload that the walk goes over, the prompt is in the
body exactly when none of it is in `input` or in a part of the type `output_text`. -/
theorem prompt_carried_iff (adapter : Adapter) (payload : Fields)
    (goes : (mapTexts payload).raises = false) : ∀ model stream body,
    adapter.body model payload stream = .ok body →
      (CarriesPrompt adapter payload body ↔ NothingDropped payload) := by
  intro model stream body sent
  exact carriesPrompt_iff adapter goes sent

theorem prompt_carried_iff_greeting :
    ∃ body, Adapter.body .gemini [] (greeting "Ann".toList) false = .ok body ∧
      CarriesPrompt .gemini (greeting "Ann".toList) body := by
  cases sent : Adapter.body .gemini [] (greeting "Ann".toList) false with
  | error e =>
    have succeeds : (Adapter.body .gemini [] (greeting "Ann".toList) false).isOk = true := by decide
    rw [sent] at succeeds
    cases succeeds
  | ok body =>
    refine ⟨body, rfl, (prompt_carried_iff .gemini _ (by decide) _ _ body sent).mpr ⟨?_, ?_⟩⟩
    · decide
    · -- the content is no list
      intro i j part text there
      obtain ⟨_, list, same, found, there⟩ := at?_key_eq_some.mp there
      obtain ⟨items, message, rfl, at_i, there⟩ := at?_index_eq_some.mp there
      obtain rfl := Json.obj.inj same
      obtain rfl : _ = items := Json.arr.inj (Option.some.inj found)
      obtain rfl := List.mem_singleton.mp (List.mem_of_getElem? at_i)
      obtain ⟨fields, content, same, has, there⟩ := at?_key_eq_some.mp there
      obtain rfl := Json.obj.inj same
      obtain ⟨parts, last, rfl, at_j, there⟩ := at?_index_eq_some.mp there
      exact absurd (Option.some.inj has) Json.noConfusion

/-- A request to the responses route. -/
def typedInput : Fields := [("input".toList, .str "call Ann".toList)]

theorem input_not_carried : ∃ body, Adapter.body .anthropic [] typedInput false = .ok body ∧
    ¬CarriesPrompt .anthropic typedInput body := by
  cases sent : Adapter.body .anthropic [] typedInput false with
  | error e =>
    have succeeds : (Adapter.body .anthropic [] typedInput false).isOk = true := by decide
    rw [sent] at succeeds
    cases succeeds
  | ok body =>
    refine ⟨body, rfl, ?_⟩
    rintro ⟨messages, texts, _, _, _, _, _, visited⟩
    have member : ([.key "input".toList], "call Ann".toList) ∈ promptTexts typedInput := by
      decide
    exact absurd (visited _ member) (by decide)

end RedactGate
