import RedactGate.Library.WalkFrame

/-!
# Text walk of a request

Which strings of an OpenAI-style request payload are redactable, in which order they
are handed to the redaction function, and the two users of the walk: `extractTexts`
and `injectTexts`.
-/
namespace RedactGate

open Library Library.Json

def textPartTypes : List Text := ["text".toList, "input_text".toList, "output_text".toList]

/-- `part.get("type") in _TEXT_PART_TYPES`, for a part that is an object; anything else is no part
with a text. -/
def isTextPart : Json → Bool
  | .obj fields =>
    match Fields.get? fields "type".toList with
    | some (.str type) => type ∈ textPartTypes
    | _ => false
  | _ => false

/-- A part of a content list. -/
def walkPart (part : Json) : Walk Json :=
  if isTextPart part then Walk.object [("text".toList, Walk.text)] part else .done part

/-- `_walk_content`. -/
def walkContent : Json → Walk Json := Walk.textOrList walkPart

/-- A function object of a call: its `arguments`, if they are a string. -/
def walkFunction : Json → Walk Json := Walk.object [("arguments".toList, Walk.text)]

def walkToolCall : Json → Walk Json := Walk.object [("function".toList, walkFunction)]

/-- Values that a `for` loop accepts: strings, lists and objects; the others raise. -/
def iterable : Json → Bool
  | .str _ => true
  | .arr _ => true
  | .obj _ => true
  | _ => false

/-- `for x in value or []` raises a `TypeError`. -/
def unloopable (value : Json) : Bool := value.truthy && !iterable value

/-- `for x in value or []`, with a body that does nothing for strings: the characters of
a string and the keys of an object are walked without effect. -/
def walkLoop (body : Json → Walk Json) (value : Json) : Walk Json :=
  if unloopable value then .raise value else Walk.list body value

/-- `_walk_message`: the content of a message, its tool calls and its function call, in this order. -/
def walkMessage : Json → Walk Json :=
  Walk.object [
    ("content".toList, walkContent),
    ("tool_calls".toList, walkLoop walkToolCall),
    ("function_call".toList, walkFunction)]

/-- A message object of the `input` list. -/
def isMessageItem : Json → Bool
  | .obj fields => Fields.hasKey fields "content".toList || Fields.hasKey fields "tool_calls".toList
  | _ => false

/-- An element of the `input` list. The two `elif` branches of the source, for a typed
part and for a bare text, do the same. -/
def walkInputItem (item : Json) : Walk Json :=
  if isMessageItem item then walkMessage item
  else Walk.object [("text".toList, Walk.text)] item

/-- The `input` of a payload: a string or a list of items. -/
def walkInput : Json → Walk Json := Walk.textOrList walkInputItem

/-- `_map_texts`. -/
def mapTexts (payload : Fields) : Walk Fields :=
  Walk.members [("messages".toList, walkLoop walkMessage), ("input".toList, walkInput)] payload

/-- What `extract_texts` and `inject_texts` raise, the first one for payloads that cannot be gone
over. -/
inductive WalkError where
  | typeError
  | lengthMismatch (got expected : Nat)
  deriving DecidableEq

/-- `_collect`. -/
def collect (_ : Path) (text : Text) : StateM (List Text) Text :=
  fun texts => (text, texts ++ [text])

/-- `extract_texts`: the strings that the walk visits, in the order of the walk; it raises where the
walk does. -/
def extractTexts (payload : Fields) : Except WalkError (List Text) :=
  match ((mapTexts payload).run collect).run [] with
  | (none, _) => .error .typeError
  | (some _, texts) => .ok texts

/-- `next(it)`; the iterator never ends before the walk does. -/
def nextText (_ : Path) (_ : Text) : StateM (List Text) Text := fun new => (new.headD [], new.tail)

/-- `inject_texts`: the strings that the walk visits are replaced by the new texts in their order,
of which there have to be as many. -/
def injectTexts (payload : Fields) (newTexts : List Text) : Except WalkError Fields := do
  let texts ← extractTexts payload
  if newTexts.length ≠ texts.length then throw (.lengthMismatch newTexts.length texts.length)
  match (((mapTexts payload).run nextText).run newTexts).1 with
  | none => throw .typeError
  | some out => pure out

/-! ## What the two users do -/

theorem extractTexts_eq (payload : Fields) : extractTexts payload =
    if (mapTexts payload).raises then .error .typeError else .ok (mapTexts payload).texts := by
  have collected (calls : List (Path × Text)) : ∀ texts : List Text,
      ((calls.mapM fun c => collect c.1 c.2).run texts) =
        (calls.map Prod.snd, texts ++ calls.map Prod.snd) := by
    induction calls with
    | nil => exact fun texts => Prod.ext rfl (List.append_nil texts).symm
    | cons c calls ih =>
      intro texts
      rw [List.mapM_cons]
      have rest := ih (texts ++ [c.2])
      simp only [StateT.run, bind, StateT.bind, pure, collect, List.map_cons] at rest ⊢
      rw [rest, List.append_assoc]
      rfl
  have whole : ((mapTexts payload).run collect).run [] = (if (mapTexts payload).raises then none
      else some ((mapTexts payload).fill (mapTexts payload).texts), (mapTexts payload).texts) := by
    have calls := collected (mapTexts payload).calls []
    simp only [StateT.run, bind, StateT.bind, pure, Walk.run] at calls ⊢
    rw [calls]
    rfl
  rw [extractTexts, whole]
  cases (mapTexts payload).raises <;> rfl

theorem injectTexts_eq {payload : Fields} (goes : (mapTexts payload).raises = false)
    {newTexts : List Text} (length : newTexts.length = (mapTexts payload).texts.length) :
    injectTexts payload newTexts = .ok ((mapTexts payload).fill newTexts) := by
  -- the walk asks for one text a call and so empties a list of that length
  have popped (calls : List (Path × Text)) : ∀ new : List Text, new.length = calls.length →
      ((calls.mapM fun c => nextText c.1 c.2).run new) = (new, []) := by
    induction calls with
    | nil =>
      intro new length
      rw [List.length_eq_zero_iff.mp length]
      rfl
    | cons c calls ih =>
      intro new length
      cases new with
      | nil => cases length
      | cons text new =>
        rw [List.mapM_cons]
        have rest := ih new (Nat.succ.inj length)
        simp only [StateT.run, bind, StateT.bind, pure, nextText, List.headD_cons,
          List.tail_cons] at rest ⊢
        rw [rest]
        rfl
  have whole : (((mapTexts payload).run nextText).run newTexts).1 =
      some ((mapTexts payload).fill newTexts) := by
    have calls := popped (mapTexts payload).calls newTexts (by simpa [Walk.texts] using length)
    simp only [StateT.run, bind, StateT.bind, pure, Walk.run] at calls ⊢
    rw [calls, goes]
    rfl
  rw [injectTexts, extractTexts_eq, goes]
  simp only [Bool.false_eq_true, if_false, bind, Except.bind, length, ne_eq, not_true_eq_false,
    whole]
  rfl

/-! ## Raising -/

theorem calm_textMember (key : Text) : Walk.Calm (Walk.object [(key, Walk.text)]) :=
  Walk.calm_object (by simp [Walk.calm_text])

theorem calm_walkPart : Walk.Calm walkPart := fun part => by
  rw [walkPart]
  split
  · exact calm_textMember _ part
  · rfl

theorem calm_walkContent : Walk.Calm walkContent := Walk.calm_textOrList calm_walkPart

theorem calm_walkFunction : Walk.Calm walkFunction := calm_textMember _

theorem calm_walkToolCall : Walk.Calm walkToolCall := Walk.calm_object (by simp [calm_walkFunction])

theorem walkLoop_raises {body : Json → Walk Json} (calm : Walk.Calm body) (value : Json) :
    (walkLoop body value).raises = unloopable value := by
  rw [walkLoop]
  cases unloopable value with
  | true => rfl
  | false => exact Walk.calm_list calm value

/-! ## The walk is lawful -/

theorem lawful_textMember (key : Text) : Walk.Lawful (Walk.object [(key, Walk.text)]) :=
  Walk.lawful_object (by simp [Walk.lawful_text]) (List.nodup_singleton key)

theorem isTextPart_text (part : Json) (new : List Text) :
    isTextPart ((Walk.object [("text".toList, Walk.text)] part).fill new) = isTextPart part := by
  cases part with
  | obj fields =>
    have kept : Fields.get? ((Walk.members [("text".toList, Walk.text)] fields).fill new)
        "type".toList = Fields.get? fields "type".toList :=
      Walk.get?_members (by decide) new
    simp only [Walk.object, Walk.map, Function.comp, isTextPart, kept]
  | _ => rfl

theorem lawful_walkPart : Walk.Lawful walkPart :=
  Walk.lawful_choice (lawful_textMember _) Walk.lawful_done isTextPart_text fun _ _ => rfl

theorem lawful_walkContent : Walk.Lawful walkContent := Walk.lawful_textOrList lawful_walkPart

theorem lawful_walkFunction : Walk.Lawful walkFunction := lawful_textMember _

theorem lawful_walkToolCall : Walk.Lawful walkToolCall :=
  Walk.lawful_object (by simp [lawful_walkFunction]) (List.nodup_singleton _)

theorem lawful_walkLoop {body : Json → Walk Json} (lawful : Walk.Lawful body) :
    Walk.Lawful (walkLoop body) where
  sound {json p t} member := by
    cases raises : unloopable json with
    | true => simp [walkLoop, raises, Walk.raise] at member
    | false => exact (Walk.lawful_list lawful).sound (by simpa [walkLoop, raises] using member)
  distinct json := by
    cases raises : unloopable json with
    | true => simp [walkLoop, raises, Walk.raise, Walk.paths]
    | false => simpa [walkLoop, raises] using (Walk.lawful_list lawful).distinct json
  stable {json new} goes length := by
    cases raises : unloopable json with
    | true => simp [walkLoop, raises, Walk.raise] at goes
    | false =>
      have blind : unloopable ((Walk.list body json).fill new) = false := by
        cases json with
        | arr xs => simp [Walk.list, Walk.map, unloopable, iterable]
        | _ => exact raises
      have same : walkLoop body json = Walk.list body json := by simp [walkLoop, raises]
      rw [same] at goes length ⊢
      rw [walkLoop, blind]
      exact (Walk.lawful_list lawful).stable goes length

theorem lawful_walkMessage : Walk.Lawful walkMessage := by
  refine Walk.lawful_object (fun entry member => ?_) (by decide)
  simp only [List.mem_cons, List.not_mem_nil, or_false] at member
  rcases member with rfl | rfl | rfl
  · exact lawful_walkContent
  · exact lawful_walkLoop lawful_walkToolCall
  · exact lawful_walkFunction

theorem isMessageItem_object (keys : List (Text × (Json → Walk Json))) (item : Json)
    (new : List Text) :
    isMessageItem ((Walk.object keys item).fill new) = isMessageItem item := by
  cases item with
  | obj fields =>
    simp only [Walk.object, Walk.map, Function.comp, isMessageItem, Walk.hasKey_members]
  | _ => rfl

theorem lawful_walkInputItem : Walk.Lawful walkInputItem :=
  Walk.lawful_choice lawful_walkMessage (lawful_textMember _) (isMessageItem_object _)
    (isMessageItem_object _)

theorem lawful_payload : ∀ entry ∈ [("messages".toList, walkLoop walkMessage),
    ("input".toList, walkInput)], Walk.Lawful entry.2 := by
  intro entry member
  simp only [List.mem_cons, List.not_mem_nil, or_false] at member
  rcases member with rfl | rfl
  · exact lawful_walkLoop lawful_walkMessage
  · exact Walk.lawful_textOrList lawful_walkInputItem

/-- No string is handed to the callback twice. -/
theorem mapTexts_distinct (payload : Fields) : (mapTexts payload).paths.Nodup :=
  Walk.distinct_members lawful_payload (by decide) payload

theorem mapTexts_sound {payload : Fields} {p : Path} {text : Text}
    (member : (p, text) ∈ (mapTexts payload).calls) :
    (Json.obj payload).at? p = some (.str text) :=
  Walk.sound_members lawful_payload member

/-- The same places are walked after their texts have been replaced. -/
theorem mapTexts_stable {payload : Fields} {new : List Text}
    (goes : (mapTexts payload).raises = false)
    (length : new.length = (mapTexts payload).calls.length) :
    mapTexts ((mapTexts payload).fill new) = (mapTexts payload).refill new :=
  Walk.stable_members lawful_payload (by decide) goes length

/-! ## The walk changes its own places only -/

theorem framed_textMember (key : Text) : Walk.Framed (Walk.object [(key, Walk.text)]) :=
  Walk.framed_object (by simp [Walk.framed_text])

theorem framed_walkContent : Walk.Framed walkContent :=
  Walk.framed_textOrList (Walk.framed_choice (framed_textMember _) Walk.framed_done isTextPart)

theorem framed_walkFunction : Walk.Framed walkFunction := framed_textMember _

theorem framed_walkLoop {body : Json → Walk Json} (framed : Walk.Framed body) :
    Walk.Framed (walkLoop body) where
  rebuilds {json} goes := by
    cases raises : unloopable json with
    | true => simp [walkLoop, raises, Walk.raise] at goes
    | false =>
      have same : walkLoop body json = Walk.list body json := by simp [walkLoop, raises]
      rw [same] at goes ⊢
      exact (Walk.framed_list framed).rebuilds goes
  frame {json p} goes outside new := by
    cases raises : unloopable json with
    | true => simp [walkLoop, raises, Walk.raise] at goes
    | false =>
      have same : walkLoop body json = Walk.list body json := by simp [walkLoop, raises]
      rw [same] at goes outside ⊢
      exact (Walk.framed_list framed).frame goes outside new

theorem framed_walkMessage : Walk.Framed walkMessage := by
  refine Walk.framed_object fun entry member => ?_
  simp only [List.mem_cons, List.not_mem_nil, or_false] at member
  rcases member with rfl | rfl | rfl
  · exact framed_walkContent
  · exact framed_walkLoop (Walk.framed_object (by simp [framed_walkFunction]))
  · exact framed_walkFunction

theorem framed_walkInputItem : Walk.Framed walkInputItem :=
  Walk.framed_choice framed_walkMessage (framed_textMember _) isMessageItem

theorem framed_payload : ∀ entry ∈ [("messages".toList, walkLoop walkMessage),
    ("input".toList, walkInput)], Walk.Framed entry.2 := by
  intro entry member
  simp only [List.mem_cons, List.not_mem_nil, or_false] at member
  rcases member with rfl | rfl
  · exact framed_walkLoop framed_walkMessage
  · exact Walk.framed_textOrList framed_walkInputItem

/-- The texts of a payload go back into their places. -/
theorem mapTexts_rebuilds {payload : Fields} (goes : (mapTexts payload).raises = false) :
    (mapTexts payload).fill (mapTexts payload).texts = payload :=
  Walk.rebuilds_members framed_payload goes

/-- Nothing changes at any other place. -/
theorem mapTexts_frame {payload : Fields} (goes : (mapTexts payload).raises = false) {p : Path}
    (outside : p ∉ (mapTexts payload).paths) (new : List Text) :
    (Json.obj ((mapTexts payload).fill new)).shapeAt p = (Json.obj payload).shapeAt p :=
  Walk.frame_members framed_payload goes outside new

/-! ## Reading what was written -/

/-- A payload whose texts can be read has a walk that does not raise, and its texts are those that
the walk visits. -/
theorem goes_of_extractTexts {payload : Fields} {texts : List Text}
    (walks : extractTexts payload = .ok texts) :
    (mapTexts payload).raises = false ∧ (mapTexts payload).texts = texts := by
  rw [extractTexts_eq] at walks
  cases raises : (mapTexts payload).raises with
  | true => simp [raises] at walks
  | false =>
    rw [raises, if_neg Bool.false_ne_true] at walks
    exact ⟨rfl, Except.ok.inj walks⟩

/-- Where the walk does not raise, writing raises for the length of its list alone, and else fills
in the new texts. -/
theorem injectTexts_of_goes {payload : Fields} (goes : (mapTexts payload).raises = false)
    (new : List Text) : injectTexts payload new =
      if new.length = (mapTexts payload).texts.length then .ok ((mapTexts payload).fill new)
      else .error (.lengthMismatch new.length (mapTexts payload).texts.length) := by
  by_cases length : new.length = (mapTexts payload).texts.length
  · rw [if_pos length]
    exact injectTexts_eq goes length
  · rw [if_neg length, injectTexts, extractTexts_eq, goes, if_neg Bool.false_ne_true]
    simp only [bind, Except.bind, ne_eq, length, not_false_eq_true, if_true]
    rfl

section Write

variable {payload : Fields} (goes : (mapTexts payload).raises = false) {new : List Text}
  (length : new.length = (mapTexts payload).texts.length)

include goes length

/-- A rewritten payload is walked as the payload was, and other texts are found. -/
theorem mapTexts_fill : mapTexts ((mapTexts payload).fill new) = (mapTexts payload).refill new :=
  mapTexts_stable goes (length.trans (List.length_map _))

theorem goes_fill : (mapTexts ((mapTexts payload).fill new)).raises = false := by
  rw [mapTexts_fill goes length]
  exact goes

theorem texts_fill : (mapTexts ((mapTexts payload).fill new)).texts = new := by
  rw [mapTexts_fill goes length, Walk.texts, Walk.refill, List.map_snd_zip]
  rw [length, Walk.texts, List.length_map, Walk.length_paths]

theorem paths_fill : (mapTexts ((mapTexts payload).fill new)).paths = (mapTexts payload).paths := by
  rw [mapTexts_fill goes length, Walk.paths, Walk.refill, List.map_fst_zip]
  rw [length, Walk.texts, List.length_map, Walk.length_paths]

/-- A string stands where one was written. -/
theorem at?_fill {p : Path} (visited : p ∈ (mapTexts payload).paths) :
    ∃ text, (Json.obj ((mapTexts payload).fill new)).at? p = some (.str text) := by
  rw [← paths_fill goes length] at visited
  obtain ⟨text, called⟩ := Walk.mem_paths.mp visited
  exact ⟨text, mapTexts_sound called⟩

end Write

/-- Only a payload whose walk does not raise can be written, with as many texts as the walk visits. -/
theorem goes_of_injectTexts {payload out : Fields} {new : List Text}
    (written : injectTexts payload new = .ok out) :
    (mapTexts payload).raises = false ∧ new.length = (mapTexts payload).texts.length ∧
      out = (mapTexts payload).fill new := by
  cases raises : (mapTexts payload).raises with
  | true =>
    rw [injectTexts, extractTexts_eq, raises] at written
    cases written
  | false =>
    rw [injectTexts_of_goes raises] at written
    split at written
    next length => exact ⟨rfl, length, (Except.ok.inj written).symm⟩
    next => cases written

/-- What is written is read back. -/
theorem extractTexts_injectTexts {payload out : Fields} {new : List Text}
    (written : injectTexts payload new = .ok out) : extractTexts out = .ok new := by
  obtain ⟨goes, length, rfl⟩ := goes_of_injectTexts written
  rw [extractTexts_eq, goes_fill goes length, if_neg Bool.false_ne_true, texts_fill goes length]

/-- A second write counts the texts of the first and rebuilds from the same parts. -/
theorem injectTexts_injectTexts {payload out : Fields} {new : List Text}
    (written : injectTexts payload new = .ok out) (newer : List Text) :
    injectTexts out newer = injectTexts payload newer := by
  obtain ⟨goes, length, rfl⟩ := goes_of_injectTexts written
  rw [injectTexts_of_goes (goes_fill goes length), injectTexts_of_goes goes,
    texts_fill goes length, length, mapTexts_fill goes length]
  rfl

end RedactGate
