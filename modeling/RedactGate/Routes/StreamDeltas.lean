import RedactGate.Redaction.StreamBuffer
import RedactGate.Routes.Stream
import Mathlib.Algebra.Order.Ring.Rat

/-!
# The deltas of a stream

Chunks that carry the text of one choice, and what the client reads from the chunks that
are passed on: one buffer serves all of them, so the texts come out in the order they
went in, each under the choice of the chunk that released it.
-/
namespace RedactGate

open Library StreamDetokenizer

/-- A chunk with one choice, whose index and the text of whose delta are given. -/
def IsDelta (delta : Nat × Text) (chunk : Json) : Prop :=
  ∃ choice, chunk.at? [.key "choices".toList] = some (.arr [choice]) ∧
    choice.at? [.key "index".toList] = some (.number delta.1) ∧
    choice.at? [.key "delta".toList, .key "content".toList] = some (.str delta.2)

def choiceDelta (choice : Json) : Option (ℚ × Text) :=
  match choice.at? [.key "index".toList],
    choice.at? [.key "delta".toList, .key "content".toList] with
  | some (.number index), some (.str text) => some (index, text)
  | _, _ => none

/-- The index and the text of every choice of a chunk that has a delta with a text. -/
def contentDeltas (chunk : Json) : List (ℚ × Text) :=
  match chunk.at? [.key "choices".toList] with
  | some (.arr choices) => choices.filterMap choiceDelta
  | _ => []

/-- The content deltas that reach the client. -/
def emitted (items : List SseItem) : List (ℚ × Text) :=
  items.flatMap fun
    | .chunk content => contentDeltas content
    | .done => []

def deltasText {ι : Type} (deltas : List (ι × Text)) : Text := deltas.flatMap Prod.snd

/-- The concatenated deltas of one choice. -/
def choiceText {ι : Type} [DecidableEq ι] (index : ι) (deltas : List (ι × Text)) : Text :=
  deltasText (deltas.filter (·.1 = index))

/-- The text a push releases; an empty delta is not pushed. -/
def released (g : Text → Option Text) (buffer text : Text) : Text :=
  if text.isEmpty then []
  else substitute placeholderAt g ((buffer ++ text).take (cutAt (buffer ++ text)))

/-- The deltas that pushing all deltas in turn passes on: each push releases text for the choice
that it came from. -/
def pushDeltas {ι : Type} (g : Text → Option Text) : Text → List (ι × Text) → List (ι × Text)
  | _, [] => []
  | buffer, (index, text) :: rest =>
    (index, released g buffer text) :: pushDeltas g (pushBuffer buffer text) rest

/-- A chunk with nothing but the delta of one choice. -/
def deltaChunk (index : Nat) (text : Text) : Json :=
  .obj [("choices".toList, .arr [.obj [("index".toList, .number index),
    ("delta".toList, .obj [("content".toList, .str text)])]])]

/-! ## One chunk -/

theorem isDelta_deltaChunk (index : Nat) (text : Text) :
    IsDelta (index, text) (deltaChunk index text) :=
  ⟨_, rfl, rfl, rfl⟩

theorem IsDelta.deltaText {delta : Nat × Text} {chunk : Json} (carries : IsDelta delta chunk) :
    chunk.at? RedactGate.deltaText = some (.str delta.2) := by
  obtain ⟨choice, choices, _, content⟩ := carries
  obtain ⟨fields, member, rfl, found, here⟩ := Json.at?_key_eq_some.mp choices
  rw [Json.at?_nil, Option.some.injEq] at here
  subst here
  simp only [RedactGate.deltaText, Json.at?, found, Option.bind_some, List.getElem?_cons_zero]
  exact content

theorem IsDelta.contentDeltas {delta : Nat × Text} {chunk : Json} (carries : IsDelta delta chunk) :
    RedactGate.contentDeltas chunk = [((delta.1 : ℚ), delta.2)] := by
  obtain ⟨choice, choices, index, content⟩ := carries
  simp only [RedactGate.contentDeltas, choices, List.filterMap_cons, choiceDelta, index, content,
    List.filterMap_nil]

/-- Writing another text as the delta of a chunk leaves the index of its choice as it is: it becomes
a chunk with this delta. -/
theorem IsDelta.setAt {delta : Nat × Text} {chunk : Json} (carries : IsDelta delta chunk)
    (text : Text) : IsDelta (delta.1, text) (chunk.setAt RedactGate.deltaText (.str text)) := by
  obtain ⟨choice, choices, index, content⟩ := carries
  obtain ⟨fields, member, rfl, found, here⟩ := Json.at?_key_eq_some.mp choices
  rw [Json.at?_nil, Option.some.injEq] at here
  subst here
  obtain ⟨choiceFields, deltaJson, rfl, hasDelta, content⟩ := Json.at?_key_eq_some.mp content
  obtain ⟨deltaFields, old, rfl, hasContent, _⟩ := Json.at?_key_eq_some.mp content
  refine ⟨.obj (Fields.set choiceFields "delta".toList
    (.obj (Fields.set deltaFields "content".toList (.str text)))), ?_, ?_, ?_⟩
  · simp only [RedactGate.deltaText, Json.setAt, found, List.getElem?_cons_zero, hasDelta,
      hasContent,
      Json.at?, Fields.get?_set_self, Option.bind_some, List.set_cons_zero]
  · have other : "delta".toList ≠ "index".toList := by decide
    rw [Json.at?, Fields.get?_set_of_ne other]
    exact index
  · simp only [Json.at?, Fields.get?_set_self, Option.bind_some]

/-! ## The chunks of a stream -/

variable {vault : Vault} {store : InMemoryTokenStore} {g : Text → Option Text}

/-- One chunk of a stream is passed on with what its delta releases from the buffer, for the same
choice. -/
theorem streamChunk_delta {detok : StreamDetokenizer} (resolves : Substitutes vault store detok g)
    {delta : Nat × Text} {chunk : Json} (carries : IsDelta delta chunk) :
    ∃ out, streamChunk vault store detok chunk =
        some (out, { detok with buffer := pushBuffer detok.buffer delta.2 }) ∧
      IsDelta (delta.1, released g detok.buffer delta.2) out := by
  rw [streamChunk, carries.deltaText]
  by_cases empty : delta.2.isEmpty = true
  · have text : delta.2 = [] := List.isEmpty_iff.mp empty
    refine ⟨chunk, by simp [Json.truthy, empty, pushBuffer], ?_⟩
    rw [released, if_pos empty, ← text]
    exact carries
  · refine ⟨_, ?_, carries.setAt _⟩
    simp only [Json.truthy, empty, Bool.not_false, if_true, push_eq resolves, Option.map_some,
      pushBuffer, released, Bool.false_eq_true, if_false]

/-- The run lemma of the loop, by induction on the chunks: their deltas are pushed one by one, and
each chunk is passed on with what its push emits. -/
theorem streamChunks_deltas {deltas : List (Nat × Text)} {chunks : List Json}
    (carry : List.Forall₂ IsDelta deltas chunks) : ∀ {detok : StreamDetokenizer},
      Substitutes vault store detok g → ∃ outs, streamChunks vault store detok chunks =
          (outs,
            some { detok with buffer := (deltas.map Prod.snd).foldl pushBuffer detok.buffer }) ∧
        List.Forall₂ IsDelta (pushDeltas g detok.buffer deltas) outs := by
  induction carry with
  | nil => exact fun _ => ⟨[], rfl, .nil⟩
  | @cons delta chunk deltas chunks carries _ ih =>
    intro detok resolves
    obtain ⟨out, passed, carries'⟩ := streamChunk_delta resolves carries
    have resolves' : Substitutes vault store
        { detok with buffer := pushBuffer detok.buffer delta.2 } g := resolves
    obtain ⟨outs, rest, carry'⟩ := ih resolves'
    refine ⟨out :: outs, ?_, .cons carries' carry'⟩
    rw [streamChunks, passed]
    simp only [rest, List.map_cons, List.foldl_cons]

theorem flatMap_contentDeltas {deltas : List (Nat × Text)} {chunks : List Json}
    (carry : List.Forall₂ IsDelta deltas chunks) :
    chunks.flatMap contentDeltas = deltas.map fun delta => ((delta.1 : ℚ), delta.2) := by
  induction carry with
  | nil => rfl
  | cons carries _ ih =>
    rw [List.flatMap_cons, carries.contentDeltas, ih, List.map_cons, List.singleton_append]

/-- The tail of a stream that ends comes under the first choice. -/
theorem contentDeltas_tailChunk (tail : Text) : contentDeltas (tailChunk tail) = [(0, tail)] := rfl

theorem contentDeltas_errorBody (message : Text) (code : Option Text) :
    contentDeltas (errorBody message code) = [] := rfl

theorem emitted_items (detok : StreamDetokenizer) (received : List Json) (ending : StreamEnd) :
    emitted (streamResponse vault store detok received ending).items =
      (streamBody vault store detok received ending).1.flatMap contentDeltas := by
  simp [streamResponse, emitted, List.flatMap_map]

/-- What the client reads from a stream of one-choice chunks: the buffer comes out at
the end only if the stream ends by itself. -/
theorem emitted_streamResponse {detok : StreamDetokenizer}
    (resolves : Substitutes vault store detok g) (fresh : detok.buffer = [])
    {deltas : List (Nat × Text)} {chunks : List Json} (carry : List.Forall₂ IsDelta deltas chunks)
    (ending : StreamEnd) :
    let buffer := (deltas.map Prod.snd).foldl pushBuffer []
    emitted (streamResponse vault store detok chunks ending).items =
      (pushDeltas g [] deltas).map (fun delta => ((delta.1 : ℚ), delta.2)) ++
        if ending = .ends ∧ buffer ≠ [] then [(0, buffer)] else [] := by
  obtain ⟨outs, looped, carry'⟩ := streamChunks_deltas carry resolves
  rw [fresh] at looped carry'
  dsimp only
  -- what the buffer still holds is no placeholder, so the flush emits it as it is
  have inert := substitute_foldl_pushBuffer g (deltas.map Prod.snd)
  generalize (deltas.map Prod.snd).foldl pushBuffer [] = buffer at looped inert
  have resolves' : Substitutes vault store { detok with buffer := buffer } g := resolves
  obtain ⟨tail, flushed, tail_eq⟩ := flush_isSome resolves'
  obtain rfl : tail = buffer := tail_eq.trans inert
  rw [← flatMap_contentDeltas carry', emitted_items]
  unfold streamBody
  rw [looped]
  -- only the regular end flushes
  cases ending with
  | raises => simp
  | providerError message =>
    simp only [List.flatMap_append, List.flatMap_singleton, contentDeltas_errorBody]
    simp
  | ends =>
    simp only [flushed]
    by_cases empty : tail = []
    · simp [empty]
    · simp [empty, contentDeltas_tailChunk]

/-- Whatever the choices are, the texts that are passed on and the rest in the buffer make up the
substitution of all the text received, if the placeholders are short. -/
theorem deltasText_pushDeltas {ι : Type}
    (short : ∀ p, (g p).isSome → p.length ≤ maxPlaceholderLen) (deltas : List (ι × Text)) :
    ∀ buffer, deltasText (pushDeltas g buffer deltas) ++
        substitute placeholderAt g ((deltas.map Prod.snd).foldl pushBuffer buffer) =
      substitute placeholderAt g (buffer ++ deltasText deltas) := by
  induction deltas with
  | nil => simp [pushDeltas, deltasText]
  | cons delta deltas ih =>
    intro buffer
    obtain ⟨index, text⟩ := delta
    have rest := ih (pushBuffer buffer text)
    simp only [pushDeltas, deltasText, List.flatMap_cons, List.map_cons, List.foldl_cons,
      List.append_assoc] at rest ⊢
    rw [rest]
    by_cases empty : text.isEmpty = true
    · have text_eq : text = [] := List.isEmpty_iff.mp empty
      simp [released, pushBuffer, text_eq]
    · have uncut := uncut_cutAt (buffer ++ text) short (deltas.flatMap Prod.snd)
      have whole := substitute_append placeholderAt_laws _ _ uncut
      rw [← List.append_assoc, List.take_append_drop, List.append_assoc] at whole
      rw [released, if_neg empty, pushBuffer, if_neg empty, whole]

theorem deltasText_map {ι κ : Type} (f : ι → κ) (deltas : List (ι × Text)) :
    deltasText (deltas.map fun delta => (f delta.1, delta.2)) = deltasText deltas := by
  simp [deltasText, List.flatMap_map]

theorem deltasText_append {ι : Type} (deltas more : List (ι × Text)) :
    deltasText (deltas ++ more) = deltasText deltas ++ deltasText more := by
  simp [deltasText]

/-! ## The text of one choice -/

section

variable {ι : Type} [DecidableEq ι]

@[simp] theorem choiceText_nil (index : ι) : choiceText index [] = [] := rfl

theorem choiceText_cons (index : ι) (delta : ι × Text) (deltas : List (ι × Text)) :
    choiceText index (delta :: deltas) =
      (if delta.1 = index then delta.2 else []) ++ choiceText index deltas := by
  by_cases mine : delta.1 = index <;> simp [choiceText, deltasText, mine]

theorem choiceText_append (index : ι) (deltas more : List (ι × Text)) :
    choiceText index (deltas ++ more) = choiceText index deltas ++ choiceText index more := by
  simp [choiceText, deltasText]

theorem choiceText_map_cast (index : Nat) (deltas : List (Nat × Text)) :
    choiceText (index : ℚ) (deltas.map fun delta => ((delta.1 : ℚ), delta.2)) =
      choiceText index deltas := by
  induction deltas with
  | nil => rfl
  | cons delta deltas ih => simp [choiceText_cons, ih]

/-- The text of a choice holds every delta of it. -/
theorem infix_choiceText {delta : ι × Text} {deltas : List (ι × Text)} (member : delta ∈ deltas) :
    delta.2 <:+: choiceText delta.1 deltas := by
  obtain ⟨before, after, rfl⟩ := List.append_of_mem member
  refine ⟨choiceText delta.1 before, choiceText delta.1 after, ?_⟩
  rw [choiceText_append, choiceText_cons, if_pos rfl, List.append_assoc]

/-- With text in one choice only, its text is all the text that the deltas have. -/
theorem deltasText_eq_choiceText {only : ι} {deltas : List (ι × Text)}
    (alone : ∀ delta ∈ deltas, delta.1 ≠ only → delta.2 = []) :
    deltasText deltas = choiceText only deltas := by
  induction deltas with
  | nil => rfl
  | cons delta deltas ih =>
    have rest := ih fun d member => alone d (List.mem_cons_of_mem _ member)
    rw [deltasText, List.flatMap_cons, choiceText_cons, ← rest, deltasText]
    by_cases mine : delta.1 = only
    · rw [if_pos mine]
    · rw [if_neg mine, alone delta List.mem_cons_self mine]

theorem choiceText_eq_nil {index : ι} {deltas : List (ι × Text)}
    (silent : ∀ delta ∈ deltas, delta.1 = index → delta.2 = []) : choiceText index deltas = [] := by
  rw [choiceText, deltasText, List.flatMap_eq_nil_iff]
  intro delta member
  have both := List.mem_filter.mp member
  exact silent delta both.1 (by simpa using both.2)

omit [DecidableEq ι] in
/-- A choice whose deltas have no text is passed on without text, whatever is in the buffer. -/
theorem pushDeltas_silent {index : ι} {deltas : List (ι × Text)}
    (silent : ∀ delta ∈ deltas, delta.1 = index → delta.2 = []) : ∀ buffer,
      ∀ delta ∈ pushDeltas g buffer deltas, delta.1 = index → delta.2 = [] := by
  induction deltas with
  | nil => simp [pushDeltas]
  | cons delta deltas ih =>
    intro buffer d member mine
    obtain ⟨i, text⟩ := delta
    rcases List.mem_cons.mp member with rfl | member
    · have none : text = [] := silent _ List.mem_cons_self mine
      simp [released, none]
    · exact ih (fun d member => silent d (List.mem_cons_of_mem _ member)) _ d member mine

/-- One delta for each of some choices: a choice that is among them has its text, and any other has
none. -/
theorem choiceText_map_self (texts : ι → Text) {indices : List ι} (distinct : indices.Nodup)
    (index : ι) : choiceText index (indices.map fun i => (i, texts i)) =
      if index ∈ indices then texts index else [] := by
  induction indices with
  | nil => rfl
  | cons i indices ih =>
    have rest := ih distinct.of_cons
    rw [List.map_cons, choiceText_cons, rest]
    by_cases here : i = index
    · subst here
      have absent : i ∉ indices := (List.nodup_cons.mp distinct).1
      simp [absent]
    · have other : index ≠ i := fun eq => here eq.symm
      simp [here, other]

end

end RedactGate
