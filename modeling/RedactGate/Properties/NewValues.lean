import RedactGate.Desktop.Units
import RedactGate.Library.Neighbours

/-!
# Copies of newly found values

The detector looks at a text before the values it finds there join the dictionary. A value
that is found by its surroundings at one place is left alone at another place of the same
text, where nothing but the dictionary would find it.
-/
namespace RedactGate.Desktop

open Library

namespace Engine

variable (engine : Engine)

/-- The surfaces for the dictionary of the entities that the mentions register or link a value
to, the excluded ones apart. -/
def foundValues (mentions : List Mention) (file : VaultFile) : List Text :=
  (mentions.filter (·.found)).flatMap fun m =>
    match (file.entityOf engine.order m.key).map fun e => (e.surfaces, e.excluded) with
    | some (surfaces, false) =>
      (surfaces.map (Text.strip engine.casing.toUnicode)).filter (eligible engine.casing)
    | _ => []

/-- The copy of a text has no such value left, outside the labels that were put in and between
the boundaries of the dictionary. -/
def NoValueLeft (options : Options) (text : Text) (p : Project) (copy : Text)
    (reps : List Replacement) (p' : Project) : Prop :=
  ∀ mentions resolved, engine.mentionsOf options text p = some (mentions, resolved) →
    ∀ value ∈ engine.foundValues mentions p'.file,
      ¬ Contains (isInner engine.casing) (Edit.inserted 0 (reps.map Replacement.toEdit)) value copy

/-- What overlap resolution keeps of the candidates, with the entities that their values have or
get in the project one after the other. -/
def registered (options : Options) (text : Text) (p : Project) : Option (List Mention × Project) :=
  engine.resolveSpans text (mergeSpans (engine.candidates options none text p))
    (engine.dictionaryOf p).2

/-- The value stands at an offset of the text where it stays: no report meets it or ends in front of
it, as a label ends in a digit, and beside it stand boundaries of the dictionary. Where a report
begins behind it, that is the first character of the label. -/
structure Exposed (lang text value : Text) (reports : List Mention) (offset : Nat) : Prop where
  stands : value <+: text.drop offset
  clear : ∀ m ∈ reports, offset + value.length ≤ m.span.start ∨ m.span.stop < offset
  opens : EndsOpen (isInner engine.casing) (text.take offset)
  closes : (∀ m ∈ reports, m.span.start ≠ offset + value.length) →
    StartsOpen (isInner engine.casing) (text.drop (offset + value.length))
  before : ∀ m ∈ reports, m.span.start = offset + value.length →
    StartsOpen (isInner engine.casing) (render engine.casing m.key.1 m.key.2 lang)

/-- The text has no exposed copy of a newly found value. The reports are what is kept of the spans
of the rules and of the surfaces that the project knows before the text, the values of excluded
entities apart. -/
def NoneExposed (lang : Text) (options : Options) (text : Text) (p : Project) : Prop :=
  ∀ mentions after, engine.registered options text p = some (mentions, after) →
    ∀ value ∈ engine.foundValues mentions after.file, ∀ offset,
      ¬ engine.Exposed lang text value (mentions.filter (!·.excluded)) offset

variable {engine}

/-- Counting the labels of a text changes no value of its entities, and so what was found stays the
same. -/
theorem foundValues_bump {spans : List (EntitySpan ℚ)} {text : Text} {p p' : Project}
    {mentions : List Mention} (resolved : engine.resolveSpans text spans p = some (mentions, p'))
    (counts : List (LabelKey × Nat)) : engine.foundValues mentions (p'.file.bump counts) =
      engine.foundValues mentions p'.file := by
  by_cases none : mentions = []
  · rw [none]
    rfl
  · have loaded := memory_resolveSpans resolved (.inl none)
    refine List.flatMap_congr fun m _ => ?_
    rw [surfaces_bump loaded]

theorem ne_nil_of_mem_foundValues {mentions : List Mention} {file : VaultFile} {value : Text}
    (member : value ∈ engine.foundValues mentions file) : value ≠ [] := by
  obtain ⟨m, _, among⟩ := List.mem_flatMap.mp member
  split at among
  · rintro rfl
    exact absurd (List.mem_filter.mp among).2 (by simp [eligible])
  · cases among

/-- What is put in is never empty. -/
theorem render_ne_nil (casing : Casing) (category lang : Text) (n : Nat) :
    render casing category n lang ≠ [] := by
  rw [render]
  exact List.append_ne_nil_of_right_ne_nil _ (List.cons_ne_nil _ _)

/-- Registering what the detector reports, mention after mention, finds the same mentions and the
same values as resolving them does. -/
theorem registered_of_mentionsOf {options : Options} {text : Text} {p resolved : Project}
    {mentions : List Mention}
    (mentioned : engine.mentionsOf options text p = some (mentions, resolved)) :
    ∃ after, engine.registered options text p = some (mentions, after) ∧
      engine.foundValues mentions after.file = engine.foundValues mentions resolved.file := by
  rw [registered, ← detect_fst]
  by_cases blank : Text.strip engine.casing.toUnicode text = []
  · have nothing : engine.detect options none text p = ([], p) := if_pos blank
    rw [mentionsOf, nothing] at mentioned
    obtain ⟨rfl, rfl⟩ := Prod.mk.inj (Option.some.inj mentioned)
    rw [nothing]
    exact ⟨_, rfl, rfl⟩
  · have kept : (engine.detect options none text p).2 = (engine.dictionaryOf p).2 := by
      rw [detect, if_neg blank]
    rw [mentionsOf, kept] at mentioned
    exact ⟨resolved, mentioned, rfl⟩

/-- What is put in ends in a digit, which is no boundary for a value: right behind a label no copy
of a value begins. -/
theorem not_endsOpen_render (casing : Casing) (category lang : Text) (n : Nat) :
    ¬ EndsOpen (isInner casing) (render casing category n lang) := by
  intro opened
  obtain ⟨d, last⟩ := Option.isSome_iff_exists.mp
    (List.getLast?_isSome.mpr (Nat.toDigits_ne_nil (b := 10) (n := n)))
  have digit : d.isDigit = true :=
    Nat.isDigit_of_mem_toDigits (by decide) (by decide) (List.mem_of_getLast? last)
  have outer := opened d (by
    rw [render, List.getLast?_append, List.getLast?_cons, last]
    rfl)
  have word : casing.isWord d = true := by
    refine casing.isWord_of_decimal d ?_
    rw [casing.decimal_ascii d digit]
    rfl
  rw [isInner, word, Bool.true_or] at outer
  cases outer

/-- A copy that stays after the edits is one at an exposed offset: the edits are the labels of the
reports that are not excluded, and no report is empty. -/
theorem leftAt_iff_exposed {lang text value : Text} {mentions : List Mention} {offset : Nat}
    (proper : ∀ e ∈ (engine.replacementsOf lang text mentions).map Replacement.toEdit,
      e.start < e.stop) :
    Edit.LeftAt (isInner engine.casing)
      ((engine.replacementsOf lang text mentions).map Replacement.toEdit) value text offset ↔
        engine.Exposed lang text value (mentions.filter (!·.excluded)) offset := by
  have edits {Q : Edit → Prop} :
      (∀ e ∈ (engine.replacementsOf lang text mentions).map Replacement.toEdit, Q e) ↔
        ∀ m ∈ mentions.filter (!·.excluded), Q (m.rep engine.casing lang text).toEdit := by
    rw [replacementsOf, List.map_map, List.forall_mem_map]
    rfl
  constructor
  · rintro ⟨stands, clear, opens, closes, behind, before⟩
    rw [Edit.Clear, edits] at clear
    rw [edits] at opens closes behind before
    -- a label that ends in front of the place would not leave it open
    have apart : ∀ m ∈ mentions.filter (!·.excluded), m.span.stop ≠ offset := fun m member ends =>
      not_endsOpen_render _ _ _ _ (behind m member ends)
    refine ⟨stands, fun m member => ?_, opens apart, closes, before⟩
    exact (clear m member).imp_right fun ended => Nat.lt_of_le_of_ne ended (apart m member)
  · rintro ⟨stands, clear, opens, closes, before⟩
    rw [edits] at proper
    refine ⟨stands, edits.mpr fun m member => ?_, fun _ => opens, ?_, edits.mpr ?_, edits.mpr before⟩
    · exact (clear m member).imp_right Nat.le_of_lt
    · rwa [edits]
    · intro m member ends
      have width : m.span.start < m.span.stop := proper m member
      have ends : m.span.stop = offset := ends
      rcases clear m member with behind | ended
      · omega
      · omega

end Engine

instance (engine : Engine) (options : Options) (text : Text) (p : Project) (copy : Text)
    (reps : List Replacement) (p' : Project) :
    Decidable (engine.NoValueLeft options text p copy reps p') :=
  decidable_of_iff (∀ m ∈ engine.mentionsOf options text p,
    ∀ value ∈ engine.foundValues m.1 p'.file, ¬ Contains (isInner engine.casing)
      (Edit.inserted 0 (reps.map Replacement.toEdit)) value copy)
    ⟨fun all mentions resolved found => all (mentions, resolved) found,
      fun all m found => all m.1 m.2 found⟩

/-- A name that the text has in quotes, and once more without them. -/
def nameAgain : Text := "ТОВ «Alpha». Alpha.".toList

/-- A name that the text has in quotes, and a longer one. -/
def nameInName : Text := "ТОВ «Alpha». Alphabet.".toList

end RedactGate.Desktop
