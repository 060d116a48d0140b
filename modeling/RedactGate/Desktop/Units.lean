import RedactGate.Desktop.Engine

/-!
# Text units

What the engine makes of a text unit: the mentions with their entities, the replacements,
which lie in the text one after the other, and the copy.
-/
namespace RedactGate.Desktop

open Library

/-- A span with the entity that it is resolved to, and what the call tells of the entity at that
time. -/
structure Mention where
  span : EntitySpan ℚ
  key : LabelKey
  /-- The entity was not known by the value: it is registered, or the value is linked to it. -/
  found : Bool
  /-- The entity is excluded when the span is resolved. -/
  excluded : Bool

/-- The replacement of a mention. -/
def Mention.rep (casing : Casing) (lang text : Text) (m : Mention) : Replacement :=
  ⟨⟨m.span.start, m.span.stop, render casing m.key.1 m.key.2 lang⟩, m.key.1, m.key.2,
    text.slice m.span.start m.span.stop⟩

namespace Engine

variable (engine : Engine)

/-- No entity is known by the value. -/
def unknown (category surface : Text) (p : Project) : Bool :=
  ((p.file.load engine.order).byFingerprint engine.order (engine.valueFp category surface)).isNone

/-- The spans of the rules and the known surfaces that the dictionary of the project finds in a
text, as the filter of the detector leaves them. -/
def candidates (options : Options) (force : Option Text) (text : Text) (p : Project) :
    List (EntitySpan ℚ) :=
  (engine.rules options force text ++
    dictionarySpans engine.casing (engine.dictionaryOf p).1 text).filterMap
      (refineSpan engine.casing options text (findLabels engine.casing text))

/-- The mentions of the spans, resolved one by one in the project as the spans before leave it; a
span that raises ends the unit. -/
def resolveSpans (text : Text) : List (EntitySpan ℚ) → Project → Option (List Mention × Project)
  | [], p => some ([], p)
  | s :: spans, p =>
    let surface := text.slice s.start s.stop
    (engine.resolveMention s.entityType surface p).bind fun (key, p₁) =>
      (resolveSpans text spans p₁).map fun (mentions, p₂) =>
        (⟨s, key, engine.unknown s.entityType surface p,
          (p₁.file.entityOf engine.order key).any (·.excluded)⟩ :: mentions, p₂)

/-- The mentions that the detector finds in a text, with the project as they leave it. -/
def mentionsOf (options : Options) (text : Text) (p : Project) : Option (List Mention × Project) :=
  engine.resolveSpans text (engine.detect options none text p).1
    (engine.detect options none text p).2

/-- The replacements of the mentions whose entities are not excluded. -/
def replacementsOf (lang text : Text) (mentions : List Mention) : List Replacement :=
  (mentions.filter (!·.excluded)).map (Mention.rep engine.casing lang text)

variable {engine} {lang text : Text}

theorem labelSpans_eq (spans : List (EntitySpan ℚ)) (p : Project) :
    engine.labelSpans lang text spans p = (engine.resolveSpans text spans p).map fun resolved =>
      (engine.replacementsOf lang text resolved.1, resolved.2) := by
  induction spans generalizing p with
  | nil => rfl
  | cons s spans ih =>
    rw [labelSpans, resolveSpans]
    cases engine.resolveMention s.entityType (text.slice s.start s.stop) p with
    | none => rfl
    | some resolved =>
      obtain ⟨key, p₁⟩ := resolved
      simp only [Option.bind_eq_bind, Option.bind_some, ih]
      cases engine.resolveSpans text spans p₁ with
      | none => rfl
      | some rest =>
        simp only [Option.map_some, Option.bind_some, replacementsOf]
        -- the span of an excluded entity is resolved and then left out
        cases excluded : (p₁.file.entityOf engine.order key).any (·.excluded) with
        | true => simp
        | false => simp [Mention.rep]

theorem map_span_resolveSpans {spans : List (EntitySpan ℚ)} {p p' : Project}
    {mentions : List Mention} (resolved : engine.resolveSpans text spans p = some (mentions, p')) :
    mentions.map Mention.span = spans := by
  induction spans generalizing p mentions with
  | nil =>
    obtain ⟨rfl, rfl⟩ := Prod.mk.inj (Option.some.inj resolved)
    rfl
  | cons s spans ih =>
    obtain ⟨⟨key, p₁⟩, _, tail⟩ := Option.bind_eq_some_iff.mp resolved
    obtain ⟨⟨later, p₂⟩, rest, same⟩ := Option.map_eq_some_iff.mp tail
    obtain ⟨rfl, rfl⟩ := Prod.mk.inj same
    exact congrArg (s :: ·) (ih rest)

/-! ## Detection -/

/-- What the filter of the detector does with a span that it returns: the category is one that is
asked for, and the ends are trimmed, for a date of birth those of the date in the span. -/
theorem refineSpan_cases {casing : Casing} {options : Options} {labels : List LabelHit}
    {s s' : EntitySpan ℚ} (kept : refineSpan casing options text labels s = some s') :
    s'.entityType ∈ options.categories ∧ s'.start < s'.stop ∧ ∃ d : EntitySpan ℚ,
      let t := text.slice d.start d.stop
      s'.start = d.start + (t.length - (t.dropWhile casing.isSpace).length) ∧
        s'.stop = d.start + (t.rdropWhile fun c => " \t\r\n,;:".toList.contains c).length := by
  simp only [refineSpan] at kept
  split at kept
  · cases kept
  · next asked =>
    split at kept
    · cases kept
    -- what is trimmed is the span itself, or the date in it
    · obtain ⟨d, _, kept⟩ := Option.bind_eq_some_iff.mp kept
      split at kept
      · cases kept
      · split at kept
        · cases kept
        · next some =>
          obtain rfl := Option.some.inj kept
          exact ⟨not_not.mp asked, Nat.lt_of_not_le some, d, rfl, rfl⟩

/-- What the filter of the detector returns lies in the text and covers something: it trims spans,
and drops those of which nothing is left. -/
theorem refineSpan_bounds {casing : Casing} {options : Options} {labels : List LabelHit}
    {s s' : EntitySpan ℚ} (kept : refineSpan casing options text labels s = some s') :
    s'.start < s'.stop ∧ s'.stop ≤ text.length := by
  obtain ⟨_, proper, d, start, stop⟩ := refineSpan_cases kept
  have trimmed := (List.rdropWhile_prefix (fun c => " \t\r\n,;:".toList.contains c)
    (text.slice d.start d.stop)).length_le
  have width : (text.slice d.start d.stop).length ≤ text.length - d.start := by
    rw [Text.slice, List.length_drop, List.length_take]
    omega
  exact ⟨proper, by omega⟩

/-- In a blank text the filter of the detector returns nothing, since a span of white space is
trimmed away. -/
theorem refineSpan_blank {casing : Casing} {options : Options} {labels : List LabelHit}
    (blank : ∀ c ∈ text, casing.isSpace c = true) (s : EntitySpan ℚ) :
    refineSpan casing options text labels s = none := by
  refine Option.eq_none_iff_forall_ne_some.mpr fun s' kept => ?_
  obtain ⟨_, proper, d, start, stop⟩ := refineSpan_cases kept
  have all : (text.slice d.start d.stop).dropWhile casing.isSpace = [] :=
    List.dropWhile_eq_nil_iff.mpr fun c member =>
      blank c (List.mem_of_mem_take (List.mem_of_mem_drop member))
  have trimmed := (List.rdropWhile_prefix (fun c => " \t\r\n,;:".toList.contains c)
    (text.slice d.start d.stop)).length_le
  rw [all, List.length_nil] at start
  omega

/-- The detector reports what overlap resolution keeps of the candidates: the spans of the rules and
of the dictionary of the project, as the filter of the detector leaves them. -/
theorem detect_fst (options : Options) (force : Option Text) (text : Text) (p : Project) :
    (engine.detect options force text p).1 =
      mergeSpans (engine.candidates options force text p) := by
  rw [detect]
  split
  · next blank =>
    -- for a blank text the code returns early, where no span would have been kept either
    have spaces : ∀ c ∈ text, engine.casing.isSpace c = true := by
      rw [Text.strip, List.rdropWhile_eq_nil_iff] at blank
      intro c member
      rw [← List.takeWhile_append_dropWhile (p := engine.casing.isSpace) (l := text)] at member
      rcases List.mem_append.mp member with front | back
      · exact List.mem_takeWhile_imp front
      · exact blank c back
    have none : engine.candidates options force text p = [] :=
      List.filterMap_eq_nil_iff.mpr fun s _ => refineSpan_blank spaces s
    rw [none]
    rfl
  · rfl

theorem candidates_inside {options : Options} {force : Option Text} {p : Project} :
    ∀ s ∈ engine.candidates options force text p, s.start < s.stop ∧ s.stop ≤ text.length := by
  intro s member
  obtain ⟨_, _, kept⟩ := List.mem_filterMap.mp member
  exact refineSpan_bounds kept

theorem detect_bounds {options : Options} {force : Option Text} {p p' : Project}
    {spans : List (EntitySpan ℚ)} (detected : engine.detect options force text p = (spans, p')) :
    (∀ s ∈ spans, s.start < s.stop ∧ s.stop ≤ text.length) ∧
      spans.Pairwise fun a b => a.stop ≤ b.start := by
  obtain rfl : mergeSpans (engine.candidates options force text p) = spans :=
    (detect_fst options force text p).symm.trans (congrArg Prod.fst detected)
  have inside : ∀ s ∈ engine.candidates options force text p,
      s.start < s.stop ∧ s.stop ≤ text.length := candidates_inside
  have proper := fun s member => (inside s member).1
  exact ⟨fun s member => inside s (mem_of_mem_mergeSpans proper member),
    mergeSpans_separated proper⟩

/-! ## The copy -/

theorem placed_of_bounds {spans : List (EntitySpan ℚ)} {mentions : List Mention}
    (named : mentions.map Mention.span = spans)
    (bounds : ∀ s ∈ spans, s.start < s.stop ∧ s.stop ≤ text.length)
    (apart : spans.Pairwise fun a b => a.stop ≤ b.start) :
    Placed text ((engine.replacementsOf lang text mentions).map Replacement.toEdit) := by
  subst named
  have inside : ∀ e ∈ (engine.replacementsOf lang text mentions).map Replacement.toEdit,
      e.start < e.stop ∧ e.stop ≤ text.length := by
    intro e member
    rw [replacementsOf, List.map_map, List.mem_map] at member
    obtain ⟨m, among, rfl⟩ := member
    exact bounds m.span (List.mem_map_of_mem (List.mem_filter.mp among).1)
  refine ⟨Edit.ordered_of_pairwise (fun e member => ?_) ?_ (Nat.zero_le _), fun e member =>
    (inside e member).1⟩
  · have here := inside e member
    omega
  · rw [replacementsOf, List.map_map, List.pairwise_map]
    exact ((List.pairwise_map.mp apart).filter _).imp fun h => h

/-- The record of a document: what its replacements stand for. -/
def recordOf (reps : List Replacement) : List Occurrence :=
  reps.map fun r => ⟨r.category, r.n, r.original⟩

/-- What happens when a text is anonymized: its mentions are resolved, those that are not excluded
are replaced, and the labels are counted and recorded. -/
structure Anonymized (engine : Engine) (lang : Text) (options : Options) (text : Text) (p : Project)
    (copy : Text) (reps : List Replacement) (p' : Project) (mentions : List Mention)
    (resolved : Project) : Prop where
  mentioned : engine.mentionsOf options text p = some (mentions, resolved)
  replaced : reps = engine.replacementsOf lang text mentions
  placed : Placed text (reps.map Replacement.toEdit)
  copied : copy = Edit.patch text 0 (reps.map Replacement.toEdit)
  counted : p'.file = resolved.file.bump (countsOf (reps.map fun r => (r.category, r.n)))
  recorded : p'.documents =
    ⟨engine.labelDigest ((recordOf reps).map Occurrence.key), recordOf reps⟩ :: resolved.documents

theorem anonymized_of_anonymizeText {options : Options} {p p' : Project} {copy : Text}
    {reps : List Replacement}
    (done : engine.anonymizeText lang options text p = some (copy, reps, p')) :
    ∃ mentions resolved, Anonymized engine lang options text p copy reps p' mentions resolved := by
  obtain ⟨⟨reps', run, q⟩, unit, same⟩ := Option.map_eq_some_iff.mp done
  simp only [anonymizeUnit, labelSpans_eq, Option.map_map, Option.map_eq_some_iff] at unit
  obtain ⟨⟨mentions, resolved⟩, mentioned, made⟩ := unit
  have bounds := detect_bounds (rfl : engine.detect options none text p = _)
  have placed : Placed text ((engine.replacementsOf lang text mentions).map Replacement.toEdit) :=
    placed_of_bounds (map_span_resolveSpans mentioned) bounds.1 bounds.2
  simp only [Function.comp, insertionSort_of_placed placed, Prod.mk.injEq] at made
  obtain ⟨rfl, rfl, rfl⟩ := made
  simp only [Prod.mk.injEq] at same
  obtain ⟨rfl, rfl, rfl⟩ := same
  refine ⟨mentions, resolved, mentioned, rfl, placed, applyReplacements_eq placed, ?_, ?_⟩
  · simp [RunState.empty]
  · simp [RunState.empty, recordOf]

/-! ## States in memory -/

theorem memory_addVariant {order : RowOrder} {st : VaultFile} (loaded : st.memory.isSome)
    (key : LabelKey) (fp surface : Text) : (st.addVariant order key fp surface).memory.isSome := by
  rw [VaultFile.addVariant]
  split
  · exact loaded
  · split
    · exact loaded
    · rfl

theorem memory_setCanonical {order : RowOrder} {st : VaultFile} (loaded : st.memory.isSome)
    (key : LabelKey) (value : Text) (personMeta : Option PersonMeta) :
    (st.setCanonical order key value personMeta).memory.isSome := by
  rw [VaultFile.setCanonical]
  split
  · exact loaded
  · rw [VaultFile.updateEntity]
    split
    · exact loaded
    · rfl

/-- A project is in memory once a mention is resolved, since the first step of resolving is to load
the tables if they are not there yet. -/
theorem memory_resolve {anon : Anonymizer} {st st' : VaultFile} {category surface : Text}
    {origin : Origin} {key : LabelKey}
    (resolved : anon.resolve st category surface origin = some (key, st')) :
    st'.memory.isSome := by
  -- the first thing a resolution does is load the memory
  have loaded : (st.load anon.order).memory.isSome := rfl
  cases resolves_of_resolve resolved with
  | known e found has => exact loaded
  | spelled e found lacks => exact memory_addVariant loaded _ _ _
  | linked e unknown found =>
    have first : ((st.load anon.order).addVariant anon.order e.key
        (anon.valueFp category surface) surface).memory.isSome := memory_addVariant loaded _ _ _
    rw [Anonymizer.linkAlias]
    split
    · exact memory_addVariant (memory_setCanonical first _ _ _) _ _ _
    · exact first
  | created unknown alone added =>
    rw [VaultFile.addEntity] at added
    split at added
    · cases added
    · obtain ⟨rfl, rfl⟩ := Prod.mk.inj (Option.some.inj added)
      rfl

theorem memory_resolveMention {category surface : Text} {p p' : Project} {key : LabelKey}
    (resolved : engine.resolveMention category surface p = some (key, p')) :
    p'.file.memory.isSome := by
  obtain ⟨⟨key', file⟩, entered, same⟩ := Option.map_eq_some_iff.mp resolved
  obtain ⟨rfl, rfl⟩ := Prod.mk.inj same
  exact memory_resolve entered

/-- A project is in memory after the spans of a text are resolved, if there was any or it was in
memory before. -/
theorem memory_resolveSpans {spans : List (EntitySpan ℚ)} {p p' : Project} {mentions : List Mention}
    (resolved : engine.resolveSpans text spans p = some (mentions, p'))
    (some : mentions ≠ [] ∨ p.file.memory.isSome) : p'.file.memory.isSome := by
  induction spans generalizing p mentions with
  | nil =>
    obtain ⟨rfl, rfl⟩ := Prod.mk.inj (Option.some.inj resolved)
    exact some.resolve_left fun some => some rfl
  | cons s spans ih =>
    obtain ⟨⟨key, p₁⟩, first, tail⟩ := Option.bind_eq_some_iff.mp resolved
    obtain ⟨⟨later, p₂⟩, rest, same⟩ := Option.map_eq_some_iff.mp tail
    obtain ⟨rfl, rfl⟩ := Prod.mk.inj same
    exact ih rest (.inr (memory_resolveMention first))

/-- Counting the labels of a document changes neither the surfaces of an entity in memory nor
whether it is excluded, and a loaded project remains loaded. -/
theorem surfaces_bump {order : RowOrder} {st : VaultFile} (loaded : st.memory.isSome)
    (counts : List (LabelKey × Nat)) (key : LabelKey) :
    ((st.bump counts).entityOf order key).map (fun e => (e.surfaces, e.excluded)) =
      (st.entityOf order key).map fun e => (e.surfaces, e.excluded) := by
  induction counts generalizing st with
  | nil => rfl
  | cons count counts ih =>
    obtain ⟨m, held⟩ := Option.isSome_iff_exists.mp loaded
    have still : (st.bumpOne count.1 count.2).memory.isSome := by
      rw [VaultFile.bumpOne, held]
      rfl
    refine (ih still).trans ?_
    -- the counter is the only field of the entity that changes
    simp only [VaultFile.entityOf, VaultFile.memoryOf, VaultFile.bumpOne, held, Option.map_some,
      Option.getD_some]
    cases found : m.cache.get? count.1 with
    | none => rfl
    | some e =>
      simp only [Dict.get?_set]
      split
      · next same =>
        subst same
        rw [found]
        rfl
      · rfl

end Engine

end RedactGate.Desktop
