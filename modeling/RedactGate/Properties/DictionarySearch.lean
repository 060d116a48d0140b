import RedactGate.Desktop.ProjectRuns
import RedactGate.Library.Copies

/-!
# Known values in a text

The dictionary is searched for in folded case. A surface is found where it stands if something
in it is spelled like a folded surface, letter by letter and in any case, and if whatever the
search can take for a folded surface there folds to one. The first fails for a letter whose
folded form has two characters.
-/
namespace RedactGate.Desktop

open Library

section

variable (casing : Casing)

/-- A word that a search without regard to case takes for another one. -/
def SpelledAs (a w : Text) : Prop := List.Forall₂ (fun d c => casing.sameCase c d = true) a w

/-- A word stands in a text at an offset, between characters that do not go on with a word. -/
structure StandsAt (text w : Text) (i j : Nat) : Prop where
  ordered : i ≤ j
  inside : j ≤ text.length
  word : text.slice i j = w
  opened : EndsOpen (isInner casing) (text.take i)
  closed : StartsOpen (isInner casing) (text.drop j)

/-- The surfaces of the entities that go into the dictionary. -/
def Listed (ents : List Entity) (e : Entity) (w : Text) : Prop :=
  e ∈ ents ∧ eligible casing w = true ∧ ∃ s ∈ e.surfaces, Text.strip casing.toUnicode s = w

/-- A part of the text between characters that are none of a word, spelled like the folded form of
a listed surface: what the search can take. -/
def SpelledLike (ents : List Entity) (text : Text) (i j : Nat) : Prop :=
  ∃ e w w', Listed casing ents e w ∧ StandsAt casing text w' i j ∧
    SpelledAs casing (casing.fold w) w'

/-- In the text, case folding leaves the listed surfaces in place. Inside each of them begins
something that is spelled like a folded surface, as a rule the surface itself, and what is spelled
so and overlaps one of them folds to a folded surface. -/
structure FoldsInPlace (ents : List Entity) (text : Text) : Prop where
  spelled : ∀ e w i j, Listed casing ents e w → StandsAt casing text w i j →
    ∃ q r, i ≤ q ∧ q < j ∧ SpelledLike casing ents text q r
  folded : ∀ e w i j, Listed casing ents e w → StandsAt casing text w i j →
    ∀ q r, SpelledLike casing ents text q r → q < j → i < r →
      ∃ e' w', Listed casing ents e' w' ∧ casing.fold w' = casing.fold (text.slice q r)

end

/-- Wherever a surface of an entity stands in the text, the search reports a span that overlaps it,
with the category of an entity that has what was found as a surface. -/
def DictionaryFinds (engine : Engine) (p : Project) (text : Text) : Prop :=
  ∀ e w i j, Listed engine.casing (p.file.entities engine.order) e w →
    StandsAt engine.casing text w i j →
    ∃ s ∈ dictionarySpans engine.casing (engine.dictionaryOf p).1 text,
      s.start < j ∧ i < s.stop ∧ ∃ e' w', Listed engine.casing (p.file.entities engine.order) e' w' ∧
        engine.casing.fold w' = engine.casing.fold (text.slice s.start s.stop) ∧
          e'.category = s.entityType

variable {casing : Casing} {ents : List Entity}

/-! ## The dictionary -/

/-- Only surfaces of listed entities are in the dictionary, under their folded forms and with the
categories of these entities. -/
theorem exists_of_surfaceTable {k c : Text} (found : (surfaceTable casing ents).get? k = some c) :
    ∃ e w, Listed casing ents e w ∧ casing.fold w = k ∧ e.category = c := by
  -- an entry of the table was there before or is one of the surfaces: it is set once and never
  -- replaced
  have entered {entries : List (Text × Text)} {d : Dict Text Text}
      (found : (entries.foldl (fun d entry =>
        if eligible casing entry.1 ∧ (d.get? (casing.fold entry.1)).isNone then
          d.set (casing.fold entry.1) entry.2
        else d) d).get? k = some c) :
      d.get? k = some c ∨ ∃ entry ∈ entries, eligible casing entry.1 = true ∧
        casing.fold entry.1 = k ∧ entry.2 = c := by
    induction entries generalizing d with
    | nil => exact .inl found
    | cons entry entries ih =>
      rcases ih found with here | ⟨other, member, same⟩
      · dsimp only at here
        split at here
        · next fresh =>
          rw [Dict.get?_set] at here
          split at here
          · next same =>
            exact .inr ⟨entry, List.mem_cons_self, fresh.1, same, Option.some.inj here⟩
          · exact .inl here
        · exact .inl here
      · exact .inr ⟨other, List.mem_cons_of_mem _ member, same⟩
  rcases entered found with none | ⟨entry, member, fits, same, category⟩
  · cases none
  · obtain ⟨e, among, listed⟩ := List.mem_flatMap.mp member
    obtain ⟨s, surface, rfl⟩ := List.mem_map.mp listed
    exact ⟨e, _, ⟨among, fits, s, surface, rfl⟩, same, category⟩

/-- Every surface that is listed is in the dictionary under its folded form, though with the
category of another entity if two have this form. -/
theorem isSome_surfaceTable {e : Entity} {w : Text} (listed : Listed casing ents e w) :
    ((surfaceTable casing ents).get? (casing.fold w)).isSome = true := by
  -- once a folded surface has an entry it keeps one
  have entered {entries : List (Text × Text)} {d : Dict Text Text}
      (known : (d.get? (casing.fold w)).isSome = true ∨ ∃ c, (w, c) ∈ entries) :
      ((entries.foldl (fun d entry =>
        if eligible casing entry.1 ∧ (d.get? (casing.fold entry.1)).isNone then
          d.set (casing.fold entry.1) entry.2
        else d) d).get? (casing.fold w)).isSome = true := by
    induction entries generalizing d with
    | nil =>
      rcases known with known | ⟨c, none⟩
      · exact known
      · cases none
    | cons entry entries ih =>
      refine ih ?_
      rcases known with known | ⟨c, member⟩
      · left
        dsimp only
        split
        · rw [Dict.get?_set]
          split
          · rfl
          · exact known
        · exact known
      · rcases List.mem_cons.mp member with rfl | member
        · left
          dsimp only
          split
          · rw [Dict.get?_set, if_pos rfl]
            rfl
          · next full =>
            by_contra fresh
            exact full ⟨listed.2.1, by simpa using fresh⟩
        · exact .inr ⟨c, member⟩
  obtain ⟨among, _, s, surface, rfl⟩ := listed
  refine entered (.inr ⟨e.category, List.mem_flatMap.mpr ⟨e, among, ?_⟩⟩)
  exact List.mem_map.mpr ⟨s, surface, rfl⟩

/-! ## The search -/

theorem matches_anyCaseWord {a before w after : Text} :
    (anyCaseWord casing a).Matches before w after ↔ SpelledAs casing a w := by
  induction a generalizing before w with
  | nil =>
    rw [SpelledAs, List.forall₂_nil_left_iff]
    exact Iff.rfl
  | cons d a ih =>
    rw [SpelledAs, List.forall₂_cons_left_iff]
    constructor
    · rintro ⟨_, rest, rfl, ⟨c, rfl, same⟩, later⟩
      exact ⟨c, rest, same, ih.mp later, rfl⟩
    · rintro ⟨c, rest, same, later, rfl⟩
      exact ⟨[c], rest, rfl, ⟨c, rfl, same⟩, ih.mpr later⟩

theorem mem_alternatives {surfaces : Dict Text Text} {a : Text} :
    a ∈ (surfaces.entries.map Prod.fst).insertionSort (fun a b => b.length ≤ a.length) ↔
      (surfaces.get? a).isSome = true := by
  rw [(List.perm_insertionSort _ _).mem_iff, List.mem_map, Option.isSome_iff_exists]
  constructor
  · rintro ⟨⟨_, c⟩, member, rfl⟩
    exact ⟨c, Dict.mem_entries.mp member⟩
  · rintro ⟨c, found⟩
    exact ⟨(a, c), Dict.mem_entries.mpr found, rfl⟩

/-- The pattern accepts what is spelled like a surface in folded case, between characters that are
none of a word. -/
theorem matches_dictionaryRe {surfaces : Dict Text Text} {before w after : Text} :
    (dictionaryRe casing surfaces).Matches before w after ↔
      EndsOpen (isInner casing) before ∧
        (∃ a, (surfaces.get? a).isSome = true ∧ SpelledAs casing a w) ∧
          StartsOpen (isInner casing) after := by
  -- the assertions on both sides are the boundaries, of which the pattern looks at one character
  -- each
  have open_before : (before.getLast?.all fun c => !isInner casing c) = true ↔
      EndsOpen (isInner casing) before := by
    rw [EndsOpen]
    cases before.getLast? <;> simp
  have open_after : (after.head?.all fun c => !isInner casing c) = true ↔
      StartsOpen (isInner casing) after := by
    rw [StartsOpen]
    cases after.head? <;> simp
  simp only [dictionaryRe, Regex.matches_cat_cons, Regex.matches_cat_nil, Regex.matches_assert,
    Regex.matches_oneOf, List.mem_map, mem_alternatives]
  constructor
  · rintro ⟨_, _, rfl, ⟨rfl, opened⟩, u, _, rfl, ⟨_, ⟨a, known, rfl⟩, spelled⟩, _, _, rfl,
      ⟨rfl, closed⟩, rfl⟩
    have word := matches_anyCaseWord.mp spelled
    refine ⟨open_before.mp opened, ⟨a, known, ?_⟩, open_after.mp closed⟩
    simpa using word
  · rintro ⟨opened, ⟨a, known, spelled⟩, closed⟩
    refine ⟨[], w, rfl, ⟨rfl, open_before.mpr opened⟩, w, [], (List.append_nil w).symm,
      ⟨_, ⟨a, known, rfl⟩, matches_anyCaseWord.mpr spelled⟩, [], [], rfl,
      ⟨rfl, open_after.mpr closed⟩, rfl⟩

theorem consumes_dictionaryRe {surfaces : Dict Text Text}
    (some : ∀ a, (surfaces.get? a).isSome = true → a ≠ []) :
    (dictionaryRe casing surfaces).consumes = true := by
  have choice {rs : List Regex} (all : ∀ r ∈ rs, r.consumes = true) :
      (Regex.oneOf rs).consumes = true := by
    induction rs with
    | nil => rfl
    | cons r rs ih =>
      obtain ⟨here, later⟩ := List.forall_mem_cons.mp all
      cases rs with
      | nil => exact here
      | cons r' rs => exact Bool.and_eq_true_iff.mpr ⟨here, ih later⟩
  have alternatives : (Regex.oneOf (((surfaces.entries.map Prod.fst).insertionSort
      fun a b => b.length ≤ a.length).map (anyCaseWord casing))).consumes = true := by
    refine choice fun r member => ?_
    obtain ⟨a, among, rfl⟩ := List.mem_map.mp member
    obtain ⟨c, rest, rfl⟩ := List.exists_cons_of_ne_nil (some a (mem_alternatives.mp among))
    rfl
  exact Bool.or_eq_true_iff.mpr (.inr (Bool.or_eq_true_iff.mpr (.inl alternatives)))

/-- The folded surfaces in the dictionary have characters, since case folding deletes none. -/
theorem ne_nil_of_surfaceTable (filled : ∀ c, casing.casefold c ≠ []) {a : Text}
    (known : ((surfaceTable casing ents).get? a).isSome = true) : a ≠ [] := by
  obtain ⟨category, found⟩ := Option.isSome_iff_exists.mp known
  obtain ⟨e, w, ⟨_, fits, _⟩, rfl, _⟩ := exists_of_surfaceTable found
  intro none
  cases w with
  | nil => simp [eligible] at fits
  | cons c w =>
    rw [Casing.fold, List.flatMap_cons] at none
    exact filled c (List.append_eq_nil_iff.mp none).1

/-- What the pattern of the dictionary accepts in a text stands between characters that are none of
a word, and is spelled like a folded surface. -/
theorem acceptsAt_dictionaryRe {text : Text} {q r : Nat} :
    (dictionaryRe casing (surfaceTable casing ents)).AcceptsAt text q r ↔
      SpelledLike casing ents text q r := by
  rw [Regex.AcceptsAt, matches_dictionaryRe]
  constructor
  · rintro ⟨ordered, inside, opened, ⟨a, known, spelled⟩, closed⟩
    obtain ⟨_, found⟩ := Option.isSome_iff_exists.mp known
    obtain ⟨e, w, listed, rfl, _⟩ := exists_of_surfaceTable found
    exact ⟨e, w, _, listed, ⟨ordered, inside, rfl, opened, closed⟩, spelled⟩
  · rintro ⟨e, w, w', listed, stands, spelled⟩
    refine ⟨stands.ordered, stands.inside, stands.opened, ⟨_, isSome_surfaceTable listed, ?_⟩,
      stands.closed⟩
    rwa [stands.word]

/-- The dictionary pass reports exactly the matches that the search takes and whose folded text the
lookup knows, with the category found there. -/
theorem mem_dictionarySpans (filled : ∀ c, casing.casefold c ≠ []) {text : Text}
    {s : EntitySpan ℚ} :
    s ∈ dictionarySpans casing (surfaceTable casing ents) text ↔ ∃ q r category,
      Taken ((dictionaryRe casing (surfaceTable casing ents)).matchAt text) q r ∧
        (surfaceTable casing ents).get? (casing.fold (text.slice q r)) = some category ∧
          s = ⟨q, r, category, text.slice q r, dictionaryScore, .manual, none⟩ := by
  have consumes : (dictionaryRe casing (surfaceTable casing ents)).consumes = true :=
    consumes_dictionaryRe fun _ known => ne_nil_of_surfaceTable filled known
  rw [dictionarySpans]
  split
  · next empty =>
    refine iff_of_false List.not_mem_nil ?_
    rintro ⟨q, r, category, _, looked, _⟩
    have member := Dict.mem_entries.mpr looked
    rw [List.isEmpty_iff.mp empty] at member
    cases member
  · rw [List.mem_filterMap]
    constructor
    · rintro ⟨⟨q, r⟩, reported, made⟩
      obtain ⟨category, looked, rfl⟩ := Option.map_eq_some_iff.mp made
      exact ⟨q, r, category, (Regex.mem_finditer consumes).mp reported, looked, rfl⟩
    · rintro ⟨q, r, category, taken, looked, rfl⟩
      exact ⟨(q, r), (Regex.mem_finditer consumes).mpr taken,
        Option.map_eq_some_iff.mpr ⟨category, looked, rfl⟩⟩

/-- Nothing is found without a part of the text that overlaps the surface, is spelled like a folded
surface and folds to one. -/
theorem spelledLike_of_dictionaryFinds (engine : Engine)
    (filled : ∀ c, engine.casing.casefold c ≠ []) {p : Project} {text : Text}
    (current : (engine.dictionaryOf p).1 =
      surfaceTable engine.casing (p.file.entities engine.order))
    (finds : DictionaryFinds engine p text) {e : Entity} {w : Text} {i j : Nat}
    (listed : Listed engine.casing (p.file.entities engine.order) e w)
    (stands : StandsAt engine.casing text w i j) :
    ∃ q r, q < j ∧ i < r ∧ SpelledLike engine.casing (p.file.entities engine.order) text q r ∧
      ∃ e' w', Listed engine.casing (p.file.entities engine.order) e' w' ∧
        engine.casing.fold w' = engine.casing.fold (text.slice q r) := by
  obtain ⟨s, reported, before, behind, _⟩ := finds e w i j listed stands
  rw [current] at reported
  obtain ⟨q, r, category, taken, looked, rfl⟩ := (mem_dictionarySpans filled).mp reported
  have consumes : (dictionaryRe engine.casing
      (surfaceTable engine.casing (p.file.entities engine.order))).consumes = true :=
    consumes_dictionaryRe fun _ known => ne_nil_of_surfaceTable filled known
  obtain ⟨e', w', listed', same, _⟩ := exists_of_surfaceTable looked
  exact ⟨q, r, before, behind,
    acceptsAt_dictionaryRe.mp (Regex.acceptsAt_of_matchAt consumes taken.2), e', w', listed', same⟩

/-! ## Instances -/

/-- The Cyrillic and ASCII tables with one more letter, whose folded form has two characters. -/
def german : Casing :=
  { Casing.cyrillic with
    isWord := fun c => Casing.cyrillic.isWord c || c == 'ß'
    casefold := fun c => if c = 'ß' then ['s', 's'] else Casing.cyrillic.casefold c
    isWord_of_decimal := fun c some => by
      rw [Casing.cyrillic.isWord_of_decimal c some, Bool.true_or]
    not_isWord_space := by decide
    not_isWord_hyphen := by decide }

def germanEngine : Engine := { sampleEngine with casing := german }

/-- A small letter has no other small letter, so that taking the small letter twice is taking it
once. -/
theorem small_small (c : Char) : Casing.small (Casing.small c) = Casing.small c := by
  have capitals : ∀ n ∈ List.range' 65 26 ++ List.range' 0x400 48 ++ [0x490],
      Casing.small (Casing.small (Char.ofNat n)) = Casing.small (Char.ofNat n) := by decide
  by_cases capital : c.toNat ∈ List.range' 65 26 ++ List.range' 0x400 48 ++ [0x490]
  · rw [← Char.ofNat_toNat c]
    exact capitals c.toNat capital
  · have still : Casing.small c = c := by
      simp only [List.mem_append, List.mem_range'_1, List.mem_singleton] at capital
      have latin : ¬c.isUpper = true := fun upper => by
        have range := Unicode.toNat_of_isUpper upper
        omega
      rw [Casing.small, if_neg latin, if_neg (by omega), if_neg (by omega), if_neg (by omega)]
    rw [still, still]

theorem spelledAs_cyrillic {a w : Text} :
    SpelledAs Casing.cyrillic a w ↔ w.map Casing.small = a.map Casing.small := by
  induction a generalizing w with
  | nil => simp [SpelledAs]
  | cons d a ih =>
    cases w with
    | nil => simp [SpelledAs]
    | cons c w =>
      have here : Casing.cyrillic.sameCase c d = true ↔ Casing.small c = Casing.small d := beq_iff_eq
      rw [SpelledAs, List.forall₂_cons, List.map_cons, List.map_cons, List.cons.injEq, here]
      exact and_congr_right fun _ => ih

/-- The folded forms of Latin and Cyrillic letters stay in place, one character for one, so that for
such texts the condition is met. -/
theorem foldsInPlace_cyrillic (ents : List Entity) (text : Text) :
    FoldsInPlace Casing.cyrillic ents text := by
  have fold_eq (w : Text) : Casing.cyrillic.fold w = w.map Casing.small :=
    List.map_eq_flatMap.symm
  have idem (w : Text) : (w.map Casing.small).map Casing.small = w.map Casing.small := by
    rw [List.map_map]
    exact List.map_congr_left fun c _ => small_small c
  have like {w w' : Text} : SpelledAs Casing.cyrillic (Casing.cyrillic.fold w) w' ↔
      w'.map Casing.small = w.map Casing.small := by
    rw [spelledAs_cyrillic, fold_eq, idem]
  refine ⟨fun e w i j listed stands => ?_, fun e w i j _ _ q r spelled _ _ => ?_⟩
  · have some : w ≠ [] := by
      rintro rfl
      exact absurd listed.2.1 (by decide)
    have width := congrArg List.length stands.word
    rw [Text.length_slice stands.inside] at width
    have long := List.length_pos_iff.mpr some
    exact ⟨i, j, Nat.le_refl i, by omega, e, w, w, listed, stands, like.mpr rfl⟩
  · obtain ⟨e', w', _, listed, stands, same⟩ := spelled
    refine ⟨e', w', listed, ?_⟩
    rw [fold_eq, fold_eq, stands.word, like.mp same]

end RedactGate.Desktop
