import RedactGate.Desktop.Spellings

/-!
# One label, one person

A mention is linked to an entity that does not contradict it, and a part that one of the two
lacks contradicts nothing. The parts of a mention are kept with the entity only where the
mention becomes the canonical value. In a run in which every other mention that is linked
brings no part that the entity lacks, no two mentions of one entity contradict each other.

The run keeps beside the project which mention was linked to which label.
-/
namespace RedactGate.Desktop

open Library

structure PersonRun where
  file : VaultFile
  links : List (LabelKey × Text)

/-- A mention of a person, and whether the user entered it. -/
abbrev PersonMention := Text × Origin

/-- Two mentions agree on the parts that both have. -/
def samePerson (a b : PersonMeta) : Bool :=
  partsAgree a.s b.s && partsAgree a.g b.g && partsAgree a.p b.p && partsAgree a.gs b.gs

/-- A part that is missing or the same as another. -/
def partWithin (a b : Option Text) : Bool := (given? a).isNone || decide (given? a = given? b)

/-- A mention has no part that the other lacks, or has otherwise. -/
def within (a b : PersonMeta) : Bool :=
  partWithin a.s b.s && partWithin a.g b.g && partWithin a.p b.p && partWithin a.gs b.gs

namespace PersonRun

def new : PersonRun := ⟨VaultFile.new, []⟩

def step (anon : Anonymizer) (run : PersonRun) (mention : PersonMention) : Option PersonRun :=
  (anon.resolve run.file person mention.1 mention.2).map fun found =>
    ⟨found.2, run.links ++ [(found.1, mention.1)]⟩

/-- A mention that is linked to an entity without becoming its canonical value brings no
part that the entity lacks. -/
structure BringsNothing (anon : Anonymizer) (run : PersonRun) (mention : PersonMention) : Prop where
  known : ∀ e, run.file.byFingerprint anon.order (anon.valueFp person mention.1) = some e →
    within (parsePerson anon.casing mention.1) e.personMeta
  linked : run.file.byFingerprint anon.order (anon.valueFp person mention.1) = none →
    ∀ e, anon.aliasOf run.file person mention.1 = some e →
      anon.prefers e mention.1 ∨ within (parsePerson anon.casing mention.1) e.personMeta

/-- Any two mentions with one label agree. -/
def OnePerson (anon : Anonymizer) (run : PersonRun) : Prop :=
  ∀ a ∈ run.links, ∀ b ∈ run.links, a.1 = b.1 →
    samePerson (parsePerson anon.casing a.2) (parsePerson anon.casing b.2)

end PersonRun

variable {anon : Anonymizer} {order : RowOrder} {st st' : VaultFile} {key : LabelKey}

/-! ## Parts -/

theorem partWithin_iff {a b : Option Text} :
    partWithin a b ↔ ∀ part, given? a = some part → given? b = some part := by
  rw [partWithin, Bool.or_eq_true, decide_eq_true_eq]
  cases given? a with
  | none => simp
  | some part => simp [eq_comm]

theorem partsAgree_iff {a b : Option Text} :
    partsAgree a b ↔ ∀ x y, given? a = some x → given? b = some y → x = y := by
  rw [partsAgree]
  cases given? a with
  | none => simp
  | some x => cases given? b <;> simp

theorem given?_or (a b : Option Text) : given? ((given? a).or b) = (given? a).or (given? b) := by
  cases a with
  | none => rfl
  | some x => cases x <;> rfl

/-- Parts that are within the same ones agree. -/
theorem partsAgree_of_within {a b c : Option Text} (first : partWithin a c)
    (second : partWithin b c) : partsAgree a b := by
  rw [partsAgree_iff]
  intro x y hasX hasY
  have left := partWithin_iff.mp first x hasX
  exact Option.some.inj (left.symm.trans (partWithin_iff.mp second y hasY))

/-- Merging two name parts that agree keeps within the result what was within the old part. -/
theorem partWithin_merge {a b c : Option Text} (inside : partWithin c b) (agree : partsAgree a b) :
    partWithin c ((given? a).or b) := by
  rw [partWithin_iff]
  intro x has
  have old := partWithin_iff.mp inside x has
  rw [given?_or]
  cases present : given? a with
  | none => exact old
  | some y => exact congrArg some (partsAgree_iff.mp agree y x present old)

theorem partWithin_merge_self (a b : Option Text) : partWithin a ((given? a).or b) := by
  rw [partWithin_iff]
  intro x has
  rw [given?_or, has]
  rfl

theorem within_refl (a : PersonMeta) : within a a := by
  simp [within, partWithin]

theorem samePerson_of_within {a b c : PersonMeta} (first : within a c) (second : within b c) :
    samePerson a b := by
  simp only [within, Bool.and_eq_true] at first second
  simp only [samePerson, Bool.and_eq_true]
  exact ⟨⟨⟨partsAgree_of_within first.1.1.1 second.1.1.1,
    partsAgree_of_within first.1.1.2 second.1.1.2⟩,
    partsAgree_of_within first.1.2 second.1.2⟩, partsAgree_of_within first.2 second.2⟩

theorem within_mergeMeta {a b c : PersonMeta} (inside : within c b) (agree : compatible a b) :
    within c (mergeMeta a b) := by
  simp only [within, Bool.and_eq_true] at inside ⊢
  simp only [compatible, Bool.and_eq_true, decide_eq_true_eq] at agree
  have surnames : partsAgree a.s b.s := by
    rw [agree.1.1.1.2, partsAgree_iff]
    exact fun x y hasX hasY => Option.some.inj (hasX.symm.trans hasY)
  exact ⟨⟨⟨partWithin_merge inside.1.1.1 surnames, partWithin_merge inside.1.1.2 agree.1.1.2⟩,
    partWithin_merge inside.1.2 agree.1.2⟩, partWithin_merge inside.2 agree.2⟩

theorem within_mergeMeta_self (a b : PersonMeta) : within a (mergeMeta a b) := by
  simp only [within, Bool.and_eq_true]
  exact ⟨⟨⟨partWithin_merge_self a.s b.s, partWithin_merge_self a.g b.g⟩,
    partWithin_merge_self a.p b.p⟩, partWithin_merge_self a.gs b.gs⟩

/-! ## Runs -/

/-- The invariant of the runs: every mention is within the name parts of the entity that it was
linked to. -/
structure PersonRun.Kept (anon : Anonymizer) (run : PersonRun) : Prop where
  good : GoodOn (fun _ => False) run.file
  linked : ∀ a ∈ run.links, ∃ row ∈ run.file.tables.entity,
    row.key = a.1 ∧ within (parsePerson anon.casing a.2) row.personMeta

/-- What is kept with an entity is still there, or more, after a mention was resolved. -/
def Carried (tables tables' : Tables) : Prop :=
  ∀ row ∈ tables.entity, ∃ row' ∈ tables'.entity, row'.key = row.key ∧
    ∀ parts, within parts row.personMeta → within parts row'.personMeta

theorem carried_of_entity_eq {tables tables' : Tables} (same : tables'.entity = tables.entity) :
    Carried tables tables' :=
  fun row member => ⟨row, same ▸ member, rfl, fun _ inside => inside⟩

/-- A mention with the better nominative form becomes the canonical value of the entity it is linked
to. All rows are carried on, and the mention is within what the entity has then. -/
theorem linkAlias_prefers (good : GoodOn (fun _ => False) st) {e : Entity} {surface : Text}
    (found : anon.aliasOf st person surface = some e) (preferred : anon.prefers e surface) :
    Carried st.tables (anon.linkAlias st e person surface).tables ∧
      ∃ row ∈ (anon.linkAlias st e person surface).tables.entity, row.key = e.key ∧
        within (parsePerson anon.casing surface) row.personMeta := by
  obtain ⟨member, _, agree⟩ := aliasOf_category found
  have own := good.row (good.mem_entities.mp member)
  let merged := mergeMeta (parsePerson anon.casing surface) e.personMeta
  let first := st.addVariant anon.order e.key (anon.valueFp person surface) surface
  have firstGood : GoodOn (fun _ => False) first := good.addVariant surface (False.elim ·)
  -- every row that was there, with the merged parts where it is that of the entity
  have moved (row : EntityRow) (among : row ∈ st.tables.entity) :
      (if row.key = e.key then { row with value := surface, personMeta := merged } else row) ∈
        (anon.linkAlias st e person surface).tables.entity := by
    have step : (anon.linkAlias st e person surface).tables.entity =
        (first.setCanonical anon.order e.key surface (some merged)).tables.entity := by
      rw [Anonymizer.linkAlias, if_pos preferred]
      exact entity_addVariant
    have among : row ∈ first.tables.entity := by
      rw [entity_addVariant]
      exact among
    rw [step]
    exact firstGood.mem_setCanonical among e.key surface merged
  constructor
  · intro row among
    refine ⟨_, moved row among, ?_, fun parts inside => ?_⟩
    · split
      · rfl
      · rfl
    · split
      · next here =>
        have same := eq_of_nodup_map good.sound.keys among own.1 (here.trans own.2.symm)
        exact within_mergeMeta (same ▸ inside) agree
      · exact inside
  · have here := moved e.toEntityRow own.1
    rw [if_pos own.2] at here
    exact ⟨_, here, own.2, within_mergeMeta_self _ _⟩

/-- Resolving a mention that brings nothing carries all rows on, and the mention's name parts are
within those that its entity has afterwards. -/
theorem resolves_person (good : GoodOn (fun _ => False) st) {surface : Text} {origin : Origin}
    (resolves : Resolves anon st person surface origin key st')
    (allowed : PersonRun.BringsNothing anon ⟨st, []⟩ (surface, origin)) :
    Carried st.tables st'.tables ∧ ∃ row ∈ st'.tables.entity, row.key = key ∧
      within (parsePerson anon.casing surface) row.personMeta := by
  -- a known fingerprint, a new spelling of one, an alias, or a new entity
  cases resolves with
  | known e found has =>
    have own := good.row (good.entityOf_of_byFingerprint found)
    exact ⟨carried_of_entity_eq rfl, e.toEntityRow, own.1, own.2, allowed.known e found⟩
  | spelled e found lacks =>
    have own := good.row (good.entityOf_of_byFingerprint found)
    refine ⟨carried_of_entity_eq entity_addVariant, e.toEntityRow, ?_, own.2,
      allowed.known e found⟩
    rw [entity_addVariant]
    exact own.1
  | linked e unknown found =>
    -- the longer spelling takes over the name, else the row stays as it was
    by_cases preferred : anon.prefers e surface
    · exact linkAlias_prefers good found preferred
    · have own := good.row (good.mem_entities.mp (aliasOf_category found).1)
      have same : (anon.linkAlias st e person surface).tables.entity = st.tables.entity := by
        rw [Anonymizer.linkAlias, if_neg preferred]
        exact entity_addVariant
      refine ⟨carried_of_entity_eq same, e.toEntityRow, ?_, own.2,
        (allowed.linked unknown e found).resolve_left preferred⟩
      rw [same]
      exact own.1
  | created unknown alone added =>
    obtain ⟨row, shape, rfl, _, rfl⟩ := addEntity_cases added
    refine ⟨fun old member => ⟨old, List.mem_append_left _ member, rfl, fun _ inside => inside⟩, ?_⟩
    refine ⟨row, List.mem_append_right _ (List.mem_singleton_self row), rfl, ?_⟩
    rw [shape]
    exact within_refl _

namespace PersonRun

theorem step_eq (links : List (LabelKey × Text)) {surface : Text} {origin : Origin}
    (resolved : anon.resolve st person surface origin = some (key, st')) :
    step anon ⟨st, links⟩ (surface, origin) = some ⟨st', links ++ [(key, surface)]⟩ := by
  rw [step, resolved, Option.map_some]

theorem bringsNothing_of_alone {links : List (LabelKey × Text)} {surface : Text} {origin : Origin}
    (absent : st.byFingerprint anon.order (anon.valueFp person surface) = none)
    (alone : anon.aliasOf st person surface = none) :
    BringsNothing anon ⟨st, links⟩ (surface, origin) where
  known e found := by cases absent.symm.trans found
  linked _ e found := by cases alone.symm.trans found

theorem bringsNothing_of_within {links : List (LabelKey × Text)} {surface : Text} {origin : Origin}
    {e : Entity} (absent : st.byFingerprint anon.order (anon.valueFp person surface) = none)
    (linked : anon.aliasOf st person surface = some e)
    (inside : within (parsePerson anon.casing surface) e.personMeta) :
    BringsNothing anon ⟨st, links⟩ (surface, origin) where
  known e found := by cases absent.symm.trans found
  linked _ e' found := .inr (Option.some.inj (linked.symm.trans found) ▸ inside)

theorem kept_new : Kept anon new where
  good := goodOn_new
  linked _ member := absurd member List.not_mem_nil

theorem Kept.step {run run' : PersonRun} (kept : Kept anon run) {mention : PersonMention}
    (allowed : run.BringsNothing anon mention) (stepped : run.step anon mention = some run') :
    Kept anon run' := by
  obtain ⟨⟨key, file⟩, resolved, rfl⟩ := Option.map_eq_some_iff.mp stepped
  have resolves := resolves_of_resolve resolved
  obtain ⟨carried, row, member, here, inside⟩ := resolves_person kept.good.load resolves
    ⟨allowed.known, allowed.linked⟩
  constructor
  · exact kept.good.load.resolves resolves fun key fp recorded never => never.elim
  · intro a linked
    rcases List.mem_append.mp linked with old | single
    · obtain ⟨row, member, here, inside⟩ := kept.linked a old
      obtain ⟨row', member', same, more⟩ := carried row member
      exact ⟨row', member', same.trans here, more _ inside⟩
    · obtain rfl := List.mem_singleton.mp single
      exact ⟨row, member, here, inside⟩

end PersonRun

/-- In a run in which a mention that does not become canonical brings no part that its entity lacks,
any two mentions with one label agree in what they say of the person. The condition is on the state
before each step. -/
theorem onePerson_of_bringsNothing (anon : Anonymizer) {run : PersonRun}
    (reaches : ReachesBy (PersonRun.BringsNothing anon) (PersonRun.step anon) PersonRun.new run) :
    run.OnePerson anon := by
  have kept : run.Kept anon := reaches.invariant PersonRun.kept_new fun _ _ _ kept allowed taken =>
    kept.step allowed taken
  intro a ofA b ofB same
  obtain ⟨row, member, here, inside⟩ := kept.linked a ofA
  obtain ⟨row', member', here', inside'⟩ := kept.linked b ofB
  -- one label has one row
  obtain rfl := eq_of_nodup_map kept.good.sound.keys member member' (here.trans (same.trans here'.symm))
  exact samePerson_of_within inside inside'

/-! ## Two runs -/

section Single

variable {casing : Casing} {surface w : Text} {initials : List Text}

/-- The only word of a mention is taken for the surname. -/
theorem personNames_single (casing : Casing) (w : Text) :
    personNames casing [w] = ⟨some w, none, none⟩ := by
  simp [personNames, PersonNames.add]

theorem parsePerson_single (initial : (personTokens casing surface).initials = initials)
    (word : (personTokens casing surface).words = [w]) (proper : w ≠ []) :
    parsePerson casing surface = ⟨some (stem casing w), initials[0]?, initials[1]?, none, 1⟩ := by
  have named : (some w).filter (!·.isEmpty) = some w := by simp [proper]
  rw [parsePerson, word, initial, personNames_single, named]
  rfl

theorem nominativeScore_single (word : (findall (letters casing) surface).filter
      (fun w => decide (1 < w.length)) = [w]) :
    nominativeScore casing surface =
      1 + (if (findall (initialWithStop casing) surface).isEmpty then 0 else 2) +
        wordScore casing w := by
  simp only [nominativeScore, word, List.length_singleton, List.map_singleton, List.sum_singleton]
  rfl

end Single

/-- The first mention of a project finds neither a compatible person nor a fingerprint, and becomes
an entity with the parts of the name that were parsed. -/
theorem resolve_first (anon : Anonymizer) {surface : Text} {parts : PersonMeta} {origin : Origin}
    (parsed : parsePerson anon.casing surface = parts)
    (added : (VaultFile.new.load anon.order).addEntity anon.order person surface
      (anon.valueFp person surface) parts origin = some (key, st')) :
    anon.aliasOf VaultFile.new person surface = none ∧
      VaultFile.new.byFingerprint anon.order (anon.valueFp person surface) = none ∧
      anon.resolve VaultFile.new person surface origin = some (key, st') := by
  have good : GoodOn (fun _ => False) (VaultFile.new.load anon.order) := goodOn_new.load
  have empty : (VaultFile.new.load anon.order).entities anon.order = [] := by
    refine List.eq_nil_iff_forall_not_mem.mpr fun e member => ?_
    cases (good.row (good.mem_entities.mp member)).1
  have absent : (VaultFile.new.load anon.order).byFingerprint anon.order
      (anon.valueFp person surface) = none := by
    cases found : (VaultFile.new.load anon.order).byFingerprint anon.order
      (anon.valueFp person surface) with
    | none => rfl
    | some e => cases (good.row (good.entityOf_of_byFingerprint found)).1
  have alone : anon.aliasOf (VaultFile.new.load anon.order) person surface = none := by
    rw [Anonymizer.aliasOf, empty, List.filter_nil]
    split
    · rfl
    · rfl
  refine ⟨alone, absent, ?_⟩
  simp only [Anonymizer.resolve, absent, alone, parsed, if_true, added]

/-- A mention with a surname is linked to the only entity that is compatible with it. If it is no
better a canonical form, it only becomes a variant, and the stored name parts stay. -/
theorem resolve_link (anon : Anonymizer) (st : VaultFile) (key : LabelKey) (old : Text)
    (stored : PersonMeta) (origin : Origin) {surface : Text} {parts : PersonMeta}
    (parsed : parsePerson anon.casing surface = parts) (named : (given? parts.s).isSome)
    (unknown : (st.byFingerprint anon.order (anon.valueFp person surface)).isNone)
    (single : ((st.entities anon.order).filter fun x => decide (x.category = person) &&
      compatible parts x.personMeta).map (fun e => (e.key, e.value, e.personMeta)) =
        [(key, old, stored)])
    (lower : nominativeScore anon.casing surface ≤ nominativeScore anon.casing old) :
    (∃ e, anon.aliasOf st person surface = some e ∧ e.personMeta = stored) ∧
      anon.resolve st person surface origin = some (key, (st.load anon.order).addVariant anon.order
        key (anon.valueFp person surface) surface) := by
  obtain ⟨e, alone, shape⟩ := List.map_eq_singleton_iff.mp single
  obtain ⟨rfl, rest⟩ := Prod.mk.inj shape
  obtain ⟨rfl, rfl⟩ := Prod.mk.inj rest
  have found : anon.aliasOf st person surface = some e := by
    rw [Anonymizer.aliasOf, parsed, if_pos ⟨rfl, named⟩, alone]
  have absent : (st.load anon.order).byFingerprint anon.order (anon.valueFp person surface) = none :=
    Option.isNone_iff_eq_none.mp unknown
  have linked : anon.aliasOf (st.load anon.order) person surface = some e := found
  have kept : ¬ anon.prefers e surface := by
    simpa [Anonymizer.prefers] using lower
  refine ⟨⟨e, found, rfl⟩, ?_⟩
  simp only [Anonymizer.resolve, absent, linked, Anonymizer.linkAlias, if_neg kept]

theorem stripEnding_short {t : Text} (short : t.length < 3) : stripEnding t = t := by
  have kept : endings.find? (fun e => e.isSuffixOf t && decide (3 ≤ t.length - e.length)) = none := by
    refine List.find?_eq_none.mpr fun e _ fits => ?_
    rw [Bool.and_eq_true, decide_eq_true_eq] at fits
    omega
  -- unfolding the definition at a token would evaluate the table
  rw [stripEnding_def]
  simp only [kept]

/-- Short Cyrillic tokens have no ending to lose. -/
theorem stem_short {casing : Casing} {token t : Text} (normal : normToken casing token = t)
    (cyrillic : t.head?.any startsCyrillic) (short : t.length < 3) : stem casing token = t := by
  subst normal
  rw [stem, if_pos cyrillic, stripEnding_short short]

def petrenko : Text := "Петренко".toList
def petrenkoI : Text := "Петренко І.".toList
def petrenkoIP : Text := "Петренко І. П.".toList
def petrenkoO : Text := "Петренко І. О.".toList

/-- The table of endings as a list; only here its text is taken apart. -/
theorem endings_eq : endings = ["ові", "еві", "єві", "ого", "ому", "ими", "ою", "ею", "єю", "ій",
    "ої", "ий", "им", "ом", "ем", "єм", "ах", "ям", "ам", "ым", "ой", "ей", "ую", "а", "я", "у",
    "ю", "і", "и", "е", "о", "ї", "ь", "й", "ы"].map String.toList := by
  unfold endings tableWords
  rw [String.toList_ofList]
  decide

/-- A Cyrillic token loses the first ending that leaves three letters. -/
theorem stem_of_find? {casing : Casing} {token t e : Text} (normal : normToken casing token = t)
    (cyrillic : t.head?.any startsCyrillic)
    (found : endings.find? (fun e => e.isSuffixOf t && decide (3 ≤ t.length - e.length)) = some e) :
    stem casing token = t.take (t.length - e.length) := by
  subst normal
  rw [stem, if_pos cyrillic, stripEnding_def]
  simp only [found]

theorem stem_petrenko : stem Casing.cyrillic petrenko = "петренк".toList := by
  rw [stem_of_find? (t := "петренко".toList) (e := "о".toList) (by decide)
    (by decide) (by rw [endings_eq]; decide)]
  decide

/-- The mention consists of the surname and some initials, each with a full stop, so that nothing
else decides what it is linked to. -/
structure SurnameWith (surface : Text) (initials : List Text) : Prop where
  parts : (personTokens Casing.cyrillic surface).initials = initials ∧
    (personTokens Casing.cyrillic surface).words = [petrenko]
  words : (findall (letters Casing.cyrillic) surface).filter
    (fun w => decide (1 < w.length)) = [petrenko]
  stops : (findall (initialWithStop Casing.cyrillic) surface).isEmpty = initials.isEmpty
  tokens : ((findall (letters Casing.cyrillic)
    (Text.strip Casing.cyrillic.toUnicode surface)).head? = some petrenko) ∧
    (findall (letters Casing.cyrillic)
      (Text.strip Casing.cyrillic.toUnicode surface)).tail.map (normToken Casing.cyrillic) = initials
  short : initials.all fun t => t.head?.any startsCyrillic && decide (t.length < 3)

theorem surnameWith_petrenko : SurnameWith petrenko [] := by
  constructor <;> decide

theorem surnameWith_petrenkoI : SurnameWith petrenkoI ["і".toList] := by
  constructor <;> decide

theorem surnameWith_petrenkoIP : SurnameWith petrenkoIP ["і".toList, "п".toList] := by
  constructor <;> decide

theorem surnameWith_petrenkoO : SurnameWith petrenkoO ["і".toList, "о".toList] := by
  constructor <;> decide

def petrenkoParts (initials : List Text) : PersonMeta :=
  ⟨some "петренк".toList, initials[0]?, initials[1]?, none, 1⟩

def petrenkoNorm (initials : List Text) : Text :=
  List.intercalate " ".toList ("петренк".toList :: initials)

namespace SurnameWith

variable {surface : Text} {initials : List Text} (mention : SurnameWith surface initials)

include mention

theorem parsePerson_eq : parsePerson Casing.cyrillic surface = petrenkoParts initials := by
  rw [parsePerson_single mention.parts.1 mention.parts.2 (by decide), stem_petrenko,
    petrenkoParts]

theorem nominativeScore_eq : nominativeScore Casing.cyrillic surface =
    1 + (if initials.isEmpty then 0 else 2) + wordScore Casing.cyrillic petrenko := by
  rw [nominativeScore_single mention.words, mention.stops]

theorem normalize_eq : normalize Casing.cyrillic person surface = petrenkoNorm initials := by
  obtain ⟨rest, found⟩ := List.head?_eq_some_iff.mp mention.tokens.1
  have normal := mention.tokens.2
  rw [found, List.tail_cons] at normal
  have stems : rest.map (stem Casing.cyrillic) = initials := by
    rw [← normal]
    refine List.map_congr_left fun w member => ?_
    have fits := List.all_eq_true.mp mention.short _ (normal ▸ List.mem_map_of_mem member)
    rw [Bool.and_eq_true, decide_eq_true_eq] at fits
    exact stem_short rfl fits.1 fits.2
  have other : person ∉ idCategories ∧ person ≠ "PHONE".toList ∧
      person ∉ ["AMOUNT".toList, "DOB".toList] ∧ person ≠ "EMAIL".toList ∧
      person = "PERSON".toList := by decide
  rw [normalize, if_neg other.1, if_neg other.2.1, if_neg other.2.2.1, if_neg other.2.2.2.1,
    if_pos other.2.2.2.2, found, List.map_cons, stem_petrenko, stems, petrenkoNorm]

/-- No mention of the surname scores higher than one with an initial. -/
theorem nominativeScore_le : nominativeScore Casing.cyrillic surface ≤
    nominativeScore Casing.cyrillic petrenkoI := by
  rw [mention.nominativeScore_eq, surnameWith_petrenkoI.nominativeScore_eq]
  cases initials
  · simp
  · rfl

end SurnameWith

/-- The fingerprint of a value that is already normalized. -/
def personFp (norm : Text) : Text := sampleAnonymizer.fingerprint person norm

/-- The project after the first mention. -/
def petrenkoAdded : Option (LabelKey × VaultFile) :=
  (VaultFile.new.load .insertion).addEntity .insertion person petrenkoI
    (personFp (petrenkoNorm ["і".toList])) (petrenkoParts ["і".toList]) .auto

def petrenkoFile : VaultFile := (petrenkoAdded.map Prod.snd).getD VaultFile.new

theorem petrenkoAdded_eq : petrenkoAdded = some ((person, 1), petrenkoFile) := by
  have number : petrenkoAdded.map Prod.fst = some (person, 1) := by decide
  obtain ⟨found, added, first⟩ := Option.map_eq_some_iff.mp number
  rw [petrenkoFile, added, ← first, Option.map_some, Option.getD_some]

theorem step_petrenkoI :
    PersonRun.BringsNothing sampleAnonymizer PersonRun.new (petrenkoI, .auto) ∧
      PersonRun.step sampleAnonymizer PersonRun.new (petrenkoI, .auto) =
        some ⟨petrenkoFile, [((person, 1), petrenkoI)]⟩ := by
  have named : sampleAnonymizer.valueFp person petrenkoI = personFp (petrenkoNorm ["і".toList]) :=
    congrArg personFp surnameWith_petrenkoI.normalize_eq
  have added : (VaultFile.new.load .insertion).addEntity .insertion person petrenkoI
      (sampleAnonymizer.valueFp person petrenkoI) (petrenkoParts ["і".toList]) .auto =
        some ((person, 1), petrenkoFile) := by
    rw [named]
    exact petrenkoAdded_eq
  obtain ⟨alone, absent, resolved⟩ := resolve_first sampleAnonymizer
    surnameWith_petrenkoI.parsePerson_eq added
  exact ⟨PersonRun.bringsNothing_of_alone absent alone, PersonRun.step_eq [] resolved⟩

/-- The project after a mention was linked to the first one's entity. -/
def linkedTo (st : VaultFile) (surface : Text) (initials : List Text) : VaultFile :=
  (st.load .insertion).addVariant .insertion (person, 1) (personFp (petrenkoNorm initials)) surface

/-- A mention of the same surname in a project in which the first mention is the canonical
value of the only entity. -/
theorem resolve_petrenko (st : VaultFile) {surface : Text} {initials : List Text}
    (mention : SurnameWith surface initials)
    (unknown : (st.byFingerprint .insertion (personFp (petrenkoNorm initials))).isNone)
    (single : ((st.entities .insertion).filter fun x => decide (x.category = person) &&
      compatible (petrenkoParts initials) x.personMeta).map
        (fun e => (e.key, e.value, e.personMeta)) =
          [((person, 1), petrenkoI, petrenkoParts ["і".toList])]) :
    (∃ e, sampleAnonymizer.aliasOf st person surface = some e ∧
      e.personMeta = petrenkoParts ["і".toList]) ∧
      st.byFingerprint .insertion (sampleAnonymizer.valueFp person surface) = none ∧
      sampleAnonymizer.resolve st person surface .auto =
        some ((person, 1), linkedTo st surface initials) := by
  have named : sampleAnonymizer.valueFp person surface = personFp (petrenkoNorm initials) :=
    congrArg personFp mention.normalize_eq
  rw [← named] at unknown
  obtain ⟨found, resolved⟩ := resolve_link sampleAnonymizer st (person, 1) petrenkoI _ .auto
    mention.parsePerson_eq rfl unknown single mention.nominativeScore_le
  refine ⟨found, Option.isNone_iff_eq_none.mp unknown, ?_⟩
  rw [resolved, named]
  rfl

theorem step_petrenko : PersonRun.BringsNothing sampleAnonymizer
      ⟨petrenkoFile, [((person, 1), petrenkoI)]⟩ (petrenko, .auto) ∧
    PersonRun.step sampleAnonymizer ⟨petrenkoFile, [((person, 1), petrenkoI)]⟩ (petrenko, .auto) =
      some ⟨linkedTo petrenkoFile petrenko [],
        [((person, 1), petrenkoI), ((person, 1), petrenko)]⟩ := by
  obtain ⟨⟨e, linked, stored⟩, unknown, resolved⟩ := resolve_petrenko petrenkoFile
    surnameWith_petrenko (by decide) (by decide)
  have inside : within (parsePerson Casing.cyrillic petrenko) e.personMeta := by
    rw [surnameWith_petrenko.parsePerson_eq, stored]
    decide
  exact ⟨PersonRun.bringsNothing_of_within unknown linked inside, PersonRun.step_eq _ resolved⟩

/-- A bare surname after a mention with an initial brings nothing new, and both are mentions of one
person. -/
theorem onePerson_of_bringsNothing_petrenko : ∃ run,
    ReachesBy (PersonRun.BringsNothing sampleAnonymizer) (PersonRun.step sampleAnonymizer)
      PersonRun.new run ∧
    run.links = [((person, 1), petrenkoI), ((person, 1), petrenko)] ∧
    run.OnePerson sampleAnonymizer := by
  have reaches : ReachesBy (PersonRun.BringsNothing sampleAnonymizer)
      (PersonRun.step sampleAnonymizer) PersonRun.new ⟨linkedTo petrenkoFile petrenko [],
        [((person, 1), petrenkoI), ((person, 1), petrenko)]⟩ :=
    .step (petrenko, .auto) (.step (petrenkoI, .auto) .refl step_petrenkoI.1 step_petrenkoI.2)
      step_petrenko.1 step_petrenko.2
  exact ⟨_, reaches, rfl, onePerson_of_bringsNothing sampleAnonymizer reaches⟩

def petrenkoFileIP : VaultFile := linkedTo petrenkoFile petrenkoIP ["і".toList, "п".toList]

def petrenkoFileO : VaultFile := linkedTo petrenkoFileIP petrenkoO ["і".toList, "о".toList]

theorem step_petrenkoIP : PersonRun.step sampleAnonymizer
    ⟨petrenkoFile, [((person, 1), petrenkoI)]⟩ (petrenkoIP, .auto) =
      some ⟨petrenkoFileIP, [((person, 1), petrenkoI), ((person, 1), petrenkoIP)]⟩ :=
  PersonRun.step_eq _ (resolve_petrenko petrenkoFile surnameWith_petrenkoIP (by decide)
    (by decide)).2.2

theorem step_petrenkoO : PersonRun.step sampleAnonymizer ⟨petrenkoFileIP,
    [((person, 1), petrenkoI), ((person, 1), petrenkoIP)]⟩ (petrenkoO, .auto) =
      some ⟨petrenkoFileO,
        [((person, 1), petrenkoI), ((person, 1), petrenkoIP), ((person, 1), petrenkoO)]⟩ :=
  PersonRun.step_eq _ (resolve_petrenko petrenkoFileIP surnameWith_petrenkoO (by decide)
    (by decide)).2.2

/-- Two mentions with different patronymics come after one that has none, and all three get the same
label. -/
theorem two_persons : ∃ run, runSteps (PersonRun.step sampleAnonymizer) PersonRun.new
    [(petrenkoI, .auto), (petrenkoIP, .auto), (petrenkoO, .auto)] = some run ∧
    run.links = [((person, 1), petrenkoI), ((person, 1), petrenkoIP), ((person, 1), petrenkoO)] ∧
    ¬ run.OnePerson sampleAnonymizer := by
  refine ⟨⟨petrenkoFileO, _⟩, ?_, rfl, fun same => ?_⟩
  · rw [runSteps, step_petrenkoI.2, Option.bind_some, runSteps, step_petrenkoIP, Option.bind_some,
      runSteps, step_petrenkoO, Option.bind_some, runSteps]
  · have agree : samePerson (parsePerson Casing.cyrillic petrenkoIP)
        (parsePerson Casing.cyrillic petrenkoO) :=
      same ((person, 1), petrenkoIP) (by simp) ((person, 1), petrenkoO) (by simp) rfl
    have differ : samePerson (petrenkoParts ["і".toList, "п".toList])
        (petrenkoParts ["і".toList, "о".toList]) = false := by decide
    rw [surnameWith_petrenkoIP.parsePerson_eq, surnameWith_petrenkoO.parsePerson_eq, differ] at agree
    cases agree

end RedactGate.Desktop
