import RedactGate.Desktop.Labels
import RedactGate.Library.Copies

/-!
# What the search for labels accepts

A label is a stem, a hyphen and up to six digits, where nothing beside it belongs to a word.
A stem is made of word characters, but for an apostrophe before its last character or a
hyphen behind its first one.
-/
namespace RedactGate.Desktop

open Library

/-- The letters that labels are written with. -/
def isLabelLetter (c : Char) : Bool :=
  c.isAlpha || decide (0x410 ≤ c.toNat ∧ c.toNat ≤ 0x44F) || "ЁёЄєІіЇїҐґ".toList.contains c

/-- What the label search asks of the tables: letters of labels are word characters in either case,
hyphens are not, and only an apostrophe is read as one. -/
structure LabelTables (casing : Casing) : Prop where
  isWord_of_letter : ∀ c, isLabelLetter c = true → casing.isWord c = true
  not_isWord_of_hyphen : ∀ c, isHyphen c = true → casing.isWord c = false
  isWord_of_sameCase : ∀ c d, isLabelLetter c = true → casing.sameCase d c = true →
    casing.isWord d = true
  eq_of_sameCase_apostrophe : ∀ d, casing.sameCase d '\'' = true → d = '\''
  sameCase_letters : ∀ c d, isLabelLetter c = true → isLabelLetter d = true →
    casing.sameCase d c = (Casing.small d == Casing.small c)

variable {casing : Casing}

/-! ## Stems -/

/-- What a stem of the search accepts: a word, a word with an apostrophe before its last letter, or
a letter with a hyphen and a word. -/
inductive StemShape (casing : Casing) : Text → Prop
  | word {u : Text} (some : u ≠ []) (word : ∀ c ∈ u, casing.isWord c = true) : StemShape casing u
  | genitive {u : Text} {x : Char} (some : u ≠ []) (word : ∀ c ∈ u, casing.isWord c = true)
      (last : casing.isWord x = true) : StemShape casing (u ++ ['\'', x])
  | hyphenated {x : Char} {v : Text} (first : casing.isWord x = true)
      (word : ∀ c ∈ v, casing.isWord c = true) : StemShape casing (x :: '-' :: v)

/-- The pattern accepts word characters only. -/
def Wordy (casing : Casing) (r : Regex) : Prop :=
  r.Plain ∧ ∀ before w after, r.Matches before w after → ∀ c ∈ w, casing.isWord c = true

/-- The pattern accepts stems only. -/
def Stemlike (casing : Casing) (r : Regex) : Prop :=
  r.Plain ∧ ∀ before w after, r.Matches before w after → StemShape casing w

theorem Wordy.seq {a b : Regex} (first : Wordy casing a) (second : Wordy casing b) :
    Wordy casing (.seq a b) := by
  refine ⟨⟨first.1, second.1⟩, ?_⟩
  rintro before w after ⟨u, v, rfl, left, right⟩ c member
  rcases List.mem_append.mp member with member | member
  · exact first.2 _ _ _ left c member
  · exact second.2 _ _ _ right c member

theorem wordy_empty (casing : Casing) : Wordy casing .empty := by
  refine ⟨trivial, ?_⟩
  rintro before w after rfl c member
  cases member

theorem Wordy.opt {a : Regex} (wordy : Wordy casing a) : Wordy casing (.opt a) := by
  refine ⟨wordy.1, fun before w after accepts c member => ?_⟩
  rcases Regex.matches_opt.mp accepts with rfl | accepts
  · cases member
  · exact wordy.2 _ _ _ accepts c member

theorem wordy_cat {rs : List Regex} (all : ∀ r ∈ rs, Wordy casing r) : Wordy casing (.cat rs) := by
  induction rs with
  | nil => exact wordy_empty casing
  | cons r rs ih =>
    obtain ⟨here, later⟩ := List.forall_mem_cons.mp all
    exact here.seq (ih later)

theorem wordy_ending (casing : Casing) (most : Nat) : Wordy casing (ending casing most) :=
  ⟨trivial, fun _ _ _ accepts => (Regex.matches_rep_char.mp accepts).2.2⟩

theorem plain_oneOf {rs : List Regex} (all : ∀ r ∈ rs, r.Plain) : (Regex.oneOf rs).Plain := by
  induction rs with
  | nil => trivial
  | cons r rs ih =>
    obtain ⟨here, later⟩ := List.forall_mem_cons.mp all
    cases rs with
    | nil => exact here
    | cons r' rs => exact ⟨here, ih later⟩

theorem wordy_oneOf {rs : List Regex} (all : ∀ r ∈ rs, Wordy casing r) :
    Wordy casing (.oneOf rs) := by
  refine ⟨plain_oneOf fun r member => (all r member).1, fun before w after accepts => ?_⟩
  obtain ⟨r, member, accepts⟩ := Regex.matches_oneOf.mp accepts
  exact (all r member).2 _ _ _ accepts

theorem stemlike_oneOf {rs : List Regex} (all : ∀ r ∈ rs, Stemlike casing r) :
    Stemlike casing (.oneOf rs) := by
  refine ⟨plain_oneOf fun r member => (all r member).1, fun before w after accepts => ?_⟩
  obtain ⟨r, member, accepts⟩ := Regex.matches_oneOf.mp accepts
  exact (all r member).2 _ _ _ accepts

/-- Letters only, one at least. -/
def isLabelWord (letters : Text) : Bool := !letters.isEmpty && letters.all isLabelLetter

section

variable (tables : LabelTables casing)

include tables

theorem wordy_anyCaseWord {letters : Text} (all : ∀ c ∈ letters, isLabelLetter c = true) :
    Wordy casing (anyCaseWord casing letters) := by
  induction letters with
  | nil => exact wordy_empty casing
  | cons c letters ih =>
    obtain ⟨here, later⟩ := List.forall_mem_cons.mp all
    refine Wordy.seq ⟨trivial, ?_⟩ (ih later)
    rintro before w after ⟨d, rfl, same⟩ x member
    rw [List.mem_singleton.mp member]
    exact tables.isWord_of_sameCase c d here same

theorem wordy_spelled {letters : String} (all : isLabelWord letters.toList = true) :
    Wordy casing (spelled casing letters) :=
  wordy_anyCaseWord tables fun c member =>
    List.all_eq_true.mp (Bool.and_eq_true_iff.mp all).2 c member

omit tables in
theorem consumes_anyCaseWord (casing : Casing) {letters : Text} (all : isLabelWord letters = true) :
    (anyCaseWord casing letters).consumes = true := by
  cases letters with
  | nil => cases all
  | cons c rest => rfl

omit tables in
theorem consumes_spelled_seq {letters : String} (all : isLabelWord letters.toList = true)
    (r : Regex) : (Regex.seq (spelled casing letters) r).consumes = true := by
  rw [Regex.consumes, spelled, consumes_anyCaseWord casing all, Bool.true_or]

omit tables in
theorem Wordy.stemlike {r : Regex} (wordy : Wordy casing r) (consumes : r.consumes = true) :
    Stemlike casing r :=
  ⟨wordy.1, fun _ _ _ accepts =>
    .word (Regex.ne_nil_of_consumes consumes accepts) (wordy.2 _ _ _ accepts)⟩

theorem stemlike_spelled {letters : String} (all : isLabelWord letters.toList = true) :
    Stemlike casing (spelled casing letters) :=
  (wordy_spelled tables all).stemlike (consumes_anyCaseWord casing all)

theorem stemlike_declined {letters : String} (all : isLabelWord letters.toList = true) (most : Nat) :
    Stemlike casing (.seq (spelled casing letters) (ending casing most)) :=
  ((wordy_spelled tables all).seq (wordy_ending casing most)).stemlike (consumes_spelled_seq all _)

theorem wordy_plural {letters : String} (all : isLabelWord letters.toList = true)
    {more : String} (all' : isLabelWord more.toList = true) :
    Wordy casing (.seq (spelled casing letters) (.opt (spelled casing more))) :=
  (wordy_spelled tables all).seq (wordy_spelled tables all').opt

theorem stemlike_plural {letters : String} (all : isLabelWord letters.toList = true)
    {more : String} (all' : isLabelWord more.toList = true) :
    Stemlike casing (.seq (spelled casing letters) (.opt (spelled casing more))) :=
  (wordy_plural tables all all').stemlike (consumes_spelled_seq all _)

theorem wordy_table {table : String} (all : ∀ w ∈ tableWords table, isLabelWord w = true) :
    Wordy casing (.oneOf ((tableWords table).map (anyCaseWord casing))) := by
  refine wordy_oneOf fun r member => ?_
  obtain ⟨w, among, rfl⟩ := List.mem_map.mp member
  have letters := (Bool.and_eq_true_iff.mp (all w among)).2
  exact wordy_anyCaseWord tables fun c inside => List.all_eq_true.mp letters c inside

theorem stemlike_table {table : String} (all : ∀ w ∈ tableWords table, isLabelWord w = true) :
    Stemlike casing (.oneOf ((tableWords table).map (anyCaseWord casing))) := by
  refine stemlike_oneOf fun r member => ?_
  obtain ⟨w, among, rfl⟩ := List.mem_map.mp member
  have letters := (Bool.and_eq_true_iff.mp (all w among)).2
  exact (wordy_anyCaseWord tables fun c inside => List.all_eq_true.mp letters c inside).stemlike
    (consumes_anyCaseWord casing (all w among))

/-- A genitive adds nothing to a word, or an apostrophe and one word character behind it. -/
theorem matches_genitive {before w after : Text}
    (accepts : (genitive casing).Matches before w after) :
    w = [] ∨ ∃ x, casing.isWord x = true ∧ w = ['\'', x] := by
  refine (Regex.matches_opt.mp accepts).imp_right ?_
  rintro ⟨_, _, rfl, ⟨a, rfl, apostrophe⟩, _, _, rfl, ⟨x, rfl, letter⟩, rfl⟩
  refine ⟨x, tables.isWord_of_sameCase 's' x (by decide) letter, ?_⟩
  rw [tables.eq_of_sameCase_apostrophe a apostrophe]
  rfl

omit tables in
theorem plain_genitive (casing : Casing) : (genitive casing).Plain := ⟨trivial, trivial, trivial⟩

theorem stemlike_genitive {r : Regex} (wordy : Wordy casing r) (consumes : r.consumes = true) :
    Stemlike casing (.seq r (genitive casing)) := by
  refine ⟨⟨wordy.1, plain_genitive casing⟩, ?_⟩
  rintro before w after ⟨u, v, rfl, stem, accepts⟩
  have some := Regex.ne_nil_of_consumes consumes stem
  rcases matches_genitive tables accepts with rfl | ⟨x, word, rfl⟩
  · rw [List.append_nil]
    exact .word some (wordy.2 _ _ _ stem)
  · exact .genitive some (wordy.2 _ _ _ stem) word

/-- A stem in two parts with a genitive behind it accepts stems only, as one in one part does. -/
theorem stemlike_genitive_cat {a b : Regex} (first : Wordy casing a) (second : Wordy casing b)
    (consumes : a.consumes = true) : Stemlike casing (.cat [a, b, genitive casing]) := by
  refine ⟨⟨first.1, second.1, plain_genitive casing, trivial⟩, ?_⟩
  rintro before w after ⟨u, _, rfl, left, v, _, rfl, right, x, _, rfl, accepts, rfl⟩
  have joined := stemlike_genitive tables (first.seq second)
    (by rw [Regex.consumes, consumes, Bool.true_or])
  refine joined.2 before _ after ⟨u ++ v, x, by simp, ⟨u, v, rfl, ?_, ?_⟩, ?_⟩
  · simpa using left
  · simpa using right
  · simpa using accepts

theorem stemlike_email {r : Regex} (wordy : Wordy casing r) :
    Stemlike casing (.cat [spelled casing "E", .opt (.lit '-'), r]) := by
  have single := wordy_spelled tables (by decide : isLabelWord "E".toList = true)
  refine ⟨⟨single.1, trivial, wordy.1, trivial⟩, ?_⟩
  rintro before w after ⟨u, _, rfl, e, h, _, rfl, mark, v, _, rfl, rest, rfl⟩
  obtain ⟨_, _, rfl, ⟨x, rfl, letter⟩, rfl⟩ := e
  have word := tables.isWord_of_sameCase 'E' x (by decide) letter
  have tail := wordy.2 _ _ _ rest
  rw [List.append_nil, List.append_nil]
  rcases Regex.matches_opt.mp mark with rfl | mark
  · exact .word (List.cons_ne_nil _ _) (List.forall_mem_cons.mpr ⟨word, tail⟩)
  · rw [Regex.matches_lit] at mark
    rw [mark]
    exact .hyphenated word tail

/-- Every stem of the search, of either language and of every category, accepts stems only: one
word, or one with an apostrophe or a hyphen in the place where stems may have it. -/
theorem stemlike_stems : ∀ entry ∈ stems casing, Stemlike casing entry.1 := by
  -- most stems are a word with an ending; the six that are built otherwise have cases of their own
  simp only [stems, List.forall_mem_cons]
  refine ⟨?_, ?_, ?person, ?_, ?_, ?company, ?_, ?account, ?_, ?_, ?_, ?_, ?_, ?_, ?_, ?_, ?_, ?_, ?_,
    ?_, ?_, ?_, ?_, ?_, ?_, ?_, ?_, ?_, ?email, ?_, ?_, ?birth, ?_, fun _ none => nomatch none⟩
  case person =>
    exact stemlike_genitive tables (wordy_plural tables (by decide) (by decide))
      (consumes_spelled_seq (by decide) _)
  case company =>
    exact stemlike_genitive_cat tables (wordy_spelled tables (by decide))
      (wordy_table tables (by decide)) (consumes_anyCaseWord casing (by decide))
  case account =>
    refine Wordy.stemlike (wordy_cat ?_) (consumes_spelled_seq (by decide) _)
    simp only [List.forall_mem_cons]
    exact ⟨wordy_spelled tables (by decide), wordy_table tables (by decide),
      wordy_spelled tables (by decide), wordy_ending casing 3, fun _ none => nomatch none⟩
  case email => exact stemlike_email tables (wordy_plural tables (by decide) (by decide))
  case birth =>
    refine stemlike_oneOf ?_
    simp only [List.forall_mem_cons]
    refine ⟨stemlike_declined tables (by decide) _, stemlike_declined tables (by decide) _, ?_,
      stemlike_plural tables (by decide) (by decide), fun _ none => nomatch none⟩
    refine Wordy.stemlike (wordy_cat ?_) (consumes_spelled_seq (by decide) _)
    simp only [List.forall_mem_cons]
    exact ⟨wordy_spelled tables (by decide), wordy_ending casing 2,
      (wordy_spelled tables (by decide)).seq (wordy_ending casing 4), fun _ none => nomatch none⟩
  -- the others are declined, in the plural, fixed words, or words from a table
  all_goals first
    | exact stemlike_declined tables (by decide) _
    | exact stemlike_plural tables (by decide) (by decide)
    | exact stemlike_spelled tables (by decide)
    | exact stemlike_table tables (by decide)

end

/-! ## Labels -/

/-- What joins a label that it stands before. -/
def joinsLabel (casing : Casing) (c : Char) : Bool := casing.isWord c || isHyphen c

/-- A label as the search reads it: a word that one of the stems accepts, a hyphen, and one to six
digits. -/
structure LabelText (casing : Casing) (label s : Text) (h : Char) (d : Text) : Prop where
  parts : label = s ++ h :: d
  stem : ∃ entry ∈ stems casing, entry.1.Matches [] s []
  hyphen : isHyphen h = true
  filled : d ≠ []
  few : d.length ≤ 6
  digits : ∀ c ∈ d, casing.isDecimal c = true

theorem freeBefore_iff {before w after : Text} : (freeBefore casing).Matches before w after ↔
    w = [] ∧ EndsOpen (joinsLabel casing) before := by
  rw [freeBefore, Regex.matches_assert, EndsOpen]
  cases before.getLast? with
  | none => simp
  | some c => simp [joinsLabel]

theorem freeAfter_iff {before w after : Text} : (freeAfter casing).Matches before w after ↔
    w = [] ∧ StartsOpen casing.isWord after := by
  rw [freeAfter, Regex.matches_assert, StartsOpen]
  cases after.head? with
  | none => simp
  | some c =>
    simp only [Option.all_some, Bool.and_eq_true, Bool.not_eq_true', Option.some.injEq]
    -- what is not a word character is no digit
    constructor
    · rintro ⟨nothing, _, outside⟩
      exact ⟨nothing, fun _ same => same ▸ outside⟩
    · rintro ⟨nothing, outside⟩
      exact ⟨nothing, Unicode.not_isDecimal_of_not_isWord (outside c rfl), outside c rfl⟩

/-- The search accepts exactly the labels: behind no character that joins a label, a stem, a hyphen
and a number, and no word character after it. -/
theorem matches_labelRe_iff (tables : LabelTables casing) {before w after : Text} :
    (labelRe casing).Matches before w after ↔ EndsOpen (joinsLabel casing) before ∧
      (∃ s h d, LabelText casing w s h d) ∧ StartsOpen casing.isWord after := by
  simp only [labelRe, Regex.matches_cat_cons, Regex.matches_cat_nil, freeBefore_iff, freeAfter_iff,
    Regex.matches_oneOf, Regex.matches_char, Regex.matches_rep_char, List.mem_map]
  constructor
  · rintro ⟨_, _, rfl, ⟨rfl, opened⟩, s, _, rfl, ⟨r, ⟨entry, member, rfl⟩, stem⟩, _, _, rfl,
      ⟨h, rfl, hyphen⟩, d, _, rfl, ⟨least, most, digits⟩, _, _, rfl, ⟨rfl, closed⟩, rfl⟩
    -- whether a stem matches does not depend on the text around it
    have plain := (stemlike_stems tables entry member).1
    have few : d.length ≤ max 1 6 := most 6 rfl
    refine ⟨opened, ⟨s, h, d, ?_, ⟨entry, member, plain.matches stem [] []⟩, hyphen,
      List.length_pos_iff.mp least, few, digits⟩, closed⟩
    simp
  · rintro ⟨opened, ⟨s, h, d, rfl, ⟨entry, member, stem⟩, hyphen, some, few, digits⟩, closed⟩
    have plain := (stemlike_stems tables entry member).1
    refine ⟨[], _, rfl, ⟨rfl, opened⟩, s, h :: d, rfl,
      ⟨_, ⟨entry, member, rfl⟩, plain.matches stem _ _⟩, [h], d, rfl, ⟨h, rfl, hyphen⟩, d, [],
      (List.append_nil d).symm, ⟨List.length_pos_iff.mpr some, ?_, digits⟩, [], [], rfl,
      ⟨rfl, closed⟩, rfl⟩
    intro most bound
    obtain rfl : 6 = most := Option.some.inj bound
    exact few

theorem consumes_labelRe (casing : Casing) : (labelRe casing).consumes = true := by
  simp [labelRe, Regex.cat, Regex.consumes]

namespace LabelText

variable {label s d : Text} {h : Char}

/-- A label begins with a word character, since every stem does. -/
theorem head (tables : LabelTables casing) (shape : LabelText casing label s h d) :
    ∃ c rest, label = c :: rest ∧ casing.isWord c = true := by
  obtain ⟨entry, member, stem⟩ := shape.stem
  have beginning : ∃ c rest, s = c :: rest ∧ casing.isWord c = true := by
    cases (stemlike_stems tables entry member).2 _ _ _ stem with
    | word some word =>
      obtain ⟨c, rest, rfl⟩ := List.exists_cons_of_ne_nil some
      exact ⟨c, rest, rfl, word c List.mem_cons_self⟩
    | genitive some word last =>
      obtain ⟨c, rest, rfl⟩ := List.exists_cons_of_ne_nil some
      exact ⟨c, _, rfl, word c List.mem_cons_self⟩
    | hyphenated first word => exact ⟨_, _, rfl, first⟩
  obtain ⟨c, rest, rfl, word⟩ := beginning
  exact ⟨c, _, shape.parts, word⟩

/-- The digits of a label are word characters. -/
theorem word (shape : LabelText casing label s h d) : ∀ c ∈ d, casing.isWord c = true :=
  fun c member => casing.isWord_of_decimal c (shape.digits c member)

theorem last (shape : LabelText casing label s h d) :
    ∃ c, label.getLast? = some c ∧ casing.isWord c = true := by
  obtain ⟨front, c, rfl⟩ := (List.eq_nil_or_concat d).resolve_left shape.filled
  refine ⟨c, ?_, shape.word c (by simp)⟩
  rw [shape.parts, List.concat_eq_append, ← List.cons_append, ← List.append_assoc,
    List.getLast?_concat]

/-- No digit is a hyphen. -/
theorem no_hyphen (tables : LabelTables casing) (shape : LabelText casing label s h d) :
    ∀ c ∈ d, (!isHyphen c) = true := by
  intro c member
  rw [Bool.not_eq_true', Bool.eq_false_iff]
  intro hyphen
  exact absurd ((shape.word c member).symm.trans (tables.not_isWord_of_hyphen c hyphen)) (by decide)

theorem stemOf_eq (tables : LabelTables casing) (shape : LabelText casing label s h d) :
    stemOf label = s := by
  have hyphen : (!isHyphen h) = false := by rw [shape.hyphen]; rfl
  have digits : ∀ c ∈ d.reverse, (!isHyphen c) = true := fun c member =>
    shape.no_hyphen tables c (List.mem_reverse.mp member)
  rw [stemOf, shape.parts, List.rdropWhile, List.reverse_append, List.reverse_cons,
    List.append_assoc, List.dropWhile_append_of_pos digits, List.singleton_append,
    List.dropWhile_cons_of_neg (by simp [hyphen])]
  simp

theorem numberOf_eq (tables : LabelTables casing) (shape : LabelText casing label s h d) :
    numberOf casing label = d.foldl (fun n c => 10 * n + (casing.decimal c).getD 0) 0 := by
  have hyphen : (!isHyphen h) = false := by rw [shape.hyphen]; rfl
  have digits : ∀ c ∈ d.reverse, (!isHyphen c) = true := fun c member =>
    shape.no_hyphen tables c (List.mem_reverse.mp member)
  rw [numberOf, shape.parts, List.rtakeWhile, List.reverse_append, List.reverse_cons,
    List.append_assoc, List.takeWhile_append_of_pos digits, List.singleton_append,
    List.takeWhile_cons_of_neg (by simp [hyphen]), List.append_nil, List.reverse_reverse]

theorem isSome_stemCategory (shape : LabelText casing label s h d) :
    (stemCategory casing s).isSome = true := by
  obtain ⟨entry, member, stem⟩ := shape.stem
  have whole : (Regex.seq entry.1 atEnd).Matches [] s [] := ⟨s, [], by simp, stem, rfl, rfl⟩
  have listed := (Regex.mem_ends _ _ _ _).mpr ⟨s, [], (List.append_nil s).symm, rfl, whole⟩
  rw [stemCategory, Option.isSome_map, List.find?_isSome]
  refine ⟨entry, member, ?_⟩
  cases lengths : (Regex.seq entry.1 atEnd).ends [] s with
  | nil => simp [lengths] at listed
  | cons n ns => rfl

end LabelText

/-! ## Hits -/

/-- What the search reports of a label: its place, its category and its number, and the text that is
there. -/
structure HitAt (casing : Casing) (text : Text) (hit : LabelHit) : Prop where
  taken : Taken ((labelRe casing).matchAt text) hit.start hit.stop
  category : stemCategory casing (stemOf hit.text) = some hit.category
  number : numberOf casing hit.text = hit.number
  text : text.slice hit.start hit.stop = hit.text

theorem mem_findLabels {text : Text} {hit : LabelHit} :
    hit ∈ findLabels casing text ↔ HitAt casing text hit := by
  rw [findLabels, List.mem_filterMap]
  constructor
  · rintro ⟨⟨p, q⟩, member, found⟩
    obtain ⟨category, named, rfl⟩ := Option.map_eq_some_iff.mp found
    exact ⟨(Regex.mem_finditer (consumes_labelRe casing)).mp member, named, rfl, rfl⟩
  · intro here
    refine ⟨(hit.start, hit.stop), (Regex.mem_finditer (consumes_labelRe casing)).mpr here.taken,
      Option.map_eq_some_iff.mpr ⟨hit.category, ?_, ?_⟩⟩
    · rw [here.text]
      exact here.category
    · simp only [here.text, here.number]

theorem pairwise_findLabels (casing : Casing) (text : Text) :
    (findLabels casing text).Pairwise fun a b => a.stop ≤ b.start := by
  refine (pairwise_scan _ _ _).filterMap _ fun m m' apart hit found hit' found' => ?_
  obtain ⟨_, _, rfl⟩ := Option.map_eq_some_iff.mp found
  obtain ⟨_, _, rfl⟩ := Option.map_eq_some_iff.mp found'
  exact apart

/-- A match that the search takes is a label of the text, behind no character that joins it to what
stands before it and before no word character. -/
theorem label_of_taken (tables : LabelTables casing) {text : Text} {p q : Nat}
    (taken : Taken ((labelRe casing).matchAt text) p q) :
    p < q ∧ q ≤ text.length ∧ EndsOpen (joinsLabel casing) (text.take p) ∧
      (∃ s h d, LabelText casing (text.slice p q) s h d) ∧
      StartsOpen casing.isWord (text.drop q) := by
  have consumes := consumes_labelRe casing
  have accepts := Regex.acceptsAt_of_matchAt consumes taken.2
  exact ⟨accepts.lt consumes, accepts.2.1, (matches_labelRe_iff tables).mp accepts.2.2⟩

/-- If the pattern accepts some stretch of a text, then the search finds a label in the text, though
it need not be this one: an earlier hit may overlap it. -/
theorem findLabels_ne_nil (tables : LabelTables casing) {text front w back : Text}
    (split : text = front ++ w ++ back) (accepts : (labelRe casing).Matches front w back) :
    findLabels casing text ≠ [] := by
  subst split
  have behind : (front ++ w ++ back).drop front.length = w ++ back := by
    rw [List.append_assoc, List.drop_left]
  have starts : ((labelRe casing).matchAt (front ++ w ++ back) front.length).isSome :=
    Regex.matchAt_isSome behind (by rwa [List.append_assoc, List.take_left])
  have within : front.length < 0 + ((front ++ w ++ back).length + 1) := by
    simp only [List.length_append]
    omega
  obtain ⟨⟨p, q⟩, member, _⟩ := scan_covers (Nat.zero_le _) within starts
  -- the match that covers the place may be another one, but it is a label too
  have taken := (Regex.mem_finditer (consumes_labelRe casing)).mp member
  obtain ⟨_, _, _, ⟨s, h, d, shape⟩, _⟩ := label_of_taken tables taken
  obtain ⟨category, named⟩ := Option.isSome_iff_exists.mp shape.isSome_stemCategory
  rw [← shape.stemOf_eq tables] at named
  let label := Text.slice (front ++ w ++ back) p q
  have hit : HitAt casing (front ++ w ++ back) ⟨p, q, category, numberOf casing label, label⟩ :=
    ⟨taken, named, rfl, rfl⟩
  exact List.ne_nil_of_mem (mem_findLabels.mpr hit)

end RedactGate.Desktop
