import RedactGate.Desktop.InsertedLabels

/-!
# Rendered labels

What the search finds where a label is written for an entity. The words for the categories are
letters only, so a match cannot begin before one of them, and the first match that covers one
ends with it.
-/
namespace RedactGate.Desktop

open Library

/-! ## The tables of the Cyrillic letters -/

theorem isWord_of_isCyrillic {c : Char} (inside : 0x400 ≤ c.toNat ∧ c.toNat ≤ 0x491) :
    Casing.cyrillic.isWord c = true := by
  have cyrillic : Casing.isCyrillic c = true := decide_eq_true inside
  simp [Casing.cyrillic, cyrillic]

/-- What has another small letter is a word character, and so is the small letter; any other
character is its own small letter. -/
theorem small_cases (c : Char) : Casing.small c = c ∨
    Casing.cyrillic.isWord c = true ∧ Casing.cyrillic.isWord (Casing.small c) = true := by
  have capitals : ∀ n ∈ List.range' 65 26 ++ List.range' 0x400 48 ++ [0x490],
      Casing.cyrillic.isWord (Char.ofNat n) = true ∧
        Casing.cyrillic.isWord (Casing.small (Char.ofNat n)) = true := by decide
  by_cases capital : c.toNat ∈ List.range' 65 26 ++ List.range' 0x400 48 ++ [0x490]
  · rw [← Char.ofNat_toNat c]
    exact .inr (capitals c.toNat capital)
  · simp only [List.mem_append, List.mem_range'_1, List.mem_singleton] at capital
    have latin : ¬c.isUpper = true := fun upper => by
      have range := Unicode.toNat_of_isUpper upper
      omega
    rw [Casing.small, if_neg latin, if_neg (by omega), if_neg (by omega), if_neg (by omega)]
    exact .inl rfl

theorem toNat_of_isAlphanum {c : Char} (alpha : c.isAlphanum = true) : c.toNat ≤ 122 := by
  have cases : (c.isUpper = true ∨ c.isLower = true) ∨ c.isDigit = true :=
    (Bool.or_eq_true_iff.mp alpha).imp_left Bool.or_eq_true_iff.mp
  rcases cases with (upper | lower) | digit
  · have range := Unicode.toNat_of_isUpper upper
    omega
  · have below : c.val ≤ 'z'.val := of_decide_eq_true (Bool.and_eq_true_iff.mp lower).2
    exact UInt32.le_iff_toNat_le.mp below
  · have range := Unicode.toNat_of_isDigit digit
    omega

theorem isWord_of_letter {c : Char} (letter : isLabelLetter c = true) :
    Casing.cyrillic.isWord c = true := by
  rw [isLabelLetter, Bool.or_eq_true, Bool.or_eq_true, decide_eq_true_eq, List.contains_iff_mem]
    at letter
  rcases letter with (alpha | range) | listed
  · simp [Casing.cyrillic, Char.isAlphanum, alpha]
  · exact isWord_of_isCyrillic (by omega)
  · have all : "ЁёЄєІіЇїҐґ".toList.all Casing.cyrillic.isWord = true := by decide
    exact List.all_eq_true.mp all c listed

/-- The tables of the ASCII characters and the Cyrillic letters meet what the label search asks of a
Unicode table, so that its hypotheses can be satisfied. -/
theorem labelTables_cyrillic : LabelTables Casing.cyrillic where
  isWord_of_letter _ letter := isWord_of_letter letter
  not_isWord_of_hyphen c hyphen := by
    rw [isHyphen, Bool.or_eq_true, beq_iff_eq, decide_eq_true_eq] at hyphen
    rcases hyphen with rfl | range
    · rfl
    -- the dashes from U+2010 on are neither Cyrillic nor ASCII
    · have outside : Casing.isCyrillic c = false := decide_eq_false (by omega)
      have noDigit : c.isAlphanum = false := by
        rw [Bool.eq_false_iff]
        intro alpha
        have low := toNat_of_isAlphanum alpha
        omega
      have noLine : (c == '_') = false := by
        rw [beq_eq_false_iff_ne]
        rintro rfl
        exact absurd range.1 (by decide)
      simp [Casing.cyrillic, outside, noDigit, noLine]
  isWord_of_sameCase c d letter same := by
    have same : Casing.small d = Casing.small c := beq_iff_eq.mp same
    -- only letters change in lower case, and letters are word characters
    rcases small_cases d with still | ⟨word, _⟩
    · rw [← still, same]
      rcases small_cases c with still' | ⟨_, word⟩
      · rw [still']
        exact isWord_of_letter letter
      · exact word
    · exact word
  eq_of_sameCase_apostrophe d same := by
    have same : Casing.small d = '\'' := beq_iff_eq.mp same
    rcases small_cases d with still | ⟨_, word⟩
    · exact still.symm.trans same
    · rw [same] at word
      cases word
  sameCase_letters c d _ _ := rfl

variable {casing casing' : Casing}

/-! ## The tables do not matter for letters -/

/-- What the stems are spelled with. -/
def isSpelled (c : Char) : Bool := isLabelLetter c || c == '\''

section

variable (tables : LabelTables casing) (tables' : LabelTables casing')

include tables tables'

/-- Any two tables for labels agree on which letters of labels are one letter in two cases, and on
what is taken for an apostrophe. -/
theorem agree_sameCase {c : Char} (letter : isLabelLetter c = true ∨ c = '\'') :
    ∀ d, isLabelLetter d = true → casing.sameCase d c = casing'.sameCase d c := by
  intro d letter'
  rcases letter with letter | rfl
  · rw [tables.sameCase_letters c d letter letter', tables'.sameCase_letters c d letter letter']
  · have other {table : Casing} (tables : LabelTables table) : table.sameCase d '\'' = false := by
      rw [Bool.eq_false_iff]
      intro same
      rw [tables.eq_of_sameCase_apostrophe d same] at letter'
      cases letter'
    rw [other tables, other tables']

theorem agree_anyCaseWord {letters : Text}
    (all : letters.all isSpelled = true) :
    Regex.AgreeOn (isLabelLetter · = true) (anyCaseWord casing letters)
      (anyCaseWord casing' letters) := by
  induction letters with
  | nil => exact .empty
  | cons c letters ih =>
    rw [List.all_cons, Bool.and_eq_true, isSpelled, Bool.or_eq_true, beq_iff_eq] at all
    exact .seq (.char (agree_sameCase tables tables' all.1)) (ih all.2)

theorem agree_ending (most : Nat) :
    Regex.AgreeOn (isLabelLetter · = true) (ending casing most) (ending casing' most) := by
  refine .rep (.char fun c letter => ?_) _ _
  rw [tables.isWord_of_letter c letter, tables'.isWord_of_letter c letter]

theorem agree_table {table : String}
    (all : ∀ w ∈ tableWords table, w.all isSpelled = true) :
    Regex.AgreeOn (isLabelLetter · = true) (.oneOf ((tableWords table).map (anyCaseWord casing)))
      (.oneOf ((tableWords table).map (anyCaseWord casing'))) := by
  refine Regex.AgreeOn.oneOf ?_
  rw [List.forall₂_map_left_iff, List.forall₂_map_right_iff, List.forall₂_same]
  exact fun w member => agree_anyCaseWord tables tables' (all w member)

theorem agree_spelled {letters : String} (all : letters.toList.all isSpelled = true) :
    Regex.AgreeOn (isLabelLetter · = true) (spelled casing letters) (spelled casing' letters) :=
  agree_anyCaseWord tables tables' all

theorem agree_declined {letters : String} (all : letters.toList.all isSpelled = true)
    (most : Nat) : Regex.AgreeOn (isLabelLetter · = true)
      (.seq (spelled casing letters) (ending casing most))
      (.seq (spelled casing' letters) (ending casing' most)) :=
  .seq (agree_spelled tables tables' all) (agree_ending tables tables' most)

theorem agree_opt {letters : String} (all : letters.toList.all isSpelled = true) :
    Regex.AgreeOn (isLabelLetter · = true) (.opt (spelled casing letters))
      (.opt (spelled casing' letters)) :=
  .rep (agree_spelled tables tables' all) 0 (some 1)

theorem agree_plural {letters more : String} (all : letters.toList.all isSpelled = true)
    (all' : more.toList.all isSpelled = true) : Regex.AgreeOn (isLabelLetter · = true)
      (.seq (spelled casing letters) (.opt (spelled casing more)))
      (.seq (spelled casing' letters) (.opt (spelled casing' more))) :=
  .seq (agree_spelled tables tables' all) (agree_opt tables tables' all')

/-- Two tables that agree on the letters of labels give the same stems: as patterns they accept the
same words of these letters, and they stand for the same categories. -/
theorem agree_stems : List.Forall₂ (fun entry entry' =>
      Regex.AgreeOn (isLabelLetter · = true) entry.1 entry'.1 ∧ entry.2 = entry'.2)
    (stems casing) (stems casing') := by
  have spelled {letters : String} := @agree_spelled _ _ tables tables' letters
  have genitive := agree_opt tables tables' (by decide : "'s".toList.all isSpelled = true)
  have cat {rs rs' : List Regex} := @Regex.AgreeOn.cat (isLabelLetter · = true) rs rs'
  -- stem by stem, as for `stemlike_stems`: six of them are built in a way of their own
  simp only [stems, List.forall₂_cons, and_true, List.forall₂_nil_left_iff]
  refine ⟨?_, ?_, ?person, ?_, ?_, ?company, ?_, ?account, ?_, ?_, ?_, ?_, ?_, ?_, ?_, ?_, ?_, ?_, ?_,
    ?_, ?_, ?_, ?_, ?_, ?_, ?_, ?_, ?_, ?email, ?_, ?_, ?birth, ?_⟩
  case person =>
    exact .seq (agree_plural tables tables' (by decide) (by decide)) genitive
  case company =>
    exact cat (.cons (spelled (by decide)) (.cons (agree_table tables tables' (by decide))
      (.cons genitive .nil)))
  case account =>
    exact cat (.cons (spelled (by decide)) (.cons (agree_table tables tables' (by decide))
      (.cons (spelled (by decide)) (.cons (agree_ending tables tables' 3) .nil))))
  case email =>
    have hyphen := Regex.AgreeOn.char fun c (_ : isLabelLetter c = true) => Eq.refl (c == '-')
    exact cat (.cons (spelled (by decide)) (.cons (.rep hyphen 0 (some 1))
      (.cons (agree_plural tables tables' (by decide) (by decide)) .nil)))
  case birth =>
    refine .oneOf (.cons (agree_declined tables tables' (by decide) 4)
      (.cons (agree_declined tables tables' (by decide) 4) (.cons ?_
        (.cons (agree_plural tables tables' (by decide) (by decide)) .nil))))
    exact cat (.cons (spelled (by decide)) (.cons (agree_ending tables tables' 2)
      (.cons (agree_declined tables tables' (by decide) 4) .nil)))
  all_goals first
    | exact agree_declined tables tables' (by decide) _
    | exact agree_plural tables tables' (by decide) (by decide)
    | exact spelled (by decide)
    | exact agree_table tables tables' (by decide)

/-- Any two tables for labels classify a word of letters of labels in the same way, as the stems
agree on these letters. -/
theorem stemCategory_eq {stem : Text} (letters : ∀ c ∈ stem, isLabelLetter c = true) :
    stemCategory casing stem = stemCategory casing' stem := by
  rw [stemCategory, stemCategory]
  generalize stems casing = entries, stems casing' = entries', agree_stems tables tables' = agree
  induction agree with
  | nil => rfl
  | cons here _ ih =>
    have whole := (here.1.seq (.assert fun _ rest => rest = [] || rest = ['\n'])).isEmpty_ends
      [] letters
    rw [List.find?_cons, List.find?_cons, atEnd, whole]
    split
    · exact congrArg some here.2
    · exact ih

end

/-! ## Words and numbers -/

/-- The words for the categories are letters only, two at least, and classified as their
categories. -/
theorem words_spelled : ∀ entry ∈ words, ∀ w ∈ [entry.uk, entry.ru, entry.en],
    isLabelWord w = true ∧ 2 ≤ w.length ∧
      stemCategory Casing.cyrillic w = some entry.category := by
  decide +kernel

/-- The category has words of its own. -/
def HasWord (category : Text) : Prop := ∃ entry ∈ words, entry.category = category

theorem isDecimal_of_digit {c : Char} (digit : c.isDigit = true) : casing.isDecimal c = true := by
  rw [Unicode.isDecimal, casing.decimal_ascii c digit]
  rfl

/-- The decimal digits of a number are read as the number, by whatever table, since they are ASCII. -/
theorem foldl_toDigits (casing : Casing) (n : Nat) :
    (Nat.toDigits 10 n).foldl (fun m c => 10 * m + (casing.decimal c).getD 0) 0 = n := by
  have read : (Nat.toDigits 10 n).foldl (fun m c => 10 * m + (casing.decimal c).getD 0) 0 =
      Nat.ofDigitChars 10 (Nat.toDigits 10 n) 0 := by
    rw [Nat.ofDigitChars_eq_foldl]
    refine List.foldl_ext _ _ _ fun m c member => ?_
    rw [casing.decimal_ascii c (Nat.isDigit_of_mem_toDigits (by decide) (by decide) member)]
    rfl
  rw [read, Nat.ofDigitChars_ten_toDigits]

section

variable (tables : LabelTables casing)

include tables

theorem labelWord_spelled {category : Text} (known : HasWord category) (lang : Text) :
    isLabelWord (labelWord casing category lang) = true ∧
      2 ≤ (labelWord casing category lang).length ∧
      stemCategory casing (labelWord casing category lang) = some category := by
  obtain ⟨entry, member, rfl⟩ := known
  rw [labelWord]
  -- the table has the category, so its first entry for it is used
  cases found : words.find? (·.category = entry.category) with
  | none =>
    have missing := List.find?_eq_none.mp found entry member
    simp at missing
  | some entry' =>
    have same : entry'.category = entry.category := by simpa using List.find?_some found
    have among : entry'.word lang ∈ [entry'.uk, entry'.ru, entry'.en] := by
      rw [LabelWords.word]
      split_ifs <;> simp
    obtain ⟨letters, length, classified⟩ :=
      words_spelled entry' (List.mem_of_find?_eq_some found) _ among
    refine ⟨letters, length, ?_⟩
    have spelled := List.all_eq_true.mp (Bool.and_eq_true_iff.mp letters).2
    exact (stemCategory_eq tables labelTables_cyrillic spelled).trans (same ▸ classified)

omit tables in
/-- A word of letters that has a category as a stem is accepted by one of the stems of the search.
The words are free of line feeds, at which the dollar sign would also match. -/
theorem matches_of_stemCategory {stem category : Text} (letters : isLabelWord stem = true)
    (classified : stemCategory casing stem = some category) :
    ∃ entry ∈ stems casing, entry.1.Matches [] stem [] := by
  obtain ⟨entry, found, _⟩ := Option.map_eq_some_iff.mp classified
  have among := List.mem_of_find?_eq_some found
  have listed : ((Regex.seq entry.1 atEnd).ends [] stem).isEmpty = false := by
    simpa using List.find?_some found
  obtain ⟨n, member⟩ := List.isEmpty_eq_false_iff_exists_mem.mp listed
  obtain ⟨_, after, rfl, _, u, _, rfl, accepts, rfl, last⟩ := (Regex.mem_ends _ _ _ _).mp member
  have atLast : after = [] ∨ after = ['\n'] := by simpa using last
  refine ⟨entry, among, ?_⟩
  rcases atLast with rfl | rfl
  · simpa using accepts
  · have spelled := List.all_eq_true.mp (Bool.and_eq_true_iff.mp letters).2 '\n' (by simp)
    cases spelled

/-- What is written for an entity with a category that has a word is a label as the search reads it,
up to the number 999999. -/
theorem labelText_render {category : Text} (known : HasWord category) {n : Nat}
    (bound : n ≤ 999999) (lang : Text) : LabelText casing (render casing category n lang)
      (labelWord casing category lang) '-' (Nat.toDigits 10 n) where
  parts := rfl
  stem := by
    obtain ⟨letters, _, classified⟩ := labelWord_spelled tables known lang
    exact matches_of_stemCategory letters classified
  hyphen := rfl
  filled := Nat.toDigits_ne_nil
  few := (Nat.length_toDigits_le_iff (by decide) (by decide)).mpr (by omega)
  digits _ member :=
    isDecimal_of_digit (Nat.isDigit_of_mem_toDigits (by decide) (by decide) member)

/-- A character inside of a label that could stand before one is the apostrophe of a genitive:
behind it there are one character and the hyphen. -/
theorem LabelText.of_gap {label s d : Text} {h : Char} (shape : LabelText casing label s h d)
    {u v : Text} (split : label = u ++ v) (some : u ≠ [])
    (gap : EndsOpen (joinsLabel casing) u) : ∃ x k rest, v = x :: k :: rest ∧ isHyphen k = true := by
  obtain ⟨front, c, rfl⟩ := (List.eq_nil_or_concat u).resolve_left some
  have joins {x : Char} (word : casing.isWord x = true) : joinsLabel casing x = true := by
    rw [joinsLabel, word, Bool.true_or]
  have apart : joinsLabel casing c = false := gap c (by simp)
  have other {piece : Text} (all : ∀ x ∈ piece, joinsLabel casing x = true) : c ∉ piece :=
    fun member => absurd ((all c member).symm.trans apart) (by decide)
  have tail : ∀ x ∈ h :: d, joinsLabel casing x = true := by
    refine List.forall_mem_cons.mpr ⟨?_, fun x member => joins (shape.word x member)⟩
    rw [joinsLabel, shape.hyphen, Bool.or_true]
  -- the character before the cut joins no label, yet it is in the label: only an apostrophe can be
  -- both
  have inside : c ∈ s ++ h :: d := by
    rw [← shape.parts, split]
    simp
  obtain ⟨entry, member, stem⟩ := shape.stem
  -- only the stems with a genitive have an apostrophe, and behind it is one letter
  cases (stemlike_stems tables entry member).2 _ _ _ stem with
  | word _ word =>
    refine absurd inside (other (List.forall_mem_append.mpr ⟨?_, tail⟩))
    exact fun x member => joins (word x member)
  | @genitive w x _ word last =>
    have whole : front ++ c :: v = w ++ '\'' :: (x :: h :: d) := by
      have parts := shape.parts
      rw [split, List.concat_eq_append, List.append_assoc, List.append_assoc] at parts
      exact parts
    have here := (List.append_cons_inj_of_notMem (other fun x member => joins (word x member))
      (other (List.forall_mem_cons.mpr ⟨joins last, tail⟩))).mp whole.symm
    exact ⟨x, h, d, here.2.2.symm, shape.hyphen⟩
  | @hyphenated x w first word =>
    refine absurd inside (other (List.forall_mem_append.mpr ⟨?_, tail⟩))
    refine List.forall_mem_cons.mpr ⟨joins first, List.forall_mem_cons.mpr ⟨?_, ?_⟩⟩
    · simp [joinsLabel, isHyphen]
    · exact fun x member => joins (word x member)

/-- Where a word of two characters or more stands before a hyphen and a number, the label that
begins there is this word with this number, and no shorter or longer one. -/
theorem LabelText.eq_of_word {label s d : Text} {h : Char} (shape : LabelText casing label s h d)
    {w number : Text} (word : ∀ c ∈ w, casing.isWord c = true) (two : 2 ≤ w.length)
    (word' : ∀ c ∈ number, casing.isWord c = true) {back rest : Text}
    (closed : StartsOpen casing.isWord back) (closed' : StartsOpen casing.isWord rest)
    (same : w ++ '-' :: (number ++ back) = label ++ rest) : label = w ++ '-' :: number := by
  have stops {k : Char} {text : Text} (hyphen : isHyphen k = true) :
      StartsOpen casing.isWord (k :: text) := fun c head =>
    Option.some.inj head ▸ tables.not_isWord_of_hyphen k hyphen
  -- the stem reaches to the hyphen if it is a word
  have ofWord (all : ∀ c ∈ s, casing.isWord c = true) : label = w ++ '-' :: number := by
    rw [shape.parts, List.append_assoc, List.cons_append] at same
    obtain ⟨rfl, behind⟩ := StartsOpen.split_eq (stops rfl) (stops shape.hyphen) word all same
    obtain ⟨rfl, numbers⟩ := List.cons.inj behind
    obtain ⟨rfl, _⟩ := closed.split_eq closed' word' shape.word numbers
    exact shape.parts
  obtain ⟨entry, member, stem⟩ := shape.stem
  cases (stemlike_stems tables entry member).2 _ _ _ stem with
  | word _ word => exact ofWord word
  | @genitive u x _ word' last =>
    cases apostrophe : casing.isWord '\'' with
    | true =>
      refine ofWord (List.forall_mem_append.mpr ⟨word', ?_⟩)
      exact List.forall_mem_cons.mpr ⟨apostrophe, List.forall_mem_singleton.mpr last⟩
    | false =>
      rw [shape.parts, List.append_assoc, List.append_assoc, List.cons_append] at same
      have opened : StartsOpen casing.isWord ('\'' :: ([x] ++ (h :: d ++ rest))) := fun c head =>
        Option.some.inj head ▸ apostrophe
      obtain ⟨_, behind⟩ := StartsOpen.split_eq (stops rfl) opened word word' same
      cases (List.cons.inj behind).1
  | @hyphenated x v first _ =>
    rw [shape.parts, List.append_assoc] at same
    have split : w ++ '-' :: (number ++ back) = [x] ++ '-' :: (v ++ (h :: d ++ rest)) := same
    obtain ⟨rfl, _⟩ := StartsOpen.split_eq (stops rfl) (stops rfl) word
      (List.forall_mem_singleton.mpr first) split
    exact absurd two (by simp)

/-- The search takes a label whose stem is a word of two characters or more, if nothing beside it
joins it. -/
theorem taken_of_word {label w number : Text} (written : LabelText casing label w '-' number)
    (word : ∀ c ∈ w, casing.isWord c = true) (two : 2 ≤ w.length) {text front back : Text}
    (whole : text = front ++ label ++ back) (opened : EndsOpen (joinsLabel casing) front)
    (closed : StartsOpen casing.isWord back) :
    Taken ((labelRe casing).matchAt text) front.length (front.length + label.length) := by
  have start : text.take front.length = front := by
    rw [whole, List.append_assoc, List.take_left]
  have stretch : text.slice front.length (front.length + label.length) = label := by
    rw [Text.slice_eq_take_drop, Nat.add_sub_cancel_left, whole, List.append_assoc, List.drop_left,
      List.take_left]
  have stop : text.drop (front.length + label.length) = back := by
    rw [whole, ← List.length_append, List.drop_left]
  have accepts : (labelRe casing).AcceptsAt text front.length (front.length + label.length) := by
    refine ⟨Nat.le_add_right _ _, by simp [whole], ?_⟩
    rw [start, stretch, stop, matches_labelRe_iff tables]
    exact ⟨opened, ⟨_, _, _, written⟩, closed⟩
  obtain ⟨p, q, taken, le, lt⟩ := accepts.exists_taken (consumes_labelRe casing)
  obtain ⟨_, inside, _, ⟨s, h, d, shape⟩, closed'⟩ := label_of_taken tables taken
  -- what follows the text before the label is seen in two ways
  have behind : w ++ '-' :: (number ++ back) = text.slice front.length q ++ text.drop q := by
    have parts := @Text.take_append_slice_append_drop text _ _ (Nat.le_of_lt lt)
    rw [start, List.append_assoc] at parts
    have both := parts.trans (whole.trans (List.append_assoc front label back))
    rw [List.append_cancel_left both, written.parts, List.append_assoc, List.cons_append]
  -- a match that begins before would have a character in it that can stand before a label
  have here : p = front.length := by
    by_contra other
    have some : text.slice p front.length ≠ [] := by
      rw [← List.length_pos_iff, Text.length_slice (by omega)]
      omega
    have gap : EndsOpen (joinsLabel casing) (text.slice p front.length) := by
      rw [Text.slice, start]
      rw [← List.take_append_drop p front] at opened
      exact opened.back
    obtain ⟨x, k, rest, split, hyphen⟩ :=
      shape.of_gap tables (Text.slice_append_slice le (Nat.le_of_lt lt)).symm some gap
    obtain ⟨a, w, rfl⟩ := List.exists_cons_of_length_pos (Nat.lt_of_lt_of_le Nat.zero_lt_two two)
    obtain ⟨b, w, rfl⟩ := List.exists_cons_of_length_pos (Nat.le_of_succ_le_succ two)
    rw [split] at behind
    obtain ⟨_, rfl, _⟩ := List.cons.inj behind |>.imp_right List.cons.inj
    have letter := word b (by simp)
    exact absurd (letter.symm.trans (tables.not_isWord_of_hyphen b hyphen)) (by decide)
  subst here
  have same := shape.eq_of_word tables word two written.word closed closed' behind
  have ends : q = front.length + label.length := by
    have length := @Text.length_slice text front.length q inside
    rw [same, ← written.parts] at length
    omega
  exact ends ▸ taken

/-- The search finds what is written for an entity, whatever else the text holds, if nothing
beside it joins it. -/
theorem hitAt_render {category : Text} (known : HasWord category) {n : Nat} (bound : n ≤ 999999)
    (lang : Text) {text front back : Text}
    (whole : text = front ++ render casing category n lang ++ back)
    (opened : EndsOpen (joinsLabel casing) front) (closed : StartsOpen casing.isWord back) :
    HitAt casing text ⟨front.length, front.length + (render casing category n lang).length,
      category, n, render casing category n lang⟩ := by
  obtain ⟨letters, two, classified⟩ := labelWord_spelled tables known lang
  have written := labelText_render tables known bound lang
  have word : ∀ c ∈ labelWord casing category lang, casing.isWord c = true := fun c member =>
    tables.isWord_of_letter c (List.all_eq_true.mp (Bool.and_eq_true_iff.mp letters).2 c member)
  refine ⟨taken_of_word tables written word two whole opened closed, ?_, ?_, ?_⟩
  · rw [written.stemOf_eq tables]
    exact classified
  · rw [written.numberOf_eq tables]
    exact foldl_toDigits casing n
  · rw [Text.slice_eq_take_drop, Nat.add_sub_cancel_left, whole, List.append_assoc, List.drop_left,
      List.take_left]

end

end RedactGate.Desktop
