import RedactGate.Redaction.Packs

/-!
# Digit groups

The identifiers of the US pack are fixed groups of digits between fixed separators. What a
text shows of its digits around such an identifier leaves no room for a second one, so no
two matches overlap.
-/
namespace RedactGate

open Library

/-- Where a text has digits, with a non-digit added at both ends. -/
def digitMap (unicode : Unicode) (text : Text) : List Bool :=
  false :: (text.map unicode.isDecimal ++ [false])

/-- From `i` on the text has digits where the layout has `true`, and no digit on either side. -/
def Grouped (unicode : Unicode) (text : Text) (i : Nat) (layout : List Bool) : Prop :=
  ∃ front back, digitMap unicode text = front ++ (false :: layout ++ [false]) ++ back ∧
    front.length = i

/-- The two lists differ at a position that both have. -/
def clash (a b : List Bool) : Bool := (a.zip b).any fun (x, y) => x != y

theorem not_clash_of_append_eq {a b x y : List Bool} (same : a ++ x = b ++ y) :
    clash a b = false := by
  induction a generalizing b with
  | nil => rfl
  | cons c a ih =>
    cases b with
    | nil => rfl
    | cons d b =>
      obtain ⟨rfl, rest⟩ := List.cons.inj same
      simpa [clash] using ih rest

/-- No layout of the list fits the digits of another one, or its own, at an offset inside. -/
def Separable (layouts : List (List Bool)) : Prop :=
  ∀ a ∈ layouts, ∀ b ∈ layouts,
    (a ≠ b → clash (false :: a ++ [false]) (false :: b ++ [false]) = true) ∧
    ∀ k < a.length, 0 < k → clash ((false :: a ++ [false]).drop k) (false :: b ++ [false]) = true

instance (layouts : List (List Bool)) : Decidable (Separable layouts) := by
  unfold Separable
  infer_instance

/-- Two grouped parts of one text that overlap are the same part, if the layouts clash: two
different ones at one place, and any two that are shifted against each other. -/
theorem Grouped.eq_of_overlap {unicode : Unicode} {text : Text} {layouts : List (List Bool)}
    {p i : Nat} {a b : List Bool} (separable : Separable layouts) (ha : a ∈ layouts)
    (hb : b ∈ layouts) (first : Grouped unicode text p a) (second : Grouped unicode text i b)
    (le : p ≤ i) (inside : i < p + a.length) : p = i ∧ a = b := by
  obtain ⟨front, back, split, rfl⟩ := first
  obtain ⟨front', back', split', rfl⟩ := second
  obtain ⟨distinct, offsets⟩ := separable a ha b hb
  -- what follows the longer front part, read off both splits
  have tail : (false :: a ++ [false] ++ back).drop (front'.length - front.length) =
      false :: b ++ [false] ++ back' := by
    have whole := congrArg (List.drop front'.length) (split.symm.trans split')
    rwa [List.append_assoc, List.append_assoc _ _ back', List.drop_left, List.drop_append,
      List.drop_eq_nil_of_le le, List.nil_append] at whole
  rw [List.drop_append_of_le_length (by simp; omega)] at tail
  have fits := not_clash_of_append_eq tail
  rcases Nat.eq_or_lt_of_le le with same | before
  · refine ⟨same, ?_⟩
    by_contra differ
    rw [same, Nat.sub_self, List.drop_zero, distinct differ] at fits
    cases fits
  · rw [offsets _ (by omega) (by omega)] at fits
    cases fits

section

variable {unicode : Unicode}

theorem grouped_of_split {before w after : Text}
    (front : before.getLast?.any unicode.isWord = false)
    (back : after.head?.any unicode.isWord = false) :
    Grouped unicode (before ++ w ++ after) before.length (w.map unicode.isDecimal) := by
  -- the character before the part, or the added non-digit, and likewise after it
  obtain ⟨x, hx⟩ : ∃ x, false :: before.map unicode.isDecimal = x ++ [false] := by
    rcases List.eq_nil_or_concat' before with rfl | ⟨init, c, rfl⟩
    · exact ⟨[], rfl⟩
    · have outside : unicode.isWord c = false := by simpa using front
      exact ⟨false :: init.map unicode.isDecimal, by
        simp [Unicode.not_isDecimal_of_not_isWord outside]⟩
  obtain ⟨y, hy⟩ : ∃ y, after.map unicode.isDecimal ++ [false] = false :: y := by
    cases after with
    | nil => exact ⟨[], rfl⟩
    | cons c rest =>
      have outside : unicode.isWord c = false := by simpa using back
      exact ⟨rest.map unicode.isDecimal ++ [false], by
        simp [Unicode.not_isDecimal_of_not_isWord outside]⟩
  refine ⟨x, y, ?_, ?_⟩
  · rw [digitMap, List.map_append, List.map_append, List.append_assoc, List.append_assoc, hy,
      ← List.cons_append, hx]
    simp
  · have lengths := congrArg List.length hx
    simpa using lengths.symm

theorem isDecimal_of_decimalRe_times {n : Nat} {before w after : Text}
    (accepts : (Regex.times (decimalRe unicode) n).Matches before w after) :
    w.map unicode.isDecimal = List.replicate n true := by
  obtain ⟨rfl, all⟩ := Regex.matches_times_char.mp accepts
  exact List.map_eq_replicate_iff.mpr all

theorem isDecimal_hyphen : unicode.isDecimal '-' = false :=
  Unicode.not_isDecimal_of_not_isWord unicode.not_isWord_hyphen

theorem isDecimal_space : unicode.isDecimal ' ' = false :=
  Unicode.not_isDecimal_of_not_isWord unicode.not_isWord_space

variable (unicode) in
/-- The optional separator `[ -]?` stands for no character or for one that is not a digit. -/
theorem isDecimal_of_separator {before w after : Text}
    (accepts : (Regex.opt (among " -")).Matches before w after) :
    w.map unicode.isDecimal = [] ∨ w.map unicode.isDecimal = [false] := by
  rcases Regex.matches_opt.mp accepts with rfl | ⟨c, rfl, member⟩
  · exact .inl rfl
  · have separator : c = ' ' ∨ c = '-' := by simpa [among] using member
    rcases separator with rfl | rfl
    · exact .inr (by simp [isDecimal_space])
    · exact .inr (by simp [isDecimal_hyphen])

/-- Between two boundaries, a part that begins and ends with digits stands alone: no digit is next
to it on either side. -/
theorem grouped_of_edges {before w after : Text} {layout : List Bool}
    (front : (edge unicode).Matches before [] (w ++ after))
    (back : (edge unicode).Matches (before ++ w) [] after)
    (digits : w.map unicode.isDecimal = layout) (starts : layout.head? = some true)
    (ends : layout.getLast? = some true) :
    Grouped unicode (before ++ w ++ after) before.length layout := by
  subst digits
  obtain ⟨c, first, digit⟩ : ∃ c, w.head? = some c ∧ unicode.isDecimal c = true := by
    simpa [Option.map_eq_some_iff] using starts
  obtain ⟨d, last, digit'⟩ : ∃ d, w.getLast? = some d ∧ unicode.isDecimal d = true := by
    simpa [Option.map_eq_some_iff] using ends
  obtain ⟨rest, rfl⟩ := List.head?_eq_some_iff.mp first
  refine grouped_of_split ?_ ?_
  · exact Regex.not_word_before front (List.cons_append ..) (unicode.isWord_of_decimal c digit)
  · refine Regex.not_word_after back ?_
    rw [List.getLast?_append, last]
    exact unicode.isWord_of_decimal d digit'

/-- What an expression between two boundaries accepts at a place of the text is a part that is
grouped there, by one of the layouts that its body can take. -/
theorem grouped_of_acceptsAt (body : List Regex) {text : Text} {i j : Nat}
    {layouts : List (List Bool)}
    (accepts : (Regex.cat (edge unicode :: (body ++ [edge unicode]))).AcceptsAt text i j)
    (digits : ∀ before w after, (Regex.cat body).Matches before w after →
      w.map unicode.isDecimal ∈ layouts)
    (solid : ∀ layout ∈ layouts, layout.head? = some true ∧ layout.getLast? = some true) :
    ∃ layout ∈ layouts, Grouped unicode text i layout ∧ j = i + layout.length := by
  obtain ⟨ordered, inside, _, _, part, ⟨rfl, front⟩, rest⟩ := accepts
  obtain ⟨w, _, rfl, middle, _, _, rfl, ⟨rfl, back⟩, rfl⟩ := Regex.matches_cat_append.mp rest
  simp only [List.append_nil, List.nil_append] at part front middle back
  have fits := digits _ _ _ middle
  have ends := solid _ fits
  have grouped := grouped_of_edges ⟨rfl, front⟩ ⟨rfl, back⟩ rfl ends.1 ends.2
  rw [← part, Text.take_append_slice_append_drop ordered, List.length_take,
    Nat.min_eq_left (Nat.le_trans ordered inside)] at grouped
  have len : (text.slice i j).length = j - i := Text.length_slice inside
  rw [← part] at fits
  refine ⟨_, fits, grouped, ?_⟩
  rw [List.length_map, len]
  omega

/-! ## The patterns of the US pack -/

/-- Three, two and four digits, with or without separators. -/
def nineDigitLayouts : List (List Bool) :=
  [[], [false]].flatMap fun s => [[], [false]].map fun t =>
    List.replicate 3 true ++ (s ++ (List.replicate 2 true ++ (t ++ List.replicate 4 true)))

/-- Two and seven digits. -/
def einLayouts : List (List Bool) := [List.replicate 2 true ++ false :: List.replicate 7 true]

theorem separable_nineDigitLayouts : Separable nineDigitLayouts := by decide

theorem separable_einLayouts : Separable einLayouts := by decide

theorem mem_nineDigitLayouts {s t : List Bool} (hs : s = [] ∨ s = [false])
    (ht : t = [] ∨ t = [false]) :
    List.replicate 3 true ++ (s ++ (List.replicate 2 true ++ (t ++ List.replicate 4 true))) ∈
      nineDigitLayouts := by
  rcases hs with rfl | rfl <;> rcases ht with rfl | rfl <;> decide

theorem grouped_of_itinRe {text : Text} {i j : Nat}
    (accepts : (itinRe unicode).AcceptsAt text i j) :
    ∃ layout ∈ nineDigitLayouts, Grouped unicode text i layout ∧ j = i + layout.length := by
  refine grouped_of_acceptsAt [.lit '9', .times (decimalRe unicode) 2,
    .opt (among " -"), .times (decimalRe unicode) 2, .opt (among " -"),
    .times (decimalRe unicode) 4] accepts ?_ (by decide)
  rintro before w after ⟨_, _, rfl, nine, _, _, rfl, a, _, _, rfl, s, _, _, rfl, b, _, _, rfl, t,
    c, _, rfl, c_digits, rfl⟩
  obtain rfl := Regex.matches_lit.mp nine
  have nine_decimal : unicode.isDecimal '9' = true := by
    rw [Unicode.isDecimal, unicode.decimal_ascii '9' (by decide)]
    rfl
  have member := mem_nineDigitLayouts (isDecimal_of_separator unicode s)
    (isDecimal_of_separator unicode t)
  simpa [isDecimal_of_decimalRe_times a, isDecimal_of_decimalRe_times b,
    isDecimal_of_decimalRe_times c_digits, nine_decimal, List.replicate_succ] using member

/-- A match of the ITIN pattern is made of decimal digits, spaces and hyphens only, by induction
along the parts of the pattern. -/
theorem isDecimal_or_separator_of_itinRe {before w after : Text}
    (accepts : (itinRe unicode).Matches before w after) :
    ∀ c ∈ w, unicode.isDecimal c = true ∨ c = ' ' ∨ c = '-' := by
  have digit {n : Nat} {before w after : Text}
      (accepts : (Regex.times (decimalRe unicode) n).Matches before w after) :
      ∀ c ∈ w, unicode.isDecimal c = true ∨ c = ' ' ∨ c = '-' :=
    fun c member => .inl ((Regex.matches_times_char.mp accepts).2 c member)
  have separator {before w after : Text}
      (accepts : (Regex.opt (among " -")).Matches before w after) :
      ∀ c ∈ w, unicode.isDecimal c = true ∨ c = ' ' ∨ c = '-' := by
    rcases Regex.matches_opt.mp accepts with rfl | ⟨c, rfl, member⟩
    · simp
    · have separator : c = ' ' ∨ c = '-' := by simpa [among] using member
      simpa using Or.inr separator
  -- the match in pieces: the nine, two digits, a gap, two digits, a gap, four digits
  obtain ⟨_, _, rfl, ⟨rfl, _⟩, _, _, rfl, nine, _, _, rfl, a, _, _, rfl, s, _, _, rfl, b, _, _, rfl,
    t, _, _, rfl, d, _, _, rfl, ⟨rfl, _⟩, rfl⟩ := accepts
  obtain rfl := Regex.matches_lit.mp nine
  intro c member
  simp only [List.nil_append, List.append_nil, List.mem_append, List.mem_singleton] at member
  rcases member with rfl | member | member | member | member | member
  · exact .inl (by rw [Unicode.isDecimal, unicode.decimal_ascii '9' (by decide)]; rfl)
  · exact digit a c member
  · exact separator s c member
  · exact digit b c member
  · exact separator t c member
  · exact digit d c member

theorem grouped_of_ssnRe {text : Text} {i j : Nat} (accepts : (ssnRe unicode).AcceptsAt text i j) :
    ∃ layout ∈ nineDigitLayouts, Grouped unicode text i layout ∧ j = i + layout.length := by
  refine grouped_of_acceptsAt [.times (decimalRe unicode) 3, .lit '-',
    .times (decimalRe unicode) 2, .lit '-', .times (decimalRe unicode) 4] accepts ?_ (by decide)
  rintro before w after ⟨_, _, rfl, a, _, _, rfl, s, _, _, rfl, b, _, _, rfl, t, c, _, rfl,
    c_digits, rfl⟩
  obtain rfl := Regex.matches_lit.mp s
  obtain rfl := Regex.matches_lit.mp t
  have member := mem_nineDigitLayouts (.inr rfl) (.inr rfl)
  simpa [isDecimal_of_decimalRe_times a, isDecimal_of_decimalRe_times b,
    isDecimal_of_decimalRe_times c_digits, isDecimal_hyphen] using member

theorem grouped_of_einRe {text : Text} {i j : Nat} (accepts : (einRe unicode).AcceptsAt text i j) :
    ∃ layout ∈ einLayouts, Grouped unicode text i layout ∧ j = i + layout.length := by
  refine grouped_of_acceptsAt [.times (decimalRe unicode) 2, .lit '-',
    .times (decimalRe unicode) 7] accepts ?_ (by decide)
  rintro before w after ⟨_, _, rfl, a, _, _, rfl, s, b, _, rfl, b_digits, rfl⟩
  obtain rfl := Regex.matches_lit.mp s
  simp [isDecimal_of_decimalRe_times a, isDecimal_of_decimalRe_times b_digits, isDecimal_hyphen,
    einLayouts]

end

end RedactGate
