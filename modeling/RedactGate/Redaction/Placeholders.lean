import RedactGate.Library.Scan

/-!
# Placeholder grammar

Shared by the vault, which writes placeholders such as `[[SIN_7f3a]]`, and by
re-inflation, which reads them back. Placeholders are bracketed by characters that
occur nowhere inside them, so they never overlap; a text that ends inside one has
a tail that `partialTailRe` recognises.
-/
namespace RedactGate

open Library

/-- `[A-Z0-9_]`. -/
def isTypeChar (c : Char) : Bool := c.isUpper || c.isDigit || c == '_'

/-- `[0-9a-f]`. -/
def isHexChar (c : Char) : Bool := c.isDigit || ('a' ≤ c && c ≤ 'f')

/-- `PLACEHOLDER_RE`. -/
def placeholderRe : Regex :=
  .cat [.lit '[', .lit '[', .char Char.isUpper, .star (.char isTypeChar), .lit '_',
    .rep (.char isHexChar) 4 (some 12), .lit ']', .lit ']']

def maxPlaceholderLen : Nat := 64

def makePlaceholder (entityType tokenHex : Text) : Text :=
  '[' :: '[' :: (entityType ++ '_' :: tokenHex ++ [']', ']'])

/-- `$`: the end of the text, or just before a newline that ends it. -/
def atEnd (_ rest : Text) : Bool := rest == [] || rest == ['\n']

/-- `_PARTIAL_TAIL_RE`: the beginning of a placeholder at the very end of a text. -/
def partialTailRe : Regex :=
  .cat [.lit '[',
    .opt (.cat [.lit '[', .star (.char isTypeChar),
      .opt (.cat [.lit '_', .star (.char isHexChar)]), .opt (.lit ']')]),
    .assert atEnd]

/-- `trailing_partial_len`: how many characters at the end of a text may be the beginning of a
placeholder. -/
def trailingPartialLen (text : Text) : Nat :=
  if text.isEmpty then 0
  else match partialTailRe.search text with
    | some (start, _) => text.length - start
    | none => 0

/-! ## What the patterns accept -/

/-- `[A-Z][A-Z0-9_]*`, the entity types the reader knows. -/
def isTypeName : Text → Bool
  | [] => false
  | c :: cs => c.isUpper && cs.all isTypeChar

/-- The suffixes the reader knows: 4 to 12 lowercase hex characters. -/
def isTokenHex (tokenHex : Text) : Bool :=
  decide (4 ≤ tokenHex.length) && decide (tokenHex.length ≤ 12) && tokenHex.all isHexChar

theorem colon_not_mem_typeName {entityType : Text} (type_name : isTypeName entityType = true) :
    ':' ∉ entityType := by
  cases entityType with
  | nil => simp
  | cons c cs =>
    simp only [isTypeName, Bool.and_eq_true, List.all_eq_true] at type_name
    intro member
    rcases List.mem_cons.mp member with rfl | member
    · exact absurd type_name.1 (by decide)
    · exact absurd (type_name.2 _ member) (by decide)

def IsPlaceholder (p : Text) : Prop :=
  ∃ entityType tokenHex, isTypeName entityType = true ∧ isTokenHex tokenHex = true ∧
    p = makePlaceholder entityType tokenHex

theorem length_makePlaceholder (entityType tokenHex : Text) :
    (makePlaceholder entityType tokenHex).length = entityType.length + tokenHex.length + 5 := by
  simp only [makePlaceholder, List.length_cons, List.length_append, List.length_nil]
  omega

theorem underscore_not_mem_tokenHex {tokenHex : Text} (token_hex : isTokenHex tokenHex = true) :
    '_' ∉ tokenHex := by
  simp only [isTokenHex, Bool.and_eq_true, List.all_eq_true] at token_hex
  exact fun member => absurd (token_hex.2 _ member) (by decide)

/-- The suffix can be read off the end of a placeholder, whatever stands before it: it has
no underscore. -/
theorem append_makePlaceholder_inj {x y entityType entityType' tokenHex tokenHex' : Text}
    (plain : '_' ∉ tokenHex) (plain' : '_' ∉ tokenHex')
    (same : x ++ makePlaceholder entityType tokenHex = y ++ makePlaceholder entityType' tokenHex') :
    x ++ '[' :: '[' :: entityType = y ++ '[' :: '[' :: entityType' ∧ tokenHex = tokenHex' := by
  have split (x entityType tokenHex : Text) : x ++ makePlaceholder entityType tokenHex =
      (x ++ '[' :: '[' :: entityType) ++ '_' :: tokenHex ++ [']', ']'] := by
    simp [makePlaceholder]
  rw [split, split] at same
  exact (Text.append_cons_inj_right plain plain').mp (List.append_cancel_right same)

/-- Type and suffix can be read off a placeholder. -/
theorem makePlaceholder_inj {entityType entityType' tokenHex tokenHex' : Text}
    (plain : '_' ∉ tokenHex) (plain' : '_' ∉ tokenHex')
    (same : makePlaceholder entityType tokenHex = makePlaceholder entityType' tokenHex') :
    entityType = entityType' ∧ tokenHex = tokenHex' := by
  have read := append_makePlaceholder_inj (x := []) (y := []) plain plain' same
  simpa using read

theorem isTypeName_of_isPlaceholder {entityType tokenHex : Text}
    (token_hex : isTokenHex tokenHex = true)
    (placeholder : IsPlaceholder (makePlaceholder entityType tokenHex)) :
    isTypeName entityType = true := by
  obtain ⟨entityType', tokenHex', type_name, token_hex', same⟩ := placeholder
  have eq := makePlaceholder_inj (underscore_not_mem_tokenHex token_hex)
    (underscore_not_mem_tokenHex token_hex') same
  exact eq.1 ▸ type_name

theorem matches_placeholderRe {before w after : Text} :
    placeholderRe.Matches before w after ↔ IsPlaceholder w := by
  simp only [placeholderRe, Regex.matches_cat_cons, Regex.matches_cat_nil, Regex.matches_lit,
    Regex.matches_char, Regex.matches_star_char, Regex.matches_rep_char, IsPlaceholder,
    makePlaceholder]
  constructor
  · rintro ⟨_, _, rfl, rfl, _, _, rfl, rfl, _, _, rfl, ⟨c, rfl, upper⟩, cs, _, rfl, chars,
      _, _, rfl, rfl, hex, _, rfl, ⟨long, short, digits⟩, _, _, rfl, rfl, _, _, rfl, rfl, rfl⟩
    refine ⟨c :: cs, hex, by simpa [isTypeName, upper] using chars, ?_, by simp⟩
    have few : hex.length ≤ 12 := by simpa using short 12 rfl
    simpa [isTokenHex, long, few] using digits
  · rintro ⟨entityType, hex, type_name, token_hex, rfl⟩
    cases entityType with
    | nil => cases type_name
    | cons c cs =>
      simp only [isTypeName, Bool.and_eq_true, List.all_eq_true] at type_name
      simp only [isTokenHex, Bool.and_eq_true, decide_eq_true_eq, List.all_eq_true] at token_hex
      refine ⟨['['], _, rfl, rfl, ['['], _, rfl, rfl, [c], cs ++ '_' :: hex ++ [']', ']'], rfl,
        ⟨c, rfl, type_name.1⟩, cs, _, List.append_assoc _ _ _, type_name.2, ['_'], _, rfl, rfl,
        hex, _, rfl, ⟨token_hex.1.1, ?_, token_hex.2⟩, [']'], _, rfl, rfl, [']'], [], rfl, rfl, rfl⟩
      intro h bound
      cases bound
      omega

/-- Every placeholder consists of two opening brackets, a body without brackets and two closing
brackets. -/
theorem IsPlaceholder.shape {p : Text} (placeholder : IsPlaceholder p) :
    ∃ body, p = '[' :: '[' :: (body ++ [']', ']']) ∧ ∀ c ∈ body, c ≠ '[' ∧ c ≠ ']' := by
  obtain ⟨entityType, hex, type_name, token_hex, rfl⟩ := placeholder
  refine ⟨entityType ++ '_' :: hex, by simp [makePlaceholder], ?_⟩
  have type_chars : ∀ c ∈ entityType, c.isUpper || isTypeChar c := by
    cases entityType with
    | nil => cases type_name
    | cons d ds =>
      simp only [isTypeName, Bool.and_eq_true, List.all_eq_true] at type_name
      intro c member
      rcases List.mem_cons.mp member with rfl | member
      · simp [type_name.1]
      · simp [type_name.2 c member]
  simp only [isTokenHex, Bool.and_eq_true, List.all_eq_true] at token_hex
  intro c member
  rcases List.mem_append.mp member with in_type | in_rest
  · have accepted := type_chars c in_type
    constructor <;> rintro rfl <;> revert accepted <;> decide
  · rcases List.mem_cons.mp in_rest with rfl | in_hex
    · decide
    · have accepted := token_hex.2 c in_hex
      constructor <;> rintro rfl <;> revert accepted <;> decide

/-- A text without two adjacent opening brackets holds no placeholder. -/
theorem IsPlaceholder.not_infix {p text : Text} (placeholder : IsPlaceholder p)
    (none : ¬['[', '['] <:+: text) : ¬p <:+: text := by
  obtain ⟨body, rfl, _⟩ := placeholder.shape
  intro within
  exact none (List.IsInfix.trans ⟨[], body ++ [']', ']'], rfl⟩ within)

/-- The length of the placeholder that starts a text, if one does. -/
def placeholderAt (w : Text) : Option Nat := (placeholderRe.ends [] w).head?

theorem placeholderAt_spec {w : Text} {k : Nat} (found : placeholderAt w = some k) :
    ∃ p rest, w = p ++ rest ∧ p.length = k ∧ IsPlaceholder p := by
  obtain ⟨p, rest, eq, len, accepts⟩ :=
    (Regex.mem_ends _ _ _ _).mp (List.mem_of_mem_head? found)
  exact ⟨p, rest, eq, len, matches_placeholderRe.mp accepts⟩

/-- At most one placeholder starts a text, as its body ends at the first closing bracket. -/
theorem IsPlaceholder.unique {p q r r' : Text} (hp : IsPlaceholder p) (hq : IsPlaceholder q)
    (same : p ++ r = q ++ r') : p = q := by
  obtain ⟨body, rfl, plain⟩ := hp.shape
  obtain ⟨body', rfl, plain'⟩ := hq.shape
  have absent : ']' ∉ body := fun member => (plain _ member).2 rfl
  have absent' : ']' ∉ body' := fun member => (plain' _ member).2 rfl
  simp only [List.cons_append, List.append_assoc, List.nil_append, List.cons.injEq, true_and]
    at same
  rw [((Text.append_cons_inj absent absent').mp same).1]

theorem placeholderAt_append {p : Text} (placeholder : IsPlaceholder p) (rest : Text) :
    placeholderAt (p ++ rest) = some p.length := by
  have listed : p.length ∈ placeholderRe.ends [] (p ++ rest) :=
    (Regex.mem_ends _ _ _ _).mpr ⟨p, rest, rfl, rfl, matches_placeholderRe.mpr placeholder⟩
  cases found : placeholderAt (p ++ rest) with
  | none =>
    rw [placeholderAt, List.head?_eq_none_iff] at found
    rw [found] at listed
    cases listed
  | some k =>
    obtain ⟨q, rest', eq, rfl, accepted⟩ := placeholderAt_spec found
    rw [placeholder.unique accepted eq]

/-- No placeholder starts inside another one, behind its first character: the second bracket is
followed by a letter, and the body has none. -/
theorem IsPlaceholder.not_inside {p q rest rest' : Text} {m : Nat} (hp : IsPlaceholder p)
    (hq : IsPlaceholder q) (pos : 0 < m) (inside : m < p.length)
    (eq : (p ++ rest).drop m = q ++ rest') : False := by
  obtain ⟨body, rfl, plain⟩ := hp.shape
  obtain ⟨body', rfl, _⟩ := hq.shape
  have closes : ∀ c ∈ body ++ [']', ']'], c ≠ '[' := by
    intro c member
    rcases List.mem_append.mp member with in_body | closing
    · exact (plain c in_body).1
    · rcases List.mem_pair.mp closing with rfl | rfl <;> decide
  match m, pos with
  | 1, _ =>
    -- the second character of the inner placeholder is the third of the outer one
    cases body with
    | nil => simp at eq
    | cons c body =>
      simp only [List.cons_append, List.drop_succ_cons, List.drop_zero, List.cons.injEq,
        true_and] at eq
      exact closes c (by simp) eq.1
  | m + 2, _ =>
    rw [List.drop_append_of_le_length (Nat.le_of_lt inside)] at eq
    simp only [List.drop_succ_cons] at eq
    have short : m < (body ++ [']', ']']).length := by
      simp only [List.length_cons] at inside
      omega
    rw [List.drop_eq_getElem_cons short] at eq
    exact closes _ (List.getElem_mem short) (List.cons.inj eq).1

/-- Placeholders are tokens: they are recognised from their own characters, whatever follows them,
and no two of them overlap. -/
theorem placeholderAt_laws : TokenLaws placeholderAt where
  pos := by
    intro w k found
    obtain ⟨p, _, _, rfl, placeholder⟩ := placeholderAt_spec found
    obtain ⟨body, rfl, _⟩ := placeholder.shape
    simp
  bounded := by
    intro w k found
    obtain ⟨p, rest, rfl, rfl, _⟩ := placeholderAt_spec found
    simp
  stable := by
    intro w k found z
    obtain ⟨p, rest, rfl, rfl, placeholder⟩ := placeholderAt_spec found
    rw [List.take_left]
    exact placeholderAt_append placeholder z
  isolated := by
    intro w k m found pos inside
    obtain ⟨p, rest, rfl, rfl, placeholder⟩ := placeholderAt_spec found
    cases inner : placeholderAt ((p ++ rest).drop m) with
    | none => rfl
    | some n =>
      obtain ⟨q, rest', eq, _, inner_placeholder⟩ := placeholderAt_spec inner
      exact (placeholder.not_inside inner_placeholder pos inside eq).elim

/-! ## The tail of a text that ends inside a placeholder -/

theorem matches_partialTailRe {before w after : Text} :
    partialTailRe.Matches before w after ↔ atEnd [] after = true ∧ (w = ['['] ∨
      ∃ a b c, w = '[' :: '[' :: (a ++ b ++ c) ∧ (∀ x ∈ a, isTypeChar x = true) ∧
        (b = [] ∨ ∃ hex, b = '_' :: hex ∧ ∀ x ∈ hex, isHexChar x = true) ∧
        (c = [] ∨ c = [']'])) := by
  simp only [partialTailRe, Regex.matches_cat_cons, Regex.matches_cat_nil, Regex.matches_lit,
    Regex.matches_opt, Regex.matches_star_char, Regex.matches_assert]
  constructor
  · rintro ⟨_, _, rfl, rfl, _, _, rfl, rfl | ⟨_, _, rfl, rfl, a, _, rfl, chars, b, _, rfl, opens,
      c, _, rfl, closes, rfl⟩, _, _, rfl, ⟨rfl, ends⟩, rfl⟩
    · exact ⟨ends, .inl rfl⟩
    · refine ⟨ends, .inr ⟨a, b, c, by simp, chars, ?_, closes⟩⟩
      rcases opens with rfl | ⟨_, _, rfl, rfl, hex, _, rfl, digits, rfl⟩
      · exact .inl rfl
      · exact .inr ⟨hex, by simp, digits⟩
  · rintro ⟨ends, rfl | ⟨a, b, c, rfl, chars, opens, closes⟩⟩
    · exact ⟨['['], [], rfl, rfl, [], [], rfl, .inl rfl, [], [], rfl, ⟨rfl, ends⟩, rfl⟩
    · refine ⟨['['], '[' :: (a ++ b ++ c), rfl, rfl, '[' :: (a ++ b ++ c), [], by simp,
        .inr ⟨['['], a ++ b ++ c, rfl, rfl, a, b ++ c, by simp, chars, b, c, rfl, ?_,
          c, [], by simp, closes, rfl⟩, [], [], rfl, ⟨rfl, ends⟩, rfl⟩
      rcases opens with rfl | ⟨hex, rfl, digits⟩
      · exact .inl rfl
      · exact .inr ⟨['_'], hex, rfl, rfl, hex, [], by simp, digits, rfl⟩

/-- Every proper prefix of a placeholder that is not empty is a partial tail, as the buffer's
pattern describes it. -/
theorem IsPlaceholder.partial_prefix {u v : Text} (placeholder : IsPlaceholder (u ++ v))
    (started : u ≠ []) (unfinished : v ≠ []) (before : Text) :
    partialTailRe.Matches before u [] := by
  obtain ⟨entityType, hex, type_name, token_hex, eq⟩ := placeholder
  have type_chars : ∀ c ∈ entityType, isTypeChar c = true := by
    cases entityType with
    | nil => cases type_name
    | cons d ds =>
      simp only [isTypeName, Bool.and_eq_true, List.all_eq_true] at type_name
      intro c member
      rcases List.mem_cons.mp member with rfl | member
      · simp [isTypeChar, type_name.1]
      · exact type_name.2 c member
  simp only [isTokenHex, Bool.and_eq_true, List.all_eq_true] at token_hex
  refine matches_partialTailRe.mpr ⟨rfl, ?_⟩
  -- the cut falls behind one bracket, in the type, in the digits, or before the last bracket
  match u, started with
  | [c], _ => exact .inl (by simpa using (List.cons.inj eq).1)
  | c :: d :: u, _ =>
    simp only [makePlaceholder, List.cons_append, List.cons.injEq, List.append_assoc] at eq
    obtain ⟨rfl, rfl, eq⟩ := eq
    right
    rcases List.append_eq_append_iff.mp eq with ⟨more, rfl, _⟩ | ⟨x, rfl, tail⟩
    · exact ⟨u, [], [], by simp, fun c hc => type_chars c (by simp [hc]), .inl rfl, .inl rfl⟩
    · cases x with
      | nil => exact ⟨entityType, [], [], by simp, type_chars, .inl rfl, .inl rfl⟩
      | cons e x =>
        obtain ⟨rfl, inner⟩ : '_' = e ∧ hex ++ [']', ']'] = x ++ v := by simpa using tail
        rcases List.append_eq_append_iff.mp inner.symm with ⟨more, rfl, _⟩ | ⟨y, rfl, close⟩
        · exact ⟨entityType, '_' :: x, [], by simp, type_chars,
            .inr ⟨x, rfl, fun c hc => token_hex.2 c (by simp [hc])⟩, .inl rfl⟩
        · refine ⟨entityType, '_' :: hex, y, by simp, type_chars, .inr ⟨hex, rfl, token_hex.2⟩, ?_⟩
          match y, close with
          | [], _ => exact .inl rfl
          | [f], close => exact .inr (by simpa using (List.cons.inj close).1.symm)
          | f :: g :: y, close =>
            have nothing : [] = y ++ v := (List.cons.inj (List.cons.inj close).2).2
            exact absurd (List.append_eq_nil_iff.mp nothing.symm).2 unfinished

/-- A partial tail and what follows it hold one closing bracket at most, and so there is no whole
placeholder among them. -/
theorem count_close_partialTail {before w after : Text}
    (tail : partialTailRe.Matches before w after) : (w ++ after).count ']' ≤ 1 := by
  obtain ⟨ends, shape⟩ := matches_partialTailRe.mp tail
  have after_none : after.count ']' = 0 := by
    simp only [atEnd, Bool.or_eq_true, beq_iff_eq] at ends
    rcases ends with rfl | rfl <;> decide
  rw [List.count_append, after_none]
  rcases shape with rfl | ⟨a, b, c, rfl, chars, opens, closes⟩
  · decide
  · have a_none : a.count ']' = 0 := by
      refine List.count_eq_zero.mpr fun member => ?_
      exact absurd (chars _ member) (by decide)
    have b_none : b.count ']' = 0 := by
      rcases opens with rfl | ⟨hex, rfl, digits⟩
      · rfl
      · refine List.count_eq_zero.mpr fun member => ?_
        rcases List.mem_cons.mp member with eq | member
        · cases eq
        · exact absurd (digits _ member) (by decide)
    have c_one : c.count ']' ≤ 1 := by
      rcases closes with rfl | rfl <;> decide
    simp only [List.count_cons, List.count_append, a_none, b_none]
    simpa using c_one

theorem trailingPartialLen_le (text : Text) : trailingPartialLen text ≤ text.length := by
  rw [trailingPartialLen]
  split
  · exact Nat.zero_le _
  · split
    · exact Nat.sub_le _ _
    · exact Nat.zero_le _

/-- A whole placeholder in a text ends before the tail that is held back: what is released never
cuts one in two. -/
theorem IsPlaceholder.before_tail {text p rest : Text} {i : Nat} (placeholder : IsPlaceholder p)
    (here : text.drop i = p ++ rest) : i + p.length ≤ text.length - trailingPartialLen text := by
  have whole := congrArg List.length here
  rw [List.length_drop, List.length_append] at whole
  obtain ⟨body, rfl, _⟩ := placeholder.shape
  have long : ('[' :: '[' :: (body ++ [']', ']'])).length = body.length + 4 := by simp
  rw [trailingPartialLen]
  split
  next empty => simp [List.isEmpty_iff.mp empty] at here
  · split
    next start stop found =>
      obtain ⟨w, after, tail, _, accepts⟩ := Regex.matchAt_spec (Regex.search_spec found)
      by_contra short
      -- the two closing brackets stand at or after `start`, or `start` is the second one
      have close : text.drop (i + (body.length + 2)) = ']' :: ']' :: rest := by
        rw [← List.drop_drop, here]
        simp
      by_cases second : start = i + (body.length + 2) + 1
      · rw [second, ← List.drop_drop, close] at tail
        obtain ⟨_, rfl | ⟨a, b, c, rfl, _⟩⟩ := matches_partialTailRe.mp accepts <;> simp at tail
      · have few := count_close_partialTail accepts
        have split_tail : w ++ after = (text.drop start).take (i + (body.length + 2) - start) ++
            ']' :: ']' :: rest := by
          have later : text.drop (i + (body.length + 2)) =
              (text.drop start).drop (i + (body.length + 2) - start) := by
            rw [List.drop_drop]
            congr 1
            omega
          rw [← tail, ← close, later, List.take_append_drop]
        rw [split_tail, List.count_append] at few
        simp at few
        omega
    next => omega

/-- A text that ends inside a placeholder holds back the beginning of this placeholder, and maybe
more in front of it. -/
theorem IsPlaceholder.held {text u v : Text} {i : Nat} (placeholder : IsPlaceholder (u ++ v))
    (unfinished : v ≠ []) (inside : i < text.length) (here : text.drop i = u) :
    text.length - trailingPartialLen text ≤ i := by
  have started : u ≠ [] := by
    rintro rfl
    have short := List.drop_eq_nil_iff.mp here
    omega
  have accepts := placeholder.partial_prefix started unfinished (text.take i)
  have starts := Regex.matchAt_isSome (by rw [here, List.append_nil]) accepts
  obtain ⟨start, stop, found, le⟩ := Regex.search_le (Nat.le_of_lt inside) starts
  have nonempty : text.isEmpty = false := by
    cases text with
    | nil => simp at inside
    | cons c cs => rfl
  rw [trailingPartialLen, nonempty, found]
  simp only [Bool.false_eq_true, if_false]
  omega

/-! ## Partial tails of a growing text -/

/-- A tail that is held back: the pattern accepts it, up to a newline at its end. -/
def IsPartial (w : Text) : Prop :=
  ∃ u after, w = u ++ after ∧ partialTailRe.Matches [] u after

theorem isPartial_iff {w : Text} : IsPartial w ↔ ∃ u after, w = u ++ after ∧
    atEnd [] after = true ∧ (u = ['['] ∨
      ∃ a b c, u = '[' :: '[' :: (a ++ b ++ c) ∧ (∀ x ∈ a, isTypeChar x = true) ∧
        (b = [] ∨ ∃ hex, b = '_' :: hex ∧ ∀ x ∈ hex, isHexChar x = true) ∧
        (c = [] ∨ c = [']'])) := by
  simp only [IsPartial, matches_partialTailRe]

/-- The end of a text whose length the buffer measures is a tail, if there is one at all. -/
theorem isPartial_trailing (text : Text) (held : 0 < trailingPartialLen text) :
    IsPartial (text.drop (text.length - trailingPartialLen text)) := by
  have few := trailingPartialLen_le text
  generalize len : trailingPartialLen text = n at held few ⊢
  rw [trailingPartialLen] at len
  split at len
  next => omega
  · split at len
    next start stop found =>
      obtain ⟨w, after, tail, _, accepts⟩ := Regex.matchAt_spec (Regex.search_spec found)
      have offset : text.length - n = start := by omega
      rw [offset]
      exact ⟨w, after, tail, matches_partialTailRe.mpr (matches_partialTailRe.mp accepts)⟩
    next => omega

/-- The tail that the buffer measures is the longest one: every tail at the end of the text is part
of it. -/
theorem le_trailingPartialLen {text : Text} {i : Nat} (inside : i < text.length)
    (tail : IsPartial (text.drop i)) : text.length - i ≤ trailingPartialLen text := by
  obtain ⟨u, after, here, accepts⟩ := tail
  have starts := Regex.matchAt_isSome here
    (matches_partialTailRe.mpr (matches_partialTailRe.mp accepts))
  obtain ⟨start, stop, found, le⟩ := Regex.search_le (Nat.le_of_lt inside) starts
  have nonempty : text.isEmpty = false := by
    cases text with
    | nil => cases inside
    | cons c cs => rfl
  rw [trailingPartialLen, nonempty, found]
  simp only [Bool.false_eq_true, if_false]
  omega

/-- A tail opens with a bracket, which a second one may follow, and behind these it has no other
opening bracket. -/
theorem IsPartial.opens {w : Text} (tail : IsPartial w) :
    ∃ rest, w = '[' :: rest ∧ ('[' ∉ rest ∨ ∃ rest', rest = '[' :: rest' ∧ '[' ∉ rest') := by
  obtain ⟨u, after, rfl, ends, shape⟩ := isPartial_iff.mp tail
  have after_free : '[' ∉ after := by
    simp only [atEnd, Bool.or_eq_true, beq_iff_eq] at ends
    rcases ends with rfl | rfl <;> decide
  rcases shape with rfl | ⟨a, b, c, rfl, chars, opens, closes⟩
  · exact ⟨after, rfl, .inl after_free⟩
  · refine ⟨_, rfl, .inr ⟨_, rfl, ?_⟩⟩
    have a_free : '[' ∉ a := fun member => absurd (chars _ member) (by decide)
    have b_free : '[' ∉ b := by
      rcases opens with rfl | ⟨hex, rfl, digits⟩
      · simp
      · intro member
        rcases List.mem_cons.mp member with eq | member
        · cases eq
        · exact absurd (digits _ member) (by decide)
    have c_free : '[' ∉ c := by
      rcases closes with rfl | rfl <;> decide
    simp [a_free, b_free, c_free, after_free]

/-- What a tail has grown from, character by character, is a tail as well, as long as there is
something of it. -/
theorem IsPartial.of_append {u v : Text} (tail : IsPartial (u ++ v)) (started : u ≠ []) :
    IsPartial u := by
  by_cases unchanged : v = []
  · rwa [unchanged, List.append_nil] at tail
  obtain ⟨w, after, eq, ends, shape⟩ := isPartial_iff.mp tail
  have newline : after = [] ∨ after = ['\n'] := by simpa [atEnd] using ends
  -- without its last character the whole tail is one that ends with the text
  have within : ∃ more, w = u ++ more := by
    rcases List.append_eq_append_iff.mp eq with ⟨more, rfl, _⟩ | ⟨more, rfl, rest⟩
    · exact ⟨more, rfl⟩
    · rcases newline with rfl | rfl
      · obtain ⟨rfl, _⟩ := List.append_eq_nil_iff.mp rest.symm
        exact ⟨[], by simp⟩
      · cases more with
        | nil => exact ⟨[], by simp⟩
        | cons c more =>
          have last := congrArg List.length rest
          have pos := List.length_pos_iff.mpr unchanged
          simp only [List.length_cons, List.length_nil, List.length_append] at last
          omega
  obtain ⟨more, rfl⟩ := within
  refine isPartial_iff.mpr ⟨u, [], by simp, rfl, ?_⟩
  match u, started with
  | [c], _ =>
    left
    rcases shape with eq | ⟨a, b, c', eq, _⟩
    · rw [(List.cons.inj eq).1]
    · rw [(List.cons.inj eq).1]
  | c :: d :: u, _ =>
    rcases shape with eq | ⟨a, b, close, eq, chars, opens, closes⟩
    · cases (List.cons.inj eq).2
    obtain ⟨rfl, rfl, body⟩ : c = '[' ∧ d = '[' ∧ u ++ more = a ++ (b ++ close) := by
      simpa using eq
    right
    rcases List.append_eq_append_iff.mp body with ⟨x, rfl, _⟩ | ⟨x, rfl, rest⟩
    · exact ⟨u, [], [], by simp, fun y member => chars y (by simp [member]), .inl rfl, .inl rfl⟩
    rcases List.append_eq_append_iff.mp rest with ⟨y, rfl, last⟩ | ⟨y, rfl, _⟩
    · refine ⟨a, b, y, by simp, chars, opens, ?_⟩
      rcases closes with rfl | rfl
      · exact .inl (List.append_eq_nil_iff.mp last.symm).1
      · rcases List.append_eq_singleton_iff.mp last.symm with ⟨rfl, _⟩ | ⟨rfl, _⟩
        · exact .inl rfl
        · exact .inr rfl
    · refine ⟨a, x, [], by simp, chars, ?_, .inl rfl⟩
      rcases opens with none | ⟨hex, some, digits⟩
      · exact .inl (List.append_eq_nil_iff.mp none).1
      · cases x with
        | nil => exact .inl rfl
        | cons z x =>
          obtain ⟨rfl, rfl⟩ := List.cons.inj some
          exact .inr ⟨x, rfl, fun y member => digits y (by simp [member])⟩

/-- A tail that begins inside another one, behind its first character: both are brackets only, and
so the outer one is short. -/
theorem IsPartial.length_le_of_drop {w : Text} {i : Nat} (tail : IsPartial w)
    (inner : IsPartial (w.drop i)) (pos : 0 < i) : w.length ≤ 3 := by
  obtain ⟨rest, rfl, free⟩ := tail.opens
  obtain ⟨opened, eq, _⟩ := inner.opens
  have member : ∀ {xs ys : Text} {j : Nat}, xs.drop j = '[' :: ys → '[' ∈ xs := by
    intro xs ys j eq
    exact List.mem_of_mem_drop (eq ▸ List.mem_cons_self)
  match i, pos with
  | j + 1, _ =>
    rw [List.drop_succ_cons] at eq inner
    rcases free with free | ⟨rest', rfl, free⟩
    · exact absurd (member eq) free
    · cases j with
      | succ j =>
        rw [List.drop_succ_cons] at eq
        exact absurd (member eq) free
      | zero =>
        -- the inner tail is a bracket, with a newline at most behind it
        obtain ⟨u, after, split_eq, ends, shape⟩ := isPartial_iff.mp inner
        have newline : after = [] ∨ after = ['\n'] := by simpa [atEnd] using ends
        rcases shape with rfl | ⟨a, b, c, rfl, _⟩
        · obtain rfl : rest' = after := by simpa using split_eq
          rcases newline with rfl | rfl <;> simp
        · obtain rfl : rest' = '[' :: (a ++ b ++ c ++ after) := by simpa using split_eq
          simp at free

end RedactGate
