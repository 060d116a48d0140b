import RedactGate.Redaction.DigitGroups
import RedactGate.Redaction.IdentifierRows
import Mathlib.Data.List.Nodup

/-!
# Rejected candidates

A pattern is tried from left to right and never again inside a match that was taken, also
when the validator rejected that match. In the US pack two matches never overlap. Elsewhere a
match is the longest row of digit groups at its place, and the groups of a text are divided
into such rows from the left: a row belongs to the division if no row of the division that
starts before it reaches into it. An identifier that is no row of the division is lost unless
one of the rows that overlap it happens to pass the validator.
-/
namespace RedactGate

open Library

variable {unicode : Unicode}

/-- `Pack.detect` returns a span of the type that overlaps `[i, j)`. -/
def Detects (pack : Pack) (entityType text : Text) (i j : Nat) : Prop :=
  ∃ spans, pack.detect text = .ok spans ∧
    ∃ s ∈ spans, s.entityType = entityType ∧ s.start < j ∧ i < s.stop

/-- How an identifier of the type is written outside the US pack, for the four types whose patterns
have a validator there. -/
def layoutOf (unicode : Unicode) (entityType : Text) : Option Layout :=
  if entityType = "SIN".toList then some (sinLayout unicode)
  else if entityType = "CREDIT_CARD".toList then some (creditCardLayout unicode)
  else if entityType = "IBAN".toList then some (euIbanLayout unicode)
  else if entityType = "IBAN_UA".toList then some (ibanUaLayout unicode)
  else none

/-- The rows into which the groups of a text are divided from the left: of the longest rows,
those that no row of the division with an earlier start reaches into. -/
def Division (unicode : Unicode) (layout : Layout) (text : Text) : Nat → Nat → Prop :=
  LeftToRight (layout.LongestRow unicode.isWord text)

/-- The part `[i, j)` is a row of the division, or it shares groups with one that the validator
accepts. -/
def Shown (unicode : Unicode) (layout : Layout) (validator : Validator) (text : Text)
    (i j : Nat) : Prop :=
  Division unicode layout text i j ∨ ∃ p q, Division unicode layout text p q ∧ p < j ∧ i < q ∧
    validator (text.slice p q) = .ok true

/-! ## What the shipped packs have in common -/

section Shipped

variable {pack : Pack} (shipped : pack ∈ shippedPacks unicode)
include shipped

/-- No two patterns of a shipped pack have one type, so that a type names its pattern. -/
theorem pattern_unique {pat pat' : CompiledPattern} (member : pat ∈ pack.patterns)
    (member' : pat' ∈ pack.patterns) (same : pat.entityType = pat'.entityType) : pat = pat' := by
  have distinct : (pack.patterns.map CompiledPattern.entityType).Nodup := by
    simp only [shippedPacks, List.mem_cons, List.not_mem_nil, or_false] at shipped
    -- the types do not depend on the character tables
    rcases shipped with rfl | rfl | rfl | rfl | rfl | rfl
    · change ((ca .ascii).patterns.map CompiledPattern.entityType).Nodup; decide
    · change ((eu .ascii).patterns.map CompiledPattern.entityType).Nodup; decide
    · change ((generic .ascii).patterns.map CompiledPattern.entityType).Nodup; decide
    · change ((ircc .ascii).patterns.map CompiledPattern.entityType).Nodup; decide
    · change ((ua .ascii).patterns.map CompiledPattern.entityType).Nodup; decide
    · change ((us .ascii).patterns.map CompiledPattern.entityType).Nodup; decide
  exact List.inj_on_of_nodup_map distinct member member' same

/-- No pattern matches the empty text. -/
theorem pattern_consumes {pat : CompiledPattern} (member : pat ∈ pack.patterns) :
    pat.regex.regex.consumes = true := by
  have all : (pack.patterns.all fun pat => pat.regex.regex.consumes) = true := by
    simp only [shippedPacks, List.mem_cons, List.not_mem_nil, or_false] at shipped
    rcases shipped with rfl | rfl | rfl | rfl | rfl | rfl <;> rfl
  exact List.all_eq_true.mp all pat member

/-- No validator raises on what its own pattern matches: what it reads as a number there consists of
digits. -/
theorem accepts_ok {pat : CompiledPattern} (member : pat ∈ pack.patterns) {text : Text}
    {m : Nat × Nat} (candidate : m ∈ pat.candidates text) :
    ∃ accepted, pat.accepts (text.slice m.1 m.2) = .ok accepted := by
  -- all validators but `itin_check` are plain tests
  let Total (pat : CompiledPattern) : Prop := (∀ s, ∃ accepted, pat.accepts s = .ok accepted) ∨
    pat = rule unicode "ITIN" (.plain (itinRe unicode)) "itin_check"
  have plain {pat : CompiledPattern} (verdict : Text → Bool)
      (same : ∀ s, pat.accepts s = .ok (verdict s)) : Total pat := .inl fun s => ⟨_, same s⟩
  have total : Total pat := by
    simp only [shippedPacks, List.mem_cons, List.not_mem_nil, or_false] at shipped
    refine List.forall_iff_forall_mem.mp ?_ pat member
    rcases shipped with rfl | rfl | rfl | rfl | rfl | rfl
    · exact ⟨plain _ fun _ => rfl, plain _ fun _ => rfl, plain _ fun _ => rfl, plain _ fun _ => rfl⟩
    · exact ⟨plain _ fun _ => rfl, plain _ fun _ => rfl⟩
    · exact ⟨plain _ fun _ => rfl, plain _ fun _ => rfl, plain _ fun _ => rfl, plain _ fun _ => rfl,
        plain _ fun _ => rfl, plain _ fun _ => rfl, plain _ fun _ => rfl⟩
    · exact ⟨plain _ fun _ => rfl, plain _ fun _ => rfl⟩
    · exact ⟨plain _ fun _ => rfl, plain _ fun _ => rfl, plain _ fun _ => rfl⟩
    · exact ⟨.inr rfl, plain _ fun _ => rfl, plain _ fun _ => rfl⟩
  rcases total with total | rfl
  · exact total _
  · obtain ⟨⟨p, q⟩, reported, rfl⟩ := List.mem_map.mp candidate
    have taken := (Regex.mem_finditer rfl).mp reported
    have accepts := Regex.acceptsAt_of_matchAt rfl taken.2
    exact itinCheck_ok (isDecimal_or_separator_of_itinRe accepts.2.2)

theorem detect_ok (text : Text) : ∃ spans, pack.detect text = .ok spans :=
  Pack.detect_ok fun _ member _ candidate => accepts_ok shipped member candidate

/-- What a pack detects of a type at a place is what the pattern of this type takes there and its
validator accepts; no two patterns of a pack have one type. -/
theorem detects_iff {pat : CompiledPattern} (member : pat ∈ pack.patterns) {r : Regex}
    (plain : pat.regex = .plain r) {text : Text} {i j : Nat} :
    Detects pack pat.entityType text i j ↔ ∃ p q, Taken (pat.regex.regex.matchAt text) p q ∧
      pat.accepts (text.slice p q) = .ok true ∧ p < j ∧ i < q := by
  obtain ⟨spans, detected⟩ := detect_ok shipped text
  have consumes := pattern_consumes shipped member
  constructor
  · rintro ⟨_, same, s, found, type, before, after⟩
    rw [detected] at same
    cases same
    obtain ⟨pat', member', m, candidate, accepted, rfl⟩ :=
      (Pack.mem_detectPatterns detected s).mp found
    obtain rfl := pattern_unique shipped member' member type
    obtain ⟨⟨p, q⟩, reported, rfl⟩ := List.mem_map.mp candidate
    rw [plain, Expression.identifier_plain] at accepted before after
    exact ⟨p, q, (Regex.mem_finditer consumes).mp reported, accepted, before, after⟩
  · rintro ⟨p, q, taken, accepted, before, after⟩
    have reported := (Regex.mem_finditer consumes).mpr taken
    have candidate : (p, q) ∈ pat.candidates text :=
      List.mem_map.mpr ⟨(p, q), reported, by rw [plain, Expression.identifier_plain]⟩
    exact ⟨spans, detected, pack.span pat text (p, q),
      (Pack.mem_detectPatterns detected _).mpr ⟨pat, member, (p, q), candidate, accepted, rfl⟩,
      rfl, before, after⟩

end Shipped

/-! ## The US pack -/

/-- A match of a US pattern that covers the first character of another match of it is that match:
the boundaries leave no room for two of them. -/
theorem us_matches_apart {pat : CompiledPattern} (member : pat ∈ (us unicode).patterns)
    {text : Text} {p q i j : Nat} (first : pat.regex.regex.AcceptsAt text p q)
    (second : pat.regex.regex.AcceptsAt text i j) (le : p ≤ i) (inside : i < q) :
    p = i ∧ q = j := by
  have apart {layouts : List (List Bool)} (separable : Separable layouts)
      (first : ∃ layout ∈ layouts, Grouped unicode text p layout ∧ q = p + layout.length)
      (second : ∃ layout ∈ layouts, Grouped unicode text i layout ∧ j = i + layout.length) :
      p = i ∧ q = j := by
    obtain ⟨a, ha, grouped, rfl⟩ := first
    obtain ⟨b, hb, grouped', rfl⟩ := second
    obtain ⟨rfl, rfl⟩ := grouped.eq_of_overlap separable ha hb grouped' le inside
    exact ⟨rfl, rfl⟩
  simp only [us, List.mem_cons, List.not_mem_nil, or_false] at member
  rcases member with rfl | rfl | rfl
  · exact apart separable_nineDigitLayouts (grouped_of_itinRe first) (grouped_of_itinRe second)
  · exact apart separable_nineDigitLayouts (grouped_of_ssnRe first) (grouped_of_ssnRe second)
  · exact apart separable_einLayouts (grouped_of_einRe first) (grouped_of_einRe second)

/-! ## The other packs -/

/-- A scan with a pattern that finds the longest rows takes those of the division. -/
theorem taken_iff_division {layout : Layout} {r : Regex} {text : Text}
    (reports : ∀ p q, r.matchAt text p = some q ↔ layout.LongestRow unicode.isWord text p q)
    {p q : Nat} : Taken (r.matchAt text) p q ↔ Division unicode layout text p q := by
  have same : (fun p q => r.matchAt text p = some q) = layout.LongestRow unicode.isWord text :=
    funext fun p => funext fun q => propext (reports p q)
  rw [taken_iff_leftToRight, same, Division]

/-- Outside the US pack, a pattern with a validator matches, at each place, the longest row of digit
groups in the layout of its type. -/
theorem exists_layout (tables : unicode.WordTables) {pack : Pack}
    (shipped : pack ∈ shippedPacks unicode) {pat : CompiledPattern} (member : pat ∈ pack.patterns)
    {r : Regex} (plain : pat.regex = .plain r) {validator : Validator}
    (validated : pat.validator = some validator) (other : pack.code ≠ "US".toList) :
    ∃ layout, layoutOf unicode pat.entityType = some layout ∧ ∀ text p q,
      r.matchAt text p = some q ↔ layout.LongestRow unicode.isWord text p q := by
  have regex : r = pat.regex.regex := by rw [plain]; rfl
  subst regex
  -- pack by pack: the validated plain patterns, each with its layout
  simp only [shippedPacks, List.mem_cons, List.not_mem_nil, or_false] at shipped
  rcases shipped with rfl | rfl | rfl | rfl | rfl | rfl
  · simp only [ca, List.mem_cons, List.not_mem_nil, or_false] at member
    rcases member with rfl | rfl | rfl | rfl
    · exact ⟨sinLayout unicode, rfl, fun _ _ _ => sinRe_matchAt_iff⟩
    · cases validated
    · cases validated
    · cases validated
  · simp only [eu, List.mem_cons, List.not_mem_nil, or_false] at member
    rcases member with rfl | rfl
    · exact ⟨euIbanLayout unicode, rfl, fun _ _ _ => euIbanRe_matchAt_iff tables⟩
    · cases validated
  · simp only [generic, List.mem_cons, List.not_mem_nil, or_false] at member
    rcases member with rfl | rfl | rfl | rfl | rfl | rfl | rfl
    · cases validated
    · exact ⟨creditCardLayout unicode, rfl, fun _ _ _ => creditCardRe_matchAt_iff⟩
    all_goals cases validated
  · simp only [ircc, List.mem_cons, List.not_mem_nil, or_false] at member
    rcases member with rfl | rfl
    · cases plain
    · cases validated
  · simp only [ua, List.mem_cons, List.not_mem_nil, or_false] at member
    rcases member with rfl | rfl | rfl
    · exact ⟨ibanUaLayout unicode, rfl, fun _ _ _ => ibanUaRe_matchAt_iff tables⟩
    · cases plain
    · cases plain
  · exact absurd rfl other

/-! ## The result -/

theorem eq_us_of_code {pack : Pack} (shipped : pack ∈ shippedPacks unicode)
    (code : pack.code = "US".toList) : pack = us unicode := by
  simp only [shippedPacks, List.mem_cons, List.not_mem_nil, or_false] at shipped
  rcases shipped with rfl | rfl | rfl | rfl | rfl | rfl
  · exact absurd code (show "CA".toList ≠ "US".toList by decide)
  · exact absurd code (show "EU".toList ≠ "US".toList by decide)
  · exact absurd code (show "GENERIC".toList ≠ "US".toList by decide)
  · exact absurd code (show "IRCC".toList ≠ "US".toList by decide)
  · exact absurd code (show "UA".toList ≠ "US".toList by decide)
  · rfl

/-- An identifier that the validator accepts is detected if and only if the pack is the US pack, or
the identifier is a row of the division of the text into rows of groups, or another row of the
division that overlaps it is accepted as well. This holds of every shipped pattern whose whole match
is validated. Of the character tables it takes only that ASCII capitals are word characters. -/
theorem valid_identifier_detected_iff (tables : unicode.WordTables) {pack : Pack}
    (shipped : pack ∈ shippedPacks unicode) {pat : CompiledPattern} (member : pat ∈ pack.patterns)
    {r : Regex} (plain : pat.regex = .plain r) {validator : Validator}
    (validated : pat.validator = some validator) {text : Text} {i j : Nat}
    (inLanguage : r.AcceptsAt text i j) (valid : validator (text.slice i j) = .ok true) :
    Detects pack pat.entityType text i j ↔ pack.code = "US".toList ∨
      ∃ layout, layoutOf unicode pat.entityType = some layout ∧
        Shown unicode layout validator text i j := by
  have language : pat.regex.regex.AcceptsAt text i j := by rw [plain]; exact inLanguage
  have consumes := pattern_consumes shipped member
  have nonempty := language.lt consumes
  have accepts (part : Text) : pat.accepts part = validator part := by
    rw [CompiledPattern.accepts, validated]
  rw [detects_iff shipped member plain]
  by_cases code : pack.code = "US".toList
  · obtain rfl := eq_us_of_code shipped code
    refine iff_of_true ?_ (.inl code)
    -- the match that covers the first character is the identifier
    obtain ⟨p, q, taken, from_p, to_q⟩ := language.exists_taken consumes
    have covering := Regex.acceptsAt_of_matchAt consumes taken.2
    obtain ⟨rfl, rfl⟩ := us_matches_apart member covering language from_p to_q
    exact ⟨p, q, taken, (accepts _).trans valid, nonempty, nonempty⟩
  · obtain ⟨layout, known, reports⟩ := exists_layout tables shipped member plain validated code
    have regex : pat.regex.regex = r := by rw [plain]; rfl
    rw [regex]
    have divided {p q : Nat} := @taken_iff_division unicode layout r text (reports text) p q
    constructor
    · rintro ⟨p, q, taken, accepted, before, after⟩
      exact .inr ⟨layout, known, .inr
        ⟨p, q, divided.mp taken, before, after, (accepts _).symm.trans accepted⟩⟩
    · rintro (us | ⟨layout', known', shown⟩)
      · exact absurd us code
      · obtain rfl := Option.some.inj (known'.symm.trans known)
        rcases shown with row | ⟨p, q, row, before, after, accepted⟩
        · exact ⟨i, j, divided.mpr row, (accepts _).trans valid, nonempty, nonempty⟩
        · exact ⟨p, q, divided.mpr row, (accepts _).trans accepted, before, after⟩

theorem valid_identifier_detected_sin :
    Detects (ca .ascii) "SIN".toList "130 692 502".toList 0 11 :=
  have shipped : ca .ascii ∈ shippedPacks .ascii := List.mem_cons_self
  have row : Division .ascii (sinLayout .ascii) "130 692 502".toList 0 11 :=
    leftToRight_iff.mpr
      ⟨sinRe_matchAt_iff.mp (by decide), fun s before => absurd before s.not_lt_zero⟩
  (valid_identifier_detected_iff Unicode.wordTables_ascii shipped List.mem_cons_self rfl rfl
    (by decide) (by decide)).mpr (.inr ⟨sinLayout .ascii, rfl, .inl row⟩)

/-- A card number that is followed by its expiry date is tested together with the month, and
not detected. -/
theorem card_before_expiry_missed :
    (creditCardRe .ascii).AcceptsAt "4111 1111 1111 1111 04/27".toList 0 19 ∧
      luhn .ascii (Text.slice "4111 1111 1111 1111 04/27".toList 0 19) = true ∧
      ¬Detects (generic .ascii) "CREDIT_CARD".toList "4111 1111 1111 1111 04/27".toList 0 19 := by
  have nothing : (generic .ascii).detect "4111 1111 1111 1111 04/27".toList = .ok [] := by
    decide
  refine ⟨by decide, by decide, ?_⟩
  rintro ⟨spans, detected, s, found, _⟩
  rw [nothing] at detected
  cases detected
  cases found

end RedactGate
