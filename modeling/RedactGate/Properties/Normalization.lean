import RedactGate.Redaction.Normalize

/-!
# When normalization is idempotent

`normalizeText` normalizes first and strips the invisible characters afterwards. NFKC leaves
them in place, and what stands on either side of one does not combine across it. Without
them it may, so the result is a normal form only if nothing is left to combine.
-/
namespace RedactGate

open Library

/-- The documented behaviour of NFKC that the function relies on: it normalizes parts like the
whole, and leaves invisible characters where they are. -/
structure NfkcLaws (unicode : Unicode) : Prop where
  nil : unicode.nfkc [] = []
  /-- Normal parts do not change what a text normalizes to. -/
  join : ∀ x y, unicode.nfkc (unicode.nfkc x ++ unicode.nfkc y) = unicode.nfkc (x ++ y)
  /-- An invisible character stays in place, and nothing combines across it. -/
  stays : ∀ i ∈ invisible, ∀ x y, unicode.nfkc (x ++ i :: y) = unicode.nfkc x ++ i :: unicode.nfkc y
  /-- Nothing decomposes into an invisible character. -/
  visible : ∀ x, (∀ c ∈ x, c ∉ invisible) → ∀ c ∈ unicode.nfkc x, c ∉ invisible

/-- The parts of a text between its invisible characters. -/
def visibleParts (text : Text) : List Text := text.splitOnP invisible.contains

/-- A text without invisible characters, or its first part, an invisible character and the
rest. -/
theorem visible_or_cut (text : Text) : (∀ c ∈ text, c ∉ invisible) ∨
    ∃ x i y, text = x ++ i :: y ∧ i ∈ invisible ∧ ∀ c ∈ x, c ∉ invisible := by
  induction text with
  | nil => exact .inl (by simp)
  | cons c text ih =>
    by_cases here : c ∈ invisible
    · exact .inr ⟨[], c, text, rfl, here, by simp⟩
    · rcases ih with all | ⟨x, i, y, rfl, cut, before⟩
      · exact .inl (by simpa using ⟨here, all⟩)
      · exact .inr ⟨c :: x, i, y, rfl, cut, by simpa using ⟨here, before⟩⟩

theorem visibleParts_of_visible {text : Text} (visible : ∀ c ∈ text, c ∉ invisible) :
    visibleParts text = [text] :=
  List.splitOnP_eq_singleton fun c member => by simpa using visible c member

theorem visibleParts_cut {x y : Text} {i : Char} (cut : i ∈ invisible)
    (visible : ∀ c ∈ x, c ∉ invisible) :
    visibleParts (x ++ i :: y) = x :: visibleParts y :=
  List.splitOnP_append_cons_of_forall_mem (fun c member => by simpa using visible c member) i
    (by simpa using cut) y

section

variable {unicode : Unicode}

theorem filter_visible {text : Text} (visible : ∀ c ∈ text, c ∉ invisible) :
    text.filter (fun c => !invisible.contains c) = text :=
  List.filter_eq_self.mpr fun c member => by simpa using visible c member

/-- The result is put together from the normal forms of the visible parts: the invisible characters
separate them and are left out. -/
theorem normalizeText_eq (laws : NfkcLaws unicode) (text : Text) :
    normalizeText unicode text = ((visibleParts text).map unicode.nfkc).flatten := by
  -- by induction on the length: cut at the first invisible character
  have stripped (n : Nat) : ∀ t : Text, t.length ≤ n →
      (unicode.nfkc t).filter (fun c => !invisible.contains c) =
        ((visibleParts t).map unicode.nfkc).flatten := by
    induction n with
    | zero =>
      intro t short
      obtain rfl : t = [] := List.length_eq_zero_iff.mp (Nat.le_zero.mp short)
      simp [laws.nil, visibleParts_of_visible]
    | succ n ih =>
      intro t short
      rcases visible_or_cut t with visible | ⟨x, i, y, rfl, cut, visible⟩
      · rw [visibleParts_of_visible visible, filter_visible (laws.visible t visible)]
        simp
      · have rest := ih y (by simp at short; omega)
        rw [laws.stays i cut, visibleParts_cut cut visible, List.filter_append,
          filter_visible (laws.visible x visible), List.filter_cons_of_neg (by simpa using cut),
          rest, List.map_cons, List.flatten_cons]
  unfold normalizeText
  split
  next empty =>
    obtain rfl := List.isEmpty_iff.mp empty
    simp [laws.nil, visibleParts_of_visible]
  next => exact stripped text.length text (Nat.le_refl _)

theorem NfkcLaws.idem (laws : NfkcLaws unicode) (x : Text) :
    unicode.nfkc (unicode.nfkc x) = unicode.nfkc x := by
  simpa [laws.nil] using laws.join x []

/-- Parts can be normalized before they are put together, and what they make then is normalized like
the whole. -/
theorem NfkcLaws.flatten (laws : NfkcLaws unicode) (parts : List Text) :
    unicode.nfkc (parts.map unicode.nfkc).flatten = unicode.nfkc parts.flatten := by
  induction parts with
  | nil => rfl
  | cons x parts ih =>
    calc unicode.nfkc ((x :: parts).map unicode.nfkc).flatten
        = unicode.nfkc (unicode.nfkc (unicode.nfkc x) ++
            unicode.nfkc (parts.map unicode.nfkc).flatten) := (laws.join _ _).symm
      _ = unicode.nfkc (unicode.nfkc x ++ unicode.nfkc parts.flatten) := by rw [laws.idem, ih]
      _ = unicode.nfkc (x :: parts).flatten := laws.join x _

/-- No invisible character is left in a normalized text, as they are taken away last. -/
theorem visible_normalizeText (text : Text) : ∀ c ∈ normalizeText unicode text, c ∉ invisible := by
  intro c member
  unfold normalizeText at member
  split at member
  next empty =>
    obtain rfl := List.isEmpty_iff.mp empty
    cases member
  next => simpa using (List.mem_filter.mp member).2

end

/-- The result is a normal form without invisible characters that a second pass leaves as it is,
exactly when NFKC makes of the visible parts together what it makes of them one by one. NFKC is a
parameter; its laws say that normal parts do not change what a text normalizes to, and that nothing
combines across an invisible character or decomposes into one. -/
theorem normalizeText_idempotent_iff (unicode : Unicode) (laws : NfkcLaws unicode) (text : Text) :
    (normalizeText unicode (normalizeText unicode text) = normalizeText unicode text ∧
      unicode.nfkc (normalizeText unicode text) = normalizeText unicode text ∧
      ∀ c ∈ normalizeText unicode text, c ∉ invisible) ↔
    unicode.nfkc (visibleParts text).flatten = ((visibleParts text).map unicode.nfkc).flatten := by
  have visible := @visible_normalizeText unicode text
  have again : normalizeText unicode (normalizeText unicode text) =
      unicode.nfkc (normalizeText unicode text) := by
    rw [normalizeText_eq laws (normalizeText unicode text), visibleParts_of_visible visible]
    simp
  have joined : unicode.nfkc (normalizeText unicode text) =
      unicode.nfkc (visibleParts text).flatten := by
    rw [normalizeText_eq laws, laws.flatten]
  rw [again, joined, normalizeText_eq laws text] at *
  exact ⟨fun same => same.1, fun same => ⟨same, same, visible⟩⟩

/-! ## A base letter and its accent -/

/-- An acute accent after an `e` combines with it. -/
def attach (c : Char) (text : Text) : Text :=
  if c = 'e' ∧ text.head? = some '\u0301' then '\u00e9' :: text.tail else c :: text

def composeAcute (text : Text) : Text := text.foldr attach []

/-- ASCII with one combining accent, and with a normalization that composes it with the letter
before it. -/
def acute : Unicode where
  isSpace := Unicode.ascii.isSpace
  upper := Unicode.ascii.upper
  nfkc := composeAcute
  isWord := Unicode.ascii.isWord
  decimal := Unicode.ascii.decimal
  isDigit := Unicode.ascii.isDigit
  sameCase := Unicode.ascii.sameCase
  space_isSpace := Unicode.ascii.space_isSpace
  decimal_ascii := Unicode.ascii.decimal_ascii
  isWord_of_decimal := Unicode.ascii.isWord_of_decimal
  not_isWord_space := Unicode.ascii.not_isWord_space
  not_isWord_hyphen := Unicode.ascii.not_isWord_hyphen

theorem foldr_attach (c : Char) (t u : Text) :
    (attach c u).foldr attach t = attach c (u.foldr attach t) := by
  by_cases combines : c = 'e' ∧ u.head? = some '\u0301'
  · obtain ⟨rfl, head⟩ := combines
    obtain ⟨rest, rfl⟩ : ∃ rest, u = '\u0301' :: rest := by
      cases u with
      | nil => cases head
      | cons d rest =>
        obtain rfl := Option.some.inj head
        exact ⟨rest, rfl⟩
    simp [attach]
  · rw [attach, if_neg combines]
    rfl

/-- What is composed already composes no further from the left. -/
theorem foldr_composeAcute (x t : Text) : (composeAcute x).foldr attach t = x.foldr attach t := by
  induction x with
  | nil => rfl
  | cons c x ih =>
    calc (composeAcute (c :: x)).foldr attach t
        = attach c ((composeAcute x).foldr attach t) := foldr_attach c t _
      _ = (c :: x).foldr attach t := by rw [ih]; rfl

theorem mem_attach {c d : Char} {t : Text} (member : d ∈ attach c t) :
    d = '\u00e9' ∨ d = c ∨ d ∈ t := by
  unfold attach at member
  split at member
  · exact (List.mem_cons.mp member).imp_right fun later => .inr (List.mem_of_mem_tail later)
  · exact .inr (List.mem_cons.mp member)

/-- What comes later in a text does not matter to what is attached to its first letter. -/
theorem attach_append (c d : Char) (t u : Text) :
    attach c (d :: t ++ u) = attach c (d :: t) ++ u := by
  by_cases combines : c = 'e' ∧ d = '\u0301'
  · obtain ⟨rfl, rfl⟩ := combines
    rfl
  · have apart (s : Text) : attach c (d :: s) = c :: d :: s := if_neg (by simpa using combines)
    rw [List.cons_append, apart, apart]
    rfl

theorem nfkcLaws_acute : NfkcLaws acute where
  nil := rfl
  join x y := by
    have parts (u v : Text) : composeAcute (u ++ v) = u.foldr attach (composeAcute v) :=
      List.foldr_append
    calc composeAcute (composeAcute x ++ composeAcute y)
        = x.foldr attach (composeAcute (composeAcute y)) := by rw [parts, foldr_composeAcute]
      _ = composeAcute (x ++ y) := by rw [parts, composeAcute, foldr_composeAcute]; rfl
  stays i cut x y := by
    have no_accent : i ≠ '\u0301' := by
      rintro rfl
      exact absurd cut (by decide)
    have no_base : i ≠ 'e' := by
      rintro rfl
      exact absurd cut (by decide)
    induction x with
    | nil => exact if_neg (by simp [no_base])
    | cons c x ih =>
      -- the head of the part before the invisible character decides, or the character itself
      change attach c (composeAcute (x ++ i :: y)) = attach c (composeAcute x) ++ i :: composeAcute y
      have rest : composeAcute (x ++ i :: y) = composeAcute x ++ i :: composeAcute y := ih
      rw [rest]
      cases composed : composeAcute x with
      | nil => simp [attach, no_accent]
      | cons d t => exact attach_append c d t _
  visible x visible := by
    change ∀ c ∈ composeAcute x, c ∉ invisible
    induction x with
    | nil => simp [composeAcute]
    | cons c x ih =>
      intro d member
      rcases mem_attach member with rfl | rfl | later
      · decide
      · exact visible d List.mem_cons_self
      · exact ih (fun e inside => visible e (List.mem_cons_of_mem _ inside)) d later

theorem normalizeText_idempotent_iff_cafe :
    normalizeText acute (normalizeText acute "ca\u200bfe\u0301".toList) =
      normalizeText acute "ca\u200bfe\u0301".toList :=
  ((normalizeText_idempotent_iff acute nfkcLaws_acute _).mpr (by decide)).1

/-- A zero-width space between a letter and its accent: the second pass combines them. -/
theorem normalizeText_not_idempotent : NfkcLaws acute ∧
    normalizeText acute (normalizeText acute "e\u200b\u0301".toList) ≠
      normalizeText acute "e\u200b\u0301".toList :=
  ⟨nfkcLaws_acute, by decide⟩

end RedactGate
