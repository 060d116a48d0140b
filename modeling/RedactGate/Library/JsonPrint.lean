import RedactGate.Library.Bytes

/-!
# JSON text

Compact JSON text in ASCII, piece by piece, and what can be read back from it. A printer
is unambiguous when the printed value can be told from the text that follows, as long as
that text begins with a comma or a closing brace.
-/
namespace RedactGate.Library.JsonPrint

/-! ## Strings -/

/-- The escape letter of a character that has one; the other control characters are written by their
codes. -/
def shortEscape (c : Char) : Option Char :=
  match c with
  | '"' => some '"'
  | '\\' => some '\\'
  | '\n' => some 'n'
  | '\r' => some 'r'
  | '\t' => some 't'
  | '\x0c' => some 'f'
  | '\x08' => some 'b'
  | _ => none

/-- The UTF-16 code units of a character. -/
def codeUnits (c : Char) : List Nat :=
  if c.toNat < 0x10000 then [c.toNat]
  else [0xd800 + (c.toNat - 0x10000) / 0x400, 0xdc00 + (c.toNat - 0x10000) % 0x400]

/-- Four hexadecimal digits. -/
def hex4 (n : Nat) : Text :=
  [Nat.digitChar (n / 4096), Nat.digitChar (n / 256 % 16), Nat.digitChar (n / 16 % 16),
    Nat.digitChar (n % 16)]

def escapeChar (c : Char) : Text :=
  match shortEscape c with
  | some letter => ['\\', letter]
  | none =>
    if ' ' ≤ c ∧ c ≤ '~' then [c]
    else (codeUnits c).flatMap fun unit => '\\' :: 'u' :: hex4 unit

def quoted (s : Text) : Text := '"' :: (s.flatMap escapeChar ++ ['"'])

/-! ## Reading a character back -/

def hexDigitVal (c : Char) : Nat :=
  if c.toNat < 58 then c.toNat - 48 else c.toNat - 87

def hex4Val (a b c d : Char) : Nat :=
  ((hexDigitVal a * 16 + hexDigitVal b) * 16 + hexDigitVal c) * 16 + hexDigitVal d

/-- The character that an escape letter stands for; a quote or a backslash stands for itself. -/
def unescapeLetter (letter : Char) : Char :=
  match letter with
  | 'n' => '\n'
  | 'r' => '\r'
  | 't' => '\t'
  | 'f' => '\x0c'
  | 'b' => '\x08'
  | other => other

/-- Read one character of a printed string, be it escaped or not, and return the rest; an escaped
pair of surrogates is one character. -/
def readChar : Text → Option (Char × Text)
  | '\\' :: 'u' :: a :: b :: c :: d :: rest =>
    -- a high surrogate needs the escape of the low one behind it
    if 0xd800 ≤ hex4Val a b c d ∧ hex4Val a b c d < 0xdc00 then
      match rest with
      | '\\' :: 'u' :: a' :: b' :: c' :: d' :: rest =>
        some (Char.ofNat (0x10000 + (hex4Val a b c d - 0xd800) * 0x400 +
          (hex4Val a' b' c' d' - 0xdc00)), rest)
      | _ => none
    else some (Char.ofNat (hex4Val a b c d), rest)
  | '\\' :: letter :: rest => some (unescapeLetter letter, rest)
  | c :: rest => some (c, rest)
  | [] => none

theorem hexDigitVal_digitChar {n : Nat} (small : n < 16) : hexDigitVal (Nat.digitChar n) = n := by
  have all : ∀ i : Fin 16, hexDigitVal (Nat.digitChar i) = i := by decide
  exact all ⟨n, small⟩

theorem hex4Val_hex4 {n : Nat} (small : n < 65536) :
    hex4Val (Nat.digitChar (n / 4096)) (Nat.digitChar (n / 256 % 16))
      (Nat.digitChar (n / 16 % 16)) (Nat.digitChar (n % 16)) = n := by
  rw [hex4Val, hexDigitVal_digitChar (by omega), hexDigitVal_digitChar (by omega),
    hexDigitVal_digitChar (by omega), hexDigitVal_digitChar (by omega)]
  omega

theorem readChar_units (c : Char) (rest : Text) :
    readChar ((codeUnits c).flatMap (fun unit => '\\' :: 'u' :: hex4 unit) ++ rest) =
      some (c, rest) := by
  have valid : c.toNat < 0xd800 ∨ 0xdfff < c.toNat ∧ c.toNat < 0x110000 := c.valid
  rw [codeUnits]
  split
  next small =>
    simp only [List.flatMap_cons, List.flatMap_nil, hex4, List.append_nil, List.cons_append,
      List.nil_append, readChar, hex4Val_hex4 small]
    rw [if_neg (by omega), Char.ofNat_toNat]
  next large =>
    simp only [List.flatMap_cons, List.flatMap_nil, hex4, List.append_nil, List.cons_append,
      List.nil_append, readChar]
    rw [hex4Val_hex4 (by omega), hex4Val_hex4 (by omega), if_pos (by omega)]
    have whole : 0x10000 + (0xd800 + (c.toNat - 0x10000) / 0x400 - 0xd800) * 0x400 +
        (0xdc00 + (c.toNat - 0x10000) % 0x400 - 0xdc00) = c.toNat := by omega
    rw [whole, Char.ofNat_toNat]

theorem readChar_of_ne {c : Char} (ne : c ≠ '\\') (rest : Text) :
    readChar (c :: rest) = some (c, rest) := by
  rw [readChar]
  · rintro _ _ _ _ _ rfl
    exact absurd rfl ne
  · rintro _ _ rfl
    exact absurd rfl ne

/-- A printed character is read back, whatever follows it, be it printed as it is, by an escape
letter or by its code. -/
theorem readChar_escapeChar (c : Char) (rest : Text) :
    readChar (escapeChar c ++ rest) = some (c, rest) := by
  rw [escapeChar]
  split
  next letter short =>
    unfold shortEscape at short
    split at short <;> cases short <;> rfl
  next long =>
    split
    next plain =>
      refine readChar_of_ne ?_ rest
      rintro rfl
      cases long
    next => exact readChar_units c rest

theorem escapeChar_append_inj {c c' : Char} {rest rest' : Text}
    (same : escapeChar c ++ rest = escapeChar c' ++ rest') : c = c' ∧ rest = rest' := by
  have read := readChar_escapeChar c rest
  rw [same, readChar_escapeChar, Option.some.injEq, Prod.mk.injEq] at read
  exact ⟨read.1.symm, read.2.symm⟩

/-- No printed character begins with a quotation mark. -/
theorem escapeChar_ne_quote (c : Char) (rest rest' : Text) :
    escapeChar c ++ rest ≠ '"' :: rest' := by
  intro same
  have read := readChar_escapeChar c rest
  rw [same, readChar_of_ne (by decide), Option.some.injEq, Prod.mk.injEq] at read
  obtain ⟨rfl, _⟩ := read
  cases same

/-- A printed string can be told from what follows it: the first quote that no backslash escapes
ends it, and the escapes are read back one by one. -/
theorem quoted_append_inj {s s' rest rest' : Text} (same : quoted s ++ rest = quoted s' ++ rest') :
    s = s' ∧ rest = rest' := by
  simp only [quoted, List.cons_append, List.append_assoc, List.nil_append, List.cons.injEq,
    true_and] at same
  induction s generalizing s' with
  | nil =>
    cases s' with
    | nil => exact ⟨rfl, (List.cons.inj same).2⟩
    | cons c' s' =>
      rw [List.flatMap_nil, List.nil_append, List.flatMap_cons, List.append_assoc] at same
      -- the closing quote is no escaped character, so both strings end together
      exact absurd same.symm (escapeChar_ne_quote c' _ _)
  | cons c s ih =>
    cases s' with
    | nil =>
      rw [List.flatMap_nil, List.nil_append, List.flatMap_cons, List.append_assoc] at same
      exact absurd same (escapeChar_ne_quote c _ _)
    | cons c' s' =>
      rw [List.flatMap_cons, List.flatMap_cons, List.append_assoc, List.append_assoc] at same
      obtain ⟨rfl, tail⟩ := escapeChar_append_inj same
      obtain ⟨rfl, rest_eq⟩ := ih tail
      exact ⟨rfl, rest_eq⟩

/-! ## Unambiguous printers -/

variable {α β : Type}

/-- The text goes on with a comma or a closing brace. -/
def Delimited (rest : Text) : Prop := ∃ c more, rest = c :: more ∧ (c = ',' ∨ c = '}')

structure Unambiguous (print : α → Text) : Prop where
  inj : ∀ {a b : α} {rest rest' : Text}, Delimited rest → Delimited rest' →
    print a ++ rest = print b ++ rest' → a = b ∧ rest = rest'

theorem unambiguous_quoted : Unambiguous quoted := ⟨fun _ _ same => quoted_append_inj same⟩

/-- A printer that never prints a comma or a closing brace is unambiguous if it is injective. -/
theorem unambiguous_of_injective {print : α → Text} (injective : Function.Injective print)
    (free : ∀ a, ∀ c ∈ print a, c ≠ ',' ∧ c ≠ '}') : Unambiguous print := by
  have upTo (a : α) {rest : Text} (delimited : Delimited rest) :
      (print a ++ rest).takeWhile (fun c => decide (c ≠ ',' ∧ c ≠ '}')) = print a := by
    obtain ⟨c, more, rfl, delimiter⟩ := delimited
    rw [List.takeWhile_append_of_pos fun c member => decide_eq_true (free a c member),
      List.takeWhile_cons_of_neg (by rcases delimiter with rfl | rfl <;> decide), List.append_nil]
  refine ⟨fun {a b rest rest'} delimited delimited' same => ?_⟩
  have printed : print a = print b := by rw [← upTo a delimited, same, upTo b delimited']
  rw [printed] at same
  exact ⟨injective printed, List.append_cancel_left same⟩

def printBool : Bool → Text
  | true => "true".toList
  | false => "false".toList

def decimal : Int → Text
  | .ofNat n => Nat.toDigits 10 n
  | .negSucc n => '-' :: Nat.toDigits 10 (n + 1)

def nullOr (print : α → Text) : Option α → Text
  | none => "null".toList
  | some a => print a

theorem unambiguous_printBool : Unambiguous printBool := by
  refine unambiguous_of_injective
    (fun a b same => by cases a <;> cases b <;> first | rfl | cases same) fun a => ?_
  have plain : (printBool a).all (fun c => decide (c ≠ ',' ∧ c ≠ '}')) = true := by
    cases a <;> decide
  exact fun c member => of_decide_eq_true (List.all_eq_true.mp plain c member)

theorem toDigits_injective : Function.Injective (Nat.toDigits 10) := fun m n same => by
  rw [← @Nat.ofDigitChars_ten_toDigits m, same, Nat.ofDigitChars_ten_toDigits]

theorem isDigit_of_mem_toDigits {n : Nat} {c : Char} (member : c ∈ Nat.toDigits 10 n) :
    c.isDigit = true :=
  Nat.isDigit_of_mem_toDigits (by decide) (by decide) member

theorem decimal_injective : Function.Injective decimal := by
  intro a b same
  cases a with
  | ofNat m =>
    cases b with
    | ofNat n => exact congrArg _ (toDigits_injective same)
    | negSucc n =>
      -- only a negative number has a sign
      have sign : '-' ∈ decimal (.ofNat m) := by
        rw [same]
        exact List.mem_cons_self
      exact absurd (isDigit_of_mem_toDigits sign) (by decide)
  | negSucc m =>
    cases b with
    | ofNat n =>
      have sign : '-' ∈ decimal (.ofNat n) := by
        rw [← same]
        exact List.mem_cons_self
      exact absurd (isDigit_of_mem_toDigits sign) (by decide)
    | negSucc n => rw [Nat.succ.inj (toDigits_injective (List.cons.inj same).2)]

/-- A decimal number is made of digits and a sign. -/
theorem isDigit_of_mem_decimal {n : Int} {c : Char} (member : c ∈ decimal n) :
    c = '-' ∨ c.isDigit = true := by
  cases n with
  | ofNat n => exact .inr (isDigit_of_mem_toDigits member)
  | negSucc n => exact (List.mem_cons.mp member).imp_right isDigit_of_mem_toDigits

theorem unambiguous_decimal : Unambiguous decimal := by
  refine unambiguous_of_injective decimal_injective fun n c member => ?_
  constructor <;> rintro rfl <;>
    exact absurd (isDigit_of_mem_decimal member) (by decide)

/-- A printer that is extended by `null` remains unambiguous if no value of it begins with the
letter `n`. -/
theorem Unambiguous.nullOr {print : α → Text} (unambiguous : Unambiguous print)
    (other : ∀ a, ∃ c more, print a = c :: more ∧ c ≠ 'n') : Unambiguous (nullOr print) := by
  -- no printed value begins as null does
  have apart (a : α) (rest rest' : Text) : print a ++ rest ≠ 'n' :: rest' := by
    obtain ⟨c, more, printed, ne⟩ := other a
    rw [printed]
    exact fun same => ne (List.cons.inj same).1
  refine ⟨fun {a b rest rest'} delimited delimited' same => ?_⟩
  cases a with
  | none =>
    cases b with
    | none => exact ⟨rfl, List.append_cancel_left same⟩
    | some b => exact absurd same.symm (apart b _ _)
  | some a =>
    cases b with
    | none => exact absurd same (apart a _ _)
    | some b =>
      obtain ⟨rfl, rest_eq⟩ := unambiguous.inj delimited delimited' same
      exact ⟨rfl, rest_eq⟩

theorem unambiguous_nullOr_quoted : Unambiguous (nullOr quoted) :=
  unambiguous_quoted.nullOr fun _ => ⟨'"', _, rfl, by decide⟩

theorem unambiguous_nullOr_decimal : Unambiguous (nullOr decimal) := by
  refine unambiguous_decimal.nullOr fun n => ?_
  cases digits : decimal n with
  | nil =>
    cases n with
    | ofNat n =>
      have some : Nat.toDigits 10 n ≠ [] := by
        rw [Nat.toDigits_eq_if (by decide)]
        split <;> simp
      exact absurd digits some
    | negSucc n => cases digits
  | cons c more =>
    refine ⟨c, more, rfl, ?_⟩
    rintro rfl
    have letter : 'n' ∈ decimal n := digits ▸ List.mem_cons_self
    exact absurd (isDigit_of_mem_decimal letter) (by decide)

/-! ## Objects -/

/-- The members of an object after the first one. -/
def moreMembers : List Text → Text
  | [] => ['}']
  | member :: rest => ',' :: (member ++ moreMembers rest)

def object : List Text → Text
  | [] => ['{', '}']
  | member :: rest => '{' :: (member ++ moreMembers rest)

def member (key value : Text) : Text := quoted key ++ ':' :: value

theorem delimited_moreMembers (members : List Text) (rest : Text) :
    Delimited (moreMembers members ++ rest) := by
  cases members with
  | nil => exact ⟨'}', rest, rfl, .inr rfl⟩
  | cons m members => exact ⟨',', _, rfl, .inl rfl⟩

/-- Members of two objects with a common key come apart behind the value: the values are the same,
and so is what follows them. -/
theorem Unambiguous.next {print : α → Text} (unambiguous : Unambiguous print) {key : Text}
    {a b : α} {members members' : List Text} {rest rest' : Text}
    (same : moreMembers (member key (print a) :: members) ++ rest =
      moreMembers (member key (print b) :: members') ++ rest') :
    a = b ∧ moreMembers members ++ rest = moreMembers members' ++ rest' := by
  simp only [moreMembers, member, List.cons_append, List.append_assoc, List.cons.injEq,
    true_and] at same
  exact unambiguous.inj (delimited_moreMembers members rest) (delimited_moreMembers members' rest')
    (List.cons.inj (List.append_cancel_left same)).2

/-- A non-empty object shows its members. -/
theorem moreMembers_of_object {m m' : Text} {members members' : List Text} {rest rest' : Text}
    (same : object (m :: members) ++ rest = object (m' :: members') ++ rest') :
    moreMembers (m :: members) ++ rest = moreMembers (m' :: members') ++ rest' :=
  congrArg (',' :: ·) (List.cons.inj same).2

/-- An object prints unambiguously if its values do, whatever its keys are: a comma or the closing
brace follows each member. -/
theorem unambiguous_object {print : α → Text} (unambiguous : Unambiguous print) :
    Unambiguous fun entries : List (Text × α) =>
      object (entries.map fun e => member e.1 (print e.2)) := by
  -- what follows a member tells whether there is another one: a comma or the closing brace
  have more (es : List (Text × α)) : ∀ {es' : List (Text × α)} {rest rest' : Text},
      moreMembers (es.map fun e => member e.1 (print e.2)) ++ rest =
        moreMembers (es'.map fun e => member e.1 (print e.2)) ++ rest' →
      es = es' ∧ rest = rest' := by
    induction es with
    | nil =>
      intro es' rest rest' same
      cases es' with
      | nil => exact ⟨rfl, (List.cons.inj same).2⟩
      | cons e' es' => exact absurd (List.cons.inj same).1 (by decide)
    | cons e es ih =>
      intro es' rest rest' same
      cases es' with
      | nil => exact absurd (List.cons.inj same).1 (by decide)
      | cons e' es' =>
        rw [List.map_cons, List.map_cons] at same
        have key : e.1 = e'.1 := by
          simp only [moreMembers, member, List.cons_append, List.append_assoc, List.cons.injEq,
            true_and] at same
          exact (quoted_append_inj same).1
        rw [key] at same
        obtain ⟨value, tail⟩ := unambiguous.next same
        obtain ⟨rfl, rest_eq⟩ := ih tail
        exact ⟨by rw [Prod.ext key value], rest_eq⟩
  refine ⟨fun {es es' rest rest'} _ _ same => ?_⟩
  cases es with
  | nil =>
    cases es' with
    | nil => exact ⟨rfl, List.append_cancel_left same⟩
    | cons e' es' => exact absurd (List.cons.inj (List.cons.inj same).2).1 (by decide)
  | cons e es =>
    cases es' with
    | nil => exact absurd (List.cons.inj (List.cons.inj same).2).1 (by decide)
    | cons e' es' =>
      simp only [List.map_cons] at same
      obtain ⟨entries, rest_eq⟩ := @more (e :: es) (e' :: es') _ _ (moreMembers_of_object same)
      exact ⟨entries, rest_eq⟩

end RedactGate.Library.JsonPrint
