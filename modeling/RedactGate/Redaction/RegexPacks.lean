import RedactGate.Redaction.Validators
import RedactGate.Schemas.Entities
import Mathlib.Algebra.Order.Ring.Rat

/-!
# Jurisdiction packs

A pack is a list of patterns, each with an optional validator. `Pack.detect` runs every
pattern over the text from left to right and reports the matches that pass.
-/
namespace RedactGate

open Library

/-- A compiled expression; `valued` has a named group `value` between two other parts. -/
inductive Expression where
  | plain (r : Regex)
  | valued (cue value tail : Regex)

namespace Expression

def regex : Expression → Regex
  | plain r => r
  | valued cue value tail => .seq cue (.seq value tail)

/-- `m.span("value")` for the match at `start`: of all ways to match there, the first in
the order in which the engine tries them. -/
def valueSpan (text : Text) (start : Nat) : Expression → Option (Nat × Nat)
  | plain _ => none
  | valued cue value tail =>
    ((cue.ends (text.take start) (text.drop start)).flatMap fun n =>
      ((value.ends (text.take (start + n)) (text.drop (start + n))).filter fun m =>
        !(tail.ends (text.take (start + n + m)) (text.drop (start + n + m))).isEmpty).map fun m =>
          (start + n, start + n + m)).head?

/-- What is redacted and validated of a match: the group `value`, else all of it. -/
def identifier (e : Expression) (text : Text) (m : Nat × Nat) : Nat × Nat :=
  (e.valueSpan text m.1).getD m

@[simp] theorem identifier_plain (r : Regex) (text : Text) (m : Nat × Nat) :
    (plain r).identifier text m = m := rfl

end Expression

structure CompiledPattern where
  entityType : Text
  regex : Expression
  validator : Option Validator

namespace CompiledPattern

/-- `pat.validator is None or pat.validator(value)`, with what the validator may raise. -/
def accepts (pat : CompiledPattern) (value : Text) : Except ValueError Bool :=
  match pat.validator with
  | none => .ok true
  | some validator => validator value

/-- The parts of the matches of the pattern that the validator is asked about, in order. -/
def candidates (pat : CompiledPattern) (text : Text) : List (Nat × Nat) :=
  (pat.regex.regex.finditer text).map (pat.regex.identifier text)

end CompiledPattern

structure Pack where
  code : Text
  patterns : List CompiledPattern

/-- The score of every regex span, 0.95. -/
def regexScore : ℚ := 19 / 20

namespace Pack

variable (pack : Pack)

def span (pat : CompiledPattern) (text : Text) (m : Nat × Nat) : EntitySpan ℚ :=
  ⟨m.1, m.2, pat.entityType, text.slice m.1 m.2, regexScore, .regex, some pack.code⟩

/-- The inner loop of `detect`, over the matches of one pattern: a validator that raises ends the
whole detection. -/
def detectMatches (pat : CompiledPattern) (text : Text) :
    List (Nat × Nat) → Except ValueError (List (EntitySpan ℚ))
  | [] => .ok []
  | m :: ms => do
    let accepted ← pat.accepts (text.slice m.1 m.2)
    let spans ← detectMatches pat text ms
    return if accepted then pack.span pat text m :: spans else spans

/-- The outer loop of `detect`, over the patterns of the pack, each of which goes through the whole
text. -/
def detectPatterns (text : Text) :
    List CompiledPattern → Except ValueError (List (EntitySpan ℚ))
  | [] => .ok []
  | pat :: pats => do
    let spans ← pack.detectMatches pat text (pat.candidates text)
    let others ← detectPatterns text pats
    return spans ++ others

def detect (text : Text) : Except ValueError (List (EntitySpan ℚ)) :=
  pack.detectPatterns text pack.patterns

variable {pack}

/-- The spans that one pattern gives are its candidates that the validator accepts, each with the
type and the score of the pattern. -/
theorem mem_detectMatches {pat : CompiledPattern} {text : Text} {ms : List (Nat × Nat)}
    {spans : List (EntitySpan ℚ)} (ok : pack.detectMatches pat text ms = .ok spans)
    (s : EntitySpan ℚ) :
    s ∈ spans ↔
      ∃ m ∈ ms, pat.accepts (text.slice m.1 m.2) = .ok true ∧ s = pack.span pat text m := by
  induction ms generalizing spans with
  | nil =>
    cases ok
    simp
  | cons m ms ih =>
    rw [detectMatches] at ok
    -- a validator that raises ends the scan, and `ok` excludes that
    cases verdict : pat.accepts (text.slice m.1 m.2) with
    | error e => simp [verdict, bind, Except.bind] at ok
    | ok accepted =>
      cases later : pack.detectMatches pat text ms with
      | error e => simp [verdict, later, bind, Except.bind] at ok
      | ok rest =>
        simp only [verdict, later, bind, Except.bind, pure, Except.pure] at ok
        have here := ih later
        cases accepted with
        | true =>
          cases ok
          simp [here, verdict]
        | false =>
          cases ok
          simp [here, verdict]

/-- If no validator raises, then a pack reports the candidates of its patterns that their validators
accept, and nothing else. -/
theorem mem_detectPatterns {text : Text} {pats : List CompiledPattern}
    {spans : List (EntitySpan ℚ)} (ok : pack.detectPatterns text pats = .ok spans)
    (s : EntitySpan ℚ) :
    s ∈ spans ↔ ∃ pat ∈ pats, ∃ m ∈ pat.candidates text,
      pat.accepts (text.slice m.1 m.2) = .ok true ∧ s = pack.span pat text m := by
  induction pats generalizing spans with
  | nil =>
    cases ok
    simp
  | cons pat pats ih =>
    rw [detectPatterns] at ok
    cases first : pack.detectMatches pat text (pat.candidates text) with
    | error e => simp [first, bind, Except.bind] at ok
    | ok mine =>
      cases later : pack.detectPatterns text pats with
      | error e => simp [first, later, bind, Except.bind] at ok
      | ok others =>
        simp only [first, later, bind, Except.bind, pure, Except.pure] at ok
        cases ok
        simp only [List.mem_append, mem_detectMatches first, ih later, List.mem_cons,
          exists_eq_or_imp]

/-- Detection fails only where a validator raises: if none does on what its own pattern matches,
then the pack reports its spans. -/
theorem detect_ok {text : Text}
    (calm : ∀ pat ∈ pack.patterns, ∀ m ∈ pat.candidates text,
      ∃ accepted, pat.accepts (text.slice m.1 m.2) = .ok accepted) :
    ∃ spans, pack.detect text = .ok spans := by
  have matched (pat : CompiledPattern) (ms : List (Nat × Nat))
      (calm : ∀ m ∈ ms, ∃ accepted, pat.accepts (text.slice m.1 m.2) = .ok accepted) :
      ∃ spans, pack.detectMatches pat text ms = .ok spans := by
    induction ms with
    | nil => exact ⟨[], rfl⟩
    | cons m ms ih =>
      obtain ⟨accepted, verdict⟩ := calm m List.mem_cons_self
      obtain ⟨rest, later⟩ := ih fun m' member => calm m' (List.mem_cons_of_mem _ member)
      simp [detectMatches, verdict, later, bind, Except.bind, pure, Except.pure]
  rw [detect]
  generalize pack.patterns = pats at calm
  induction pats with
  | nil => exact ⟨[], rfl⟩
  | cons pat pats ih =>
    obtain ⟨mine, first⟩ := matched pat _ (calm pat List.mem_cons_self)
    obtain ⟨others, later⟩ := ih fun p member => calm p (List.mem_cons_of_mem _ member)
    simp [detectPatterns, first, later, bind, Except.bind, pure, Except.pure]

end Pack

end RedactGate
