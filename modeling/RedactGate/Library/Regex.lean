import RedactGate.Library.Text

/-!
# Backtracking regular expressions

The regular expressions of the scripting languages: ordered choice, greedy
repetition and zero-width assertions on the text around a position. The matcher
lists the lengths it can consume in the order a backtracking engine tries them,
so the first one is the match the engine reports. `Matches` says what a pattern
accepts at a position without any order; `mem_ends` connects the two.
-/
namespace RedactGate.Library

inductive Regex where
  | empty
  /-- One character of a class. -/
  | char (p : Char → Bool)
  /-- A zero-width test of the text before and after the position. -/
  | assert (p : Text → Text → Bool)
  | seq (a b : Regex)
  | alt (a b : Regex)
  /-- Greedy repetition, at least `lo` and at most `hi` rounds. -/
  | rep (a : Regex) (lo : Nat) (hi : Option Nat)

namespace Regex

def lit (c : Char) : Regex := .char (· == c)

def word : Text → Regex
  | [] => .empty
  | c :: cs => .seq (lit c) (word cs)

def opt (a : Regex) : Regex := .rep a 0 (some 1)

def star (a : Regex) : Regex := .rep a 0 none

def cat : List Regex → Regex
  | [] => .empty
  | r :: rs => .seq r (cat rs)

def oneOf : List Regex → Regex
  | [] => .char fun _ => false
  | [r] => r
  | r :: rs => .alt r (oneOf rs)

def plus (a : Regex) : Regex := .rep a 1 none

def times (a : Regex) (n : Nat) : Regex := .rep a n (some n)

/-- `\b`: a word character on exactly one side. -/
def boundary (isWord : Char → Bool) : Regex :=
  .assert fun before rest => before.getLast?.any isWord != rest.head?.any isWord

/-! ## The matcher -/

/-- Run `g` on what is left after each length that `f` consumes. -/
def andThen (f g : Text → Text → List Nat) (before rest : Text) : List Nat :=
  (f before rest).flatMap fun n =>
    (g (before ++ rest.take n) (rest.drop n)).map (n + ·)

/-- Up to `n` optional rounds, the longer runs first. A round that consumes
nothing ends the repetition. -/
def upTo (f : Text → Text → List Nat) : Nat → Text → Text → List Nat
  | 0 => fun _ _ => [0]
  | n + 1 => fun before rest =>
    andThen (fun b r => (f b r).filter (0 < ·)) (upTo f n) before rest ++ [0]

/-- `lo` required rounds, then up to `extra` optional ones. -/
def rounds (f : Text → Text → List Nat) (extra : Nat) : Nat → Text → Text → List Nat
  | 0 => upTo f extra
  | lo + 1 => andThen f (rounds f extra lo)

/-- The lengths that the pattern can consume at a position, in the order in which a backtracking
engine tries them. -/
def ends : Regex → Text → Text → List Nat
  | .empty, _, _ => [0]
  | .char p, _, rest =>
    match rest with
    | c :: _ => if p c then [1] else []
    | [] => []
  | .assert p, before, rest => if p before rest then [0] else []
  | .seq a b, before, rest => andThen a.ends b.ends before rest
  | .alt a b, before, rest => a.ends before rest ++ b.ends before rest
  | .rep a lo hi, before, rest =>
    -- no bound means as many rounds as the rest has characters
    let extra := match hi with
      | some h => h - lo
      | none => rest.length
    rounds a.ends extra lo before rest

/-! ## What a pattern accepts -/

/-- `k` consecutive rounds of `M`, each with what the rounds before it have accepted in front of it. -/
def Rounds (M : Text → Text → Text → Prop) : Nat → Text → Text → Text → Prop
  | 0, _, w, _ => w = []
  | k + 1, before, w, after =>
    ∃ u v, w = u ++ v ∧ M before u (v ++ after) ∧ Rounds M k (before ++ u) v after

/-- The pattern accepts `w` between the texts `before` and `after`, whatever a matcher would prefer:
the meaning of a pattern. -/
def Matches : Regex → Text → Text → Text → Prop
  | .empty, _, w, _ => w = []
  | .char p, _, w, _ => ∃ c, w = [c] ∧ p c = true
  | .assert p, before, w, after => w = [] ∧ p before after = true
  | .seq a b, before, w, after =>
    ∃ u v, w = u ++ v ∧ a.Matches before u (v ++ after) ∧ b.Matches (before ++ u) v after
  | .alt a b, before, w, after => a.Matches before w after ∨ b.Matches before w after
  | .rep a lo hi, before, w, after =>
    ∃ k, lo ≤ k ∧ (∀ h ∈ hi, k ≤ max lo h) ∧ Rounds a.Matches k before w after

/-- The lengths listed by `f` are those of the words that `M` accepts. -/
def Lists (f : Text → Text → List Nat) (M : Text → Text → Text → Prop) : Prop :=
  ∀ before rest n, n ∈ f before rest ↔
    ∃ w after, rest = w ++ after ∧ w.length = n ∧ M before w after

theorem mem_andThen {f g : Text → Text → List Nat} {M N : Text → Text → Text → Prop}
    (hf : Lists f M) (hg : Lists g N) (before rest : Text) (n : Nat) :
    n ∈ andThen f g before rest ↔ ∃ u v after, rest = u ++ (v ++ after) ∧
      u.length + v.length = n ∧ M before u (v ++ after) ∧ N (before ++ u) v after := by
  simp only [andThen, List.mem_flatMap, List.mem_map]
  constructor
  · rintro ⟨m, hm, k, hk, rfl⟩
    obtain ⟨u, tail, rfl, rfl, accepts⟩ := (hf _ _ _).mp hm
    simp only [List.take_left, List.drop_left] at hk
    obtain ⟨v, after, rfl, rfl, accepts'⟩ := (hg _ _ _).mp hk
    exact ⟨u, v, after, rfl, rfl, accepts, accepts'⟩
  · rintro ⟨u, v, after, rfl, rfl, accepts, accepts'⟩
    refine ⟨u.length, (hf _ _ _).mpr ⟨u, v ++ after, rfl, rfl, accepts⟩, v.length, ?_, rfl⟩
    simp only [List.take_left, List.drop_left]
    exact (hg _ _ _).mpr ⟨v, after, rfl, rfl, accepts'⟩

/-- Two matchers that list what their patterns accept do so one behind the other, each with the
surroundings that the other one leaves it. -/
theorem andThen_lists {f g : Text → Text → List Nat} {M N : Text → Text → Text → Prop}
    (hf : Lists f M) (hg : Lists g N) :
    Lists (andThen f g) fun before w after =>
      ∃ u v, w = u ++ v ∧ M before u (v ++ after) ∧ N (before ++ u) v after := by
  intro before rest n
  rw [mem_andThen hf hg]
  constructor
  · rintro ⟨u, v, after, rfl, rfl, accepts, accepts'⟩
    exact ⟨u ++ v, after, by simp, by simp, u, v, rfl, accepts, accepts'⟩
  · rintro ⟨w, after, rfl, rfl, u, v, rfl, accepts, accepts'⟩
    exact ⟨u, v, after, by simp, by simp, accepts, accepts'⟩

theorem filter_pos_lists {f : Text → Text → List Nat} {M : Text → Text → Text → Prop}
    (hf : Lists f M) :
    Lists (fun b r => (f b r).filter (0 < ·)) fun before w after => M before w after ∧ w ≠ [] := by
  intro before rest n
  simp only [List.mem_filter, hf before rest n, decide_eq_true_eq]
  constructor
  · rintro ⟨⟨w, after, rfl, rfl, accepts⟩, pos⟩
    exact ⟨w, after, rfl, rfl, accepts, List.length_pos_iff.mp pos⟩
  · rintro ⟨w, after, rfl, rfl, accepts, nonempty⟩
    exact ⟨⟨w, after, rfl, rfl, accepts⟩, List.length_pos_iff.mpr nonempty⟩

/-- Rounds that consume nothing can be left out of a run, and the others accept the same word. -/
theorem Rounds.trim {M : Text → Text → Text → Prop} {k : Nat} {before w after : Text}
    (h : Rounds M k before w after) :
    ∃ k' ≤ k, Rounds (fun b u a => M b u a ∧ u ≠ []) k' before w after := by
  induction k generalizing before w with
  | zero => exact ⟨0, Nat.le_refl _, h⟩
  | succ k ih =>
    obtain ⟨u, v, rfl, accepts, rest⟩ := h
    obtain ⟨k', le, trimmed⟩ := ih rest
    by_cases nothing : u = []
    · subst nothing
      rw [List.append_nil] at trimmed
      exact ⟨k', by omega, trimmed⟩
    · exact ⟨k' + 1, by omega, u, v, rfl, ⟨accepts, nothing⟩, trimmed⟩

theorem Rounds.mono {M N : Text → Text → Text → Prop} (sub : ∀ b u a, M b u a → N b u a)
    {k : Nat} {before w after : Text} (h : Rounds M k before w after) :
    Rounds N k before w after := by
  induction k generalizing before w with
  | zero => exact h
  | succ k ih =>
    obtain ⟨u, v, rfl, accepts, rest⟩ := h
    exact ⟨u, v, rfl, sub _ _ _ accepts, ih rest⟩

/-- A run of rounds that each consume a character has at most as many rounds as characters. -/
theorem Rounds.le_length {M : Text → Text → Text → Prop} {k : Nat} {before w after : Text}
    (h : Rounds (fun b u a => M b u a ∧ u ≠ []) k before w after) : k ≤ w.length := by
  induction k generalizing before w with
  | zero => exact Nat.zero_le _
  | succ k ih =>
    obtain ⟨u, v, rfl, ⟨_, nonempty⟩, rest⟩ := h
    have tail := ih rest
    have head := List.length_pos_iff.mpr nonempty
    rw [List.length_append]
    omega

theorem upTo_lists {f : Text → Text → List Nat} {M : Text → Text → Text → Prop}
    (hf : Lists f M) (n : Nat) :
    Lists (upTo f n) fun before w after =>
      ∃ k ≤ n, Rounds (fun b u a => M b u a ∧ u ≠ []) k before w after := by
  -- on the most rounds; a round that takes nothing is left out, as it would be the last one for
  -- ever
  induction n with
  | zero =>
    intro before rest m
    simp only [upTo, List.mem_singleton]
    constructor
    · rintro rfl
      exact ⟨[], rest, rfl, rfl, 0, Nat.le_refl _, rfl⟩
    · rintro ⟨w, after, rfl, rfl, k, le, run⟩
      obtain rfl := Nat.le_zero.mp le
      simp [show w = [] from run]
  | succ n ih =>
    intro before rest m
    have step := andThen_lists (filter_pos_lists hf) ih before rest m
    simp only [upTo, List.mem_append, List.mem_singleton]
    rw [step]
    constructor
    · rintro (⟨w, after, rfl, rfl, u, v, rfl, accepts, k, le, run⟩ | rfl)
      · exact ⟨u ++ v, after, rfl, rfl, k + 1, by omega, u, v, rfl, accepts, run⟩
      · exact ⟨[], rest, rfl, rfl, 0, Nat.zero_le _, rfl⟩
    · rintro ⟨w, after, rfl, rfl, k, le, run⟩
      cases k with
      | zero => exact .inr (by simp [show w = [] from run])
      | succ k =>
        obtain ⟨u, v, rfl, accepts, tail⟩ := run
        exact .inl ⟨u ++ v, after, rfl, rfl, u, v, rfl, accepts, k, by omega, tail⟩

theorem rounds_lists {f : Text → Text → List Nat} {M : Text → Text → Text → Prop}
    (hf : Lists f M) (extra lo : Nat) :
    Lists (rounds f extra lo) fun before w after => ∃ k, lo ≤ k ∧ ∃ u v, w = u ++ v ∧
      Rounds M lo before u (v ++ after) ∧ k - lo ≤ extra ∧
      Rounds (fun b u a => M b u a ∧ u ≠ []) (k - lo) (before ++ u) v after := by
  -- first the rounds that are asked for, which may be empty, and then those that are allowed
  induction lo with
  | zero =>
    intro before rest n
    rw [rounds, upTo_lists hf]
    constructor
    · rintro ⟨w, after, rfl, rfl, k, le, run⟩
      exact ⟨w, after, rfl, rfl, k, Nat.zero_le _, [], w, rfl, rfl, le, by simpa using run⟩
    · rintro ⟨w, after, rfl, rfl, k, _, u, v, rfl, nothing, le, run⟩
      obtain rfl : u = [] := nothing
      exact ⟨v, after, rfl, rfl, k, le, by simpa using run⟩
  | succ lo ih =>
    intro before rest n
    rw [rounds, andThen_lists hf ih]
    constructor
    · rintro ⟨w, after, rfl, rfl, u, v, rfl, accepts, k, le, x, y, rfl, run, few, tail⟩
      refine ⟨u ++ (x ++ y), after, rfl, rfl, k + 1, by omega, u ++ x, y, by simp, ?_, by omega, ?_⟩
      · exact ⟨u, x, rfl, by simpa using accepts, run⟩
      · have count : k + 1 - (lo + 1) = k - lo := by omega
        simpa [count] using tail
    · rintro ⟨w, after, rfl, rfl, k, le, ux, y, rfl, ⟨u, x, rfl, accepts, run⟩, few, tail⟩
      refine ⟨u ++ x ++ y, after, rfl, rfl, u, x ++ y, by simp, by simpa using accepts, k - 1,
        by omega, x, y, rfl, run, by omega, ?_⟩
      have count : k - 1 - lo = k - (lo + 1) := by omega
      simpa [count] using tail

theorem Rounds.append {M : Text → Text → Text → Prop} {j k : Nat} {before u v after : Text}
    (first : Rounds M j before u (v ++ after)) (second : Rounds M k (before ++ u) v after) :
    Rounds M (j + k) before (u ++ v) after := by
  induction j generalizing before u with
  | zero =>
    obtain rfl : u = [] := first
    simpa using second
  | succ j ih =>
    obtain ⟨x, y, rfl, accepts, rest⟩ := first
    have joined := ih rest (by simpa using second)
    have count : j + 1 + k = j + k + 1 := by omega
    rw [count]
    exact ⟨x, y ++ v, by simp, by simpa using accepts, joined⟩

/-- A run of rounds is split behind any of them: the first rounds accept a front part, and the
others the rest. -/
theorem Rounds.split {M : Text → Text → Text → Prop} {j k : Nat} {before w after : Text}
    (run : Rounds M (j + k) before w after) :
    ∃ u v, w = u ++ v ∧ Rounds M j before u (v ++ after) ∧ Rounds M k (before ++ u) v after := by
  induction j generalizing before w with
  | zero => exact ⟨[], w, rfl, rfl, by simpa using run⟩
  | succ j ih =>
    rw [show j + 1 + k = j + k + 1 by omega] at run
    obtain ⟨x, y, rfl, accepts, rest⟩ := run
    obtain ⟨u, v, rfl, first, second⟩ := ih rest
    exact ⟨x ++ u, v, by simp, ⟨x, u, rfl, by simpa using accepts, first⟩, by simpa using second⟩

/-- The matcher lists the end of every stretch that the pattern accepts at a place, and of no other:
by induction on the pattern, one case for each constructor. -/
theorem ends_lists (r : Regex) : Lists r.ends r.Matches := by
  -- on the expression: what the matcher lists is what the expression matches
  induction r with
  | empty =>
    intro before rest n
    simp only [ends, Matches, List.mem_singleton]
    constructor
    · rintro rfl
      exact ⟨[], rest, rfl, rfl, rfl⟩
    · rintro ⟨_, _, _, rfl, rfl⟩
      rfl
  | char p =>
    intro before rest n
    cases rest with
    | nil =>
      simp only [ends, List.not_mem_nil, false_iff]
      rintro ⟨_, _, eq, _, c, rfl, _⟩
      simp at eq
    | cons d rest =>
      by_cases accepted : p d = true
      · simp only [ends, accepted, if_true, List.mem_singleton]
        constructor
        · rintro rfl
          exact ⟨[d], rest, rfl, rfl, d, rfl, accepted⟩
        · rintro ⟨_, _, _, rfl, _, rfl, _⟩
          rfl
      · simp only [ends, accepted, Bool.false_eq_true, if_false, List.not_mem_nil, false_iff]
        rintro ⟨_, after, eq, _, c, rfl, accepted'⟩
        obtain ⟨rfl, rfl⟩ := List.cons.inj eq
        exact accepted accepted'
  | assert p =>
    intro before rest n
    simp only [ends, Matches]
    constructor
    · intro h
      split at h
      next holds => exact ⟨[], rest, rfl, (List.mem_singleton.mp h).symm, rfl, holds⟩
      next => simp at h
    · rintro ⟨_, after, eq, rfl, rfl, holds⟩
      obtain rfl : rest = after := eq
      simp [holds]
  | seq a b iha ihb => exact andThen_lists iha ihb
  | alt a b iha ihb =>
    intro before rest n
    simp only [ends, Matches, List.mem_append, iha before rest n, ihb before rest n]
    constructor
    · rintro (⟨w, after, eq, len, accepts⟩ | ⟨w, after, eq, len, accepts⟩)
      · exact ⟨w, after, eq, len, .inl accepts⟩
      · exact ⟨w, after, eq, len, .inr accepts⟩
    · rintro ⟨w, after, eq, len, accepts | accepts⟩
      · exact .inl ⟨w, after, eq, len, accepts⟩
      · exact .inr ⟨w, after, eq, len, accepts⟩
  | rep a lo hi ih =>
    intro before rest n
    simp only [ends, Matches]
    rw [rounds_lists ih]
    constructor
    · rintro ⟨w, after, rfl, rfl, k, le, u, v, rfl, first, few, second⟩
      refine ⟨u ++ v, after, rfl, rfl, k, le, ?_, ?_⟩
      · intro h hh
        cases hh
        simp only at few
        omega
      · have joined := first.append (second.mono fun _ _ _ h => h.1)
        rwa [Nat.add_sub_cancel' le] at joined
    · rintro ⟨w, after, rfl, rfl, k, le, most, run⟩
      rw [← Nat.add_sub_cancel' le] at run
      obtain ⟨u, v, rfl, first, second⟩ := run.split
      -- rounds that take nothing are dropped, so the length of the text bounds the others
      obtain ⟨k', fewer, trimmed⟩ := second.trim
      refine ⟨u ++ v, after, rfl, rfl, lo + k', by omega, u, v, rfl, first, ?_, ?_⟩
      · rw [Nat.add_sub_cancel_left]
        cases hi with
        | some h =>
          have bound := most h rfl
          simp only
          omega
        | none =>
          have short := trimmed.le_length
          simp only [List.length_append]
          omega
      · rwa [Nat.add_sub_cancel_left]

theorem mem_ends (r : Regex) (before rest : Text) (n : Nat) :
    n ∈ r.ends before rest ↔ ∃ w after, rest = w ++ after ∧ w.length = n ∧
      r.Matches before w after :=
  ends_lists r before rest n

/-- A text that the matcher can consume as a whole is accepted by the pattern, with nothing beside
it. -/
theorem matches_of_mem_ends {r : Regex} {s : Text} (whole : s.length ∈ r.ends [] s) :
    r.Matches [] s [] := by
  obtain ⟨w, after, split, len, accepts⟩ := (mem_ends r [] s s.length).mp whole
  have none : after = [] := by
    have lengths := congrArg List.length split
    rw [List.length_append, len] at lengths
    exact List.length_eq_zero_iff.mp (by omega)
  subst none
  rw [List.append_nil] at split
  exact split ▸ accepts

/-- Rounds of a character class accept exactly the words with as many characters of that class as
there are rounds. -/
theorem rounds_char {p : Char → Bool} {k : Nat} {before w after : Text} :
    Rounds (Regex.char p).Matches k before w after ↔ w.length = k ∧ ∀ c ∈ w, p c = true := by
  -- one character a round
  induction k generalizing before w with
  | zero =>
    constructor
    · intro nothing
      obtain rfl : w = [] := nothing
      simp
    · rintro ⟨len, _⟩
      exact List.length_eq_zero_iff.mp len
  | succ k ih =>
    constructor
    · rintro ⟨_, v, rfl, ⟨c, rfl, accepted⟩, rest⟩
      obtain ⟨rfl, all⟩ := ih.mp rest
      simpa using ⟨accepted, all⟩
    · rintro ⟨len, all⟩
      cases w with
      | nil => simp at len
      | cons c v =>
        exact ⟨[c], v, rfl, ⟨c, rfl, all c (by simp)⟩,
          ih.mpr ⟨by simpa using len, fun d hd => all d (List.mem_cons_of_mem _ hd)⟩⟩

theorem matches_rep_char {p : Char → Bool} {lo : Nat} {hi : Option Nat} {before w after : Text} :
    (Regex.rep (.char p) lo hi).Matches before w after ↔
      lo ≤ w.length ∧ (∀ h ∈ hi, w.length ≤ max lo h) ∧ ∀ c ∈ w, p c = true := by
  constructor
  · rintro ⟨k, le, most, run⟩
    obtain ⟨rfl, all⟩ := rounds_char.mp run
    exact ⟨le, most, all⟩
  · rintro ⟨le, most, all⟩
    exact ⟨w.length, le, most, rounds_char.mpr ⟨rfl, all⟩⟩

theorem matches_times_char {p : Char → Bool} {n : Nat} {before w after : Text} :
    (times (.char p) n).Matches before w after ↔ w.length = n ∧ ∀ c ∈ w, p c = true := by
  rw [times, matches_rep_char]
  constructor
  · rintro ⟨least, most, all⟩
    have few : w.length ≤ max n n := most n rfl
    exact ⟨by omega, all⟩
  · rintro ⟨rfl, all⟩
    refine ⟨Nat.le_refl _, ?_, all⟩
    intro h bound
    cases bound
    exact Nat.le_max_left _ _

theorem matches_cat_nil {before w after : Text} : (cat []).Matches before w after ↔ w = [] :=
  Iff.rfl

theorem matches_cat_cons {r : Regex} {rs : List Regex} {before w after : Text} :
    (cat (r :: rs)).Matches before w after ↔ ∃ u v, w = u ++ v ∧
      r.Matches before u (v ++ after) ∧ (cat rs).Matches (before ++ u) v after :=
  Iff.rfl

theorem matches_cat_append {rs ss : List Regex} {before w after : Text} :
    (cat (rs ++ ss)).Matches before w after ↔ ∃ u v, w = u ++ v ∧
      (cat rs).Matches before u (v ++ after) ∧ (cat ss).Matches (before ++ u) v after := by
  induction rs generalizing before w with
  | nil => simp [matches_cat_nil]
  | cons r rs ih =>
    simp only [List.cons_append, matches_cat_cons, ih]
    constructor
    · rintro ⟨u, _, rfl, first, x, v, rfl, middle, last⟩
      exact ⟨u ++ x, v, by simp, ⟨u, x, rfl, by simpa using first, middle⟩, by simpa using last⟩
    · rintro ⟨_, v, rfl, ⟨u, x, rfl, first, middle⟩, last⟩
      exact ⟨u, x ++ v, by simp, by simpa using first, x, v, rfl, middle, by simpa using last⟩

theorem matches_char {p : Char → Bool} {before w after : Text} :
    (Regex.char p).Matches before w after ↔ ∃ c, w = [c] ∧ p c = true :=
  Iff.rfl

theorem matches_assert {p : Text → Text → Bool} {before w after : Text} :
    (Regex.assert p).Matches before w after ↔ w = [] ∧ p before after = true :=
  Iff.rfl

/-- Before a word character, a boundary tells that the text before ends outside a word. -/
theorem not_word_before {isWord : Char → Bool} {before w after : Text} {c : Char} {rest : Text}
    (accepts : (boundary isWord).Matches before w after) (next : after = c :: rest)
    (word : isWord c = true) : before.getLast?.any isWord = false := by
  obtain ⟨_, differ⟩ := accepts
  subst next
  simpa [word] using differ

/-- After a word character, a boundary tells that the text goes on outside a word. -/
theorem not_word_after {isWord : Char → Bool} {before w after : Text}
    (accepts : (boundary isWord).Matches before w after)
    (word : before.getLast?.any isWord = true) : after.head?.any isWord = false := by
  obtain ⟨_, differ⟩ := accepts
  simpa [word] using differ

theorem matches_star_char {p : Char → Bool} {before w after : Text} :
    (star (.char p)).Matches before w after ↔ ∀ c ∈ w, p c = true := by
  simp [star, matches_rep_char]

/-- An optional part accepts what the part accepts, and the empty word. -/
theorem matches_opt {a : Regex} {before w after : Text} :
    (opt a).Matches before w after ↔ w = [] ∨ a.Matches before w after := by
  constructor
  · rintro ⟨k, _, most, run⟩
    have few : k ≤ 1 := by simpa using most 1 rfl
    match k, run with
    | 0, nothing => exact .inl nothing
    | 1, ⟨u, v, eq, accepts, nothing⟩ =>
      obtain rfl : v = [] := nothing
      obtain rfl : w = u := by simpa using eq
      exact .inr (by simpa using accepts)
  · rintro (rfl | accepts)
    · exact ⟨0, Nat.le_refl _, by simp, rfl⟩
    · exact ⟨1, Nat.zero_le _, by simp, w, [], by simp, by simpa using accepts, rfl⟩

/-- A choice between patterns accepts exactly what one of them accepts. -/
theorem matches_oneOf {rs : List Regex} {before w after : Text} :
    (oneOf rs).Matches before w after ↔ ∃ r ∈ rs, r.Matches before w after := by
  induction rs with
  | nil => simp [oneOf, Matches]
  | cons r rs ih =>
    cases rs with
    | nil => simp [oneOf]
    | cons r' rs =>
      rw [List.exists_mem_cons_iff, ← ih]
      rfl

@[simp] theorem matches_lit {c : Char} {before w after : Text} :
    (lit c).Matches before w after ↔ w = [c] := by
  simp only [lit, Matches, beq_iff_eq]
  constructor
  · rintro ⟨d, rfl, rfl⟩; rfl
  · rintro rfl; exact ⟨c, rfl, rfl⟩

@[simp] theorem matches_word {s : Text} {before w after : Text} :
    (word s).Matches before w after ↔ w = s := by
  induction s generalizing before w with
  | nil => rfl
  | cons c s ih =>
    simp only [word, Matches, matches_lit, ih]
    constructor
    · rintro ⟨_, _, rfl, rfl, rfl⟩; rfl
    · rintro rfl; exact ⟨[c], s, rfl, rfl, rfl⟩

/-! ## Patterns that consume something -/

/-- Every match of the pattern has at least one character, as can be told from its parts. -/
def consumes : Regex → Bool
  | .empty => false
  | .char _ => true
  | .assert _ => false
  | .seq a b => a.consumes || b.consumes
  | .alt a b => a.consumes && b.consumes
  | .rep a lo _ => decide (0 < lo) && a.consumes

theorem ne_nil_of_consumes {r : Regex} (consumes : r.consumes = true) {before w after : Text}
    (accepts : r.Matches before w after) : w ≠ [] := by
  induction r generalizing before w after with
  | empty => cases consumes
  | char p =>
    obtain ⟨c, rfl, _⟩ := accepts
    simp
  | assert p => cases consumes
  | seq a b iha ihb =>
    obtain ⟨u, v, rfl, first, second⟩ := accepts
    rw [Regex.consumes, Bool.or_eq_true] at consumes
    rcases consumes with left | right
    · simp [iha left first]
    · simp [ihb right second]
  | alt a b iha ihb =>
    rw [Regex.consumes, Bool.and_eq_true] at consumes
    rcases accepts with first | second
    · exact iha consumes.1 first
    · exact ihb consumes.2 second
  | rep a lo hi ih =>
    obtain ⟨k, least, _, run⟩ := accepts
    rw [Regex.consumes, Bool.and_eq_true, decide_eq_true_eq] at consumes
    -- the first of the rounds already consumes a character
    obtain ⟨k, rfl⟩ : ∃ m, k = m + 1 := ⟨k - 1, by omega⟩
    obtain ⟨u, v, rfl, first, _⟩ := run
    simp [ih consumes.2 first]

/-! ## Patterns that differ in their classes -/

/-- The same pattern but for the character classes, which agree on the characters of `P`; assertions
are the same. -/
inductive AgreeOn (P : Char → Prop) : Regex → Regex → Prop
  | empty : AgreeOn P .empty .empty
  | char {p q : Char → Bool} (same : ∀ c, P c → p c = q c) : AgreeOn P (.char p) (.char q)
  | assert (p : Text → Text → Bool) : AgreeOn P (.assert p) (.assert p)
  | seq {a b a' b' : Regex} (first : AgreeOn P a a') (second : AgreeOn P b b') :
    AgreeOn P (.seq a b) (.seq a' b')
  | alt {a b a' b' : Regex} (first : AgreeOn P a a') (second : AgreeOn P b b') :
    AgreeOn P (.alt a b) (.alt a' b')
  | rep {a a' : Regex} (rounds : AgreeOn P a a') (lo : Nat) (hi : Option Nat) :
    AgreeOn P (.rep a lo hi) (.rep a' lo hi)

theorem Rounds.imp_of_mem {P : Char → Prop} {M N : Text → Text → Text → Prop}
    (sub : ∀ b u a, (∀ c ∈ u, P c) → M b u a → N b u a) {k : Nat} {before w after : Text}
    (all : ∀ c ∈ w, P c) (run : Rounds M k before w after) : Rounds N k before w after := by
  induction k generalizing before w with
  | zero => exact run
  | succ k ih =>
    obtain ⟨u, v, rfl, accepts, rest⟩ := run
    obtain ⟨here, later⟩ := List.forall_mem_append.mp all
    exact ⟨u, v, rfl, sub _ _ _ here accepts, ih later rest⟩

/-- Two patterns that agree on some characters accept the same words of these characters, whatever
stands beside them. -/
theorem AgreeOn.matches_iff {P : Char → Prop} {a b : Regex} (agree : AgreeOn P a b)
    {before w after : Text} (all : ∀ c ∈ w, P c) :
    a.Matches before w after ↔ b.Matches before w after := by
  -- the patterns differ only on characters that the word has not
  induction agree generalizing before w after with
  | empty => rfl
  | char same =>
    refine exists_congr fun c => and_congr_right fun single => ?_
    rw [same c (all c (single ▸ List.mem_singleton_self c))]
  | assert p => rfl
  | seq _ _ first second =>
    refine exists_congr fun u => exists_congr fun v => and_congr_right fun split => ?_
    rw [split, List.forall_mem_append] at all
    exact and_congr (first all.1) (second all.2)
  | alt _ _ first second => exact or_congr (first all) (second all)
  | rep _ lo hi ih =>
    refine exists_congr fun k => and_congr_right fun _ => and_congr_right fun _ => ?_
    exact ⟨Rounds.imp_of_mem (fun _ _ _ here => (ih here).mp) all,
      Rounds.imp_of_mem (fun _ _ _ here => (ih here).mpr) all⟩

/-- The matcher finds something for both of two patterns that agree on the characters of a text, or
for none of them. -/
theorem AgreeOn.isEmpty_ends {P : Char → Prop} {a b : Regex} (agree : AgreeOn P a b)
    (before : Text) {rest : Text} (all : ∀ c ∈ rest, P c) :
    (a.ends before rest).isEmpty = (b.ends before rest).isEmpty := by
  have same (n : Nat) : n ∈ a.ends before rest ↔ n ∈ b.ends before rest := by
    rw [mem_ends, mem_ends]
    refine exists_congr fun w => exists_congr fun after => and_congr_right fun split => ?_
    rw [split, List.forall_mem_append] at all
    exact and_congr_right fun _ => agree.matches_iff all.1
  rw [Bool.eq_iff_iff, List.isEmpty_iff, List.isEmpty_iff, List.eq_nil_iff_forall_not_mem,
    List.eq_nil_iff_forall_not_mem]
  exact forall_congr' fun n => not_congr (same n)

theorem AgreeOn.cat {P : Char → Prop} {rs rs' : List Regex} (all : List.Forall₂ (AgreeOn P) rs rs') :
    AgreeOn P (cat rs) (cat rs') := by
  induction all with
  | nil => exact .empty
  | cons here _ ih => exact .seq here ih

theorem AgreeOn.oneOf {P : Char → Prop} {rs rs' : List Regex}
    (all : List.Forall₂ (AgreeOn P) rs rs') : AgreeOn P (oneOf rs) (oneOf rs') := by
  induction all with
  | nil => exact .char fun _ _ => rfl
  | cons here later ih =>
    cases later with
    | nil => exact here
    | cons => exact .alt here ih

end Regex

end RedactGate.Library
