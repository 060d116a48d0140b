import RedactGate.Library.Regex
import Mathlib.Order.Monotone.Basic
import Mathlib.Logic.Function.Iterate

/-!
# Leftmost scanning and substitution

A scan tries every position from left to right, reports the match found there
and goes on after it. Whatever a scan skips is covered by a match it reports.

For tokens that never overlap one another the scan finds every token, and
substituting tokens is a homomorphism at every cut that no token straddles. This
is what lets a text be rewritten piece by piece.
-/
namespace RedactGate.Library

/-- The scan of `fuel` positions from `i` on, where `f i` is the end of a match at `i`: it goes on
behind a match, and behind its first character if it is empty. -/
def scan (f : Nat → Option Nat) : Nat → Nat → List (Nat × Nat)
  | 0, _ => []
  | fuel + 1, i =>
    match f i with
    | some j => (i, j) :: scan f fuel (max j (i + 1))
    | none => scan f fuel (i + 1)

theorem mem_scan {f : Nat → Option Nat} {fuel i : Nat} {m : Nat × Nat}
    (member : m ∈ scan f fuel i) : i ≤ m.1 ∧ f m.1 = some m.2 := by
  induction fuel generalizing i with
  | zero => simp [scan] at member
  | succ fuel ih =>
    rw [scan] at member
    split at member
    next j found =>
      rcases List.mem_cons.mp member with rfl | later
      · exact ⟨Nat.le_refl _, found⟩
      · have step := ih later
        exact ⟨by omega, step.2⟩
    next =>
      have step := ih member
      exact ⟨by omega, step.2⟩

/-- Every position within the fuel where a match starts is covered by a reported match: it is
reported itself, or an earlier one reaches over it. -/
theorem scan_covers {f : Nat → Option Nat} {fuel i p : Nat} (from_i : i ≤ p)
    (within : p < i + fuel) (starts : (f p).isSome) :
    ∃ m ∈ scan f fuel i, m.1 ≤ p ∧ p < max m.2 (m.1 + 1) := by
  induction fuel generalizing i with
  | zero => omega
  | succ fuel ih =>
    rw [scan]
    split
    next j found =>
      -- the match found here covers the place, or the scan goes on in front of it
      by_cases covered : p < max j (i + 1)
      · exact ⟨(i, j), by simp, from_i, covered⟩
      · obtain ⟨m, member, cover⟩ := ih (i := max j (i + 1)) (by omega) (by omega)
        exact ⟨m, List.mem_cons_of_mem _ member, cover⟩
    next absent =>
      have later : i ≠ p := by
        rintro rfl
        simp [absent] at starts
      exact ih (by omega) (by omega)

/-- The matches that a scan reports lie one after the other: each ends before the next one starts. -/
theorem pairwise_scan (f : Nat → Option Nat) (fuel i : Nat) :
    (scan f fuel i).Pairwise fun a b => a.2 ≤ b.1 := by
  induction fuel generalizing i with
  | zero => exact .nil
  | succ fuel ih =>
    rw [scan]
    split
    next j found =>
      refine .cons (fun m member => ?_) (ih _)
      have later := (mem_scan member).1
      simp only
      omega
    next => exact ih _

/-- Where a scan goes from a position: one on where nothing matches, else to the end of
the match. -/
def advance (f : Nat → Option Nat) (p : Nat) : Nat :=
  match f p with
  | some q => max q (p + 1)
  | none => p + 1

theorem lt_advance (f : Nat → Option Nat) (p : Nat) : p < advance f p := by
  unfold advance
  split <;> omega

/-- The positions a scan comes to. -/
def Visited (f : Nat → Option Nat) (p : Nat) : Prop := ∃ k, (advance f)^[k] 0 = p

/-- A scan takes the matches at the positions it comes to. -/
def Taken (f : Nat → Option Nat) (p q : Nat) : Prop := Visited f p ∧ f p = some q

theorem Visited.advance {f : Nat → Option Nat} {p : Nat} (visited : Visited f p) :
    Visited f (advance f p) := by
  obtain ⟨k, rfl⟩ := visited
  exact ⟨k + 1, Function.iterate_succ_apply' _ _ _⟩

/-- A scan only goes forward, so that it comes to no position between one that it comes to and the
next one. -/
theorem Visited.advance_le {f : Nat → Option Nat} {p r : Nat} (earlier : Visited f p)
    (later : Visited f r) (before : p < r) : Library.advance f p ≤ r := by
  obtain ⟨k, rfl⟩ := earlier
  obtain ⟨l, rfl⟩ := later
  have forward : StrictMono fun n => (Library.advance f)^[n] 0 := by
    refine strictMono_nat_of_lt_succ fun n => ?_
    rw [Function.iterate_succ_apply']
    exact lt_advance f _
  have steps : k + 1 ≤ l := forward.lt_iff_lt.mp before
  rw [← Function.iterate_succ_apply' (Library.advance f)]
  exact forward.monotone steps

/-- Two matches that a scan takes do not overlap. -/
theorem Taken.le {f : Nat → Option Nat} {p q p' q' : Nat} (first : Taken f p q)
    (second : Taken f p' q') (before : p < p') : q ≤ p' := by
  have past := first.1.advance_le second.1 before
  rw [advance, first.2] at past
  exact Nat.le_trans (Nat.le_max_left q (p + 1)) past

/-- What a scan reports from a position that the scan of the whole text comes to is what that scan
takes; by induction on the fuel. -/
theorem taken_of_mem_scan {f : Nat → Option Nat} {fuel i p q : Nat} (visited : Visited f i) :
    (p, q) ∈ scan f fuel i → Taken f p q := by
  induction fuel generalizing i with
  | zero => simp [scan]
  | succ fuel ih =>
    intro member
    have next := visited.advance
    rw [scan] at member
    rw [advance] at next
    -- what is visited stays visited under the advance
    cases found : f i with
    | some j =>
      simp only [found] at member next
      rcases List.mem_cons.mp member with same | later
      · obtain ⟨rfl, rfl⟩ := Prod.mk.inj same
        exact ⟨visited, found⟩
      · exact ih next later
    | none =>
      simp only [found] at member next
      exact ih next member

/-- A scan whose fuel reaches beyond a match that is taken reports it, from every position before it
that the scan comes to. -/
theorem Taken.mem_scan {f : Nat → Option Nat} {fuel i p q : Nat} (taken : Taken f p q)
    (visited : Visited f i) (from_i : i ≤ p) (within : p < i + fuel) : (p, q) ∈ scan f fuel i := by
  induction fuel generalizing i with
  | zero => omega
  | succ fuel ih =>
    have next := visited.advance
    have forward := lt_advance f i
    rw [scan]
    -- the scan cannot pass a place that is visited
    rcases Nat.lt_or_eq_of_le from_i with before | rfl
    · have past := visited.advance_le taken.1 before
      rw [advance] at next past forward
      cases found : f i with
      | some j =>
        simp only [found] at next past forward ⊢
        exact List.mem_cons_of_mem _ (ih next past (by omega))
      | none =>
        simp only [found] at next past ⊢
        exact ih next past (by omega)
    · rw [taken.2]
      exact List.mem_cons_self

theorem advance_of_none {f : Nat → Option Nat} {p : Nat} (absent : f p = none) :
    advance f p = p + 1 := by
  rw [advance, absent]

theorem advance_of_some {f : Nat → Option Nat} {p q : Nat} (found : f p = some q) :
    advance f p = max q (p + 1) := by
  rw [advance, found]

/-- A scan comes to a position, or a match that it takes starts before this position and ends behind
it: by induction on the position. -/
theorem visited_or_covered (f : Nat → Option Nat) (p : Nat) :
    Visited f p ∨ ∃ s e, Taken f s e ∧ s < p ∧ p < e := by
  induction p with
  | zero => exact .inl ⟨0, rfl⟩
  | succ p ih =>
    -- the end of a match is a position that the scan comes to
    have beyond {s e : Nat} (taken : Taken f s e) (before : s < p + 1) (reaches : p + 1 ≤ e) :
        Visited f (p + 1) ∨ ∃ s e, Taken f s e ∧ s < p + 1 ∧ p + 1 < e := by
      rcases Nat.lt_or_eq_of_le reaches with past | rfl
      · exact .inr ⟨s, e, taken, before, past⟩
      · have next := taken.1.advance
        rw [advance_of_some taken.2, Nat.max_eq_left before] at next
        exact .inl next
    rcases ih with visited | ⟨s, e, taken, before, past⟩
    · have next := visited.advance
      cases found : f p with
      | none => exact .inl (advance_of_none found ▸ next)
      | some q =>
        rcases Nat.lt_or_ge q (p + 1) with short | long
        · rw [advance_of_some found, Nat.max_eq_right (Nat.le_of_lt short)] at next
          exact .inl next
        · exact beyond ⟨visited, found⟩ (Nat.lt_succ_self p) long
    · exact beyond taken (Nat.lt_succ_of_lt before) past

/-- The parts that are chosen from left to right of those that a relation names: no chosen part
with an earlier start reaches into them. -/
def LeftToRight (R : Nat → Nat → Prop) (p q : Nat) : Prop :=
  R p q ∧ ∀ s < p, ∀ e, LeftToRight R s e → e ≤ p
termination_by p

theorem leftToRight_iff {R : Nat → Nat → Prop} {p q : Nat} :
    LeftToRight R p q ↔ R p q ∧ ∀ s < p, ∀ e, LeftToRight R s e → e ≤ p := by
  rw [LeftToRight]

/-- The matches that a scan takes are the ones that no earlier match it takes reaches into, which
defines them from the left to the right. -/
theorem taken_iff_leftToRight {f : Nat → Option Nat} {p q : Nat} :
    Taken f p q ↔ LeftToRight (fun p q => f p = some q) p q := by
  induction p using Nat.strong_induction_on generalizing q with
  | h p ih =>
    rw [leftToRight_iff]
    constructor
    · intro taken
      refine ⟨taken.2, fun s before e chosen => ?_⟩
      exact ((ih s before).mpr chosen).le taken before
    · rintro ⟨found, clear⟩
      refine ⟨?_, found⟩
      rcases visited_or_covered f p with visited | ⟨s, e, taken, before, past⟩
      · exact visited
      · have reach := clear s before e ((ih s before).mp taken)
        omega

namespace Regex

/-- The end of the match an engine reports at a position. -/
def matchAt (r : Regex) (text : Text) (i : Nat) : Option Nat :=
  (r.ends (text.take i) (text.drop i)).head?.map (i + ·)

/-- All reported matches, as pairs of offsets. Patterns here consume at least one
character, so the rule for empty matches never applies. -/
def finditer (r : Regex) (text : Text) : List (Nat × Nat) :=
  scan (r.matchAt text) (text.length + 1) 0

/-- The leftmost match. -/
def search (r : Regex) (text : Text) : Option (Nat × Nat) := (r.finditer text).head?

/-- The pattern accepts the whole text. -/
def fullmatch (r : Regex) (text : Text) : Bool := (r.ends [] text).contains text.length

theorem fullmatch_iff {r : Regex} {text : Text} :
    r.fullmatch text = true ↔ r.Matches [] text [] := by
  rw [fullmatch, List.contains_iff_mem, mem_ends]
  constructor
  · rintro ⟨w, after, eq, len, accepts⟩
    have rest : after = [] := by
      have lengths := congrArg List.length eq
      rw [List.length_append] at lengths
      exact List.length_eq_zero_iff.mp (by omega)
    subst rest
    rw [List.append_nil] at eq
    exact eq ▸ accepts
  · intro accepts
    exact ⟨text, [], by simp, rfl, accepts⟩

theorem matchAt_isSome {r : Regex} {text : Text} {i : Nat} {w after : Text}
    (here : text.drop i = w ++ after) (accepts : r.Matches (text.take i) w after) :
    (r.matchAt text i).isSome := by
  have listed : w.length ∈ r.ends (text.take i) (text.drop i) :=
    (mem_ends _ _ _ _).mpr ⟨w, after, here, rfl, accepts⟩
  rw [matchAt, Option.isSome_map]
  cases lengths : r.ends (text.take i) (text.drop i) with
  | nil => simp [lengths] at listed
  | cons n ns => rfl

theorem matchAt_spec {r : Regex} {text : Text} {i j : Nat} (found : r.matchAt text i = some j) :
    ∃ w after, text.drop i = w ++ after ∧ j = i + w.length ∧
      r.Matches (text.take i) w after := by
  rw [matchAt, Option.map_eq_some_iff] at found
  obtain ⟨n, head, rfl⟩ := found
  obtain ⟨w, after, eq, rfl, accepts⟩ := (mem_ends _ _ _ _).mp (List.mem_of_mem_head? head)
  exact ⟨w, after, eq, rfl, accepts⟩

/-- The pattern accepts the part `[i, j)` of a text, where it stands. -/
def AcceptsAt (r : Regex) (text : Text) (i j : Nat) : Prop :=
  i ≤ j ∧ j ≤ text.length ∧ r.Matches (text.take i) (text.slice i j) (text.drop j)

/-- The text around the part `[i, j)`. -/
theorem drop_eq_slice_append {text : Text} {i j : Nat} (ordered : i ≤ j) :
    text.drop i = text.slice i j ++ text.drop j := by
  have whole := List.take_append_drop (j - i) (text.drop i)
  rw [List.drop_drop, Nat.add_sub_cancel' ordered, ← Text.slice_eq_take_drop] at whole
  exact whole.symm

theorem acceptsAt_iff {r : Regex} {text : Text} {i j : Nat} :
    r.AcceptsAt text i j ↔
      i ≤ j ∧ j ≤ text.length ∧ j - i ∈ r.ends (text.take i) (text.drop i) := by
  refine and_congr_right fun ordered => and_congr_right fun inside => ?_
  rw [mem_ends]
  constructor
  · intro accepts
    exact ⟨_, _, drop_eq_slice_append ordered, Text.length_slice inside, accepts⟩
  · rintro ⟨w, after, split, len, accepts⟩
    have front : text.slice i j = w := by
      rw [Text.slice_eq_take_drop, split, ← len, List.take_left]
    have back : text.drop j = after := by
      have dropped : (text.drop i).drop (j - i) = after := by rw [split, ← len, List.drop_left]
      rwa [List.drop_drop, Nat.add_sub_cancel' ordered] at dropped
    rwa [front, back]

instance (r : Regex) (text : Text) (i j : Nat) : Decidable (r.AcceptsAt text i j) :=
  decidable_of_iff _ acceptsAt_iff.symm

theorem acceptsAt_of_matchAt {r : Regex} {text : Text} {i j : Nat} (consumes : r.consumes = true)
    (found : r.matchAt text i = some j) : r.AcceptsAt text i j := by
  rw [matchAt, Option.map_eq_some_iff] at found
  obtain ⟨n, head, rfl⟩ := found
  have listed := List.mem_of_mem_head? head
  obtain ⟨w, after, split, len, accepts⟩ := (mem_ends _ _ _ _).mp listed
  have nonempty := List.length_pos_iff.mpr (ne_nil_of_consumes consumes accepts)
  have lengths := congrArg List.length split
  rw [List.length_drop, List.length_append] at lengths
  rw [acceptsAt_iff, Nat.add_sub_cancel_left]
  exact ⟨by omega, by omega, listed⟩

theorem AcceptsAt.lt {r : Regex} {text : Text} {i j : Nat} (consumes : r.consumes = true)
    (accepts : r.AcceptsAt text i j) : i < j := by
  have nonempty := List.length_pos_iff.mpr (ne_nil_of_consumes consumes accepts.2.2)
  rw [Text.length_slice accepts.2.1] at nonempty
  omega

/-- A search for all matches of a pattern that consumes something reports exactly those that a scan
takes. -/
theorem mem_finditer {r : Regex} (consumes : r.consumes = true) {text : Text} {p q : Nat} :
    (p, q) ∈ r.finditer text ↔ Taken (r.matchAt text) p q := by
  constructor
  · exact taken_of_mem_scan ⟨0, rfl⟩
  · intro taken
    have inside := acceptsAt_of_matchAt consumes taken.2
    have before_end : p ≤ text.length := Nat.le_trans inside.1 inside.2.1
    exact taken.mem_scan ⟨0, rfl⟩ (Nat.zero_le p) (by omega)

/-- Wherever the pattern accepts, a match that the scan takes covers the first character:
the match there, or one that the scan took before. -/
theorem AcceptsAt.exists_taken {r : Regex} {text : Text} {i j : Nat}
    (consumes : r.consumes = true) (accepts : r.AcceptsAt text i j) :
    ∃ p q, Taken (r.matchAt text) p q ∧ p ≤ i ∧ i < q := by
  have within : i < 0 + (text.length + 1) := by
    have := accepts.1
    have := accepts.2.1
    omega
  obtain ⟨⟨p, q⟩, member, from_p, to_q⟩ := scan_covers (Nat.zero_le i) within
    (matchAt_isSome (drop_eq_slice_append accepts.1) accepts.2.2)
  have taken := (mem_finditer consumes).mp member
  have longer := (acceptsAt_of_matchAt consumes taken.2).lt consumes
  exact ⟨p, q, taken, from_p, by omega⟩

/-- If there is a match within the fuel then the scan reports one first, which starts no later than
that match. -/
theorem exists_head_scan {f : Nat → Option Nat} {fuel i p : Nat} (from_i : i ≤ p)
    (within : p < i + fuel) (starts : (f p).isSome) :
    ∃ m, (scan f fuel i).head? = some m ∧ m.1 ≤ p ∧ f m.1 = some m.2 := by
  induction fuel generalizing i with
  | zero => omega
  | succ fuel ih =>
    rw [scan]
    split
    next j found => exact ⟨(i, j), rfl, from_i, found⟩
    next absent =>
      have later : i ≠ p := by
        rintro rfl
        simp [absent] at starts
      exact ih (by omega) (by omega)

/-- A search succeeds no later than at any position where the pattern accepts. -/
theorem search_le {r : Regex} {text : Text} {p : Nat} (inside : p ≤ text.length)
    (starts : (r.matchAt text p).isSome) :
    ∃ s e, r.search text = some (s, e) ∧ s ≤ p := by
  have within : p < 0 + (text.length + 1) := by omega
  obtain ⟨m, head, le, _⟩ := exists_head_scan (Nat.zero_le p) within starts
  exact ⟨m.1, m.2, head, le⟩

theorem search_spec {r : Regex} {text : Text} {s e : Nat} (found : r.search text = some (s, e)) :
    r.matchAt text s = some e :=
  (mem_scan (List.mem_of_mem_head? found)).2

/-- A pattern without assertions, which does not look at what stands beside the stretch that it
accepts. -/
def Plain : Regex → Prop
  | .empty => True
  | .char _ => True
  | .assert _ => False
  | .seq a b => a.Plain ∧ b.Plain
  | .alt a b => a.Plain ∧ b.Plain
  | .rep a _ _ => a.Plain

theorem andThen_before {f g : Text → Text → List Nat} (hf : ∀ b r, f b r = f [] r)
    (hg : ∀ b r, g b r = g [] r) (before rest : Text) :
    andThen f g before rest = andThen f g [] rest := by
  simp only [andThen, hf before]
  congr 1
  funext n
  rw [hg (before ++ _), hg ([] ++ _)]

theorem upTo_before {f : Text → Text → List Nat} (hf : ∀ b r, f b r = f [] r) (n : Nat)
    (before rest : Text) : upTo f n before rest = upTo f n [] rest := by
  induction n generalizing before rest with
  | zero => rfl
  | succ n ih =>
    simp only [upTo]
    rw [andThen_before (fun b r => by rw [hf b]) ih]

theorem rounds_before {f : Text → Text → List Nat} (hf : ∀ b r, f b r = f [] r)
    (extra lo : Nat) (before rest : Text) :
    rounds f extra lo before rest = rounds f extra lo [] rest := by
  induction lo generalizing before rest with
  | zero => exact upTo_before hf extra before rest
  | succ lo ih => exact andThen_before hf ih before rest

theorem ends_before {r : Regex} (plain : r.Plain) (before rest : Text) :
    r.ends before rest = r.ends [] rest := by
  induction r generalizing before rest with
  | empty => rfl
  | char p => rfl
  | assert p => exact plain.elim
  | seq a b iha ihb => exact andThen_before (iha plain.1) (ihb plain.2) before rest
  | alt a b iha ihb => rw [ends, iha plain.1, ihb plain.2, ends]
  | rep a lo hi ih => exact rounds_before (ih plain) _ lo before rest

/-- Where a pattern without assertions accepts a text, it accepts it everywhere: what stands beside
the text makes no difference to it. -/
theorem Plain.matches {r : Regex} (plain : r.Plain) {before w after : Text}
    (accepts : r.Matches before w after) (before' after' : Text) : r.Matches before' w after' := by
  induction r generalizing before w after before' after' with
  | empty => exact accepts
  | char p => exact accepts
  | assert p => exact plain.elim
  | seq a b iha ihb =>
    obtain ⟨u, v, rfl, first, second⟩ := accepts
    exact ⟨u, v, rfl, iha plain.1 first _ _, ihb plain.2 second _ _⟩
  | alt a b iha ihb =>
    exact accepts.imp (fun first => iha plain.1 first _ _) fun second => ihb plain.2 second _ _
  | rep a lo hi ih =>
    obtain ⟨k, least, most, rounds⟩ := accepts
    refine ⟨k, least, most, ?_⟩
    clear least most
    -- round by round
    induction k generalizing before w before' with
    | zero => exact rounds
    | succ k ihk =>
      obtain ⟨u, v, rfl, first, rest⟩ := rounds
      exact ⟨u, v, rfl, ih plain first _ _, ihk _ rest⟩

end Regex

/-! ## Substitution along a scan -/

/-- Copy the text, replacing the matches for which `g` has a replacement. `last`
is the end of the last replaced match. -/
def rewriteMatches (text : Text) (g : Text → Option Text) : Nat → List (Nat × Nat) → Text
  | last, [] => text.drop last
  | last, (s, e) :: rest =>
    match g (text.slice s e) with
    | none => rewriteMatches text g last rest
    | some new => text.slice last s ++ new ++ rewriteMatches text g e rest

/-! ## Tokens that never overlap -/

section Tokens

variable {α : Type}

/-- `tokenAt w` is the length of the token that starts `w`, if one does. Tokens are
recognised from their own characters and never overlap one another. -/
structure TokenLaws (tokenAt : List α → Option Nat) : Prop where
  pos : ∀ {w k}, tokenAt w = some k → 0 < k
  bounded : ∀ {w k}, tokenAt w = some k → k ≤ w.length
  stable : ∀ {w k}, tokenAt w = some k → ∀ z, tokenAt (w.take k ++ z) = some k
  isolated : ∀ {w k m}, tokenAt w = some k → 0 < m → m < k → tokenAt (w.drop m) = none

variable (tokenAt : List α → Option Nat) (g : List α → Option (List α))

/-- Replace the tokens that `g` knows, from left to right; all else is copied character by
character. -/
def substitute : List α → List α
  | [] => []
  | c :: cs =>
    match tokenAt (c :: cs) with
    | none => c :: substitute cs
    | some k =>
      match g ((c :: cs).take k) with
      | none => c :: substitute cs
      | some new => new ++ substitute (cs.drop (k - 1))
  termination_by w => w.length
  decreasing_by all_goals simp; try omega

/-- A token of length `k` that `g` knows starts `w`. -/
def KnownAt (w : List α) (k : Nat) : Prop := tokenAt w = some k ∧ (g (w.take k)).isSome

variable {tokenAt g}

@[simp] theorem substitute_nil : substitute tokenAt g [] = [] := by rw [substitute]

/-- A text at whose head no known token stands keeps its first element, and the rest is substituted. -/
theorem substitute_cons {c : α} {cs : List α} (unknown : ∀ k, ¬KnownAt tokenAt g (c :: cs) k) :
    substitute tokenAt g (c :: cs) = c :: substitute tokenAt g cs := by
  rw [substitute]
  split
  · rfl
  next k found =>
    split
    · rfl
    next new known => exact absurd ⟨found, by simp [known]⟩ (unknown k)

theorem substitute_known (laws : TokenLaws tokenAt) {w new : List α} {k : Nat}
    (found : tokenAt w = some k) (known : g (w.take k) = some new) :
    substitute tokenAt g w = new ++ substitute tokenAt g (w.drop k) := by
  have pos := laws.pos found
  cases w with
  | nil => exact absurd (laws.bounded found) (by simp; omega)
  | cons c cs =>
    obtain ⟨k, rfl⟩ : ∃ m, k = m + 1 := ⟨k - 1, by omega⟩
    rw [substitute]
    simp only [found, known, Nat.add_sub_cancel, List.drop_succ_cons]

/-- Whether a known token starts a text is decided by the characters of the token, not by what
follows them. -/
theorem knownAt_append (laws : TokenLaws tokenAt) {a b : List α} {k : Nat}
    (inside : k ≤ a.length) : KnownAt tokenAt g (a ++ b) k ↔ KnownAt tokenAt g a k := by
  have same : (a ++ b).take k = a.take k := List.take_append_of_le_length inside
  simp only [KnownAt, same]
  refine and_congr_left fun _ => ⟨fun found => ?_, fun found => ?_⟩
  · have shorter := laws.stable found (a.drop k)
    rwa [same, List.take_append_drop] at shorter
  · have longer := laws.stable found (a.drop k ++ b)
    rwa [← List.append_assoc, List.take_append_drop] at longer

/-- No known token that starts in `a` reaches into `b`. -/
def Uncut (tokenAt : List α → Option Nat) (g : List α → Option (List α)) (a b : List α) : Prop :=
  ∀ i < a.length, ∀ k, KnownAt tokenAt g ((a ++ b).drop i) k → i + k ≤ a.length

theorem Uncut.drop {a b : List α} (uncut : Uncut tokenAt g a b) (n : Nat) :
    Uncut tokenAt g (a.drop n) b := by
  intro i hi k known
  rw [List.length_drop] at hi ⊢
  have shifted : (a.drop n ++ b).drop i = (a ++ b).drop (n + i) := by
    rw [← List.drop_drop, List.drop_append_of_le_length (by omega : n ≤ a.length)]
  have bound := uncut (n + i) (by omega) k (shifted ▸ known)
  omega

/-- Substitution is a homomorphism at a cut that no known token straddles; the induction goes along
the front part, token by token. -/
theorem substitute_append (laws : TokenLaws tokenAt) (a b : List α)
    (uncut : Uncut tokenAt g a b) :
    substitute tokenAt g (a ++ b) = substitute tokenAt g a ++ substitute tokenAt g b := by
  -- induction on the length of `a`: a known token takes away several elements at once
  induction len : a.length using Nat.strongRecOn generalizing a with
  | ind n ih =>
    subst len
    cases a with
    | nil => simp
    | cons c cs =>
      by_cases head : ∃ k, KnownAt tokenAt g (c :: cs ++ b) k
      · obtain ⟨k, known⟩ := head
        have inside : k ≤ (c :: cs).length := by
          simpa using uncut 0 (by simp) k (by simpa using known)
        have known_a := (knownAt_append laws inside).mp known
        obtain ⟨new, replaced⟩ := Option.isSome_iff_exists.mp known_a.2
        have replaced_ab : g ((c :: cs ++ b).take k) = some new := by
          rw [List.take_append_of_le_length inside, replaced]
        have pos := laws.pos known.1
        rw [substitute_known laws known.1 replaced_ab,
          substitute_known laws known_a.1 replaced, List.drop_append_of_le_length inside,
          ih _ (by rw [List.length_drop]; omega) ((c :: cs).drop k) (uncut.drop k) rfl,
          List.append_assoc]
      · have unknown_ab : ∀ k, ¬KnownAt tokenAt g (c :: (cs ++ b)) k :=
          fun k known => head ⟨k, known⟩
        have unknown_a : ∀ k, ¬KnownAt tokenAt g (c :: cs) k := fun k known =>
          head ⟨k, (knownAt_append laws (laws.bounded known.1)).mpr known⟩
        rw [List.cons_append, substitute_cons unknown_ab, substitute_cons unknown_a,
          ih cs.length (by simp) cs (by simpa using uncut.drop 1) rfl, List.cons_append]

/-- A text in which no known token starts is copied. -/
theorem substitute_eq_self {w : List α} (none : ∀ i k, ¬KnownAt tokenAt g (w.drop i) k) :
    substitute tokenAt g w = w := by
  induction w with
  | nil => simp
  | cons c cs ih =>
    rw [substitute_cons (fun k => by simpa using none 0 k),
      ih (fun i k => by simpa using none (i + 1) k)]

/-- A text can be cut in front of any token, since no token reaches into another one. -/
theorem uncut_before_token (laws : TokenLaws tokenAt) {a t rest : List α}
    (token : tokenAt (t ++ rest) = some t.length) : Uncut tokenAt g a (t ++ rest) := by
  intro i hi k known
  by_contra straddles
  -- the token `t` would start strictly inside the one that starts at `i`
  have inside := laws.isolated (m := a.length - i) known.1 (by omega) (by omega)
  rw [List.drop_drop, Nat.add_sub_cancel' (by omega : i ≤ a.length), List.drop_left] at inside
  rw [inside] at token
  cases token

theorem uncut_after_token (laws : TokenLaws tokenAt) {t rest : List α}
    (token : tokenAt (t ++ rest) = some t.length) : Uncut tokenAt g t rest := by
  intro i hi k known
  rcases Nat.eq_zero_or_pos i with rfl | pos
  · have same : some t.length = some k := by rw [← token]; simpa using known.1
    simp [Option.some.inj same]
  · have clear := laws.isolated token pos hi
    rw [known.1] at clear
    cases clear

/-- A token that `g` does not know is copied whole, since no token starts inside it: copying it
character by character is the same. -/
theorem substitute_unknown (laws : TokenLaws tokenAt) {w : List α} {k : Nat}
    (found : tokenAt w = some k) (unknown : g (w.take k) = none) :
    substitute tokenAt g w = w.take k ++ substitute tokenAt g (w.drop k) := by
  have bound := laws.bounded found
  have len : (w.take k).length = k := by rw [List.length_take, Nat.min_eq_left bound]
  have cut : Uncut tokenAt g (w.take k) (w.drop k) := by
    apply uncut_after_token laws
    rw [List.take_append_drop, len, found]
  have kept : ∀ j m, ¬KnownAt tokenAt g ((w.take k).drop j) m := by
    intro j m known
    rcases Nat.eq_zero_or_pos j with rfl | later
    · rw [List.drop_zero] at known
      have whole := laws.stable found []
      rw [List.append_nil, known.1] at whole
      obtain rfl := Option.some.inj whole
      have replaced := known.2
      rw [List.take_take, Nat.min_self, unknown] at replaced
      cases replaced
    · have long := laws.bounded known.1
      have short := laws.pos known.1
      rw [List.length_drop, len] at long
      -- no token starts inside another one, so none of the known ones is cut by leaving this one
      have clear := laws.isolated found later (by omega)
      have longer := (knownAt_append laws (b := w.drop k) (laws.bounded known.1)).mpr known
      rw [← List.drop_append_of_le_length (by omega), List.take_append_drop, KnownAt, clear]
        at longer
      cases longer.1
  have joined := substitute_append laws _ _ cut
  rwa [List.take_append_drop, substitute_eq_self kept] at joined

/-- Replacing an unknown token by itself is leaving it alone, so that the substitution may be taken
to know every token. -/
theorem substitute_getD (laws : TokenLaws tokenAt) (w : List α) :
    substitute tokenAt (fun t => some ((g t).getD t)) w = substitute tokenAt g w := by
  induction len : w.length using Nat.strongRecOn generalizing w with
  | ind n ih =>
    subst len
    cases found : tokenAt w with
    | none =>
      cases w with
      | nil => simp
      | cons c cs =>
        have none (h : List α → Option (List α)) : ∀ k, ¬KnownAt tokenAt h (c :: cs) k :=
          fun k known => by
            rw [KnownAt, found] at known
            cases known.1
        rw [substitute_cons (none _), substitute_cons (none g), ih cs.length (by simp) cs rfl]
    | some k =>
      have pos := laws.pos found
      have bound := laws.bounded found
      have shorter := ih _ (by rw [List.length_drop]; omega) (w.drop k) rfl
      rw [substitute_known (g := fun t => some ((g t).getD t)) laws found rfl, shorter]
      -- a token that is unknown is put back as it is, and copying it does the same
      cases known : g (w.take k) with
      | none => rw [substitute_unknown laws found known, Option.getD_none]
      | some new => rw [substitute_known laws found known, Option.getD_some]

/-- Rewriting the matches that a scan of the tokens reports, with the text between them, is
substitution, if the fuel reaches to the end of the text. -/
theorem rewriteMatches_scan {tokenAt : Text → Option Nat} (laws : TokenLaws tokenAt)
    (text : Text) (g : Text → Option Text) (fuel i last : Nat) (le : last ≤ i)
    (enough : text.length < i + fuel) :
    rewriteMatches text g last (scan (fun i => (tokenAt (text.drop i)).map (i + ·)) fuel i) =
      text.slice last i ++ substitute tokenAt g (text.drop i) := by
  -- induction on the fuel; the text between `last` and `i` has been scanned and kept
  induction fuel generalizing i last with
  | zero =>
    have past : text.drop i = [] := List.drop_eq_nil_of_le (by omega)
    have all : text.take i = text := List.take_of_length_le (by omega)
    simp [scan, rewriteMatches, past, Text.slice, all]
  | succ fuel ih =>
    rw [scan]
    cases found : tokenAt (text.drop i) with
    | none =>
      simp only [Option.map_none]
      rw [ih (i + 1) last (by omega) (by omega)]
      by_cases inside : i < text.length
      · have head : text.drop i = text[i] :: text.drop (i + 1) := List.drop_eq_getElem_cons inside
        have copied : substitute tokenAt g (text.drop i) =
            text[i] :: substitute tokenAt g (text.drop (i + 1)) := by
          rw [head]
          apply substitute_cons
          intro k known
          rw [← head, KnownAt, found] at known
          cases known.1
        rw [copied, ← Text.slice_append_slice le (Nat.le_succ i)]
        have one : text.slice i (i + 1) = [text[i]] := by
          rw [Text.slice_eq_take_drop, head, Nat.add_sub_cancel_left]
          rfl
        simp [one]
      · have past : text.drop i = [] := List.drop_eq_nil_of_le (by omega)
        have past' : text.drop (i + 1) = [] := List.drop_eq_nil_of_le (by omega)
        have all : text.take i = text := List.take_of_length_le (by omega)
        have all' : text.take (i + 1) = text := List.take_of_length_le (by omega)
        simp [past, past', Text.slice, all, all']
    | some k =>
      have pos := laws.pos found
      have next : max (i + k) (i + 1) = i + k := by omega
      have here : text.slice i (i + k) = (text.drop i).take k := by
        rw [Text.slice_eq_take_drop, Nat.add_sub_cancel_left]
      simp only [Option.map_some, rewriteMatches, next, here]
      cases known : g ((text.drop i).take k) with
      | some new =>
        simp only
        rw [ih (i + k) (i + k) (Nat.le_refl _) (by omega), substitute_known laws found known,
          List.drop_drop]
        simp [Text.slice]
      | none =>
        simp only
        rw [ih (i + k) last (by omega) (by omega),
          ← Text.slice_append_slice le (Nat.le_add_right i k),
          List.append_assoc, here]
        congr 1
        rw [substitute_unknown laws found known, List.drop_drop]

end Tokens

end RedactGate.Library
