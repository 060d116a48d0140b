import RedactGate.Library.Scan

/-!
# Longest matches

An engine reports the first of the lengths that it can consume. Greedy repetition of a part
that fits in at most one way tries the longer lengths first, and then the match that is
reported is the longest one.
-/
namespace RedactGate.Library.Regex

variable {f g : Text → Text → List Nat}

/-- There is at most one way to go on. -/
def Single (f : Text → Text → List Nat) : Prop := ∀ before rest, (f before rest).length ≤ 1

/-- The longer lengths are tried first. -/
def Descending (f : Text → Text → List Nat) : Prop :=
  ∀ before rest, (f before rest).Pairwise (· > ·)

theorem Single.cases (single : Single f) (before rest : Text) :
    f before rest = [] ∨ ∃ n, f before rest = [n] := by
  rcases Nat.le_one_iff_eq_zero_or_eq_one.mp (single before rest) with none | one
  · exact .inl (List.length_eq_zero_iff.mp none)
  · exact .inr (List.length_eq_one_iff.mp one)

theorem Single.descending (single : Single f) : Descending f := by
  intro before rest
  rcases single.cases before rest with none | ⟨n, one⟩
  · rw [none]
    exact .nil
  · rw [one]
    exact List.pairwise_singleton _ n

/-- Two parts that each fit in one way at most fit in one way at most together. -/
theorem Single.andThen (first : Single f) (second : Single g) : Single (andThen f g) := by
  intro before rest
  rw [Regex.andThen]
  rcases first.cases before rest with none | ⟨n, one⟩
  · rw [none]
    exact Nat.zero_le _
  · rw [one, List.flatMap_singleton, List.length_map]
    exact second _ _

/-- The order of two parts in sequence: a shorter first part, whatever follows it, stays behind a
longer one. -/
theorem Descending.andThen (first : Descending f) (second : Descending g)
    (behind : ∀ before rest, ∀ n ∈ f before rest, ∀ n' ∈ f before rest, n' < n →
      ∀ m ∈ g (before ++ rest.take n') (rest.drop n'), n' + m < n) :
    Descending (andThen f g) := by
  intro before rest
  refine List.pairwise_flatMap.mpr ⟨fun n _ => ?_, ?_⟩
  · exact List.pairwise_map.mpr ((second _ _).imp fun longer => Nat.add_lt_add_left longer n)
  · refine (first before rest).imp_of_mem fun {n n'} listed listed' longer => ?_
    intro x from_n y from_n'
    obtain ⟨k, _, rfl⟩ := List.mem_map.mp from_n
    obtain ⟨m, follows, rfl⟩ := List.mem_map.mp from_n'
    have short := behind before rest n listed n' listed' longer m follows
    omega

theorem Single.andThen_descending (first : Single f) (second : Descending g) :
    Descending (Regex.andThen f g) := by
  refine first.descending.andThen second fun before rest n listed n' listed' shorter => ?_
  rcases first.cases before rest with none | ⟨k, one⟩
  · rw [none] at listed
    cases listed
  · rw [one] at listed listed'
    rw [List.mem_singleton.mp listed, List.mem_singleton.mp listed'] at shorter
    exact absurd shorter (Nat.lt_irrefl k)

/-! ## Parts -/

theorem single_char (p : Char → Bool) : Single (Regex.char p).ends := by
  intro before rest
  cases rest with
  | nil => exact Nat.zero_le 1
  | cons c rest =>
    rw [ends]
    split
    · exact Nat.le_refl 1
    · exact Nat.zero_le 1

theorem single_assert (p : Text → Text → Bool) : Single (Regex.assert p).ends := by
  intro before rest
  rw [ends]
  split
  · exact Nat.le_refl 1
  · exact Nat.zero_le 1

theorem single_empty : Single Regex.empty.ends := fun _ _ => Nat.le_refl 1

/-- An assertion at the end consumes nothing and does not change the order. -/
theorem Descending.assert_end (first : Descending f) (p : Text → Text → Bool) :
    Descending (Regex.andThen f (cat [.assert p]).ends) := by
  refine first.andThen ((single_assert p).andThen single_empty).descending ?_
  intro before rest n _ n' _ shorter m listed
  obtain ⟨_, _, _, rfl, _, _, rfl, ⟨rfl, _⟩, rfl⟩ := (mem_ends _ _ _ _).mp listed
  exact shorter

theorem single_rounds (single : Single f) (n : Nat) : Single (rounds f 0 n) := by
  induction n with
  | zero => exact fun _ _ => Nat.le_refl 1
  | succ n ih => exact single.andThen ih

theorem single_times {r : Regex} (single : Single r.ends) (n : Nat) : Single (times r n).ends := by
  intro before rest
  rw [times, ends]
  simp only [Nat.sub_self]
  exact single_rounds single n before rest

theorem descending_upTo (single : Single f) (n : Nat) : Descending (upTo f n) := by
  induction n with
  | zero => exact fun _ _ => List.pairwise_singleton _ 0
  | succ n ih =>
    intro before rest
    have filtered : Single fun b r => (f b r).filter (0 < ·) := fun b r =>
      Nat.le_trans (List.length_filter_le _ _) (single b r)
    refine List.pairwise_append.mpr
      ⟨filtered.andThen_descending ih before rest, List.pairwise_singleton _ 0, ?_⟩
    -- stopping here comes after every round that consumes something
    intro x listed y last
    obtain ⟨k, round, tail⟩ := List.mem_flatMap.mp listed
    obtain ⟨m, _, rfl⟩ := List.mem_map.mp tail
    have pos : 0 < k := of_decide_eq_true (List.mem_filter.mp round).2
    rw [List.mem_singleton.mp last]
    omega

theorem descending_rounds (single : Single f) (extra lo : Nat) :
    Descending (rounds f extra lo) := by
  induction lo with
  | zero => exact descending_upTo single extra
  | succ lo ih => exact single.andThen_descending ih

theorem descending_rep {r : Regex} (single : Single r.ends) (lo : Nat) (hi : Option Nat) :
    Descending (Regex.rep r lo hi).ends :=
  fun before rest => descending_rounds single _ lo before rest

/-- An optional character that cannot begin what follows leaves one way to go on: it is taken if it
is there. -/
theorem opt_char_andThen {p : Char → Bool}
    (shuns : ∀ before c rest, p c = true → f before (c :: rest) = []) (before rest : Text) :
    ∃ n b r, andThen (opt (.char p)).ends f before rest = (f b r).map (n + ·) := by
  cases rest with
  | nil => exact ⟨0, before, [], by simp [andThen, opt, ends, rounds, upTo]⟩
  | cons c rest =>
    cases accepted : p c with
    | false =>
      exact ⟨0, before, c :: rest, by simp [andThen, opt, ends, rounds, upTo, accepted]⟩
    | true =>
      refine ⟨1, before ++ [c], rest, ?_⟩
      simp [andThen, opt, ends, rounds, upTo, accepted, shuns _ c rest accepted]

theorem Single.opt_char {p : Char → Bool} (single : Single f)
    (shuns : ∀ before c rest, p c = true → f before (c :: rest) = []) :
    Single (Regex.andThen (opt (.char p)).ends f) := by
  intro before rest
  obtain ⟨n, b, r, same⟩ := opt_char_andThen shuns before rest
  rw [same, List.length_map]
  exact single b r

theorem Descending.opt_char {p : Char → Bool} (descending : Descending f)
    (shuns : ∀ before c rest, p c = true → f before (c :: rest) = []) :
    Descending (Regex.andThen (opt (.char p)).ends f) := by
  intro before rest
  obtain ⟨n, b, r, same⟩ := opt_char_andThen shuns before rest
  rw [same]
  exact List.pairwise_map.mpr ((descending b r).imp fun longer => Nat.add_lt_add_left longer n)

/-- An optional part that consumes something is tried before it is left out, so that longer lengths
still come first. -/
theorem Descending.optional {r : Regex} (descending : Descending r.ends) :
    Descending (opt r).ends := by
  intro before rest
  have whole : (opt r).ends before rest = (r.ends before rest).filter (0 < ·) ++ [0] := by
    simp [opt, ends, rounds, upTo, Regex.andThen]
  rw [whole]
  have listed := (descending before rest).filter (0 < ·)
  refine List.pairwise_append.mpr ⟨listed, List.pairwise_singleton _ 0, ?_⟩
  intro x listed y last
  rw [List.mem_singleton.mp last]
  exact of_decide_eq_true (List.mem_filter.mp listed).2

/-! ## The match that is reported -/

/-- Where the matcher tries the longer lengths first, the match at a position is the longest stretch
that the pattern accepts there. -/
theorem matchAt_eq_some_iff_longest {r : Regex} (consumes : r.consumes = true)
    (descending : Descending r.ends) {text : Text} {p q : Nat} :
    r.matchAt text p = some q ↔
      r.AcceptsAt text p q ∧ ∀ k, r.AcceptsAt text p k → k ≤ q := by
  have order := descending (text.take p) (text.drop p)
  constructor
  · intro found
    refine ⟨acceptsAt_of_matchAt consumes found, fun k accepts => ?_⟩
    obtain ⟨from_p, _, listed⟩ := acceptsAt_iff.mp accepts
    rw [matchAt, Option.map_eq_some_iff] at found
    obtain ⟨n, head, rfl⟩ := found
    obtain ⟨others, same⟩ := List.head?_eq_some_iff.mp head
    rw [same] at order listed
    -- the ends are listed from the longest down and the matcher takes the first of them
    rcases List.mem_cons.mp listed with first | later
    · omega
    · have shorter := List.rel_of_pairwise_cons order later
      omega
  · rintro ⟨accepts, longest⟩
    have starts := matchAt_isSome (drop_eq_slice_append accepts.1) accepts.2.2
    obtain ⟨k, found⟩ := Option.isSome_iff_exists.mp starts
    have least := longest k (acceptsAt_of_matchAt consumes found)
    rw [matchAt, Option.map_eq_some_iff] at found
    obtain ⟨n, head, rfl⟩ := found
    obtain ⟨from_p, _, listed⟩ := acceptsAt_iff.mp accepts
    obtain ⟨others, same⟩ := List.head?_eq_some_iff.mp head
    rw [same] at order listed
    rw [matchAt, same]
    rcases List.mem_cons.mp listed with first | later
    · rw [List.head?_cons, Option.map_some]
      exact congrArg some (by omega)
    · have shorter := List.rel_of_pairwise_cons order later
      omega

/-- Where a pattern accepts at most one stretch at a place, this one is reported, and it is the
longest. -/
theorem matchAt_eq_some_iff_of_unique {r : Regex} (consumes : r.consumes = true) {text : Text}
    {p : Nat} (unique : ∀ q k, r.AcceptsAt text p q → r.AcceptsAt text p k → q = k) {q : Nat} :
    r.matchAt text p = some q ↔
      r.AcceptsAt text p q ∧ ∀ k, r.AcceptsAt text p k → k ≤ q := by
  constructor
  · intro found
    have accepts := acceptsAt_of_matchAt consumes found
    exact ⟨accepts, fun k other => (unique q k accepts other).ge⟩
  · rintro ⟨accepts, _⟩
    have starts := matchAt_isSome (drop_eq_slice_append accepts.1) accepts.2.2
    obtain ⟨k, found⟩ := Option.isSome_iff_exists.mp starts
    rw [found, unique q k accepts (acceptsAt_of_matchAt consumes found)]

/-! ## Repeated parts -/

/-- Between a shorter and a longer run of rounds from one place, a further round stands behind the
shorter one and is no longer than the other run. -/
theorem Rounds.exists_next {r : Regex} (single : Single r.ends) {k k' : Nat}
    {before u v after after' : Text} (first : Rounds r.Matches k before u after)
    (second : Rounds r.Matches k' before v after') (same : u ++ after = v ++ after')
    (shorter : v.length < u.length) :
    ∃ x rest, after' = x ++ rest ∧ r.Matches (before ++ v) x rest ∧
      v.length + x.length ≤ u.length := by
  induction k' generalizing k before u v with
  | zero =>
    obtain rfl : v = [] := second
    cases k with
    | zero =>
      obtain rfl : u = [] := first
      cases shorter
    | succ k =>
      obtain ⟨x, y, rfl, accepts, _⟩ := first
      refine ⟨x, y ++ after, ?_, by simpa using accepts, by simp⟩
      simpa using same.symm
  | succ k' ih =>
    cases k with
    | zero =>
      obtain rfl : u = [] := first
      cases shorter
    | succ k =>
      obtain ⟨x, y, rfl, accepts, rest⟩ := first
      obtain ⟨x', y', rfl, accepts', rest'⟩ := second
      -- both begin with the same round
      have split : x ++ (y ++ after) = x' ++ (y' ++ after') := by simpa using same
      have listed := (mem_ends r before (x ++ (y ++ after)) x.length).mpr ⟨x, _, rfl, rfl, accepts⟩
      have listed' := (mem_ends r before (x ++ (y ++ after)) x'.length).mpr
        ⟨x', _, split, rfl, accepts'⟩
      have lengths : x.length = x'.length := by
        rcases single.cases before (x ++ (y ++ after)) with none | ⟨n, one⟩
        · rw [none] at listed
          cases listed
        · rw [one] at listed listed'
          rw [List.mem_singleton.mp listed, List.mem_singleton.mp listed']
      obtain ⟨rfl, tails⟩ := List.append_inj split lengths
      simp only [List.length_append] at shorter ⊢
      obtain ⟨z, more, back, next, reach⟩ := ih rest rest' tails (by omega)
      exact ⟨z, more, back, by simpa using next, by omega⟩

end RedactGate.Library.Regex
