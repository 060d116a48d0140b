import RedactGate.Properties.Streaming
import RedactGate.Routes.StreamDeltas

/-!
# Streams of several choices

One buffer serves all choices of a response. A bracket that is held back for one choice
comes out under the next one that speaks, or under the first choice at the end.
-/
namespace RedactGate

open Library StreamDetokenizer

/-- Every stream of the texts, however they are cut and interleaved, gives each choice
its text detokenized, in every session. -/
def ChoicesAgree (vault : Vault) (texts : List Text) : Prop :=
  ∀ st, vault.Reachable st → ∀ sessionId,
    (∀ r ∈ st.store.allForSession sessionId, r.placeholder.length ≤ maxPlaceholderLen) →
    ∀ detok, vault.streamDetokenizerPrepared st.store sessionId = some detok →
    ∀ deltas chunks, List.Forall₂ IsDelta deltas chunks →
      (∀ index, choiceText index deltas = texts.getD index []) →
    ∀ later (index : Nat), vault.detokenize st.store (texts.getD index []) sessionId =
      some (choiceText (index : ℚ) (emitted (streamResponse vault later detok chunks .ends).items))

/-- No text has an opening bracket, or only one choice has text: the first, or one whose
text ends outside a partial placeholder. -/
def ChoicesIndependent (texts : List Text) : Prop :=
  (∀ text ∈ texts, '[' ∉ text) ∨
    ∃ only, (∀ index, index ≠ only → texts.getD index [] = []) ∧
      (only = 0 ∨ trailingPartialLen (texts.getD only []) = 0)

/-! ## Where the condition holds -/

theorem trailingPartialLen_eq_zero {text : Text} (plain : '[' ∉ text) :
    trailingPartialLen text = 0 := by
  by_contra held
  obtain ⟨rest, eq, _⟩ := (isPartial_trailing _ (Nat.pos_of_ne_zero held)).opens
  exact plain (List.mem_of_mem_drop (eq ▸ List.mem_cons_self))

/-- Texts without brackets go through the buffer as they are, delta by delta, and leave nothing in
it. -/
theorem pushDeltas_plain {ι : Type} (g : Text → Option Text) {deltas : List (ι × Text)}
    (plain : ∀ delta ∈ deltas, '[' ∉ delta.2) :
    pushDeltas g [] deltas = deltas ∧ (deltas.map Prod.snd).foldl pushBuffer [] = [] := by
  induction deltas with
  | nil => exact ⟨rfl, rfl⟩
  | cons delta deltas ih =>
    obtain ⟨index, text⟩ := delta
    have free : '[' ∉ text := plain _ List.mem_cons_self
    have all : cutAt text = text.length := by
      rw [cutAt, holdLen, trailingPartialLen_eq_zero free]
      rfl
    have none : ¬['[', '['] <:+: text := fun within => free (within.subset List.mem_cons_self)
    have through : released g [] text = text := by
      rw [released, List.nil_append, all, List.take_length, substitute_without_brackets none]
      split
      next empty => exact (List.isEmpty_iff.mp empty).symm
      next => rfl
    have kept : pushBuffer [] text = [] := by
      rw [pushBuffer, List.nil_append, all, List.drop_length, ite_self]
    obtain ⟨rest, kept'⟩ := ih fun d member => plain d (List.mem_cons_of_mem _ member)
    exact ⟨by rw [pushDeltas, through, kept, rest],
      by rw [List.map_cons, List.foldl_cons, kept, kept']⟩

section

variable {vault : Vault} {later : InMemoryTokenStore} {detok : StreamDetokenizer}
  {g : Text → Option Text} {deltas : List (Nat × Text)} {chunks : List Json}

/-- What one choice gets of a stream that ends: its part of the loop, and the tail of the buffer if
it is the first choice. -/
theorem choiceText_emitted (resolves : Substitutes vault later detok g) (fresh : detok.buffer = [])
    (carry : List.Forall₂ IsDelta deltas chunks) (index : Nat) :
    choiceText (index : ℚ) (emitted (streamResponse vault later detok chunks .ends).items) =
      choiceText index (pushDeltas g [] deltas) ++
        if index = 0 then (deltas.map Prod.snd).foldl pushBuffer [] else [] := by
  rw [emitted_streamResponse resolves fresh carry, choiceText_append, choiceText_map_cast]
  congr 1
  generalize (deltas.map Prod.snd).foldl pushBuffer [] = buffer
  by_cases empty : buffer = []
  · simp [empty]
  · by_cases first : index = 0
    · simp [empty, first, choiceText_cons]
    · have other : (0 : ℚ) ≠ index := fun eq => first (by exact_mod_cast eq.symm)
      simp [empty, first, choiceText_cons, other]

/-- With text in one choice only, the buffer is that choice's own: together they have its
substituted text, and the others have none. -/
theorem choiceText_pushDeltas_alone (short : ∀ p, (g p).isSome → p.length ≤ maxPlaceholderLen)
    {only : Nat} (alone : ∀ delta ∈ deltas, delta.1 ≠ only → delta.2 = []) :
    choiceText only (pushDeltas g [] deltas) ++ (deltas.map Prod.snd).foldl pushBuffer [] =
        substitute placeholderAt g (choiceText only deltas) ∧
      ∀ index, index ≠ only → choiceText index (pushDeltas g [] deltas) = [] := by
  have silent (index : Nat) (other : index ≠ only) :
      ∀ delta ∈ pushDeltas g [] deltas, delta.1 = index → delta.2 = [] :=
    pushDeltas_silent (fun delta member mine => alone delta member (mine ▸ other)) []
  have alone' : ∀ delta ∈ pushDeltas g [] deltas, delta.1 ≠ only → delta.2 = [] :=
    fun delta member other => silent delta.1 other delta member rfl
  refine ⟨?_, fun index other => choiceText_eq_nil (silent index other)⟩
  have whole := deltasText_pushDeltas short deltas []
  rwa [substitute_foldl_pushBuffer, List.nil_append, deltasText_eq_choiceText alone,
    deltasText_eq_choiceText alone'] at whole

end

theorem agree_of_independent {vault : Vault} (laws : AesGcmLaws vault.crypto) {texts : List Text}
    (independent : ChoicesIndependent texts) : ChoicesAgree vault texts := by
  intro st reachable sessionId short detok prepared deltas chunks carry cut later index
  obtain ⟨ledger, _, refines⟩ := reachable_refines laws reachable
  have rep := refines.store
  have bound := length_le_of_resolve rep short
  obtain ⟨detok', prepared', fresh, resolves⟩ := prepared_substitutes rep sessionId
  obtain rfl : detok' = detok := Option.some.inj (prepared'.symm.trans prepared)
  rw [detokenize_refines rep, Ledger.detokenize, choiceText_emitted (resolves later) fresh carry,
    Option.some.injEq]
  -- no choice has a bracket, or one choice alone speaks and ends outside a placeholder
  rcases independent with plain | ⟨only, alone, tail⟩
  · have free (i : Nat) : '[' ∉ texts.getD i [] := by
      intro member
      rw [List.getD_eq_getElem?_getD] at member
      cases found : texts[i]? with
      | none => simp [found] at member
      | some text =>
        rw [found] at member
        exact plain text (List.mem_of_getElem? found) member
    have none : ¬['[', '['] <:+: texts.getD index [] := fun within =>
      free index (within.subset List.mem_cons_self)
    obtain ⟨through, empty⟩ := pushDeltas_plain (Ledger.resolve ledger.issues sessionId)
      fun delta member bracket =>
        free delta.1 (cut delta.1 ▸ (infix_choiceText member).subset bracket)
    rw [through, empty, cut, ite_self, List.append_nil, substitute_without_brackets none]
  · have alone' : ∀ delta ∈ deltas, delta.1 ≠ only → delta.2 = [] := by
      intro delta member other
      have within := infix_choiceText member
      rwa [cut, alone _ other, List.infix_nil] at within
    obtain ⟨whole, silent⟩ := choiceText_pushDeltas_alone bound alone'
    have empty_iff := (foldl_pushBuffer (deltas.map Prod.snd)).2
    have joined : (deltas.map Prod.snd).flatten = texts.getD only [] := by
      rw [← cut only, ← deltasText_eq_choiceText alone', deltasText, List.flatMap_def]
    rw [HeldBack, joined] at empty_iff
    rw [cut] at whole
    generalize (deltas.map Prod.snd).foldl pushBuffer [] = buffer at *
    by_cases mine : index = only
    · subst mine
      rw [← whole]
      rcases tail with rfl | ended
      · rw [if_pos rfl]
      · have empty : buffer = [] := empty_iff.mpr (by omega)
        rw [empty, ite_self]
    · rw [silent index mine, alone index mine, substitute_nil, List.nil_append]
      rcases tail with rfl | ended
      · rw [if_neg mine]
      · have empty : buffer = [] := empty_iff.mpr (by omega)
        rw [empty, ite_self]

/-! ## Where it does not -/

/-- Of a text whose only bracket stands at its end, this bracket is held back and nothing else, as
it may begin a placeholder. -/
theorem trailingPartialLen_open {u : Text} (plain : '[' ∉ u) :
    trailingPartialLen (u ++ ['[']) = 1 := by
  have few := trailingPartialLen_le (u ++ ['['])
  have one : IsPartial ['['] := isPartial_iff.mpr ⟨_, [], rfl, rfl, .inl rfl⟩
  have least : (u ++ ['[']).length - u.length ≤ trailingPartialLen (u ++ ['[']) :=
    le_trailingPartialLen (by simp) (by simpa)
  have tail := isPartial_trailing (u ++ ['['])
  generalize trailingPartialLen (u ++ ['[']) = n at *
  simp only [List.length_append, List.length_singleton] at few least tail
  by_contra more
  obtain ⟨rest, eq, _⟩ := (tail (by omega)).opens
  -- a longer tail would open inside `u`
  rw [List.drop_append_of_le_length (by omega)] at eq
  cases inside : u.drop (u.length + 1 - n) with
  | nil =>
    have short := List.drop_eq_nil_iff.mp inside
    omega
  | cons c cs =>
    rw [inside, List.cons_append] at eq
    obtain ⟨rfl, _⟩ := List.cons.inj eq
    exact plain (List.mem_of_mem_drop (inside ▸ List.mem_cons_self))

/-- Behind a held bracket a text is not released as it is: what comes out begins with the bracket,
or it is nothing. -/
theorem take_cutAt_open_ne {text : Text} (some : text ≠ []) :
    ('[' :: text).take (cutAt ('[' :: text)) ≠ text := by
  intro same
  have parts := List.take_append_drop (cutAt ('[' :: text)) ('[' :: text)
  have len := congrArg List.length same
  have kept := length_drop_cutAt ('[' :: text)
  have few := trailingPartialLen_le ('[' :: text)
  have bound : maxPlaceholderLen = 64 := rfl
  rw [same] at parts
  rw [List.length_take, cutAt, holdLen] at len
  rw [holdLen] at kept
  simp only [List.length_cons] at len few
  -- one character is held, a bracket, and the text ends in another one
  have one : trailingPartialLen ('[' :: text) = 1 := by omega
  have cut : cutAt ('[' :: text) = ('[' :: text).length - 1 := by rw [cutAt, holdLen, one]; rfl
  have tail := isPartial_trailing ('[' :: text) (by omega)
  rw [one, ← cut] at tail
  obtain ⟨c, last⟩ := List.length_eq_one_iff.mp (kept.trans (by rw [one]; rfl))
  rw [last] at parts tail
  obtain ⟨rest, bracket, _⟩ := tail.opens
  obtain rfl : c = '[' := (List.cons.inj bracket).1
  obtain ⟨front, d, rfl⟩ := (List.eq_nil_or_concat' text).resolve_left some
  rw [← List.cons_append] at parts
  obtain ⟨_, ends⟩ := List.append_inj' parts rfl
  obtain rfl : '[' = d := (List.cons.inj ends).1
  have two : IsPartial ['[', '['] := isPartial_iff.mpr
    ⟨_, [], rfl, rfl, .inr ⟨[], [], [], rfl, by simp, .inl rfl, .inl rfl⟩⟩
  have least : ('[' :: (front ++ ['['])).length - front.length ≤
      trailingPartialLen ('[' :: (front ++ ['['])) := le_trailingPartialLen
    (by simp only [List.length_cons, List.length_append]; omega)
    (by rw [← List.cons_append, ← parts, List.append_assoc, List.drop_left]; exact two)
  rw [one] at least
  simp only [List.length_cons, List.length_append, List.length_nil] at least
  omega

/-- What a buffer looks like: it is empty, it opens a placeholder, or it is full. -/
def Opened (buffer : Text) : Prop :=
  buffer = [] ∨ (∃ rest, buffer = '[' :: rest) ∨ buffer.length = maxPlaceholderLen

theorem opened_drop_cutAt (buffer : Text) : Opened (buffer.drop (cutAt buffer)) := by
  have kept := length_drop_cutAt buffer
  rw [holdLen] at kept
  by_cases none : trailingPartialLen buffer = 0
  · rw [none, Nat.zero_min] at kept
    exact .inl (List.length_eq_zero_iff.mp kept)
  · by_cases full : maxPlaceholderLen ≤ trailingPartialLen buffer
    · exact .inr (.inr (kept.trans (Nat.min_eq_right full)))
    · obtain ⟨rest, eq, _⟩ := (isPartial_trailing _ (Nat.pos_of_ne_zero none)).opens
      rw [cutAt, holdLen, Nat.min_eq_left (by omega)]
      exact .inr (.inl ⟨rest, eq⟩)

theorem opened_foldl (chunks : List Text) : ∀ {buffer : Text}, Opened buffer →
    Opened (chunks.foldl pushBuffer buffer) := by
  induction chunks with
  | nil => exact fun opened => opened
  | cons chunk chunks ih =>
    intro buffer opened
    rw [List.foldl_cons]
    apply ih
    rw [pushBuffer]
    split
    · exact opened
    · exact opened_drop_cutAt _

/-- A text without brackets does not come out from behind a held bracket as it is, even together
with what the end of the stream releases. -/
theorem take_cutAt_append_ne {text buffer : Text} (some : text ≠ []) (plain : '[' ∉ text)
    (opened : Opened buffer) :
    ('[' :: text).take (cutAt ('[' :: text)) ++ buffer ≠ text := by
  intro same
  cases cut : cutAt ('[' :: text) with
  | succ n =>
    rw [cut, List.take_succ_cons, List.cons_append] at same
    exact plain (same ▸ List.mem_cons_self)
  | zero =>
    obtain rfl : buffer = text := by simpa [cut] using same
    -- all of it is held, so it is the newline that may follow a bracket
    have few := trailingPartialLen_le ('[' :: buffer)
    rw [cutAt, holdLen] at cut
    have all : trailingPartialLen ('[' :: buffer) = ('[' :: buffer).length := by omega
    have tail := isPartial_trailing ('[' :: buffer) (by simp [all])
    rw [all, Nat.sub_self, List.drop_zero] at tail
    obtain ⟨u, after, eq, ends, shape⟩ := isPartial_iff.mp tail
    rcases shape with rfl | ⟨a, b, c, rfl, _⟩
    · obtain rfl : buffer = after := (List.cons.inj eq).2
      have newline : buffer = ['\n'] := by simpa [atEnd, some] using ends
      rw [newline] at opened
      rcases opened with none | ⟨rest, bracket⟩ | full
      · cases none
      · cases (List.cons.inj bracket).1
      · cases full
    · exact plain ((List.cons.inj eq).2 ▸ List.mem_cons_self)

/-! ## The stream that tells the choices apart -/

/-- The chunk for every delta. -/
def chunksOf (deltas : List (Nat × Text)) : List Json :=
  deltas.map fun delta => deltaChunk delta.1 delta.2

theorem carry_chunksOf (deltas : List (Nat × Text)) :
    List.Forall₂ IsDelta deltas (chunksOf deltas) := by
  induction deltas with
  | nil => exact .nil
  | cons delta deltas ih => exact .cons (isDelta_deltaChunk _ _) ih

/-- In a session without tokens, agreement means that every choice gets its text as it is, however
its texts are cut and mixed with those of other choices. -/
theorem ChoicesAgree.plain {vault : Vault} {texts : List Text} (agree : ChoicesAgree vault texts)
    {deltas : List (Nat × Text)} (cut : ∀ index, choiceText index deltas = texts.getD index [])
    (index : Nat) :
    choiceText index (pushDeltas (fun _ => none) [] deltas) ++
      (if index = 0 then (deltas.map Prod.snd).foldl pushBuffer [] else []) =
        texts.getD index [] := by
  have rep : Represents vault [] .empty := represents_empty
  obtain ⟨detok, prepared, fresh, resolves⟩ := prepared_substitutes rep []
  have same := agree ⟨.empty, 0, 0⟩ (.fresh 0) [] (by simp [InMemoryTokenStore.empty,
    InMemoryTokenStore.allForSession, Dict.empty]) detok prepared deltas (chunksOf deltas)
    (carry_chunksOf deltas) cut .empty index
  rw [detokenize_refines rep, Ledger.detokenize,
    choiceText_emitted (resolves .empty) fresh (carry_chunksOf deltas), Option.some.injEq] at same
  have unresolved : Ledger.resolve [] [] = fun _ => none := rfl
  rw [unresolved] at same
  rw [← same]
  exact substitute_eq_self fun i k known => absurd known.2 (by simp)

/-- The texts of all choices but two, each in one delta. -/
def otherDeltas (texts : List Text) (a b : Nat) : List (Nat × Text) :=
  ((List.range texts.length).filter fun i => i ≠ a ∧ i ≠ b).map fun i => (i, texts.getD i [])

theorem choiceText_otherDeltas (texts : List Text) (a b index : Nat) :
    choiceText index (otherDeltas texts a b) =
      if index = a ∨ index = b then [] else texts.getD index [] := by
  rw [otherDeltas, choiceText_map_self _ (List.nodup_range.filter _)]
  by_cases either : index = a ∨ index = b
  · rw [if_pos either, if_neg]
    simp only [List.mem_filter, decide_eq_true_eq]
    omega
  · rw [if_neg either]
    by_cases inside : index < texts.length
    · rw [if_pos]
      simp only [List.mem_filter, List.mem_range, decide_eq_true_eq]
      omega
    · have none : texts[index]? = none := List.getElem?_eq_none (by omega)
      rw [List.getD_eq_getElem?_getD, none, Option.getD_none, ite_self]

theorem otherDeltas_silent {texts : List Text} {a b : Nat} :
    ∀ delta ∈ otherDeltas texts a b, delta.1 = a ∨ delta.1 = b → delta.2 = [] := by
  intro delta member mine
  obtain ⟨i, within, rfl⟩ := List.mem_map.mp member
  have apart := (List.mem_filter.mp within).2
  simp only [decide_eq_true_eq] at apart
  simp only at mine
  omega

/-- Choice `a` is cut behind its first bracket, `b` speaks, and `a` goes on. -/
def splitDeltas (texts : List Text) (a b : Nat) (u v : Text) : List (Nat × Text) :=
  (a, u ++ ['[']) :: (b, texts.getD b []) :: (a, v) :: otherDeltas texts a b

theorem choiceText_splitDeltas {texts : List Text} {a b : Nat} {u v : Text} (apart : b ≠ a)
    (text : texts.getD a [] = u ++ '[' :: v) (index : Nat) :
    choiceText index (splitDeltas texts a b u v) = texts.getD index [] := by
  simp only [splitDeltas, choiceText_cons, choiceText_otherDeltas]
  by_cases first : index = a
  · subst first
    rw [text]
    simp [apart]
  · have not_first : a ≠ index := fun eq => first eq.symm
    by_cases second : index = b
    · subst second
      simp [not_first]
    · have not_second : b ≠ index := fun eq => second eq.symm
      simp [not_first, not_second, first, second]

/-- A stream in which choice `a` ends a delta in a bracket and choice `b` comes next: what `b` gets
in the loop begins with the bracket of `a`, or is held back with it. -/
theorem choiceText_pushDeltas_split {texts : List Text} {a b : Nat} {u v : Text} (apart : b ≠ a)
    (plain : '[' ∉ u) (some : texts.getD b [] ≠ []) :
    choiceText b (pushDeltas (fun _ => none) [] (splitDeltas texts a b u v)) =
      ('[' :: texts.getD b []).take (cutAt ('[' :: texts.getD b [])) := by
  have unresolved (w : Text) : substitute placeholderAt (fun _ => none) w = w :=
    substitute_eq_self fun i k known => absurd known.2 (by simp)
  have held : pushBuffer [] (u ++ ['[']) = ['['] := by
    have cut : cutAt (u ++ ['[']) = u.length := by
      rw [cutAt, holdLen, trailingPartialLen_open plain]
      simp [maxPlaceholderLen]
    rw [pushBuffer, if_neg (by simp), List.nil_append, cut, List.drop_left]
  have other : a ≠ b := fun eq => apart eq.symm
  have quiet : ∀ delta ∈ pushDeltas (fun _ => none)
      (pushBuffer (pushBuffer ['['] (texts.getD b [])) v) (otherDeltas texts a b),
      delta.1 = b → delta.2 = [] :=
    pushDeltas_silent (fun delta member mine => otherDeltas_silent delta member (.inr mine)) _
  have silent := choiceText_eq_nil quiet
  have out : released (fun _ => none) ['['] (texts.getD b []) =
      ('[' :: texts.getD b []).take (cutAt ('[' :: texts.getD b [])) := by
    rw [released, if_neg (by simpa using some), unresolved]
    rfl
  simp only [splitDeltas, pushDeltas, choiceText_cons, held, other, if_false, if_true, out, silent,
    List.nil_append, List.append_nil]

/-- If all choices are to get their texts in every stream, then a bracket in one keeps every other
choice but the first from having text. -/
theorem ChoicesAgree.silent {vault : Vault} {texts : List Text} (agree : ChoicesAgree vault texts)
    {a b : Nat} (apart : b ≠ a) (bracket : '[' ∈ texts.getD a []) (other : b ≠ 0) :
    texts.getD b [] = [] := by
  by_contra some
  obtain ⟨u, v, text, plain⟩ := List.eq_append_cons_of_mem bracket
  have got := agree.plain (choiceText_splitDeltas apart text) b
  rw [choiceText_pushDeltas_split apart plain some, if_neg other, List.append_nil] at got
  exact take_cutAt_open_ne some got

theorem ChoicesAgree.first_silent {vault : Vault} {texts : List Text}
    (agree : ChoicesAgree vault texts) {a : Nat} (apart : a ≠ 0) (bracket : '[' ∈ texts.getD a []) :
    texts.getD 0 [] = [] := by
  by_cases plain_first : '[' ∈ texts.getD 0 []
  · -- the other way round: the bracket of the first choice silences `a`
    have silent := agree.silent apart plain_first apart
    rw [silent] at bracket
    cases bracket
  · by_contra some
    obtain ⟨u, v, text, plain⟩ := List.eq_append_cons_of_mem bracket
    have got := agree.plain (choiceText_splitDeltas apart.symm text) 0
    rw [choiceText_pushDeltas_split apart.symm plain some, if_pos rfl] at got
    exact take_cutAt_append_ne some plain_first (opened_foldl _ (.inl rfl)) got

theorem independent_of_agree {vault : Vault} {texts : List Text}
    (agree : ChoicesAgree vault texts) : ChoicesIndependent texts := by
  by_cases brackets : ∀ text ∈ texts, '[' ∉ text
  · exact .inl brackets
  right
  obtain ⟨text, member, bracket⟩ : ∃ text ∈ texts, '[' ∈ text := by simpa using brackets
  obtain ⟨a, found⟩ := List.mem_iff_getElem?.mp member
  have at_a : texts.getD a [] = text := by rw [List.getD_eq_getElem?_getD, found]; rfl
  rw [← at_a] at bracket
  have alone : ∀ index, index ≠ a → texts.getD index [] = [] := by
    intro index apart
    by_cases first : index = 0
    · subst first
      exact agree.first_silent apart.symm bracket
    · exact agree.silent apart bracket first
  refine ⟨a, alone, ?_⟩
  by_cases first : a = 0
  · exact .inl first
  right
  by_contra held
  -- the text in one delta: its tail comes out under the first choice
  have cut (index : Nat) : choiceText index [(a, text)] = texts.getD index [] := by
    by_cases mine : a = index
    · subst mine
      simp [choiceText_cons, ← at_a]
    · rw [alone index fun eq => mine eq.symm, choiceText_cons, if_neg mine]
      rfl
  have got := agree.plain cut 0
  rw [if_pos rfl, alone 0 fun eq => first eq.symm, List.append_eq_nil_iff] at got
  refine (foldl_pushBuffer [text]).2.mp got.2 ⟨?_, ?_⟩
  · rw [List.flatten_singleton, ← at_a]
    exact Nat.pos_of_ne_zero held
  · have few := trailingPartialLen_le text
    have nonempty : text.isEmpty = false := by
      cases text with
      | nil =>
        rw [at_a] at bracket
        cases bracket
      | cons c cs => rfl
    simp only [List.flatten_singleton, lastLength, List.filter_cons, nonempty, Bool.not_false,
      if_true,
      List.filter_nil, List.getLastD_cons, List.getLastD_nil]
    omega

/-- Streaming gives every choice what re-inflating its text at once gives, for all ways to cut and
interleave the texts and in every session with placeholders of at most 64 characters, if and only if
the choices do not meet in the buffer. -/
theorem choices_agree_iff (vault : Vault) (laws : AesGcmLaws vault.crypto) (texts : List Text) :
    ChoicesAgree vault texts ↔ ChoicesIndependent texts :=
  ⟨independent_of_agree, agree_of_independent laws⟩

theorem choices_agree_plain : ChoicesAgree sampleVault ["Hi".toList, "Ho".toList] :=
  (choices_agree_iff sampleVault sampleVault_aesGcm _).mpr (.inl (by decide))

/-- Two choices: the bracket that ends the first one's delta comes out in the second. -/
theorem choices_mixed : ∃ detok,
    sampleVault.streamDetokenizerPrepared .empty "s1".toList = some detok ∧
    sampleVault.detokenize .empty "x".toList "s1".toList ≠
      some (choiceText 1 (emitted (streamResponse sampleVault .empty detok
        [deltaChunk 0 "Hi [".toList, deltaChunk 1 "x".toList] .ends).items)) :=
  ⟨⟨"s1".toList, some .empty, []⟩, rfl, by decide⟩

end RedactGate
