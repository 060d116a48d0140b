import RedactGate.Redaction.Mentions
import Mathlib.Data.List.Find

/-!
# Two ledgers side by side

Two sessions that are asked for values of the same types, one after the other and with
the same draws. As long as a value is known to one exactly when its counterpart is known
to the other, they give out the same placeholders. Where the draws do not repeat, the end
of a placeholder tells which draw it came from, so that equal placeholders show which
values are equal.
-/
namespace RedactGate

open Library

def Issue.mention (e : Issue) : Mention := ⟨e.sessionId, e.entityType, e.value⟩

/-- An issue of either ledger, with the same placeholder and the draw it came from. -/
structure TwinIssue where
  left : Issue
  right : Issue
  call : Nat

namespace Ledger

section

variable (ident : Text → Text → Text → Text) (urandom : Urandom)

/-- What a mention is told apart by. -/
def identOf (m : Mention) : Text := ident m.sessionId m.entityType m.value

/-- The placeholders of some mentions, looked up one after the other in the ledger as the mentions
before leave it. -/
def issueAll : List Mention → Ledger → List Text × Ledger
  | [], ledger => ([], ledger)
  | m :: ms, ledger =>
    let (placeholder, ledger) :=
      placeholderOf ident urandom ledger m.sessionId m.entityType m.value
    let (placeholders, ledger) := issueAll ms ledger
    (placeholder :: placeholders, ledger)

/-- Two of the pairs have the same first mention if and only if they have the same second
one. -/
def Alike (pairs : List (Mention × Mention)) : Prop :=
  ∀ p ∈ pairs, ∀ q ∈ pairs,
    identOf ident p.1 = identOf ident q.1 ↔ identOf ident p.2 = identOf ident q.2

def DrawnAt (call : Nat) (placeholder : Text) : Prop :=
  ∃ entityType, ∃ nbytes ∈ drawSizes,
    placeholder = makePlaceholder entityType (hex (urandom.bytes call nbytes))

/-- No two calls between the bounds answer with the same bytes. -/
def DistinctDraws (low high : Nat) : Prop :=
  ∀ i j, low ≤ i → i < j → j < high → ∀ n ∈ drawSizes, ∀ m ∈ drawSizes,
    urandom.bytes i n ≠ urandom.bytes j m

/-- The session's issues in two ledgers, after the pairs `done` have been looked up, the
first of each pair in one ledger and the second in the other. -/
structure Twin (sessionId : Text) (low : Nat) (done : List (Mention × Mention))
    (twins : List TwinIssue) (ledger ledger' : Ledger) : Prop where
  draws : ledger'.draws = ledger.draws
  started : low ≤ ledger.draws
  left : ledger.issues.filter (·.sessionId = sessionId) = twins.map TwinIssue.left
  right : ledger'.issues.filter (·.sessionId = sessionId) = twins.map TwinIssue.right
  placeholder : ∀ x ∈ twins, x.right.placeholder = x.left.placeholder
  drawn : ∀ x ∈ twins, low ≤ x.call ∧ x.call < ledger.draws ∧
    DrawnAt urandom x.call x.left.placeholder
  apart : twins.Pairwise fun newer older => older.call < newer.call
  origin : ∀ x ∈ twins, (x.left.mention, x.right.mention) ∈ done
  covered : ∀ d ∈ done, ∃ x ∈ twins, identOf ident x.left.mention = identOf ident d.1 ∧
    identOf ident x.right.mention = identOf ident d.2

end

variable {ident : Text → Text → Text → Text} {urandom : Urandom}

/-! ## One ledger -/

theorem find_eq (issues : List Issue) (m : Mention) :
    find ident issues m.sessionId m.entityType m.value =
      (issues.filter (·.sessionId = m.sessionId)).find? fun e =>
        identOf ident e.mention = identOf ident m := by
  rw [find, List.find?_filter]
  congr 1
  funext e
  by_cases mine : e.sessionId = m.sessionId
  · simp [mine, identOf, Issue.mention]
  · simp [mine]

theorem taken_eq (issues : List Issue) (sessionId : Text) : taken issues sessionId =
    fun placeholder =>
      (issues.filter (·.sessionId = sessionId)).any (·.placeholder = placeholder) := by
  funext placeholder
  rw [taken, List.any_filter]
  congr 1
  funext e
  simp [holds]

variable (ident urandom) in
/-- What a lookup finds among the issues of its own session, unless the draws run out: the issue of
the mention, or none and a free draw. -/
theorem placeholderOf_own (ledger : Ledger) (m : Mention) {own : List Issue}
    (mine : ledger.issues.filter (·.sessionId = m.sessionId) = own)
    (free : (placeholderOf ident urandom ledger m.sessionId m.entityType m.value).2.exhausted =
      ledger.exhausted) :
    (∃ e, own.find? (fun e => identOf ident e.mention = identOf ident m) = some e ∧
      placeholderOf ident urandom ledger m.sessionId m.entityType m.value =
        (e.placeholder, ledger)) ∨
    (own.find? (fun e => identOf ident e.mention = identOf ident m) = none ∧
      ∃ placeholder draws,
        drawPlaceholder urandom (fun p => own.any (·.placeholder = p)) m.entityType drawSizes
          ledger.draws = (some placeholder, draws) ∧
        placeholderOf ident urandom ledger m.sessionId m.entityType m.value =
          (placeholder, ⟨⟨m.sessionId, m.entityType, m.value, placeholder⟩ :: ledger.issues,
            draws + 1, ledger.exhausted⟩)) := by
  -- the lookup and the draw read the session's own entries only
  subst mine
  rw [← find_eq, ← taken_eq]
  unfold placeholderOf at free ⊢
  cases known : find ident ledger.issues m.sessionId m.entityType m.value with
  | some e => exact .inl ⟨e, rfl, rfl⟩
  | none =>
    refine .inr ⟨rfl, ?_⟩
    simp only [known] at free
    match drawn : drawPlaceholder urandom (taken ledger.issues m.sessionId) m.entityType drawSizes
      ledger.draws with
    | (some placeholder, draws) => exact ⟨placeholder, draws, rfl, rfl⟩
    | (none, draws) =>
      simp only [drawn] at free
      omega

/-! ## The same placeholders -/

section

variable {sessionId : Text} {low : Nat} {done : List (Mention × Mention)}
  {twins : List TwinIssue} {ledger ledger' : Ledger}

theorem twin_nil (draws : ledger'.draws = ledger.draws)
    (fresh : ledger.issues.filter (·.sessionId = sessionId) = [])
    (fresh' : ledger'.issues.filter (·.sessionId = sessionId) = []) :
    Twin ident urandom sessionId ledger.draws [] [] ledger ledger' where
  draws := draws
  started := Nat.le_refl _
  left := fresh
  right := fresh'
  placeholder := by simp
  drawn := by simp
  apart := .nil
  origin := by simp
  covered := by simp

/-- A session finds the issue of a mention exactly where its twin finds the issue of the
counterpart, and the two issues are twins. -/
theorem find?_twins {m m' : Mention} (alike : ∀ x ∈ twins,
      identOf ident x.left.mention = identOf ident m ↔
        identOf ident x.right.mention = identOf ident m') :
    ∃ found : Option TwinIssue, (∀ x ∈ found, x ∈ twins ∧
        identOf ident x.left.mention = identOf ident m ∧
        identOf ident x.right.mention = identOf ident m') ∧
      (twins.map TwinIssue.left).find? (fun e => identOf ident e.mention = identOf ident m) =
        found.map TwinIssue.left ∧
      (twins.map TwinIssue.right).find? (fun e => identOf ident e.mention = identOf ident m') =
        found.map TwinIssue.right := by
  refine ⟨twins.find? fun x => identOf ident x.left.mention = identOf ident m, ?_, ?_, ?_⟩
  · intro x found
    have member := List.mem_of_find?_eq_some found
    have same : identOf ident x.left.mention = identOf ident m := by
      simpa using List.find?_some found
    exact ⟨member, same, (alike x member).mp same⟩
  · rw [List.find?_map]
    rfl
  · rw [List.find?_map]
    congr 1
    refine List.find?_congr fun x member => ?_
    simp only [Function.comp_apply, alike x member]

/-- The step lemma: two mentions that are alike among the issues are given the same placeholder, and
the ledgers stay twins. -/
theorem Twin.step (twin : Twin ident urandom sessionId low done twins ledger ledger')
    {m m' : Mention} (mine : m.sessionId = sessionId) (mine' : m'.sessionId = sessionId)
    (types : m'.entityType = m.entityType)
    (alike : ∀ x ∈ twins, identOf ident x.left.mention = identOf ident m ↔
      identOf ident x.right.mention = identOf ident m')
    (free : (placeholderOf ident urandom ledger m.sessionId m.entityType m.value).2.exhausted =
      ledger.exhausted)
    (free' : (placeholderOf ident urandom ledger' m'.sessionId m'.entityType m'.value).2.exhausted =
      ledger'.exhausted) :
    (placeholderOf ident urandom ledger' m'.sessionId m'.entityType m'.value).1 =
        (placeholderOf ident urandom ledger m.sessionId m.entityType m.value).1 ∧
      ∃ twins', Twin ident urandom sessionId low ((m, m') :: done) twins'
        (placeholderOf ident urandom ledger m.sessionId m.entityType m.value).2
        (placeholderOf ident urandom ledger' m'.sessionId m'.entityType m'.value).2 := by
  obtain ⟨found, spec, finds, finds'⟩ := find?_twins alike
  have outcome := placeholderOf_own ident urandom ledger m (mine ▸ twin.left) free
  have outcome' := placeholderOf_own ident urandom ledger' m' (mine' ▸ twin.right) free'
  rw [finds] at outcome
  rw [finds'] at outcome'
  -- both mentions are known, with one placeholder, or both are new
  cases found with
  | some x =>
    obtain ⟨member, same, same'⟩ := spec x rfl
    rcases outcome with ⟨e, eq, result⟩ | ⟨absent, _⟩
    · rcases outcome' with ⟨e', eq', result'⟩ | ⟨absent, _⟩
      · obtain rfl : x.left = e := Option.some.inj eq
        obtain rfl : x.right = e' := Option.some.inj eq'
        rw [result, result']
        exact ⟨twin.placeholder x member, twins, { twin with
          origin := fun y among => List.mem_cons_of_mem _ (twin.origin y among)
          covered := List.forall_mem_cons.mpr ⟨⟨x, member, same, same'⟩, twin.covered⟩ }⟩
      · cases absent
    · cases absent
  | none =>
    rcases outcome with ⟨e, eq, _⟩ | ⟨_, placeholder, draws, drawn, result⟩
    · cases eq
    · rcases outcome' with ⟨e, eq, _⟩ | ⟨_, placeholder', draws', drawn', result'⟩
      · cases eq
      · -- both draw for the same type among the same taken placeholders
        have taken_same : (fun p => (twins.map TwinIssue.right).any (·.placeholder = p)) =
            fun p => (twins.map TwinIssue.left).any (·.placeholder = p) := by
          funext p
          rw [List.any_map, List.any_map, Bool.eq_iff_iff, List.any_eq_true, List.any_eq_true]
          refine exists_congr fun x => and_congr_right fun member => ?_
          simp [twin.placeholder x member]
        rw [taken_same, types, twin.draws, drawn] at drawn'
        obtain ⟨rfl, rfl⟩ : placeholder = placeholder' ∧ draws = draws' := by
          simpa using drawn'
        obtain ⟨_, nbytes, size, call, above, below, made⟩ := drawPlaceholder_call drawn
        have started := twin.started
        rw [result, result']
        refine ⟨rfl, ⟨⟨m.sessionId, m.entityType, m.value, placeholder⟩,
          ⟨m'.sessionId, m'.entityType, m'.value, placeholder⟩, call⟩ :: twins, ?_⟩
        exact {
          draws := rfl
          started := by simp only; omega
          left := by simp [mine, twin.left]
          right := by simp [mine', twin.right]
          placeholder := List.forall_mem_cons.mpr ⟨rfl, twin.placeholder⟩
          drawn := by
            refine List.forall_mem_cons.mpr ⟨⟨by simp only; omega, by simp only; omega, _, nbytes,
              size, made⟩, fun x member => ?_⟩
            obtain ⟨from_low, before, at_call⟩ := twin.drawn x member
            exact ⟨from_low, by simp only; omega, at_call⟩
          apart := by
            refine List.pairwise_cons.mpr ⟨fun x member => ?_, twin.apart⟩
            have before := (twin.drawn x member).2.1
            simp only
            omega
          origin := List.forall_mem_cons.mpr ⟨List.mem_cons_self,
            fun x member => List.mem_cons_of_mem _ (twin.origin x member)⟩
          covered := by
            refine List.forall_mem_cons.mpr ⟨⟨_, List.mem_cons_self, rfl, rfl⟩, fun d among => ?_⟩
            obtain ⟨x, member, same⟩ := twin.covered d among
            exact ⟨x, List.mem_cons_of_mem _ member, same⟩ }

/-! ## The same values -/

theorem Alike.mono {pairs more : List (Mention × Mention)} (alike : Alike ident more)
    (part : pairs ⊆ more) : Alike ident pairs :=
  fun p in_pairs q in_pairs' => alike p (part in_pairs) q (part in_pairs')

/-- A pair that is like the others is like those that are stored. -/
theorem Twin.alike_stored (twin : Twin ident urandom sessionId low done twins ledger ledger')
    {m m' : Mention} (alike : Alike ident ((m, m') :: done)) :
    ∀ x ∈ twins, identOf ident x.left.mention = identOf ident m ↔
      identOf ident x.right.mention = identOf ident m' :=
  fun x member => alike _ (List.mem_cons_of_mem _ (twin.origin x member)) _ List.mem_cons_self

/-- A pair that is like those of the stored issues is like all pairs that were looked up, as each of
them has an issue that stands for it. -/
theorem Twin.alike_cons (twin : Twin ident urandom sessionId low done twins ledger ledger')
    (alike : Alike ident done) {m m' : Mention}
    (stored : ∀ x ∈ twins, identOf ident x.left.mention = identOf ident m ↔
      identOf ident x.right.mention = identOf ident m') : Alike ident ((m, m') :: done) := by
  have new : ∀ d ∈ done, identOf ident d.1 = identOf ident m ↔
      identOf ident d.2 = identOf ident m' := by
    intro d among
    obtain ⟨x, member, left, right⟩ := twin.covered d among
    rw [← left, ← right]
    exact stored x member
  intro p in_pairs q in_pairs'
  rcases List.mem_cons.mp in_pairs with rfl | older
  · rcases List.mem_cons.mp in_pairs' with rfl | older'
    · exact iff_of_true rfl rfl
    · rw [eq_comm, new q older', eq_comm]
  · rcases List.mem_cons.mp in_pairs' with rfl | older'
    · exact new p older
    · exact alike p older q older'

/-- Where the draws do not repeat, the placeholder at the end of a text shows which draw it is from. -/
theorem drawnAt_inj {high : Nat} (distinct : DistinctDraws urandom low high) {i j : Nat}
    (above : low ≤ i) (below : i < high) (above' : low ≤ j) (below' : j < high)
    {p q x y : Text} (drawn : DrawnAt urandom i p) (drawn' : DrawnAt urandom j q)
    (same : x ++ p = y ++ q) : i = j := by
  obtain ⟨_, n, size, rfl⟩ := drawn
  obtain ⟨_, m, size', rfl⟩ := drawn'
  have hexes := (append_makePlaceholder_inj (underscore_not_mem_hex _)
    (underscore_not_mem_hex _) same).2
  have bytes : urandom.bytes i n = urandom.bytes j m := hex_injective hexes
  rcases Nat.lt_trichotomy i j with less | eq | greater
  · exact absurd bytes (distinct i j above less below' n size m size')
  · exact eq
  · exact absurd bytes.symm (distinct j i above' greater below m size' n size)

theorem Twin.call_inj (twin : Twin ident urandom sessionId low done twins ledger ledger')
    {x y : TwinIssue} (member : x ∈ twins) (member' : y ∈ twins) (same : x.call = y.call) :
    x = y := by
  have nodup : (twins.map TwinIssue.call).Nodup :=
    List.pairwise_map.mpr (twin.apart.imp fun later => Nat.ne_of_gt later)
  exact List.inj_on_of_nodup_map nodup member member' same

/-- The draw that a placeholder comes from: that of the issue the value has already, or a new one
behind all draws so far. -/
theorem placeholderOf_call {own : List TwinIssue} {issueOf : TwinIssue → Issue}
    (drawn : ∀ x ∈ own, low ≤ x.call ∧ x.call < ledger.draws ∧
      DrawnAt urandom x.call (issueOf x).placeholder) (started : low ≤ ledger.draws) {m : Mention}
    (mine : ledger.issues.filter (·.sessionId = m.sessionId) = own.map issueOf)
    (free : (placeholderOf ident urandom ledger m.sessionId m.entityType m.value).2.exhausted =
      ledger.exhausted) :
    ∃ call, low ≤ call ∧
      call < (placeholderOf ident urandom ledger m.sessionId m.entityType m.value).2.draws ∧
      DrawnAt urandom call
        (placeholderOf ident urandom ledger m.sessionId m.entityType m.value).1 ∧
      ((∃ x ∈ own, identOf ident (issueOf x).mention = identOf ident m ∧ x.call = call) ∨
        (∀ x ∈ own, identOf ident (issueOf x).mention ≠ identOf ident m) ∧
          ledger.draws ≤ call) := by
  -- a known mention keeps the draw of its entry, a new one comes later than all
  rcases placeholderOf_own ident urandom ledger m mine free with
    ⟨e, found, result⟩ | ⟨absent, placeholder, draws, free, result⟩
  · have same : identOf ident e.mention = identOf ident m := by
      simpa using List.find?_some found
    obtain ⟨x, member, rfl⟩ := List.mem_map.mp (List.mem_of_find?_eq_some found)
    obtain ⟨above, below, at_call⟩ := drawn x member
    rw [result]
    exact ⟨x.call, above, below, at_call, .inl ⟨x, member, same, rfl⟩⟩
  · obtain ⟨_, nbytes, size, call, above, below, made⟩ := drawPlaceholder_call free
    rw [result]
    refine ⟨call, by omega, by simp only; omega, ⟨_, nbytes, size, made⟩, .inr ⟨?_, above⟩⟩
    intro x member
    simpa using List.find?_eq_none.mp absent _ (List.mem_map_of_mem member)

/-- The converse of the step lemma: placeholders that end two texts alike are those of a
pair that is like the others. -/
theorem Twin.alike_of_append (twin : Twin ident urandom sessionId low done twins ledger ledger')
    (alike : Alike ident done) {m m' : Mention} (mine : m.sessionId = sessionId)
    (mine' : m'.sessionId = sessionId)
    (free : (placeholderOf ident urandom ledger m.sessionId m.entityType m.value).2.exhausted =
      ledger.exhausted)
    (free' : (placeholderOf ident urandom ledger' m'.sessionId m'.entityType m'.value).2.exhausted =
      ledger'.exhausted) {high : Nat} (distinct : DistinctDraws urandom low high)
    (within : (placeholderOf ident urandom ledger m.sessionId m.entityType m.value).2.draws ≤ high)
    (within' : (placeholderOf ident urandom ledger' m'.sessionId m'.entityType m'.value).2.draws ≤
      high) {x y : Text}
    (same : x ++ (placeholderOf ident urandom ledger m.sessionId m.entityType m.value).1 =
      y ++ (placeholderOf ident urandom ledger' m'.sessionId m'.entityType m'.value).1) :
    ∀ z ∈ twins, identOf ident z.left.mention = identOf ident m ↔
      identOf ident z.right.mention = identOf ident m' := by
  have draws := twin.draws
  have started := twin.started
  have drawn' : ∀ z ∈ twins, low ≤ z.call ∧ z.call < ledger'.draws ∧
      DrawnAt urandom z.call z.right.placeholder := by
    intro z member
    rw [twin.draws, twin.placeholder z member]
    exact twin.drawn z member
  obtain ⟨call, above, below, at_call, outcome⟩ :=
    placeholderOf_call twin.drawn started (mine ▸ twin.left) free
  obtain ⟨call', above', below', at_call', outcome'⟩ :=
    placeholderOf_call drawn' (by omega) (mine' ▸ twin.right) free'
  -- equal outputs come from one draw
  obtain rfl : call = call' := drawnAt_inj distinct above (by omega) above' (by omega) at_call
    at_call' same
  rcases outcome with ⟨z, member, left, at_z⟩ | ⟨unknown, new⟩
  · rcases outcome' with ⟨w, member', right, at_w⟩ | ⟨_, new'⟩
    · -- one draw, one issue: the counterparts of the two mentions are a pair looked up before
      obtain rfl : z = w := twin.call_inj member member' (at_z.trans at_w.symm)
      intro v among
      have pair := alike _ (twin.origin v among) _ (twin.origin z member)
      rw [← left, ← right]
      exact pair
    · have before := (twin.drawn z member).2.1
      omega
  · rcases outcome' with ⟨w, member', _, at_w⟩ | ⟨unknown', _⟩
    · have before := (twin.drawn w member').2.1
      omega
    · exact fun v among => iff_of_false (unknown v among) (unknown' v among)

end

/-! ## Runs -/

theorem drawPlaceholder_le (urandom : Urandom) (taken : Text → Bool) (entityType : Text)
    (sizes : List Nat) (draws : Nat) :
    draws ≤ (drawPlaceholder urandom taken entityType sizes draws).2 := by
  induction sizes generalizing draws with
  | nil => exact Nat.le_refl _
  | cons nbytes sizes ih =>
    rw [drawPlaceholder]
    split
    · exact Nat.le_of_succ_le (ih (draws + 1))
    · exact Nat.le_succ _

variable (ident urandom) in
theorem placeholderOf_draws (ledger : Ledger) (sessionId entityType value : Text) :
    ledger.draws ≤ (placeholderOf ident urandom ledger sessionId entityType value).2.draws := by
  have drawn := drawPlaceholder_le urandom (taken ledger.issues sessionId) entityType drawSizes
    ledger.draws
  rw [placeholderOf]
  split
  · exact Nat.le_refl _
  · split
    all_goals
      next result =>
        rw [result] at drawn
        exact Nat.le_succ_of_le drawn

theorem issueAll_cons (m : Mention) (ms : List Mention) (ledger : Ledger) :
    issueAll ident urandom (m :: ms) ledger =
      ((placeholderOf ident urandom ledger m.sessionId m.entityType m.value).1 ::
          (issueAll ident urandom ms
            (placeholderOf ident urandom ledger m.sessionId m.entityType m.value).2).1,
        (issueAll ident urandom ms
          (placeholderOf ident urandom ledger m.sessionId m.entityType m.value).2).2) := rfl

theorem length_issueAll (ms : List Mention) :
    ∀ ledger, (issueAll ident urandom ms ledger).1.length = ms.length := by
  induction ms with
  | nil => exact fun _ => rfl
  | cons m ms ih => exact fun ledger => congrArg (· + 1) (ih _)

variable (ident urandom) in
/-- The two counters of a run, of draws and of exhausted searches, never go back; by induction on
the mentions. -/
theorem issueAll_counters (ms : List Mention) : ∀ ledger,
    ledger.exhausted ≤ (issueAll ident urandom ms ledger).2.exhausted ∧
      ledger.draws ≤ (issueAll ident urandom ms ledger).2.draws := by
  induction ms with
  | nil => exact fun ledger => ⟨Nat.le_refl _, Nat.le_refl _⟩
  | cons m ms ih =>
    intro ledger
    obtain ⟨exhausted, draws⟩ := ih
      (placeholderOf ident urandom ledger m.sessionId m.entityType m.value).2
    have counted :=
      (placeholderOf_step ident urandom ledger m.sessionId m.entityType m.value).2.counted
    have drawn := placeholderOf_draws ident urandom ledger m.sessionId
      m.entityType m.value
    rw [issueAll_cons]
    exact ⟨Nat.le_trans counted exhausted, Nat.le_trans drawn draws⟩

/-- A run of mentions that never runs out of draws does so neither on the first mention nor on the
rest. -/
theorem issueAll_free {m : Mention} {ms : List Mention} {ledger : Ledger}
    (free : (issueAll ident urandom (m :: ms) ledger).2.exhausted = ledger.exhausted) :
    (placeholderOf ident urandom ledger m.sessionId m.entityType m.value).2.exhausted =
        ledger.exhausted ∧
      (issueAll ident urandom ms
        (placeholderOf ident urandom ledger m.sessionId m.entityType m.value).2).2.exhausted =
        (placeholderOf ident urandom ledger m.sessionId m.entityType m.value).2.exhausted := by
  have counted :=
    (placeholderOf_step ident urandom ledger m.sessionId m.entityType m.value).2.counted
  have later := (issueAll_counters ident urandom ms
    (placeholderOf ident urandom ledger m.sessionId m.entityType m.value).2).1
  simp only [issueAll_cons] at free
  omega

/-- Two mentions of the session with the same type, whatever their values are. -/
structure Counterparts (sessionId : Text) (p : Mention × Mention) : Prop where
  left : p.1.sessionId = sessionId
  right : p.2.sessionId = sessionId
  types : p.2.entityType = p.1.entityType

section

variable {sessionId : Text} {low : Nat} {pairs : List (Mention × Mention)}
  (counterparts : ∀ p ∈ pairs, Counterparts sessionId p)

include counterparts

/-- The run lemma: two runs of mentions whose pairs are alike are given the same placeholders one by
one, and the ledgers stay twins. -/
theorem Twin.run : ∀ {done : List (Mention × Mention)} {twins : List TwinIssue}
    {ledger ledger' : Ledger}, Twin ident urandom sessionId low done twins ledger ledger' →
    Alike ident (pairs.reverse ++ done) →
    (issueAll ident urandom (pairs.map Prod.fst) ledger).2.exhausted = ledger.exhausted →
    (issueAll ident urandom (pairs.map Prod.snd) ledger').2.exhausted = ledger'.exhausted →
    (issueAll ident urandom (pairs.map Prod.snd) ledger').1 =
        (issueAll ident urandom (pairs.map Prod.fst) ledger).1 ∧
      ∃ twins', Twin ident urandom sessionId low (pairs.reverse ++ done) twins'
        (issueAll ident urandom (pairs.map Prod.fst) ledger).2
        (issueAll ident urandom (pairs.map Prod.snd) ledger').2 := by
  -- by induction on the pairs, the twin ledgers growing side by side
  induction pairs with
  | nil => exact fun {_ twins _ _} twin _ _ _ => ⟨rfl, twins, twin⟩
  | cons p pairs ih =>
    obtain ⟨mine, mine', types⟩ := counterparts p List.mem_cons_self
    have later : ∀ q ∈ pairs, Counterparts sessionId q :=
      fun q member => counterparts q (List.mem_cons_of_mem _ member)
    intro done twins ledger ledger' twin alike free free'
    rw [List.reverse_cons, List.append_assoc, List.singleton_append] at alike
    obtain ⟨free_first, free_rest⟩ := issueAll_free free
    obtain ⟨free_first', free_rest'⟩ := issueAll_free free'
    have stored := twin.alike_stored (alike.mono (List.subset_append_right _ _))
    obtain ⟨same, twins', next⟩ := twin.step mine mine' types stored free_first free_first'
    obtain ⟨rest, twins'', after⟩ := ih later next alike free_rest free_rest'
    rw [List.map_cons, List.map_cons, issueAll_cons, issueAll_cons, List.reverse_cons,
      List.append_assoc, List.singleton_append]
    exact ⟨by rw [same, rest], twins'', after⟩

/-- Its converse: if the placeholders make the same text of some pieces and the draws do not
repeat, the pairs are alike. -/
theorem Twin.of_weave {high : Nat} (distinct : DistinctDraws urandom low high) :
    ∀ {parts : List Text} {done : List (Mention × Mention)} {twins : List TwinIssue}
    {ledger ledger' : Ledger}, parts.length = pairs.length + 1 →
    Twin ident urandom sessionId low done twins ledger ledger' → Alike ident done →
    (issueAll ident urandom (pairs.map Prod.fst) ledger).2.exhausted = ledger.exhausted →
    (issueAll ident urandom (pairs.map Prod.snd) ledger').2.exhausted = ledger'.exhausted →
    (issueAll ident urandom (pairs.map Prod.fst) ledger).2.draws ≤ high →
    (issueAll ident urandom (pairs.map Prod.snd) ledger').2.draws ≤ high →
    Edit.weave parts (issueAll ident urandom (pairs.map Prod.fst) ledger).1.reverse =
      Edit.weave parts (issueAll ident urandom (pairs.map Prod.snd) ledger').1.reverse →
    Alike ident (pairs.reverse ++ done) := by
  induction pairs with
  | nil => exact fun _ _ alike _ _ _ _ _ => alike
  | cons p pairs ih =>
    obtain ⟨mine, mine', types⟩ := counterparts p List.mem_cons_self
    have later : ∀ q ∈ pairs, Counterparts sessionId q :=
      fun q member => counterparts q (List.mem_cons_of_mem _ member)
    intro parts done twins ledger ledger' fit twin alike free free' within within' same
    obtain ⟨free_first, free_rest⟩ := issueAll_free free
    obtain ⟨free_first', free_rest'⟩ := issueAll_free free'
    simp only [List.map_cons, issueAll_cons, List.reverse_cons] at within within' same
    have drawn := (issueAll_counters ident urandom (pairs.map Prod.fst)
      (placeholderOf ident urandom ledger p.1.sessionId p.1.entityType p.1.value).2).2
    have drawn' := (issueAll_counters ident urandom (pairs.map Prod.snd)
      (placeholderOf ident urandom ledger' p.2.sessionId p.2.entityType p.2.value).2).2
    -- the first placeholder looked up is the last one in the text
    rcases List.eq_nil_or_concat parts with rfl | ⟨init, last, rfl⟩
    · cases fit
    rw [List.concat_eq_append] at fit same
    have fit_init : init.length = pairs.length + 1 := by
      simpa using fit
    rw [Edit.weave_concat (by simp [length_issueAll, fit_init]),
      Edit.weave_concat (by simp [length_issueAll, fit_init])] at same
    have ends := List.append_cancel_right same
    have stored := twin.alike_of_append alike mine mine' free_first free_first' distinct
      (Nat.le_trans drawn within) (Nat.le_trans drawn' within') ends
    obtain ⟨placeholder, twins', next⟩ := twin.step mine mine' types stored free_first free_first'
    rw [placeholder] at ends
    have rest := ih later fit_init next (twin.alike_cons alike stored) free_rest free_rest' within
      within' (List.append_cancel_right ends)
    rwa [List.reverse_cons, List.append_assoc, List.singleton_append]

end

end Ledger

end RedactGate
