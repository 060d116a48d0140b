import RedactGate.Redaction.Replacements
import RedactGate.Redaction.TwinLedgers

/-!
# Two requests side by side

A request over the ledger: the pieces of each text between its spans, with the
placeholders of the spans between them. Two requests whose texts have the same pieces and
whose spans have the same types are rewritten alike if and only if the ledger tells their
values apart alike.
-/
namespace RedactGate

open Library

variable {Score : Type}

/-- The text outside the spans. -/
def outside (job : Text × List (EntitySpan Score)) : List Text :=
  pieces job.1 0 (job.2.map EntitySpan.stretch)

/-- What the spans of a text cover, in reading order. -/
def jobMentions (sessionId : Text) (job : Text × List (EntitySpan Score)) : List Mention :=
  job.2.map (mentionOf sessionId job.1)

/-- The texts agree outside the spans, and the spans correspond in order and type. -/
structure SameOutside (job job' : Text × List (EntitySpan Score)) : Prop where
  outside : outside job' = outside job
  types : job'.2.map EntitySpan.entityType = job.2.map EntitySpan.entityType

/-- The values of two requests, span by span and text by text, as pairs of mentions of one session. -/
def mentionPairs (sessionId : Text) (jobs jobs' : List (Text × List (EntitySpan Score))) :
    List (Mention × Mention) :=
  (List.zipWith (fun job job' => (jobMentions sessionId job).zip (jobMentions sessionId job'))
    jobs jobs').flatten

namespace Ledger

section

variable (ident : Text → Text → Text → Text) (urandom : Urandom)

/-- The texts of a request, rewritten under a session one after the other: what stands outside the
spans woven with the placeholders. -/
def rewriteTexts (sessionId : Text) :
    List (Text × List (EntitySpan Score)) → Ledger → List Text × Ledger
  | [], ledger => ([], ledger)
  | job :: jobs, ledger =>
    -- `tokenize` takes the spans from right to left
    let (news, ledger) := issueAll ident urandom (jobMentions sessionId job).reverse ledger
    let (outs, ledger) := rewriteTexts sessionId jobs ledger
    (Edit.weave (outside job) news.reverse :: outs, ledger)

end

variable {ident : Text → Text → Text → Text} {urandom : Urandom}

theorem inserted_eq_issueAll (sessionId text : Text) (todo : List (EntitySpan Score)) :
    ∀ ledger, inserted ident urandom sessionId text todo ledger =
      (issueAll ident urandom (todo.map (mentionOf sessionId text)) ledger).1 := by
  induction todo with
  | nil => exact fun _ => rfl
  | cons span todo ih => exact fun ledger => congrArg (_ :: ·) (ih _)

theorem foldl_eq_issueAll (sessionId text : Text) (todo : List (EntitySpan Score)) :
    ∀ out ledger, (todo.foldl (tokenizeSpan ident urandom sessionId text) (out, ledger)).2 =
      (issueAll ident urandom (todo.map (mentionOf sessionId text)) ledger).2 := by
  induction todo with
  | nil => exact fun _ _ => rfl
  | cons span todo ih => exact fun out ledger => ih _ _

theorem rewriteTexts_cons (sessionId : Text) (job : Text × List (EntitySpan Score))
    (jobs : List (Text × List (EntitySpan Score))) (ledger : Ledger) :
    rewriteTexts ident urandom sessionId (job :: jobs) ledger =
      (Edit.weave (outside job)
          (issueAll ident urandom (jobMentions sessionId job).reverse ledger).1.reverse ::
          (rewriteTexts ident urandom sessionId jobs
            (issueAll ident urandom (jobMentions sessionId job).reverse ledger).2).1,
        (rewriteTexts ident urandom sessionId jobs
          (issueAll ident urandom (jobMentions sessionId job).reverse ledger).2).2) := rfl

variable (ident urandom) in
/-- The counters of a request, of draws and of exhausted searches, never go back; by induction on
its texts. -/
theorem rewriteTexts_counters (sessionId : Text) (jobs : List (Text × List (EntitySpan Score))) :
    ∀ ledger, ledger.exhausted ≤ (rewriteTexts ident urandom sessionId jobs ledger).2.exhausted ∧
      ledger.draws ≤ (rewriteTexts ident urandom sessionId jobs ledger).2.draws := by
  induction jobs with
  | nil => exact fun _ => ⟨Nat.le_refl _, Nat.le_refl _⟩
  | cons job jobs ih =>
    intro ledger
    have first := issueAll_counters ident urandom
      (jobMentions sessionId job).reverse ledger
    have rest := ih (issueAll ident urandom (jobMentions sessionId job).reverse ledger).2
    rw [rewriteTexts_cons]
    exact ⟨Nat.le_trans first.1 rest.1, Nat.le_trans first.2 rest.2⟩

/-- A request that never runs out of draws does so neither in its first text nor in the rest: the
counter of exhausted searches only grows. -/
theorem rewriteTexts_free {sessionId : Text} {job : Text × List (EntitySpan Score)}
    {jobs : List (Text × List (EntitySpan Score))} {ledger : Ledger}
    (free : (rewriteTexts ident urandom sessionId (job :: jobs) ledger).2.exhausted =
      ledger.exhausted) :
    (issueAll ident urandom (jobMentions sessionId job).reverse ledger).2.exhausted =
        ledger.exhausted ∧
      (rewriteTexts ident urandom sessionId jobs
        (issueAll ident urandom (jobMentions sessionId job).reverse ledger).2).2.exhausted =
        (issueAll ident urandom (jobMentions sessionId job).reverse ledger).2.exhausted := by
  have first := (issueAll_counters ident urandom
    (jobMentions sessionId job).reverse ledger).1
  have rest := (rewriteTexts_counters ident urandom sessionId jobs
    (issueAll ident urandom (jobMentions sessionId job).reverse ledger).2).1
  simp only [rewriteTexts_cons] at free
  omega

/-! ## Two texts -/

section

variable {sessionId : Text} {job job' : Text × List (EntitySpan Score)}
  (same : SameOutside job job')

include same

variable (sessionId) in
theorem length_jobMentions :
    (jobMentions sessionId job').length = (jobMentions sessionId job).length := by
  have lengths := congrArg List.length same.types
  simpa [jobMentions] using lengths

theorem counterparts_of_sameOutside :
    ∀ p ∈ (jobMentions sessionId job).zip (jobMentions sessionId job'),
      Counterparts sessionId p := by
  intro p member
  obtain ⟨i, at_i⟩ := List.mem_iff_getElem?.mp member
  have types := congrArg (fun types : List Text => types[i]?) same.types
  simp only [List.getElem?_map] at types
  rw [List.zip, List.getElem?_zipWith, jobMentions, jobMentions, List.getElem?_map,
    List.getElem?_map] at at_i
  cases span : job.2[i]? with
  | none => simp [span] at at_i
  | some s =>
    cases span' : job'.2[i]? with
    | none => simp [span'] at at_i
    | some s' =>
      rw [span, span'] at at_i types
      obtain rfl := Option.some.inj at_i
      exact ⟨rfl, rfl, Option.some.inj types⟩

variable (sessionId) in
/-- The pairs of two texts with as many spans, in the order in which their mentions are looked up. -/
theorem map_reverse_zip :
    ((jobMentions sessionId job).zip (jobMentions sessionId job')).reverse.map Prod.fst =
        (jobMentions sessionId job).reverse ∧
      ((jobMentions sessionId job).zip (jobMentions sessionId job')).reverse.map Prod.snd =
        (jobMentions sessionId job').reverse := by
  have lengths := length_jobMentions sessionId same
  rw [List.map_reverse, List.map_reverse, List.map_fst_zip (Nat.le_of_eq lengths.symm),
    List.map_snd_zip (Nat.le_of_eq lengths)]
  exact ⟨rfl, rfl⟩

variable {low : Nat} {done : List (Mention × Mention)} {twins : List TwinIssue}
  {ledger ledger' : Ledger}

/-- Two texts that have the same characters outside their spans, and whose pairs are alike, are
rewritten alike, and the ledgers stay twins. -/
theorem Twin.same_text (twin : Twin ident urandom sessionId low done twins ledger ledger')
    (alike : Alike ident
      ((jobMentions sessionId job).zip (jobMentions sessionId job') ++ done))
    (free : (issueAll ident urandom (jobMentions sessionId job).reverse ledger).2.exhausted =
      ledger.exhausted)
    (free' : (issueAll ident urandom (jobMentions sessionId job').reverse ledger').2.exhausted =
      ledger'.exhausted) :
    (issueAll ident urandom (jobMentions sessionId job').reverse ledger').1 =
        (issueAll ident urandom (jobMentions sessionId job).reverse ledger).1 ∧
      ∃ twins', Twin ident urandom sessionId low
        ((jobMentions sessionId job).zip (jobMentions sessionId job') ++ done) twins'
        (issueAll ident urandom (jobMentions sessionId job).reverse ledger).2
        (issueAll ident urandom (jobMentions sessionId job').reverse ledger').2 := by
  obtain ⟨lefts, rights⟩ := map_reverse_zip sessionId same
  have counterparts : ∀ p ∈
      ((jobMentions sessionId job).zip (jobMentions sessionId job')).reverse,
      Counterparts sessionId p := fun p member =>
    counterparts_of_sameOutside same p (List.mem_reverse.mp member)
  have run := twin.run counterparts
  rw [List.reverse_reverse, lefts, rights] at run
  exact run alike free free'

/-- Two texts that are rewritten alike have pairs that are alike, if the draws do not repeat: the
same placeholder then comes from the same draw. -/
theorem Twin.alike_text (twin : Twin ident urandom sessionId low done twins ledger ledger')
    (alike : Alike ident done)
    (free : (issueAll ident urandom (jobMentions sessionId job).reverse ledger).2.exhausted =
      ledger.exhausted)
    (free' : (issueAll ident urandom (jobMentions sessionId job').reverse ledger').2.exhausted =
      ledger'.exhausted)
    {high : Nat} (distinct : DistinctDraws urandom low high)
    (within : (issueAll ident urandom (jobMentions sessionId job).reverse ledger).2.draws ≤ high)
    (within' : (issueAll ident urandom (jobMentions sessionId job').reverse ledger').2.draws ≤ high)
    (outs : Edit.weave (outside job)
        (issueAll ident urandom (jobMentions sessionId job).reverse ledger).1.reverse =
      Edit.weave (outside job')
        (issueAll ident urandom (jobMentions sessionId job').reverse ledger').1.reverse) :
    Alike ident ((jobMentions sessionId job).zip (jobMentions sessionId job') ++ done) := by
  obtain ⟨lefts, rights⟩ := map_reverse_zip sessionId same
  have counterparts : ∀ p ∈
      ((jobMentions sessionId job).zip (jobMentions sessionId job')).reverse,
      Counterparts sessionId p := fun p member =>
    counterparts_of_sameOutside same p (List.mem_reverse.mp member)
  -- the pieces of the text outside are one more than the placeholders between them
  have fit : (outside job).length =
      ((jobMentions sessionId job).zip (jobMentions sessionId job')).reverse.length + 1 := by
    rw [List.length_reverse, List.length_zip, length_jobMentions sessionId same, Nat.min_self,
      outside,
      length_pieces, jobMentions, List.length_map, List.length_map]
  have run := Twin.of_weave counterparts distinct fit twin alike
  rw [List.reverse_reverse, lefts, rights] at run
  rw [same.outside] at outs
  exact run free free' within within' outs

end

/-! ## Two requests -/

section

variable {sessionId : Text} {low : Nat} {jobs jobs' : List (Text × List (EntitySpan Score))}
  (same : List.Forall₂ SameOutside jobs jobs')

include same

/-- The run lemma: requests whose pairs of mentions are alike are rewritten alike text by text,
unless draws run out in one of them. -/
theorem Twin.same_texts : ∀ {done : List (Mention × Mention)} {twins : List TwinIssue}
    {ledger ledger' : Ledger}, Twin ident urandom sessionId low done twins ledger ledger' →
    Alike ident (mentionPairs sessionId jobs jobs' ++ done) →
    (rewriteTexts ident urandom sessionId jobs ledger).2.exhausted = ledger.exhausted →
    (rewriteTexts ident urandom sessionId jobs' ledger').2.exhausted = ledger'.exhausted →
    (rewriteTexts ident urandom sessionId jobs' ledger').1 =
      (rewriteTexts ident urandom sessionId jobs ledger).1 := by
  induction same with
  | nil => exact fun _ _ _ _ => rfl
  | @cons job job' jobs jobs' same _ ih =>
    intro done twins ledger ledger' twin alike free free'
    obtain ⟨free_first, free_rest⟩ := rewriteTexts_free free
    obtain ⟨free_first', free_rest'⟩ := rewriteTexts_free free'
    have pairs : mentionPairs sessionId (job :: jobs) (job' :: jobs') =
        (jobMentions sessionId job).zip (jobMentions sessionId job') ++
          mentionPairs sessionId jobs jobs' := rfl
    rw [pairs] at alike
    obtain ⟨news, twins', next⟩ := twin.same_text same (alike.mono (by simp)) free_first
      free_first'
    have rest := ih next (alike.mono (by simp [List.append_subset])) free_rest free_rest'
    rw [rewriteTexts_cons, rewriteTexts_cons, rest, news, same.outside]

/-- The converse of the run lemma: requests that are rewritten alike have pairs of mentions that are
alike, if the draws do not repeat. -/
theorem Twin.alike_texts {high : Nat} (distinct : DistinctDraws urandom low high) :
    ∀ {done : List (Mention × Mention)} {twins : List TwinIssue} {ledger ledger' : Ledger},
    Twin ident urandom sessionId low done twins ledger ledger' → Alike ident done →
    (rewriteTexts ident urandom sessionId jobs ledger).2.exhausted = ledger.exhausted →
    (rewriteTexts ident urandom sessionId jobs' ledger').2.exhausted = ledger'.exhausted →
    (rewriteTexts ident urandom sessionId jobs ledger).2.draws ≤ high →
    (rewriteTexts ident urandom sessionId jobs' ledger').2.draws ≤ high →
    (rewriteTexts ident urandom sessionId jobs' ledger').1 =
      (rewriteTexts ident urandom sessionId jobs ledger).1 →
    Alike ident (mentionPairs sessionId jobs jobs' ++ done) := by
  -- text by text: what the first text looked up is a hypothesis for the rest
  induction same with
  | nil => exact fun _ alike _ _ _ _ _ => alike
  | @cons job job' jobs jobs' same _ ih =>
    intro done twins ledger ledger' twin alike free free' within within' outs
    obtain ⟨free_first, free_rest⟩ := rewriteTexts_free free
    obtain ⟨free_first', free_rest'⟩ := rewriteTexts_free free'
    have drawn := (rewriteTexts_counters ident urandom sessionId jobs
      (issueAll ident urandom (jobMentions sessionId job).reverse ledger).2).2
    have drawn' := (rewriteTexts_counters ident urandom sessionId jobs'
      (issueAll ident urandom (jobMentions sessionId job').reverse ledger').2).2
    simp only [rewriteTexts_cons] at within within' outs
    obtain ⟨first, rest⟩ := List.cons.inj outs
    have alike_first := twin.alike_text same alike free_first free_first' distinct
      (Nat.le_trans drawn within) (Nat.le_trans drawn' within') first.symm
    obtain ⟨_, twins', next⟩ := twin.same_text same alike_first free_first free_first'
    have alike_all := ih next alike_first free_rest free_rest' within within' rest
    have pairs : mentionPairs sessionId (job :: jobs) (job' :: jobs') =
        (jobMentions sessionId job).zip (jobMentions sessionId job') ++
          mentionPairs sessionId jobs jobs' := rfl
    rw [pairs]
    refine alike_all.mono fun p member => ?_
    simp only [List.mem_append] at member ⊢
    tauto

end

end Ledger

/-! ## The vault -/

section

variable {vault : Vault}

/-- What `tokenize` makes of a text with spans in reading order is the text outside the spans woven
with the placeholders that the ledger issues. -/
theorem tokenize_rewrites (laws : AesGcmLaws vault.crypto) {ledger : Ledger} {st : VaultState}
    (refines : Refines vault ledger st) (sessionId : Text)
    {job : Text × List (EntitySpan Score)} (reading : InReadingOrder job.1 job.2) :
    (vault.tokenize st job.1 job.2 sessionId).1 = Edit.weave (outside job)
        (Ledger.issueAll vault.fingerprint vault.urandom
          (jobMentions sessionId job).reverse ledger).1.reverse ∧
      Refines vault (Ledger.issueAll vault.fingerprint vault.urandom
          (jobMentions sessionId job).reverse ledger).2
        (vault.tokenize st job.1 job.2 sessionId).2 := by
  have mentions : (Vault.rightToLeft job.2).map (mentionOf sessionId job.1) =
      (jobMentions sessionId job).reverse := by
    rw [reading.rightToLeft, List.map_reverse, jobMentions]
  constructor
  · rw [(Vault.tokenize_eq_patch vault st reading.placed sessionId).1, Edit.patch_eq_weave,
      Vault.stretches_replacements st reading, Vault.replacements, List.map_reverse,
      Vault.new_edits, insertedPlaceholders_refines laws _ _ _ refines,
      Ledger.inserted_eq_issueAll, mentions]
    rfl
  · have next := (tokenize_refines laws refines job.1 job.2 sessionId).2
    rwa [Ledger.tokenize, Ledger.foldl_eq_issueAll, mentions] at next

/-- The vault rewrites the texts of a request as the ledger does, text after text, and the state
after each of them refines the ledger after it. -/
theorem tokenizeTexts_refines (laws : AesGcmLaws vault.crypto) (sessionId : Text)
    {jobs : List (Text × List (EntitySpan Score))}
    (reading : ∀ job ∈ jobs, InReadingOrder job.1 job.2) :
    ∀ {ledger : Ledger} {st : VaultState}, Refines vault ledger st →
      (RedactionPipeline.tokenizeTexts vault sessionId jobs st).1 =
          (Ledger.rewriteTexts vault.fingerprint vault.urandom sessionId jobs ledger).1 ∧
        Refines vault
          (Ledger.rewriteTexts vault.fingerprint vault.urandom sessionId jobs ledger).2
          (RedactionPipeline.tokenizeTexts vault sessionId jobs st).2 := by
  induction jobs with
  | nil => exact fun refines => ⟨rfl, refines⟩
  | cons job jobs ih =>
    obtain ⟨here, later⟩ := List.forall_mem_cons.mp reading
    intro ledger st refines
    obtain ⟨out, next⟩ := tokenize_rewrites laws refines sessionId here
    obtain ⟨outs, after⟩ := ih later next
    rw [RedactionPipeline.tokenizeTexts_cons, Ledger.rewriteTexts_cons, out, outs]
    exact ⟨rfl, after⟩

end

end RedactGate
