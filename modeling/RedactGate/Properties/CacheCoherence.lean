import RedactGate.Desktop.Spellings

/-!
# Coherence of the label vault

What a project has in memory is what loading its tables would give, in every run in which no
spelling is recorded for an entity under a fingerprint that the tables have of another one.
The table of variants keeps the first owner of a fingerprint while the memory follows the
last, so a spelling that two entities share tears them apart.
-/
namespace RedactGate.Desktop

open Library

/-- Two memories have the same entities with the same variants, and the same entity for
every fingerprint. -/
structure Memory.Agrees (m m' : Memory) : Prop where
  rows : ∀ key, (m.cache.get? key).map Entity.toEntityRow = (m'.cache.get? key).map Entity.toEntityRow
  variants : ∀ key e e', m.cache.get? key = some e → m'.cache.get? key = some e' →
    ∀ fp, e.variants.get? fp = e'.variants.get? fp
  index : ∀ fp, m.fpIndex.get? fp = m'.fpIndex.get? fp

/-- What is in memory is what a load would give, in whatever order the rows come. -/
def VaultFile.Coherent (st : VaultFile) : Prop :=
  ∀ m, st.memory = some m → ∀ order, m.Agrees (st.tables.load order)

/-- Memories that are coherent with the same tables on all fingerprints agree: they have the same
entities, with the same variants, and the same index. -/
theorem CoherentOn.agrees {m m' : Memory} {tables : Tables}
    (first : CoherentOn (fun _ => True) m tables) (second : CoherentOn (fun _ => True) m' tables) :
    m.Agrees m' where
  rows key := by
    apply Option.ext
    intro row
    rw [Option.map_eq_some_iff, Option.map_eq_some_iff]
    exact (first.rows key row).trans (second.rows key row).symm
  variants key e e' found found' fp := by
    apply Option.ext
    intro surface
    exact (first.variants key e found fp trivial surface).trans
      (second.variants key e' found' fp trivial surface).symm
  index fp := by
    apply Option.ext
    intro key
    exact (first.index fp trivial key).trans (second.index fp trivial key).symm

theorem GoodOn.coherent_state {st : VaultFile} (good : GoodOn (fun _ => True) st) :
    st.Coherent :=
  fun m held _ => (good.coherent m held).agrees (load_coherentOn good.sound)

/-- Memory and tables stay coherent in every run of clear steps: what is held in memory is what a
load would give, in whatever order the rows come. A step is clear if no entity but the one that it
records a spelling for has its fingerprint. -/
theorem coherent_of_clear (anon : Anonymizer) {st : VaultFile}
    (run : ReachesBy anon.Clear anon.step VaultFile.new st) : st.Coherent := by
  have good : GoodOn (fun _ => True) st := by
    refine run.invariant goodOn_new fun st action st' good clear taken => ?_
    exact good.step (fun key fp recorded _ => clear key fp recorded) taken
  exact good.coherent_state

/-! ## Two runs -/

/-- An entity that is found again under another spelling. -/
def respelled : List VaultAction :=
  [.resolve organisation "Alpha".toList, .resolve organisation "ALPHA".toList]

theorem coherent_of_clear_respelled : ∃ st, runAllowed sampleAnonymizer.Clear sampleAnonymizer.step
    VaultFile.new respelled = some st ∧ st.memory.isSome ∧ st.Coherent := by
  have clear : (runAllowed sampleAnonymizer.Clear sampleAnonymizer.step VaultFile.new
      respelled).any (·.memory.isSome) = true := by decide
  obtain ⟨st, run, held⟩ := (Option.any_eq_true _ _).mp clear
  exact ⟨st, run, held, coherent_of_clear sampleAnonymizer (reachesBy_of_runAllowed run)⟩

/-- Two entities, of which the second one gets and loses a canonical value that the first one had
before: both record it as a spelling. -/
def sharedSpelling : List VaultAction :=
  [.resolve organisation "Alpha".toList,
    .edit (organisation, 1) (some "Gamma".toList) none,
    .resolve organisation "Bravo".toList,
    .edit (organisation, 2) (some "Alpha".toList) none,
    .edit (organisation, 2) (some "Delta".toList) none]

theorem shared_spelling_incoherent : ∃ st,
    runSteps sampleAnonymizer.step VaultFile.new sharedSpelling = some st ∧ ¬ st.Coherent := by
  have apart : (runSteps sampleAnonymizer.step VaultFile.new sharedSpelling).any (fun st =>
      st.memory.any fun m => decide (
        m.fpIndex.get? (sampleAnonymizer.surfaceFp organisation "Alpha".toList) ≠
          (st.tables.load .insertion).fpIndex.get?
            (sampleAnonymizer.surfaceFp organisation "Alpha".toList))) = true := by
    decide
  obtain ⟨st, ran, apart⟩ := (Option.any_eq_true _ _).mp apart
  obtain ⟨m, held, apart⟩ := (Option.any_eq_true _ _).mp apart
  exact ⟨st, ran, fun coherent => of_decide_eq_true apart ((coherent m held .insertion).index _)⟩

end RedactGate.Desktop
