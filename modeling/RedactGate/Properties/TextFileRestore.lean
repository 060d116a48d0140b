import RedactGate.Desktop.TextFiles
import RedactGate.Properties.DecodeRoundTrip
import RedactGate.Properties.DocumentHistory

/-!
# Text files come back

A plain text file in one of the codes of Unicode is restored byte for byte from what it was
rewritten to, at any later time of the project. The copy is read in the code of the file, its
text is a document of the project, and the text that comes back is written as it was read.
-/
namespace RedactGate.Desktop

open Library

/-- What was read is written as it was, unless it was in big-endian order. -/
theorem encodeText_of_decodeText {data : Bytes} {text : Text} {codec : Codec} {bom : Bytes}
    (read : decodeText data = some (text, codec, bom)) (little : ¬[0xFE, 0xFF] <+: data) :
    encodeText text codec bom = data := by
  rcases decodeText_cases read with ⟨rfl, rfl, found, marked⟩ | ⟨plain, -, rest, rfl, found⟩
  · obtain ⟨rest, rfl⟩ := marked.resolve_right little
    exact utf16_of_little found
  · rw [encodeText, Codec.encode_of_decode plain found]

/-- A text file that a batch anonymizes is one step of the document run, and the file that results
is the encoded copy of the document that this step adds. -/
theorem step_of_anonymizeFile {lower : Text → Text} {others : Handlers} {engine : Engine}
    {run : DocumentRun} {file : BatchFile} (kind : kindOf lower file.name = .ok .text) {lang : Text}
    {options : Options} {p' : Project} {result : FileResult}
    (done : anonymizeFile lower (textHandlers others) engine.calls lang options file run.project =
      (.ok result, p')) {unit : UnitCopy} {codec : Codec} {bom : Bytes}
    (read : decodeText file.data = some (unit.text, codec, bom))
    (made : DocumentRun.documentOf engine run.project
      (.anonymizeFile lang options [(none, unit.text)]) = some [unit]) :
    DocumentRun.step engine run (.anonymizeFile lang options [(none, unit.text)]) =
        some ⟨p', [unit] :: run.documents⟩ ∧
      result.data = encodeText unit.copy codec bom := by
  obtain ⟨unit', codec', bom', read', anonymized, written⟩ :=
    anonymizeFile_text lower others engine kind done
  obtain ⟨text, rfl, rfl⟩ : unit.text = unit'.text ∧ codec = codec' ∧ bom = bom' := by
    simpa using read.symm.trans read'
  rw [← text] at anonymized
  have same : unit = unit' := by
    rw [DocumentRun.documentOf, anonymized, Option.map_some, Option.some_inj] at made
    have here : (⟨unit.text, unit'.reps⟩ : UnitCopy) = unit := List.singleton_inj.mp made
    rw [← here, text]
  subst same
  refine ⟨?_, written⟩
  rw [DocumentRun.step, Engine.act, anonymized, made]
  rfl

/-- A text file comes back from its copy, byte for byte, whatever was done in the project since it
was anonymized. No step makes a document whose labels another document has in the same order with
other spellings, nor does the file itself, and none deletes an entity that a document shows; the
search finds in the copy the labels that were put in and no others. The file is in a Unicode
encoding, not in big-endian UTF-16, and its copy does not begin with a byte order mark. -/
theorem restoreFile_of_run (engine : Engine) (tables : LabelTables engine.casing)
    (lower : Text → Text) (others : Handlers) {run run' : DocumentRun}
    (reaches : ReachesBy (DocumentRun.Keeps engine) (DocumentRun.step engine) .new run)
    {file : BatchFile} (kind : kindOf lower file.name = .ok .text) {lang : Text} {options : Options}
    {p' : Project} {result : FileResult}
    (done : anonymizeFile lower (textHandlers others) engine.calls lang options file run.project =
      (.ok result, p')) {unit : UnitCopy} {codec : Codec} {bom : Bytes}
    (read : decodeText file.data = some (unit.text, codec, bom))
    (made : DocumentRun.documentOf engine run.project
      (.anonymizeFile lang options [(none, unit.text)]) = some [unit])
    (apart : run.Apart engine [unit])
    (later : ReachesBy (DocumentRun.Keeps engine) (DocumentRun.step engine)
      ⟨p', [unit] :: run.documents⟩ run')
    (legible : unit.Legible engine.casing) (unicode : codec.unicode = true)
    (little : ¬[0xFE, 0xFF] <+: file.data) (unmarked : unit.copy.head? ≠ some '\uFEFF')
    {name : Text} (kind' : kindOf lower name = .ok .text) :
    ∃ restored p'', restoreFile lower (textHandlers others) engine.calls ⟨name, result.data⟩
        run'.project = (.ok restored, p'') ∧ restored.data = file.data := by
  obtain ⟨step, written⟩ := step_of_anonymizeFile kind done read made
  have keeps : run.Keeps engine (.anonymizeFile lang options [(none, unit.text)]) :=
    ⟨trivial, fun units same => by
      obtain rfl := Option.some.inj (made.symm.trans same)
      exact apart⟩
  have whole := (reaches.step _ keeps step).trans later
  -- a document once made stays in the run's history
  have remembered : [unit] ∈ run'.documents := by
    refine later.invariant (P := fun run => [unit] ∈ run.documents) List.mem_cons_self ?_
    intro s action s' member _ taken
    obtain ⟨p, _, rfl⟩ := Option.map_eq_some_iff.mp taken
    exact List.mem_append_right _ member
  have restored := (restorable_of_run whole).restoredTexts_eq tables remembered
    (List.forall_mem_singleton.mpr legible)
  -- the written file reads back to the copy, in the same encoding
  have again : decodeText result.data = some (unit.copy, codec, bom) :=
    written ▸ decodeText_encodeText read unicode unmarked
  rw [List.map_singleton, List.map_singleton] at restored
  have same := encodeText_of_decodeText read little
  obtain ⟨back, p'', outcome, data⟩ : ∃ back p'', restoreFile lower (textHandlers others)
      engine.calls ⟨name, result.data⟩ run'.project = (.ok back, p'') ∧ [back.data] =
        (engine.restoredTexts run'.project [unit.copy]).map fun text =>
          encodeText text codec bom := by
    refine restoreFile_text lower others engine kind' again ?_
    rw [restored, List.forall_mem_singleton, same, read]
    rfl
  refine ⟨back, p'', outcome, ?_⟩
  rw [restored, List.map_singleton] at data
  exact (List.singleton_inj.mp data).trans same

/-- A file with a byte order mark. -/
def antFile : BatchFile := ⟨"a.txt".toList, utf8Mark ++ utf8 "ТОВ «Ant»".toList⟩

def antUnit : UnitCopy :=
  ⟨"ТОВ «Ant»".toList, [⟨⟨5, 8, "Company-1".toList⟩, organisation, 1, "Ant".toList⟩]⟩

theorem restoreFile_antFile : ∃ result p' run' restored p'',
    anonymizeFile id (textHandlers noHandlers) sampleEngine.calls "en".toList allCategories antFile
      .new = (.ok result, p') ∧
    result.data = utf8Mark ++ utf8 "ТОВ «Company-1»".toList ∧
    DocumentRun.step sampleEngine ⟨p', [[antUnit]]⟩
      (.anonymizeText "uk".toList allCategories "ТОВ «Bee»".toList) = some run' ∧
    restoreFile id (textHandlers noHandlers) sampleEngine.calls ⟨"b.md".toList, result.data⟩
      run'.project = (.ok restored, p'') ∧ restored.data = antFile.data := by
  -- the first call, the second and its conditions are evaluated
  have made : (anonymizeFile id (textHandlers noHandlers) sampleEngine.calls "en".toList
      allCategories antFile .new).1.toOption.any (fun result =>
        decide (result.data = utf8Mark ++ utf8 "ТОВ «Company-1»".toList)) = true := by
    decide +kernel
  have later : (DocumentRun.step sampleEngine ⟨(anonymizeFile id (textHandlers noHandlers)
      sampleEngine.calls "en".toList allCategories antFile .new).2, [[antUnit]]⟩
      (.anonymizeText "uk".toList allCategories "ТОВ «Bee»".toList)).isSome = true := by
    decide +kernel
  have keeps : DocumentRun.Keeps sampleEngine ⟨(anonymizeFile id (textHandlers noHandlers)
      sampleEngine.calls "en".toList allCategories antFile .new).2, [[antUnit]]⟩
      (.anonymizeText "uk".toList allCategories "ТОВ «Bee»".toList) := by
    decide +kernel
  have document : DocumentRun.documentOf sampleEngine .new (.anonymizeFile "en".toList
      allCategories [(none, antUnit.text)]) = some [antUnit] := by
    decide +kernel
  obtain ⟨run', stepped⟩ := Option.isSome_iff_exists.mp later
  obtain ⟨result, found, written⟩ := (Option.any_eq_true _ _).mp made
  generalize outcome : anonymizeFile id (textHandlers noHandlers) sampleEngine.calls "en".toList
    allCategories antFile .new = after at found stepped keeps
  obtain ⟨entry, p'⟩ := after
  obtain ⟨rfl⟩ : entry = .ok result := by
    cases entry with
    | ok r => exact congrArg Except.ok (Option.some.inj found)
    | error e => cases found
  have read : decodeText antFile.data = some (antUnit.text, .utf8, utf8Mark) := by
    decide +kernel
  have markdown : kindOf id "b.md".toList = .ok .text := by decide
  obtain ⟨restored, p'', back, data⟩ := restoreFile_of_run sampleEngine labelTables_cyrillic id
    noHandlers .refl (by decide) outcome read document (by decide) (.step _ .refl keeps stepped)
    (by decide +kernel) rfl (by decide) (by decide) markdown
  exact ⟨result, p', run', restored, p'', rfl, of_decide_eq_true written, stepped, back, data⟩

end RedactGate.Desktop
