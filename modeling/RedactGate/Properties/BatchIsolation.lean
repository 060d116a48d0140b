import RedactGate.Desktop.Batches

/-!
# One bad file in a batch

The second pass over a batch reports what a file raises in the entry of the file. The first
pass lets it through, unless it is the want of OCR, and then nothing is returned for any file.
-/
namespace RedactGate.Desktop

open Library

section

variable (lower : Text → Text) (handlers : Handlers) {σ : Type} (calls : Calls σ)

/-- The units of the file can be read. -/
def Readable (file : BatchFile) : Prop := ∃ units, unitsOf lower handlers file = .ok units

/-- What the handler makes of a file of a kind when its turn comes, and what of it can be shown. -/
def rewritten (direction : Direction) (lang : Text) (options : Options) (kind : Kind)
    (file : BatchFile) (s : σ) : Except FileError Bytes :=
  match direction with
  | .anonymize => (anonymizing handlers calls lang options kind file s).1
  | .restore =>
    match handlers.units kind file.name file.data with
    | .ok units =>
      match (restoring handlers calls kind file (calls.exactMap (units.map TextUnit.text) s) s).1 with
      -- a copy without a preview is an error of the file
      | .ok out => (previews kind file.data out).map fun _ => out
      | .error error => .error error
    | .error error => .error error

/-- The handler's units or rewriting of the file raises, or the file has no handler, or what it is
restored to cannot be decoded for the preview. -/
def Raises (direction : Direction) (lang : Text) (options : Options) (file : BatchFile) (s : σ) :
    Prop :=
  (∃ error, unitsOf lower handlers file = .error error) ∨
    ∃ kind error, kindOf lower file.name = .ok kind ∧
      rewritten handlers calls direction lang options kind file s = .error error

/-- From a state on, every file has its entry under its name, which is an error if and only if the
file raises in the state that it is served in. -/
inductive Served (direction : Direction) (lang : Text) (options : Options) :
    List BatchFile → σ → List Entry → Prop
  | nil (s : σ) : Served direction lang options [] s []
  | cons {file : BatchFile} {files : List BatchFile} {s : σ} {entry : Entry} {entries : List Entry}
      (named : entry.name = file.name)
      (failed : entry.isFailed = true ↔
        Raises lower handlers calls direction lang options file s)
      (later : Served direction lang options files
        (serve lower handlers calls direction lang options file s).2 entries) :
      Served direction lang options (file :: files) s (entry :: entries)

/-- A batch is returned with an entry for every file, which is an error where the file raises. -/
def Isolated (direction : Direction) (lang : Text) (options : Options) (files : List BatchFile)
    (s : σ) : Prop :=
  ∃ entries scanned, (runBatch lower handlers calls direction lang options files s).1 = .ok entries ∧
    Served lower handlers calls direction lang options files scanned entries

/-- The first pass returns: no file raises in it; or the first one that does wants OCR, every
file has a format, and no file without pages raises. -/
def Scannable (files : List BatchFile) : Prop :=
  (∀ file ∈ files, Readable lower handlers file) ∨
    (∃ front file back, files = front ++ file :: back ∧
      (∀ f ∈ front, Readable lower handlers f) ∧ unitsOf lower handlers file = .error .ocr) ∧
    ∀ file ∈ files, ∃ kind, kindOf lower file.name = .ok kind ∧
      (kind.paged = false → Readable lower handlers file)

end

variable {lower : Text → Text} {handlers : Handlers} {σ : Type} {calls : Calls σ}
  {direction : Direction} {lang : Text} {options : Options} {file : BatchFile}
  {files : List BatchFile} {s : σ}

/-! ## The second pass -/

theorem Rewriting.Fails.run {r : Rewriting} (fails : r.Fails) {τ : Type}
    (fn : Text → Option Text → τ → Except FileError (List Replacement) × τ) (t : τ) :
    ∃ error, (r.run fn t).1 = .error error := by
  induction fails generalizing t with
  | fail error => exact ⟨error, rfl⟩
  | @ask text force next _ ih =>
    rw [Rewriting.run]
    split
    · next reps t' _ => exact ih reps t'
    · next error _ _ => exact ⟨error, rfl⟩

/-- What cannot be read cannot be rewritten. -/
theorem rewritten_of_units {kind : Kind} {error : FileError}
    (unread : handlers.units kind file.name file.data = .error error) :
    ∃ error, rewritten handlers calls direction lang options kind file s = .error error := by
  cases direction with
  | anonymize => exact (handlers.fails_of_units kind file.name file.data error unread).run _ _
  | restore => exact ⟨error, by simp only [rewritten, unread]⟩

/-- A file is anonymized under its own name unless it raises, and if it raises then the error is
what the call gives; there is no third case. -/
theorem anonymizeFile_spec :
    (∃ result, (anonymizeFile lower handlers calls lang options file s).1 = .ok result ∧
      result.name = file.name ∧
      ¬Raises lower handlers calls .anonymize lang options file s) ∨
    ∃ error, (anonymizeFile lower handlers calls lang options file s).1 = .error error ∧
      Raises lower handlers calls .anonymize lang options file s := by
  cases named : kindOf lower file.name with
  | error error =>
    right
    refine ⟨error, by simp only [anonymizeFile, named], .inl ⟨error, by simp only [unitsOf, named]⟩⟩
  | ok kind =>
    obtain ⟨outcome, run, s', made⟩ : ∃ outcome run s',
        anonymizing handlers calls lang options kind file s = (outcome, run, s') := ⟨_, _, _, rfl⟩
    have same : rewritten handlers calls .anonymize lang options kind file s = outcome := by
      simp only [rewritten, made]
    cases outcome with
    | error error =>
      right
      exact ⟨error, by simp only [anonymizeFile, named, made], .inr ⟨kind, error, named, same⟩⟩
    | ok out =>
      left
      refine ⟨_, by simp only [anonymizeFile, named, made]; rfl, rfl, ?_⟩
      -- a file that is written raised neither when it was read nor when it was rewritten
      rintro (⟨error, unread⟩ | ⟨kind', error, named', raised⟩)
      · simp only [unitsOf, named] at unread
        obtain ⟨error', raised⟩ := @rewritten_of_units handlers σ calls .anonymize lang options file s
          kind error unread
        cases same.symm.trans raised
      · obtain rfl : kind = kind' := Except.ok.inj (named.symm.trans named')
        cases same.symm.trans raised

/-- A file is restored under its own name unless it raises, be it in its handler or in the preview
of what comes back. -/
theorem restoreFile_spec :
    (∃ result, (restoreFile lower handlers calls file s).1 = .ok result ∧
      result.name = file.name ∧
      ¬Raises lower handlers calls .restore lang options file s) ∨
    ∃ error, (restoreFile lower handlers calls file s).1 = .error error ∧
      Raises lower handlers calls .restore lang options file s := by
  cases named : kindOf lower file.name with
  | error error =>
    right
    refine ⟨error, by simp only [restoreFile, named], .inl ⟨error, by simp only [unitsOf, named]⟩⟩
  | ok kind =>
    cases read : handlers.units kind file.name file.data with
    | error error =>
      right
      exact ⟨error, by simp only [restoreFile, named, read],
        .inl ⟨error, by simp only [unitsOf, named, read]⟩⟩
    | ok units =>
      obtain ⟨outcome, run, s', made⟩ : ∃ outcome run s', restoring handlers calls kind file
          (calls.exactMap (units.map TextUnit.text) s) s = (outcome, run, s') := ⟨_, _, _, rfl⟩
      cases outcome with
      | error error =>
        right
        exact ⟨error, by simp only [restoreFile, named, read, made],
          .inr ⟨kind, error, named, by simp only [rewritten, read, made]⟩⟩
      | ok out =>
        -- the previews come last and may raise as well, on what was restored
        cases shown : previews kind file.data out with
        | error error =>
          right
          exact ⟨error, by simp only [restoreFile, named, read, made, shown],
            .inr ⟨kind, error, named, by simp only [rewritten, read, made, shown]; rfl⟩⟩
        | ok done =>
          left
          refine ⟨_, by simp only [restoreFile, named, read, made, shown]; rfl, rfl, ?_⟩
          rintro (⟨error, unread⟩ | ⟨kind', error, named', raised⟩)
          · simp only [unitsOf, named, read] at unread
            cases unread
          · obtain rfl : kind = kind' := Except.ok.inj (named.symm.trans named')
            simp only [rewritten, read, made, shown] at raised
            cases raised

/-- The entry of a file in the results has the name of the file, and it is an error entry if and
only if the file raises in the state that it is served in. -/
theorem serve_spec : (serve lower handlers calls direction lang options file s).1.name = file.name ∧
    ((serve lower handlers calls direction lang options file s).1.isFailed = true ↔
      Raises lower handlers calls direction lang options file s) := by
  cases direction with
  | anonymize =>
    rcases @anonymizeFile_spec lower handlers σ calls lang options file s with
      ⟨result, made, named, fine⟩ | ⟨error, made, raises⟩
    · simp only [serve, made, Entry.name, Entry.isFailed]
      exact ⟨named, iff_of_false (by decide) fine⟩
    · simp only [serve, made, Entry.name, Entry.isFailed]
      exact ⟨trivial, iff_of_true trivial raises⟩
  | restore =>
    rcases @restoreFile_spec lower handlers σ calls lang options file s with
      ⟨result, made, named, fine⟩ | ⟨error, made, raises⟩
    · simp only [serve, made, Entry.name, Entry.isFailed]
      exact ⟨named, iff_of_false (by decide) fine⟩
    · simp only [serve, made, Entry.name, Entry.isFailed]
      exact ⟨trivial, iff_of_true trivial raises⟩

theorem served_serveAll (direction : Direction) (lang : Text) (options : Options)
    (files : List BatchFile) (s : σ) : Served lower handlers calls direction lang options files s
      (serveAll lower handlers calls direction lang options files s).1 := by
  induction files generalizing s with
  | nil => exact .nil s
  | cons file files ih => exact .cons serve_spec.1 serve_spec.2 (ih _)

/-! ## The first pass -/

section

variable (calm : ∀ options unit s, ∃ s', calls.prescanUnit options unit s = (.ok (), s'))

include calm

theorem prescanUnits_ok (units : List TextUnit) (s : σ) :
    ∃ s', prescanUnits calls options units s = (.ok (), s') := by
  induction units generalizing s with
  | nil => exact ⟨s, rfl⟩
  | cons unit units ih =>
    obtain ⟨s', scanned⟩ := calm options unit s
    rw [prescanUnits, scanned]
    exact ih s'

/-- Files that can be read are scanned without an error, and the scan goes on with the files behind
them. -/
theorem prescanFiles_append {front : List BatchFile}
    (readable : ∀ file ∈ front, Readable lower handlers file) (back : List BatchFile) (s : σ) :
    ∃ s', prescanFiles lower handlers calls options (front ++ back) s =
      prescanFiles lower handlers calls options back s' := by
  induction front generalizing s with
  | nil => exact ⟨s, rfl⟩
  | cons file front ih =>
    obtain ⟨⟨units, read⟩, later⟩ := List.forall_mem_cons.mp readable
    obtain ⟨s', scanned⟩ : ∃ s', prescanUnits calls options units s = (.ok (), s') :=
      prescanUnits_ok calm units s
    rw [List.cons_append, prescanFiles, read]
    simp only [scanned]
    exact ih later s'

theorem prescanFiles_ok (readable : ∀ file ∈ files, Readable lower handlers file) (s : σ) :
    ∃ s', prescanFiles lower handlers calls options files s = (.ok (), s') := by
  obtain ⟨s', scanned⟩ := prescanFiles_append calm readable [] s
  rw [List.append_nil] at scanned
  exact ⟨s', scanned⟩

/-- The scan ends at the first file that cannot be read, with the error that this file raises. -/
theorem prescanFiles_error {front back : List BatchFile} {error : FileError}
    (split : files = front ++ file :: back)
    (readable : ∀ file ∈ front, Readable lower handlers file)
    (unread : unitsOf lower handlers file = .error error) (s : σ) :
    ∃ s', prescanFiles lower handlers calls options files s = (.error error, s') := by
  subst split
  obtain ⟨s', scanned⟩ := prescanFiles_append calm readable (file :: back) s
  refine ⟨s', ?_⟩
  rw [scanned, prescanFiles, unread]

end

/-- Either all files can be read, or there is a first one that cannot and that raises an error. -/
theorem readable_or_first (lower : Text → Text) (handlers : Handlers) (files : List BatchFile) :
    (∀ file ∈ files, Readable lower handlers file) ∨ ∃ front file back error,
      files = front ++ file :: back ∧ (∀ f ∈ front, Readable lower handlers f) ∧
        unitsOf lower handlers file = .error error := by
  induction files with
  | nil => exact .inl (List.forall_mem_nil _)
  | cons file files ih =>
    cases read : unitsOf lower handlers file with
    | error error => exact .inr ⟨[], file, files, error, rfl, List.forall_mem_nil _, read⟩
    | ok units =>
      rcases ih with all | ⟨front, other, back, error, rfl, readable, unread⟩
      · exact .inl (List.forall_mem_cons.mpr ⟨⟨units, read⟩, all⟩)
      · exact .inr ⟨file :: front, other, back, error, rfl,
          List.forall_mem_cons.mpr ⟨⟨units, read⟩, readable⟩, unread⟩

/-- The first pass keeps the files that do not want OCR, in case every file has a known format; else
it raises for a file that has none. -/
theorem unpaged_spec (lower : Text → Text) (files : List BatchFile) :
    (∃ kept, unpaged lower files = .ok kept ∧
      (∀ file ∈ files, ∃ kind, kindOf lower file.name = .ok kind) ∧
      ∀ file, file ∈ kept ↔
        file ∈ files ∧ ∃ kind, kindOf lower file.name = .ok kind ∧ kind.paged = false) ∨
    ∃ error, unpaged lower files = .error error ∧
      ∃ file ∈ files, kindOf lower file.name = .error error := by
  induction files with
  | nil => exact .inl ⟨[], rfl, List.forall_mem_nil _, fun file => by simp⟩
  | cons file files ih =>
    cases named : kindOf lower file.name with
    | error error =>
      exact .inr ⟨error, by simp only [unpaged, named], file, List.mem_cons_self, named⟩
    | ok kind =>
      rcases ih with ⟨kept, found, all, among⟩ | ⟨error, raised, other, member, unnamed⟩
      · left
        refine ⟨if kind.paged then kept else file :: kept, by simp only [unpaged, named, found]; rfl,
          List.forall_mem_cons.mpr ⟨⟨kind, named⟩, all⟩, fun other => ?_⟩
        have here (other : BatchFile) (same : other = file) :
            (∃ kind, kindOf lower other.name = .ok kind ∧ kind.paged = false) ↔
              kind.paged = false := by
          subst same
          simp only [named, Except.ok.injEq, exists_eq_left']
        rw [List.mem_cons, or_and_right]
        -- files with pages are left out, but their formats are looked up all the same
        cases paged : kind.paged with
        | true =>
          rw [if_pos rfl, among]
          refine ⟨.inr, fun either => either.resolve_left fun ⟨same, kept⟩ => ?_⟩
          exact absurd (paged.symm.trans ((here other same).mp kept)) (by decide)
        | false =>
          rw [if_neg (by decide), List.mem_cons, among]
          refine or_congr_left ⟨fun same => ⟨same, (here other same).mpr paged⟩, And.left⟩
      · exact .inr ⟨error, by simp only [unpaged, named, raised]; rfl, other,
          List.mem_cons_of_mem _ member, unnamed⟩

/-- A batch is isolated if and only if it is restored, or its first pass over the files returns: the
loop that follows catches what a file raises. -/
theorem isolated_iff : Isolated lower handlers calls direction lang options files s ↔
    direction = .restore ∨
      ∃ s', prescanBatch lower handlers calls options files s = (.ok (), s') := by
  constructor
  · rintro ⟨entries, scanned, returned, _⟩
    cases direction with
    | restore => exact .inl rfl
    | anonymize =>
      right
      -- an error of the first pass is not caught, so the batch returns nothing
      rw [runBatch] at returned
      obtain ⟨outcome, s', pass⟩ : ∃ outcome s',
        prescanBatch lower handlers calls options files s = (outcome, s') := ⟨_, _, rfl⟩
      simp only [pass] at returned
      cases outcome with
      | error error => cases returned
      | ok done => exact ⟨s', pass⟩
  · intro passes
    obtain ⟨s', returned⟩ : ∃ s', (runBatch lower handlers calls direction lang options files s).1 =
        .ok (serveAll lower handlers calls direction lang options files s').1 := by
      rcases passes with rfl | ⟨s', pass⟩
      · exact ⟨s, rfl⟩
      · cases direction with
        | restore => exact ⟨s, rfl⟩
        | anonymize => exact ⟨s', by simp only [runBatch, pass]⟩
    exact ⟨_, s', returned, served_serveAll direction lang options files s'⟩

/-- A batch is returned with an entry for every file, which is an error where the file raises, if
and only if it is restored, or its first pass returns. The engine raises nothing while it scans
ahead, in any state; what the handlers of the files raise is left free. -/
theorem runBatch_isolated_iff
    (calm : ∀ options unit s, ∃ s', calls.prescanUnit options unit s = (.ok (), s')) :
    Isolated lower handlers calls direction lang options files s ↔
      direction = .restore ∨ Scannable lower handlers files := by
  rw [isolated_iff]
  refine or_congr_right ?_
  rcases readable_or_first lower handlers files with
    readable | ⟨front, file, back, error, split, readable, unread⟩
  · obtain ⟨s', scanned⟩ : ∃ s', prescanFiles lower handlers calls options files s = (.ok (), s') :=
      prescanFiles_ok calm readable s
    exact iff_of_true ⟨s', by rw [prescanBatch, scanned]⟩ (.inl readable)
  · have scanned {error : FileError} {front back : List BatchFile} {file : BatchFile}
        (split : files = front ++ file :: back)
        (readable : ∀ f ∈ front, Readable lower handlers f)
        (unread : unitsOf lower handlers file = .error error) :
        ∃ s', prescanFiles lower handlers calls options files s = (.error error, s') :=
      prescanFiles_error calm split readable unread s
    have unreadable : ¬∀ f ∈ files, Readable lower handlers f := fun all => by
      obtain ⟨units, read⟩ := all file (split ▸ List.mem_append_right _ List.mem_cons_self)
      cases unread.symm.trans read
    obtain ⟨s₁, raised⟩ := scanned split readable unread
    -- the first pass is tried again, without scans, only if OCR was what a file wanted
    by_cases wanting : error = .ocr
    · subst wanting
      rcases unpaged_spec lower files with
        ⟨kept, found, all, among⟩ | ⟨error, missing, f, member, unnamed⟩
      · rcases readable_or_first lower handlers kept with
          fine | ⟨front', file', back', error, split', readable', unread'⟩
        · obtain ⟨s₂, again⟩ : ∃ s₂, prescanFiles lower handlers calls options kept s₁ =
              (.ok (), s₂) := prescanFiles_ok calm fine s₁
          refine iff_of_true ⟨s₂, by simp only [prescanBatch, raised, found, again]⟩
            (.inr ⟨⟨front, file, back, split, readable, unread⟩, fun f member => ?_⟩)
          obtain ⟨kind, named⟩ := all f member
          exact ⟨kind, named, fun single => fine f ((among f).mpr ⟨member, kind, named, single⟩)⟩
        · obtain ⟨s₂, again⟩ : ∃ s₂, prescanFiles lower handlers calls options kept s₁ =
              (.error error, s₂) := prescanFiles_error calm split' readable' unread' s₁
          -- in the second pass an error is not caught
          refine iff_of_false (fun ⟨s', pass⟩ => ?_) fun scannable => ?_
          · simp only [prescanBatch, raised, found, again] at pass
            cases pass
          · obtain ⟨_, fine⟩ := scannable.resolve_left unreadable
            obtain ⟨member, kind, named, single⟩ :=
              (among file').mp (split' ▸ List.mem_append_right _ List.mem_cons_self)
            obtain ⟨kind', named', reads⟩ := fine file' member
            obtain rfl : kind = kind' := Except.ok.inj (named.symm.trans named')
            obtain ⟨units, read⟩ := reads single
            cases unread'.symm.trans read
      · refine iff_of_false (fun ⟨s', pass⟩ => ?_) fun scannable => ?_
        · simp only [prescanBatch, raised, missing] at pass
          cases pass
        · obtain ⟨kind, named, _⟩ := (scannable.resolve_left unreadable).2 f member
          cases unnamed.symm.trans named
    · refine iff_of_false (fun ⟨s', pass⟩ => ?_) fun scannable => ?_
      · rw [prescanBatch, raised] at pass
        cases error with
        | ocr => exact wanting rfl
        | unsupported => cases pass
        | other kind => cases pass
      · obtain ⟨⟨front', file', back', split', readable', unread'⟩, _⟩ :=
          scannable.resolve_left unreadable
        obtain ⟨s₂, again⟩ := scanned split' readable' unread'
        exact wanting (Except.error.inj (Prod.mk.inj (raised.symm.trans again)).1)

/-! ## Instances -/

/-- Handlers for which text files are one unit, images want OCR that is not there, and other files
are broken archives. -/
def sampleHandlers : Handlers where
  units kind _ data := match kind with
    | .text => .ok [⟨data.map fun b => Char.ofNat b.toNat, none⟩]
    | .image => .error .ocr
    | _ => .error (.other "BadZipFile".toList)
  rewrite kind _ data := match kind with
    | .text => .ask (data.map fun b => Char.ofNat b.toNat) none fun _ => .done data
    | .image => .fail .ocr
    | _ => .fail (.other "BadZipFile".toList)
  fails_of_units kind _ _ error unread := by
    cases kind with
    | text => cases unread
    | _ => exact .fail _

/-- Calls of an engine that finds nothing in any unit and knows no document, so that only handlers
raise. -/
def silentCalls : Calls Unit where
  prescanUnit _ _ s := (.ok (), s)
  anonymizeUnit _ _ _ _ t := (.ok [], t)
  record _ s := s
  exactMap _ _ := none
  restoreUnit _ _ t := ([], t)

/-- An image that wants OCR, which is not there, leaves the letter beside it alone: the files are
scanned again without the image. -/
theorem runBatch_isolated_scan : Isolated (List.map Char.toLower) sampleHandlers silentCalls
    .anonymize "en".toList allCategories
    [⟨"scan.PNG".toList, []⟩, ⟨"letter.txt".toList, []⟩] () := by
  refine (runBatch_isolated_iff fun _ _ _ => ⟨(), rfl⟩).mpr (.inr (.inr ⟨?_, ?_⟩))
  · exact ⟨[], _, _, rfl, List.forall_mem_nil _, rfl⟩
  · simp only [List.forall_mem_cons]
    exact ⟨⟨.image, rfl, fun single => nomatch single⟩, ⟨.text, rfl, fun _ => ⟨_, rfl⟩⟩,
      List.forall_mem_nil _⟩

/-- A broken archive raises in the pass over all files, and keeps the letter beside it from being
returned. -/
theorem archive_not_isolated : ¬Isolated (List.map Char.toLower) sampleHandlers silentCalls
    .anonymize "en".toList allCategories
    [⟨"report.docx".toList, []⟩, ⟨"letter.txt".toList, []⟩] () := by
  rintro ⟨entries, _, returned, _⟩
  have raised : (runBatch (List.map Char.toLower) sampleHandlers silentCalls .anonymize "en".toList
      allCategories [⟨"report.docx".toList, []⟩, ⟨"letter.txt".toList, []⟩] ()).1 =
      .error (.other "BadZipFile".toList) := rfl
  cases raised.symm.trans returned

end RedactGate.Desktop
