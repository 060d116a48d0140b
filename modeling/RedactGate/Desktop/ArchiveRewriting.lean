import RedactGate.Desktop.PartRewriting

/-!
# Rewriting an archive

The parts are rewritten one after the other, and the new archive holds the new parts and copies
of everything else. Read again, a part has the tree that it was written from.
-/
namespace RedactGate.Desktop

open Library

/-- What the code relies on of the library for archives: the entries of an archive that is
written with the names of another one are read again. -/
structure ZipLaws (zip : Zip) : Prop where
  reads : ∀ {data entries copied}, zip.entries data = .ok entries →
    copied.map (fun c => c.1.filename) = entries.map (·.info.filename) →
      ∃ entries', zip.entries (zip.write copied) = .ok entries' ∧
        entries'.map (fun e => (e.info.filename, e.data)) =
          copied.map fun c => (c.1.filename, .ok c.2)

namespace OoxmlHandler

variable {unicode : Unicode} {xml : Xml} {zip : Zip} {kind : Kind} {Plain : Bytes → Prop}

/-! ## The new archive -/

/-- What the new archive has under a name. -/
def copyOf (entries : List ZipEntry) (newParts : Dict Text Bytes) (name : Text) :
    Except FileError Bytes :=
  (newParts.get? name).elim (read entries name) .ok

theorem copyEntry_ok {entries : List ZipEntry} {newParts : Dict Text Bytes} {entry : ZipEntry}
    {copied : ZipInfo × Bytes} (done : copyEntry entries newParts entry = .ok copied) :
    copied.1.filename = entry.info.filename ∧
      copyOf entries newParts copied.1.filename = .ok copied.2 := by
  rw [copyEntry] at done
  split at done
  · next data found =>
    obtain rfl := Except.ok.inj done
    exact ⟨rfl, by rw [copyOf, found]; rfl⟩
  · next absent =>
    split at done
    · cases done
    · next data found =>
      obtain rfl := Except.ok.inj done
      exact ⟨rfl, by rw [copyOf, absent]; exact found⟩

theorem copyEntries_ok {entries rest : List ZipEntry} {newParts : Dict Text Bytes}
    {copied : List (ZipInfo × Bytes)} (done : copyEntries entries newParts rest = .ok copied) :
    copied.map (fun c => c.1.filename) = rest.map (·.info.filename) ∧
      ∀ c ∈ copied, copyOf entries newParts c.1.filename = .ok c.2 := by
  induction rest generalizing copied with
  | nil =>
    obtain rfl := Except.ok.inj done
    exact ⟨rfl, fun _ none => absurd none List.not_mem_nil⟩
  | cons entry rest ih =>
    rw [copyEntries] at done
    split at done
    · cases done
    · next first made =>
      cases later : copyEntries entries newParts rest with
      | error error =>
        rw [later] at done
        cases done
      | ok others =>
        rw [later] at done
        obtain rfl := Except.ok.inj done
        obtain ⟨name, data⟩ := copyEntry_ok made
        obtain ⟨names, datas⟩ := ih later
        exact ⟨by rw [List.map_cons, name, names, List.map_cons],
          List.forall_mem_cons.mpr ⟨data, datas⟩⟩

/-- A name of the archive is found in the new one: the copies stand in the order of the old entries,
so that the last entry of a name is a copy of the last one it had. -/
theorem read_copied {entries entries' : List ZipEntry} {newParts : Dict Text Bytes}
    {copied : List (ZipInfo × Bytes)}
    (names : copied.map (fun c => c.1.filename) = entries.map (·.info.filename))
    (datas : ∀ c ∈ copied, copyOf entries newParts c.1.filename = .ok c.2)
    (reread : entries'.map (fun e => (e.info.filename, e.data)) =
      copied.map fun c => (c.1.filename, .ok c.2)) {name : Text}
    (among : name ∈ entries.map (·.info.filename)) :
    read entries' name = copyOf entries newParts name := by
  have same : ∀ e ∈ entries', e.data = copyOf entries newParts e.info.filename := by
    intro e member
    have pair := List.mem_map_of_mem (f := fun e : ZipEntry => (e.info.filename, e.data)) member
    rw [reread] at pair
    obtain ⟨c, taken, equal⟩ := List.mem_map.mp pair
    obtain ⟨filename, data⟩ := Prod.mk.inj equal
    rw [← filename, datas c taken, ← data]
  have held : (entries'.filter (·.info.filename = name)) ≠ [] := by
    have names' : entries'.map (·.info.filename) = entries.map (·.info.filename) := by
      have firsts := congrArg (List.map Prod.fst) reread
      rw [List.map_map, List.map_map] at firsts
      exact firsts.trans names
    rw [← names'] at among
    obtain ⟨e, member, rfl⟩ := List.mem_map.mp among
    exact List.ne_nil_of_mem (List.mem_filter.mpr ⟨member, decide_eq_true rfl⟩)
  -- a name is read from the last entry that has it, and all entries of the name hold the same
  have last := List.getLast_mem held
  obtain ⟨member, named⟩ := List.mem_filter.mp last
  rw [read, List.getLast?_eq_getLast_of_ne_nil held, Option.map_some, Option.getD_some,
    same _ member, of_decide_eq_true named]

/-! ## The loop over the parts -/

/-- No two groups share a text, and none has the mark for white space. -/
structure GroupsApart (groups : List TextGroup) : Prop where
  distinct : (groups.flatMap TextGroup.slots).Nodup
  ordinary : ∀ slot ∈ groups.flatMap TextGroup.slots, Ordinary slot

/-- What is said about a part and what becomes of it: the conversation is about its groups, the tree
is rewritten by the replies, and the part is stored if something was replaced. -/
structure PartMade (unicode : Unicode) (xml : Xml) (kind : Kind) (entries : List ZipEntry)
    (newParts : Dict Text Bytes) (part : Text) (talk : List UnitAnswer) (raw : Bytes)
    (tree tree' : xml.Tree) (replies : List (List Replacement)) : Prop where
  found : readPart xml entries part = .ok (raw, tree)
  said : talk = conversation unicode (xml.view tree) (groups kind part (xml.view tree)) replies
  made : Rewritten unicode (xml.view tree) (groups kind part (xml.view tree)) replies
    (xml.view tree')
  edited : xml.Edited raw tree'
  stored : newParts.get? part = some (declaration raw ++ xml.tostring tree') ∨
    newParts.get? part = none ∧ tree' = tree

theorem parsed_of_readPart {entries : List ZipEntry} {part : Text} {raw : Bytes} {tree : xml.Tree}
    (found : readPart xml entries part = .ok (raw, tree)) :
    read entries part = .ok raw ∧ xml.fromstring raw = some tree := by
  rw [readPart] at found
  split at found
  · cases found
  · next raw' got =>
    split at found
    · cases found
    · next tree' parsed =>
      obtain ⟨rfl, rfl⟩ := Prod.mk.inj (Except.ok.inj found)
      exact ⟨got, parsed⟩

theorem walkParts_answered (laws : XmlLaws xml Plain) {entries : List ZipEntry}
    {parts : List Text} {newParts : Dict Text Bytes} {next : Dict Text Bytes → Rewriting}
    (distinct : parts.Nodup) (fresh : ∀ part ∈ parts, newParts.get? part = none)
    (apart : ∀ part ∈ parts, ∀ raw tree, readPart xml entries part = .ok (raw, tree) →
      GroupsApart (groups kind part (xml.view tree)))
    {answers : List UnitAnswer} {out : Bytes}
    (answered : (walkParts unicode xml kind entries parts newParts next).Answered answers out) :
    ∃ talks newParts' later, answers = talks.flatten ++ later ∧
      (next newParts').Answered later out ∧
      List.Forall₂ (fun part talk => ∃ raw tree tree' replies,
        PartMade unicode xml kind entries newParts' part talk raw tree tree' replies) parts talks ∧
      ∀ name ∉ parts, newParts'.get? name = newParts.get? name := by
  -- on the parts; the new parts are carried along, so that nothing is stored under a later name
  induction parts generalizing newParts answers with
  | nil => exact ⟨[], newParts, answers, rfl, answered, .nil, fun _ _ => rfl⟩
  | cons part rest ih =>
    obtain ⟨only, distinct⟩ := List.nodup_cons.mp distinct
    obtain ⟨here, fresh⟩ := List.forall_mem_cons.mp fresh
    obtain ⟨apart_here, apart⟩ := List.forall_mem_cons.mp apart
    rw [walkParts] at answered
    split at answered
    · cases answered
    · next raw tree found =>
      obtain ⟨replies, tree', changed', later, rfl, told, made, walked⟩ :=
        walkGroups_answered laws (apart_here raw tree found).distinct
          (apart_here raw tree found).ordinary answered
      have edited := walked.edited raw (.parsed (parsed_of_readPart found).2)
      -- a part is stored under its own name only, and that is not among the later ones
      have fresh' : ∀ p ∈ rest, (if changed' = true then newParts.set part
          (declaration raw ++ xml.tostring tree') else newParts).get? p = none := by
        intro p member
        have other : part ≠ p := fun same => only (same ▸ member)
        split
        · rw [Dict.get?_set, if_neg other]
          exact fresh p member
        · exact fresh p member
      obtain ⟨talks, newParts', later', rfl, told', others, frame⟩ := ih distinct fresh' apart told
      have stored := frame part only
      refine ⟨_ :: talks, newParts', later', ?_, told',
        .cons ⟨raw, tree, tree', replies, found, rfl, made, edited, ?_⟩ others, ?_⟩
      · rw [List.flatten_cons, List.append_assoc]
      · rw [stored]
        -- a part without replacements is not stored, and the archive copies it as it was
        cases changed' with
        | true => exact .inl (by rw [if_pos rfl, Dict.get?_set, if_pos rfl])
        | false => exact .inr ⟨here, (walked.unchanged rfl).2⟩
      · intro name outside
        rw [List.mem_cons, not_or] at outside
        have other : part ≠ name := fun same => outside.1 same.symm
        rw [frame name outside.2]
        split
        · rw [Dict.get?_set, if_neg other]
        · rfl

/-! ## The archive -/

/-- The data are an archive that can be opened, without two entries of one name, and all of its
entries are readable. -/
structure Archive (zip : Zip) (data : Bytes) (entries : List ZipEntry) : Prop where
  opened : zip.entries data = .ok entries
  named : (entries.map (·.info.filename)).Nodup
  readable : ∀ name ∈ entries.map (·.info.filename), ∃ bytes, read entries name = .ok bytes

/-- The parts of an archive that carry text. -/
def partsOf (unicode : Unicode) (kind : Kind) (entries : List ZipEntry) : List Text :=
  parts unicode kind (entries.map (·.info.filename))

theorem mem_partsOf {entries : List ZipEntry} {part : Text} :
    part ∈ partsOf unicode kind entries →
      part ∈ entries.map (·.info.filename) := fun member =>
  (List.mem_filter.mp ((List.mem_insertionSort _).mp member)).1

theorem Archive.nodup_parts {data : Bytes} {entries : List ZipEntry}
    (archive : Archive zip data entries) : (partsOf unicode kind entries).Nodup :=
  ((List.perm_insertionSort _ _).nodup_iff).mpr (archive.named.filter _)

/-- A rewriting of an archive that comes to its end: each part was talked about in turn, each entry
was copied or replaced, and the result was written. -/
structure ArchiveMade (unicode : Unicode) (xml : Xml) (zip : Zip) (kind : Kind)
    (entries : List ZipEntry) (answers : List UnitAnswer) (out : Bytes) (newParts : Dict Text Bytes)
    (copied : List (ZipInfo × Bytes)) (talks : List (List UnitAnswer)) : Prop where
  said : answers = talks.flatten
  copying : copyEntries entries newParts entries = .ok copied
  written : out = zip.write copied
  made : List.Forall₂ (fun part talk => ∃ raw tree tree' replies,
    PartMade unicode xml kind entries newParts part talk raw tree tree' replies)
      (partsOf unicode kind entries) talks
  others : ∀ name ∉ partsOf unicode kind entries, newParts.get? name = none

theorem rewrite_answered (laws : XmlLaws xml Plain) {data : Bytes} {entries : List ZipEntry}
    (archive : Archive zip data entries)
    (apart : ∀ part ∈ partsOf unicode kind entries, ∀ raw tree,
      readPart xml entries part = .ok (raw, tree) → GroupsApart (groups kind part (xml.view tree)))
    {answers : List UnitAnswer} {out : Bytes}
    (answered : (rewrite unicode xml zip kind data).Answered answers out) :
    ∃ newParts copied talks,
      ArchiveMade unicode xml zip kind entries answers out newParts copied talks := by
  rw [rewrite, archive.opened] at answered
  obtain ⟨talks, newParts, later, rfl, told, made, others⟩ := walkParts_answered laws
    archive.nodup_parts (fun _ _ => Dict.get?_empty _) apart answered
  split at told
  · cases told
  · next copied done =>
    cases told
    exact ⟨newParts, copied, talks, List.append_nil _, done, rfl, made, others⟩

/-- The units of an archive are those of its parts, one after the other, if every part can be read. -/
theorem unitsOfParts_eq {entries : List ZipEntry} {parts : List Text}
    {unitss : List (List TextUnit)}
    (read : List.Forall₂ (fun part units => ∃ raw tree,
      readPart xml entries part = .ok (raw, tree) ∧
        unitsOfPart unicode kind part (xml.view tree) = units) parts unitss) :
    unitsOfParts unicode xml kind entries parts = .ok unitss.flatten := by
  induction read with
  | nil => rfl
  | cons first _ ih =>
    obtain ⟨raw, tree, found, rfl⟩ := first
    rw [unitsOfParts, found, ih]
    rfl

section

variable (zipLaws : ZipLaws zip) {data : Bytes}
  {entries : List ZipEntry} (archive : Archive zip data entries) {answers : List UnitAnswer}
  {out : Bytes} {newParts : Dict Text Bytes} {copied : List (ZipInfo × Bytes)}
  {talks : List (List UnitAnswer)}
  (done : ArchiveMade unicode xml zip kind entries answers out newParts copied talks)

include zipLaws archive done

/-- The new archive can be opened again. It has the names of the old one in their order, and under
each of them the new part, or the old data where no part was made. -/
theorem ArchiveMade.reopened : ∃ entries', Archive zip out entries' ∧
    entries'.map (·.info.filename) = entries.map (·.info.filename) ∧
      ∀ name ∈ entries.map (·.info.filename), read entries' name = copyOf entries newParts name := by
  obtain ⟨names, datas⟩ := copyEntries_ok done.copying
  obtain ⟨entries', opened, reread⟩ := zipLaws.reads archive.opened names
  have names' : entries'.map (·.info.filename) = entries.map (·.info.filename) := by
    have firsts := congrArg (List.map Prod.fst) reread
    rw [List.map_map, List.map_map] at firsts
    exact firsts.trans names
  have found {name : Text} (among : name ∈ entries.map (·.info.filename)) :
      read entries' name = copyOf entries newParts name := read_copied names datas reread among
  refine ⟨entries', ⟨done.written ▸ opened, names' ▸ archive.named, fun name among => ?_⟩, names',
    fun name among => found among⟩
  rw [names'] at among
  rw [found among, copyOf]
  -- a part is read back as it was written, any other entry as it was copied
  cases newParts.get? name with
  | none => exact archive.readable name among
  | some data => exact ⟨data, rfl⟩

end

/-- A part of the new archive that is read again has the tree that it was written from, be it
serialized anew or copied. -/
theorem PartMade.reread (laws : XmlLaws xml Plain) {entries entries' : List ZipEntry}
    {newParts : Dict Text Bytes} {part : Text} {talk : List UnitAnswer} {raw : Bytes}
    {tree tree' : xml.Tree} {replies : List (List Replacement)}
    (made : PartMade unicode xml kind entries newParts part talk raw tree tree' replies)
    (plain : Plain raw) (copied : read entries' part = copyOf entries newParts part) :
    ∃ raw' tree'', readPart xml entries' part = .ok (raw', tree'') ∧
      xml.view tree'' = xml.view tree' ∧ Plain raw' := by
  obtain ⟨got, parsed⟩ := parsed_of_readPart made.found
  rcases made.stored with stored | ⟨absent, rfl⟩
  · obtain ⟨plain', tree'', parsed', same⟩ := laws.reads plain made.edited
    rw [copyOf, stored, Option.elim_some] at copied
    exact ⟨_, tree'', by rw [readPart, copied]; simp only [parsed'], same, plain'⟩
  · rw [copyOf, absent, Option.elim_none, got] at copied
    exact ⟨raw, tree', by rw [readPart, copied]; simp only [parsed], rfl, plain⟩

end OoxmlHandler

end RedactGate.Desktop
