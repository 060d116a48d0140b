import RedactGate.Desktop.Batches
import RedactGate.Desktop.Nodes
import RedactGate.Library.Documents
import RedactGate.Library.Scan

/-!
# Office files

The handler of the office formats. An archive holds parts, some of which are documents with
text; the texts of a part are rewritten group by group, and a part in which something was
replaced is written anew. What reads and writes archives and documents is a parameter.
-/
namespace RedactGate.Desktop

open Library

def valueError : FileError := .other "ValueError".toList

def xmlSyntaxError : FileError := .other "XMLSyntaxError".toList

def keyError : FileError := .other "KeyError".toList

/-- What `zipfile.ZipInfo` tells of an entry, as far as it is carried over to the new archive. -/
structure ZipInfo where
  filename : Text
  dateTime : List Nat
  compressType : Nat
  externalAttr : Nat
  deriving DecidableEq

/-- `zipfile.ZIP_DEFLATED`. -/
def zipDeflated : Nat := 8

/-- An entry of an archive, with what reading it gives. -/
structure ZipEntry where
  info : ZipInfo
  data : Except FileError Bytes

/-- What reads and writes archives. -/
structure Zip where
  entries : Bytes → Except FileError (List ZipEntry)
  write : List (ZipInfo × Bytes) → Bytes

namespace OoxmlHandler

/-- A name in a name space, as the parser writes it. -/
def qualified (space name : String) : Text := '{' :: space.toList ++ '}' :: name.toList

/-- `W`. -/
def w (name : String) : Text :=
  qualified "http://schemas.openxmlformats.org/wordprocessingml/2006/main" name

/-- `A`. -/
def a (name : String) : Text :=
  qualified "http://schemas.openxmlformats.org/drawingml/2006/main" name

/-- `S`. -/
def s (name : String) : Text :=
  qualified "http://schemas.openxmlformats.org/spreadsheetml/2006/main" name

/-- `XML_SPACE`. -/
def xmlSpace : Text := qualified "http://www.w3.org/XML/1998/namespace" "space"

/-- `CORE_PERSON`: the core properties whose text is the name of a person. -/
def corePerson : List Text :=
  [qualified "http://purl.org/dc/elements/1.1/" "creator",
    qualified "http://schemas.openxmlformats.org/package/2006/metadata/core-properties"
      "lastModifiedBy"]

/-- `CORE_TEXT`: the core properties whose text is anonymized like any other. -/
def coreText : List Text :=
  [qualified "http://purl.org/dc/elements/1.1/" "title",
    qualified "http://purl.org/dc/elements/1.1/" "subject",
    qualified "http://purl.org/dc/elements/1.1/" "description",
    qualified "http://schemas.openxmlformats.org/package/2006/metadata/core-properties" "keywords"]

/-- `APP_ORG`. -/
def appOrg : List Text :=
  [qualified "http://schemas.openxmlformats.org/officeDocument/2006/extended-properties" "Company",
    qualified "http://schemas.openxmlformats.org/officeDocument/2006/extended-properties" "Manager"]

def corePart : Text := "docProps/core.xml".toList

def appPart : Text := "docProps/app.xml".toList

/-! ## Parts -/

section

variable (unicode : Unicode)

/-- The parts of a text document that are rewritten:
`word/(document|header\d*|footer\d*|footnotes|endnotes|comments)\.xml`. -/
def wordPart : Regex :=
  let digits : Regex := .star (.char fun c => (unicode.decimal c).isSome)
  .cat [.word "word/".toList,
    .oneOf [.word "document".toList, .seq (.word "header".toList) digits,
      .seq (.word "footer".toList) digits, .word "footnotes".toList, .word "endnotes".toList,
      .word "comments".toList], .word ".xml".toList]

/-- The parts of a presentation: `ppt/(slides/slide|notesSlides/notesSlide)\d+\.xml`. -/
def slidePart : Regex :=
  .cat [.word "ppt/".toList,
    .oneOf [.word "slides/slide".toList, .word "notesSlides/notesSlide".toList],
    .plus (.char fun c => (unicode.decimal c).isSome), .word ".xml".toList]

/-- A part that carries text: the two property parts, and the parts of the kind of document. -/
def isPart (kind : Kind) (n : Text) : Bool :=
  n = corePart || n = appPart ||
    kind = .docx && (wordPart unicode).fullmatch n ||
    kind = .pptx && (slidePart unicode).fullmatch n

/-- The order of the parts: the properties of the document are the last. -/
def partLE (m n : Text) : Prop :=
  let last (n : Text) : Bool := "docProps".toList.isPrefixOf n
  last m = false ∧ last n = true ∨ last m = last n ∧ ¬n < m

instance (m n : Text) : Decidable (partLE m n) := inferInstanceAs (Decidable (_ ∨ _))

/-- `_parts`. -/
def parts (kind : Kind) (names : List Text) : List Text :=
  (names.filter (isPart unicode kind)).insertionSort partLE

end

/-! ## Groups -/

/-- Texts that are read as one, with what is known of them. -/
structure TextGroup where
  slots : List Slot
  force : Option Text

/-- A group of its own for one text. -/
def TextGroup.single (slot : Slot) (force : Option Text) : TextGroup := ⟨[slot], force⟩

def PERSON : Text := "PERSON".toList

def PARTY : Text := "PARTY".toList

/-- A child of the root that has a text, as a group of its own if its tag is one of those that are
wanted. -/
def childGroup (doc : XmlDocument) (force : Text → Option (Option Text)) (el : Nat) :
    Option TextGroup :=
  if doc.content (.text el) = [] then none
  else ((doc.shape.tag el).bind force).map (TextGroup.single (.text el))

def childGroups (doc : XmlDocument) (force : Text → Option (Option Text)) : List TextGroup :=
  doc.shape.children.filterMap (childGroup doc force)

/-- The core properties of the document, those that name persons with the category forced on them. -/
def coreGroups (doc : XmlDocument) : List TextGroup :=
  childGroups doc fun tag =>
    if tag ∈ corePerson then some (some PERSON)
    else if tag ∈ coreText then some none
    else none

def appGroups (doc : XmlDocument) : List TextGroup :=
  childGroups doc fun tag => if tag ∈ appOrg then some (some PARTY) else none

/-- `_owner_p`. -/
def ownerP (shape : Shape) (el : Nat) : Option Nat := shape.owner (w "p") el

/-- The nodes of a paragraph that are in no paragraph inside it. -/
def ownNodes (shape : Shape) (p : Nat) (tag : Text) : List Nat :=
  (shape.iter p tag).filter fun t => ownerP shape t = some p

def textTags : List Text := [w "t", w "delText", w "instrText"]

/-- The runs of a paragraph: its text, what is deleted from it, and its fields. -/
def runGroups (shape : Shape) (p : Nat) : List TextGroup :=
  textTags.filterMap fun tag =>
    if ownNodes shape p tag = [] then none
    else some ⟨(ownNodes shape p tag).map Slot.text, none⟩

def paragraphGroups (shape : Shape) : List TextGroup :=
  (shape.all (w "p")).flatMap (runGroups shape)

/-- The names that are read from attributes, with what is known of them. -/
def nameAttrs : List (Text × Option Text) := [(w "author", some PERSON), (w "initials", none)]

/-- The names that an element has in its attributes, each as a group of its own unless it is empty. -/
def nameGroups (doc : XmlDocument) (el : Nat) : List TextGroup :=
  nameAttrs.filterMap fun attr =>
    if doc.content (.attr el attr.1) = [] then none
    else some (.single (.attr el attr.1) attr.2)

/-- Who has made a change or a comment. -/
def authorGroups (doc : XmlDocument) : List TextGroup :=
  doc.shape.places.flatMap (nameGroups doc)

/-- The runs of every paragraph of a slide. -/
def slideGroups (shape : Shape) : List TextGroup :=
  (shape.all (a "p")).filterMap fun p =>
    if shape.iter p (a "t") = [] then none else some ⟨(shape.iter p (a "t")).map Slot.text, none⟩

/-- `_groups`: the groups of texts of a part, by its name and by the kind of the document; a part of
another kind has none. -/
def groups (kind : Kind) (part : Text) (doc : XmlDocument) : List TextGroup :=
  if part = corePart then coreGroups doc
  else if part = appPart then appGroups doc
  else if kind = .docx then paragraphGroups doc.shape ++ authorGroups doc
  else if kind = .pptx then slideGroups doc.shape
  else []

/-- `_get`. -/
def texts (doc : XmlDocument) (group : TextGroup) : List Text := group.slots.map doc.content

section

variable (unicode : Unicode)

/-- The text unit of a group, unless it is blank. -/
def unitOf (doc : XmlDocument) (group : TextGroup) : Option TextUnit :=
  if Text.strip unicode (texts doc group).flatten = [] then none
  else some ⟨(texts doc group).flatten, group.force⟩

variable (xml : Xml)

/-- The nodes in which white space at an end would get lost. -/
def spaced : List Text := [w "t", w "delText", s "t"]

/-- A text is written to its place, unless it is there already. If white space at an end of it would
get lost then the node is told to keep it. -/
def setSlot (tree : xml.Tree) (slot : Slot) (t : Text) : Option xml.Tree :=
  match slot with
  | .attr _ _ => xml.set slot t tree
  | .text n =>
    if (xml.view tree).content slot = t then some tree
    else (xml.set slot t tree).bind fun tree =>
      if ((xml.view tree).shape.tag n).any (· ∈ spaced) ∧ Text.strip unicode t ≠ t then
        xml.set (.attr n xmlSpace) "preserve".toList tree
      else some tree

/-- `_set`. -/
def setSlots (tree : xml.Tree) (writes : List (Slot × Text)) : Option xml.Tree :=
  writes.foldlM (fun tree write => setSlot unicode xml tree write.1 write.2) tree

/-! ## The walk -/

/-- The loop over the groups of a part: the unit of each is asked for and the reply written to its
slots. `changed` tells whether something was replaced. -/
def walkGroups : List TextGroup → xml.Tree → Bool → (xml.Tree → Bool → Rewriting) → Rewriting
  | [], tree, changed, next => next tree changed
  | group :: rest, tree, changed, next =>
    match unitOf unicode (xml.view tree) group with
    -- a group without text is passed over
    | none => walkGroups rest tree changed next
    | some unit => .ask unit.text unit.force fun reps =>
      if reps = [] then walkGroups rest tree changed next
      else
        match setSlots unicode xml tree (group.slots.zip
            (applyToNodes (texts (xml.view tree) group) (reps.map Replacement.toEdit))) with
        | some tree => walkGroups rest tree true next
        -- lxml refuses a text that XML cannot hold
        | none => .fail valueError

/-- `data.split(mark)[0]`. -/
def splitFirst (mark : Bytes) : Bytes → Bytes
  | [] => []
  | b :: rest => if mark.isPrefixOf (b :: rest) then [] else b :: splitFirst mark rest

/-- The XML declaration of a part, as far as it is in the first 200 bytes, with a line break. -/
def declaration (raw : Bytes) : Bytes :=
  if (utf8 "<?xml".toList).isPrefixOf raw then
    splitFirst (utf8 "?>".toList) (raw.take 200) ++ utf8 "?>\r\n".toList
  else []

variable (zip : Zip)

/-- `zin.read`: of entries with one name the last one is found. -/
def read (entries : List ZipEntry) (name : Text) : Except FileError Bytes :=
  ((entries.filter (·.info.filename = name)).getLast?.map ZipEntry.data).getD (.error keyError)

/-- The last entry of a name, parsed: an entry that cannot be read raises its own error, and one
that is no XML a syntax error. -/
def readPart (entries : List ZipEntry) (part : Text) : Except FileError (Bytes × xml.Tree) :=
  match read entries part with
  | .error error => .error error
  | .ok raw =>
    match xml.fromstring raw with
    | none => .error xmlSyntaxError
    | some tree => .ok (raw, tree)

variable (kind : Kind)

/-- The loop over the parts, with the parts that are new so far. A part in which nothing was
replaced keeps its bytes. -/
def walkParts (entries : List ZipEntry) :
    List Text → Dict Text Bytes → (Dict Text Bytes → Rewriting) → Rewriting
  | [], newParts, next => next newParts
  | part :: rest, newParts, next =>
    match readPart xml entries part with
    | .error error => .fail error
    | .ok (raw, tree) =>
      walkGroups unicode xml (groups kind part (xml.view tree)) tree false fun tree changed =>
        walkParts entries rest
          -- only a part in which something was replaced is serialized again
          (if changed then newParts.set part (declaration raw ++ xml.tostring tree) else newParts)
          next

/-- An entry of the new archive: a new part is compressed, and everything else is copied with its
own compression. -/
def copyEntry (entries : List ZipEntry) (newParts : Dict Text Bytes) (entry : ZipEntry) :
    Except FileError (ZipInfo × Bytes) :=
  match newParts.get? entry.info.filename with
  | some data => .ok ({ entry.info with compressType := zipDeflated }, data)
  | none =>
    match read entries entry.info.filename with
    | .error error => .error error
    | .ok data => .ok (entry.info, data)

/-- The entries of the new archive, in the order of the old one; the first that cannot be read ends
the loop. -/
def copyEntries (entries : List ZipEntry) (newParts : Dict Text Bytes) :
    List ZipEntry → Except FileError (List (ZipInfo × Bytes))
  | [] => .ok []
  | entry :: rest =>
    match copyEntry entries newParts entry with
    | .error error => .error error
    | .ok copied => (copyEntries entries newParts rest).map (copied :: ·)

/-- `rewrite`: the archive is opened, its parts are walked through, and a new archive is written
with the parts that have changed. -/
def rewrite (data : Bytes) : Rewriting :=
  match zip.entries data with
  | .error error => .fail error
  | .ok entries =>
    walkParts unicode xml kind entries
      (parts unicode kind (entries.map (·.info.filename))) Dict.empty fun newParts =>
        match copyEntries entries newParts entries with
        | .error error => .fail error
        | .ok copied => .done (zip.write copied)

/-- The units of a part. -/
def unitsOfPart (part : Text) (doc : XmlDocument) : List TextUnit :=
  (groups kind part doc).filterMap (unitOf unicode doc)

def unitsOfParts (entries : List ZipEntry) : List Text → Except FileError (List TextUnit)
  | [] => .ok []
  | part :: rest =>
    match readPart xml entries part with
    | .error error => .error error
    | .ok (_, tree) => (unitsOfParts entries rest).map fun units =>
        unitsOfPart unicode kind part (xml.view tree) ++ units

/-- `units`: the text units of all parts of an archive, part after part; an archive that cannot be
opened raises. -/
def units (data : Bytes) : Except FileError (List TextUnit) :=
  match zip.entries data with
  | .error error => .error error
  | .ok entries =>
    unitsOfParts unicode xml kind entries (parts unicode kind (entries.map (·.info.filename)))

/-! ## Failures -/

variable {unicode xml zip kind}

theorem fails_walkGroups {groups : List TextGroup} {next : xml.Tree → Bool → Rewriting}
    (all : ∀ tree changed, (next tree changed).Fails) (tree : xml.Tree) (changed : Bool) :
    (walkGroups unicode xml groups tree changed next).Fails := by
  induction groups generalizing tree changed with
  | nil => exact all tree changed
  | cons group rest ih =>
    rw [walkGroups]
    split
    · exact ih tree changed
    · refine .ask fun reps => ?_
      split
      · exact ih tree changed
      · split
        · exact ih _ true
        · exact .fail _

theorem fails_walkParts {entries : List ZipEntry} {parts : List Text} {error : FileError}
    (failed : unitsOfParts unicode xml kind entries parts = .error error)
    (newParts : Dict Text Bytes) (next : Dict Text Bytes → Rewriting) :
    (walkParts unicode xml kind entries parts newParts next).Fails := by
  induction parts generalizing newParts with
  | nil => cases failed
  | cons part rest ih =>
    rw [unitsOfParts] at failed
    rw [walkParts]
    -- the part cannot be read, or a later one fails
    split at failed
    · exact .fail _
    · next raw tree found =>
      refine fails_walkGroups (fun tree changed => ih ?_ _) tree false
      cases later : unitsOfParts unicode xml kind entries rest with
      | error e =>
        rw [later] at failed
        exact congrArg Except.error (Except.error.inj failed)
      | ok units =>
        rw [later] at failed
        cases failed

theorem fails_of_units {data : Bytes} {error : FileError}
    (failed : units unicode xml zip kind data = .error error) :
    (rewrite unicode xml zip kind data).Fails := by
  rw [units] at failed
  rw [rewrite]
  split at failed
  · exact .fail _
  · exact fails_walkParts failed _ _

end

end OoxmlHandler

/-! ## Handlers -/

/-- `{"docm": "docx", "xlsm": "xlsx"}.get(k, k)`: documents with macros are handled like those
without. -/
def officeKind : Kind → Kind
  | .docm => .docx
  | .xlsm => .xlsx
  | kind => kind

/-- The kinds whose handler is that of the office formats, without the tables. -/
def isOffice (kind : Kind) : Bool := officeKind kind = .docx || officeKind kind = .pptx

/-- `handler_for`: the handler of the office formats beside those of the other kinds, which remain
as they are given. -/
def ooxmlHandlers (unicode : Unicode) (xml : Xml) (zip : Zip) (others : Handlers) : Handlers where
  units kind name data :=
    if isOffice kind then OoxmlHandler.units unicode xml zip (officeKind kind) data
    else others.units kind name data
  rewrite kind name data :=
    if isOffice kind then OoxmlHandler.rewrite unicode xml zip (officeKind kind) data
    else others.rewrite kind name data
  fails_of_units kind name data error failed := by
    split at failed
    · next office =>
      rw [if_pos office]
      exact OoxmlHandler.fails_of_units failed
    · next other =>
      rw [if_neg other]
      exact others.fails_of_units kind name data error failed

end RedactGate.Desktop
