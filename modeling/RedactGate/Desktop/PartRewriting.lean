import RedactGate.Desktop.Ooxml
import RedactGate.Desktop.Rewritings

/-!
# Rewriting a part

What the loop over the groups of a part makes of its tree, when no two groups share a text: every
group holds what it was answered, and no other text changes. Only the mark that keeps white space
may be added.
-/
namespace RedactGate.Desktop

open Library

/-- What the code relies on of the library for documents. A document is plain if it is in UTF-8
and refers to no entities of its own. -/
structure XmlLaws (xml : Xml) (Plain : Bytes → Prop) : Prop where
  view_set : ∀ {slot value tree tree'}, xml.set slot value tree = some tree' →
    xml.view tree' = (xml.view tree).set slot value
  reads : ∀ {raw tree}, Plain raw → xml.Edited raw tree →
    Plain (OoxmlHandler.declaration raw ++ xml.tostring tree) ∧
      ∃ tree', xml.fromstring (OoxmlHandler.declaration raw ++ xml.tostring tree) = some tree' ∧
        xml.view tree' = xml.view tree

namespace OoxmlHandler

/-- The texts of a document are written into the slots that are not the mark for white space. -/
def Ordinary : Slot → Prop
  | .attr _ name => name ≠ xmlSpace
  | .text _ => True

/-- Only the given texts have changed. -/
structure SameBut (slots : List Slot) (doc doc' : XmlDocument) : Prop where
  shape : doc'.shape = doc.shape
  kept : ∀ slot, Ordinary slot → slot ∉ slots → doc'.content slot = doc.content slot

theorem SameBut.refl (slots : List Slot) (doc : XmlDocument) : SameBut slots doc doc :=
  ⟨rfl, fun _ _ _ => rfl⟩

theorem SameBut.trans {slots slots' : List Slot} {doc₁ doc₂ doc₃ : XmlDocument}
    (first : SameBut slots doc₁ doc₂) (second : SameBut slots' doc₂ doc₃) :
    SameBut (slots ++ slots') doc₁ doc₃ where
  shape := second.shape.trans first.shape
  kept slot ordinary outside := by
    rw [List.mem_append, not_or] at outside
    rw [second.kept slot ordinary outside.2, first.kept slot ordinary outside.1]

variable {unicode : Unicode} {xml : Xml} {Plain : Bytes → Prop} (laws : XmlLaws xml Plain)

/-! ## Writing texts -/

include laws in
theorem setSlot_spec {tree tree' : xml.Tree} {slot : Slot} {t : Text} (ordinary : Ordinary slot)
    (written : setSlot unicode xml tree slot t = some tree') :
    SameBut [slot] (xml.view tree) (xml.view tree') ∧ (xml.view tree').content slot = t ∧
      ∀ raw, xml.Edited raw tree → xml.Edited raw tree' := by
  have one {tree tree' : xml.Tree} {slot : Slot} {t : Text}
      (written : xml.set slot t tree = some tree') :
      SameBut [slot] (xml.view tree) (xml.view tree') ∧ (xml.view tree').content slot = t := by
    rw [laws.view_set written]
    exact ⟨⟨rfl, fun other _ outside =>
      XmlDocument.content_set_of_ne _ (fun same => outside (List.mem_singleton.mpr same)) _⟩,
      XmlDocument.content_set_self _ _ _⟩
  cases slot with
  | attr node name => exact ⟨(one written).1, (one written).2, fun _ edited => .set edited written⟩
  | text node =>
    rw [setSlot] at written
    split at written
    -- a text that is there already is not written, so that its mark for white space stays too
    · next same =>
      obtain rfl := Option.some.inj written
      exact ⟨.refl _ _, same, fun _ edited => edited⟩
    · obtain ⟨tree₁, first, rest⟩ := Option.bind_eq_some_iff.mp written
      obtain ⟨others, here⟩ := one first
      split at rest
      · -- the mark for white space is no text of the document
        have marked := laws.view_set rest
        refine ⟨⟨?_, fun slot ordinary outside => ?_⟩, ?_,
          fun _ edited => .set (.set edited first) rest⟩
        · rw [marked]
          exact others.shape
        · have other : slot ≠ .attr node xmlSpace := by
            rintro rfl
            exact ordinary rfl
          rw [marked, XmlDocument.content_set_of_ne _ other, others.kept slot ordinary outside]
        · have other : Slot.text node ≠ .attr node xmlSpace := by
            rintro ⟨⟩
          rw [marked, XmlDocument.content_set_of_ne _ other, here]
      · obtain rfl := Option.some.inj rest
        exact ⟨others, here, fun _ edited => .set edited first⟩

include laws in
theorem setSlots_spec {tree tree' : xml.Tree} {slots : List Slot} {values : List Text}
    (same : slots.length = values.length) (distinct : slots.Nodup)
    (ordinary : ∀ slot ∈ slots, Ordinary slot)
    (written : setSlots unicode xml tree (slots.zip values) = some tree') :
    SameBut slots (xml.view tree) (xml.view tree') ∧
      slots.map (xml.view tree').content = values ∧
        ∀ raw, xml.Edited raw tree → xml.Edited raw tree' := by
  induction slots generalizing tree values with
  | nil =>
    obtain rfl := List.length_eq_zero_iff.mp same.symm
    obtain rfl := Option.some.inj written
    exact ⟨.refl _ _, rfl, fun _ edited => edited⟩
  | cons slot slots ih =>
    cases values with
    | nil => cases same
    | cons value values =>
      obtain ⟨fresh, distinct⟩ := List.nodup_cons.mp distinct
      obtain ⟨here, ordinary⟩ := List.forall_mem_cons.mp ordinary
      rw [List.zip_cons_cons, setSlots, List.foldlM_cons] at written
      -- the slots are distinct, so the later writes keep what the first one wrote
      obtain ⟨tree₁, first, rest⟩ := Option.bind_eq_some_iff.mp written
      obtain ⟨others, held, edited⟩ := setSlot_spec laws here first
      obtain ⟨others', held', edited'⟩ := ih (Nat.succ.inj same) distinct ordinary rest
      refine ⟨others.trans others', ?_, fun raw e => edited' raw (edited raw e)⟩
      rw [List.map_cons, held', others'.kept slot here fresh, held]

/-! ## Groups -/

/-- The texts of a group are what the reply makes of them; a blank group is asked for nothing and
stays. -/
def Heard (unicode : Unicode) (doc doc' : XmlDocument) (group : TextGroup) (reps : List Replacement) :
    Prop :=
  texts doc' group = applyToNodes (texts doc group) (reps.map Replacement.toEdit) ∧
    (unitOf unicode doc group = none → reps = [])

/-- The tree of a part is rewritten with a list of replacements for each of its groups. -/
structure Rewritten (unicode : Unicode) (doc : XmlDocument) (groups : List TextGroup)
    (replies : List (List Replacement)) (doc' : XmlDocument) : Prop where
  heard : List.Forall₂ (Heard unicode doc doc') groups replies
  others : SameBut (groups.flatMap TextGroup.slots) doc doc'

/-- The conversation about the groups: the unit of each with the reply to it, but for the blank
ones. -/
def conversation (unicode : Unicode) (doc : XmlDocument) (groups : List TextGroup)
    (replies : List (List Replacement)) : List UnitAnswer :=
  (groups.zip replies).filterMap fun reply =>
    (unitOf unicode doc reply.1).map fun unit => ⟨unit, reply.2⟩

theorem length_applyToNodes (old : List Text) (edits : List Edit) :
    (applyToNodes old edits).length = old.length := length_foldl_putInNodes old _

/-- Groups without a changed text read the same. -/
theorem texts_congr {slots : List Slot} {doc doc' : XmlDocument} (same : SameBut slots doc doc')
    {group : TextGroup} (ordinary : ∀ slot ∈ group.slots, Ordinary slot)
    (apart : ∀ slot ∈ group.slots, slot ∉ slots) : texts doc' group = texts doc group :=
  List.map_congr_left fun slot member => same.kept slot (ordinary slot member) (apart slot member)

theorem unitOf_congr {doc doc' : XmlDocument} {group : TextGroup}
    (same : texts doc' group = texts doc group) : unitOf unicode doc' group =
      unitOf unicode doc group := by
  rw [unitOf, unitOf, same]

/-- Groups that are read in another document in the same way. -/
theorem conversation_congr {doc doc' : XmlDocument} {groups : List TextGroup}
    (same : ∀ group ∈ groups, texts doc' group = texts doc group)
    (replies : List (List Replacement)) :
    conversation unicode doc' groups replies = conversation unicode doc groups replies := by
  refine List.filterMap_congr fun reply member => ?_
  rw [unitOf_congr (same reply.1 (List.of_mem_zip member).1)]

/-- If one group is rewritten first, and then the others in the document that results, then all are
rewritten in the first document: writing to a group leaves the slots of the others alone. -/
theorem Rewritten.cons {doc doc₁ doc' : XmlDocument} {group : TextGroup} {rest : List TextGroup}
    {reps : List Replacement} {replies : List (List Replacement)}
    (distinct : ((group :: rest).flatMap TextGroup.slots).Nodup)
    (ordinary : ∀ slot ∈ (group :: rest).flatMap TextGroup.slots, Ordinary slot)
    (same : SameBut group.slots doc doc₁) (first : Heard unicode doc doc₁ group reps)
    (later : Rewritten unicode doc₁ rest replies doc') :
    Rewritten unicode doc (group :: rest) (reps :: replies) doc' ∧
      conversation unicode doc₁ rest replies = conversation unicode doc rest replies := by
  rw [List.flatMap_cons, List.nodup_append] at distinct
  -- the slots of the groups are apart: writing one group is not seen by the others
  have mine : ∀ slot ∈ group.slots, Ordinary slot := fun slot member =>
    ordinary slot (List.mem_append_left _ member)
  have theirs : ∀ g ∈ rest, texts doc₁ g = texts doc g := fun g member =>
    texts_congr same
      (fun slot among => ordinary slot
        (List.mem_append_right _ (List.mem_flatMap.mpr ⟨g, member, among⟩)))
      fun slot among taken =>
        distinct.2.2 slot taken slot (List.mem_flatMap.mpr ⟨g, member, among⟩) rfl
  refine ⟨⟨.cons ⟨?_, first.2⟩ ?_, same.trans later.others⟩, conversation_congr theirs replies⟩
  · rw [← first.1]
    exact texts_congr later.others mine fun slot member taken =>
      distinct.2.2 slot member slot taken rfl
  · refine List.forall₂_iff_zip.mpr ⟨later.heard.length_eq, fun {g reps} member => ?_⟩
    obtain ⟨held, blank⟩ := List.forall₂_zip later.heard member
    have read := theirs g (List.of_mem_zip member).1
    rw [unitOf_congr read] at blank
    exact ⟨read ▸ held, blank⟩

/-- What is said about the first group, and then about the others. -/
theorem conversation_cons (doc : XmlDocument) (group : TextGroup) (rest : List TextGroup)
    (reps : List Replacement) (replies : List (List Replacement)) :
    conversation unicode doc (group :: rest) (reps :: replies) =
      conversation unicode doc [group] [reps] ++ conversation unicode doc rest replies := by
  rw [conversation, List.zip_cons_cons, ← List.singleton_append, List.filterMap_append]
  rfl

/-! ## The loop over the groups -/

/-- What one round of the loop or several do to the tree: only texts are written, and none if
nothing was replaced. -/
structure Walked (xml : Xml) (tree : xml.Tree) (changed : Bool) (tree' : xml.Tree)
    (changed' : Bool) : Prop where
  edited : ∀ raw, xml.Edited raw tree → xml.Edited raw tree'
  unchanged : changed' = false → changed = false ∧ tree' = tree

theorem Walked.refl (tree : xml.Tree) (changed : Bool) : Walked xml tree changed tree changed :=
  ⟨fun _ edited => edited, fun same => ⟨same, rfl⟩⟩

theorem Walked.trans {tree₁ tree₂ tree₃ : xml.Tree} {changed₁ changed₂ changed₃ : Bool}
    (first : Walked xml tree₁ changed₁ tree₂ changed₂)
    (second : Walked xml tree₂ changed₂ tree₃ changed₃) :
    Walked xml tree₁ changed₁ tree₃ changed₃ where
  edited raw e := second.edited raw (first.edited raw e)
  unchanged same :=
    have later := second.unchanged same
    have before := first.unchanged later.1
    ⟨before.1, later.2.trans before.2⟩

include laws in
/-- One round of the walk: the unit of the first group is asked for, its reply is written to the
slots of this group, and what is left of the answers belongs to the other groups. -/
theorem walkGroup_answered {group : TextGroup} {rest : List TextGroup} {tree : xml.Tree}
    {changed : Bool} {next : xml.Tree → Bool → Rewriting} (distinct : group.slots.Nodup)
    (ordinary : ∀ slot ∈ group.slots, Ordinary slot) {answers : List UnitAnswer} {out : Bytes}
    (answered : (walkGroups unicode xml (group :: rest) tree changed next).Answered answers out) :
    ∃ reps tree' changed' later,
      answers = conversation unicode (xml.view tree) [group] [reps] ++ later ∧
      (walkGroups unicode xml rest tree' changed' next).Answered later out ∧
      Heard unicode (xml.view tree) (xml.view tree') group reps ∧
      SameBut group.slots (xml.view tree) (xml.view tree') ∧
      Walked xml tree changed tree' changed' := by
  rw [walkGroups] at answered
  split at answered
  -- a group without text asks for nothing
  · next blank =>
    refine ⟨[], tree, changed, answers, ?_, answered, ⟨rfl, fun _ => rfl⟩, .refl _ _, .refl _ _⟩
    simp [conversation, blank]
  · next unit found =>
    cases answered with
    | @ask _ _ _ reps answers _ answered =>
      have spoken : unitOf unicode (xml.view tree) group = none → reps = [] := fun none => by
        rw [found] at none
        cases none
      have said : conversation unicode (xml.view tree) [group] [reps] = [⟨unit, reps⟩] := by
        simp [conversation, found]
      beta_reduce at answered
      split at answered
      · next nothing =>
        -- no replacement: the tree is left, and `changed` as it was
        subst nothing
        exact ⟨[], tree, changed, answers, said ▸ rfl, answered, ⟨rfl, spoken⟩, .refl _ _, .refl _ _⟩
      · split at answered
        · next tree' written =>
          have length : group.slots.length = (applyToNodes (texts (xml.view tree) group)
              (reps.map Replacement.toEdit)).length := by
            rw [length_applyToNodes, texts, List.length_map]
          obtain ⟨others, held, edited⟩ := setSlots_spec laws length distinct ordinary written
          refine ⟨reps, tree', true, answers, said ▸ rfl, answered, ⟨held, spoken⟩, others, edited, ?_⟩
          rintro ⟨⟩
        -- a text that the library cannot hold makes the file fail, so there is no output
        · cases answered

include laws in
/-- All rounds, by induction on the groups: since no slot belongs to two groups, the conversation is
about the texts of the groups as they were at first. -/
theorem walkGroups_answered {groups : List TextGroup} {tree : xml.Tree} {changed : Bool}
    {next : xml.Tree → Bool → Rewriting}
    (distinct : (groups.flatMap TextGroup.slots).Nodup)
    (ordinary : ∀ slot ∈ groups.flatMap TextGroup.slots, Ordinary slot) {answers : List UnitAnswer}
    {out : Bytes}
    (answered : (walkGroups unicode xml groups tree changed next).Answered answers out) :
    ∃ replies tree' changed' later,
      answers = conversation unicode (xml.view tree) groups replies ++ later ∧
      (next tree' changed').Answered later out ∧
      Rewritten unicode (xml.view tree) groups replies (xml.view tree') ∧
      Walked xml tree changed tree' changed' := by
  induction groups generalizing tree changed answers with
  | nil =>
    exact ⟨[], tree, changed, answers, rfl, answered, ⟨.nil, .refl _ _⟩, .refl _ _⟩
  | cons group rest ih =>
    obtain ⟨mine, theirs, _⟩ := List.nodup_append.mp (List.flatMap_cons ▸ distinct)
    -- the first group is asked and written, then the walk goes on over the changed tree
    obtain ⟨reps, tree₁, changed₁, later, rfl, answered, heard, same, walked⟩ :=
      walkGroup_answered laws mine (fun slot member => ordinary slot (List.mem_append_left _ member))
        answered
    obtain ⟨replies, tree', changed', later, rfl, told, made, walked'⟩ :=
      ih theirs (fun slot member => ordinary slot (List.mem_append_right _ member)) answered
    obtain ⟨whole, talk⟩ := Rewritten.cons distinct ordinary same heard made
    refine ⟨reps :: replies, tree', changed', later, ?_, told, whole, walked.trans walked'⟩
    rw [conversation_cons _ group rest, talk, List.append_assoc]

end OoxmlHandler

end RedactGate.Desktop
