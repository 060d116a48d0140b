import RedactGate.Desktop.ArchiveRewriting
import RedactGate.Properties.NodeRewriting

/-!
# Office files unit by unit

Rewriting an office file asks for each of its text units once, in the order in which they are
read, and the file that it writes has the same units with the replacements in them. Every other
entry of the archive is copied. Text in a paragraph is in one unit, however deep the paragraphs
are nested.
-/
namespace RedactGate.Desktop

open Library

/-- The replacements of an answer lie in the unit and do not meet, and something is left to be
seen. -/
structure UnitAnswer.Apt (unicode : Unicode) (answer : UnitAnswer) : Prop where
  separate : Separate answer.unit.text.length answer.edits
  visible : Text.strip unicode answer.rewritten.text ≠ []

namespace OoxmlHandler

variable {unicode : Unicode} {xml : Xml} {zip : Zip} {kind : Kind} {Plain : Bytes → Prop}
  {doc doc' : XmlDocument} {groups' : List TextGroup} {replies : List (List Replacement)}

/-! ## What is read again -/

theorem unitOf_of_heard {group : TextGroup} {reps : List Replacement}
    (heard : Heard unicode doc doc' group reps)
    (apt : ∀ unit, unitOf unicode doc group = some unit → UnitAnswer.Apt unicode ⟨unit, reps⟩) :
    unitOf unicode doc' group =
      (unitOf unicode doc group).map fun unit => UnitAnswer.rewritten ⟨unit, reps⟩ := by
  obtain ⟨held, blank⟩ := heard
  cases found : unitOf unicode doc group with
  | none =>
    obtain rfl := blank found
    exact (unitOf_congr held).trans found
  | some unit =>
    obtain ⟨separate, visible⟩ := apt unit found
    have here : unit = ⟨(texts doc group).flatten, group.force⟩ := by
      rw [unitOf] at found
      split at found
      · cases found
      · exact (Option.some.inj found).symm
    subst here
    have joined : (texts doc' group).flatten =
        applyReplacements (texts doc group).flatten (reps.map Replacement.toEdit) := by
      rw [held]
      exact flatten_foldl_putInNodes separate.descending
    rw [unitOf, joined]
    exact if_neg visible

theorem mem_conversation {group : TextGroup} {reps : List Replacement} {unit : TextUnit}
    (member : (group, reps) ∈ groups'.zip replies) (found : unitOf unicode doc group = some unit) :
    ⟨unit, reps⟩ ∈ conversation unicode doc groups' replies :=
  List.mem_filterMap.mpr ⟨(group, reps), member, by rw [found]; rfl⟩

theorem Rewritten.unitOf_eq (rewritten : Rewritten unicode doc groups' replies doc')
    (apt : ∀ answer ∈ conversation unicode doc groups' replies, answer.Apt unicode)
    {group : TextGroup} {reps : List Replacement} (member : (group, reps) ∈ groups'.zip replies) :
    unitOf unicode doc' group =
      (unitOf unicode doc group).map fun unit => UnitAnswer.rewritten ⟨unit, reps⟩ :=
  unitOf_of_heard (List.forall₂_zip rewritten.heard member) fun _ found =>
    apt _ (mem_conversation member found)

/-- The units of a part that was rewritten are those of the conversation with their replacements
made. -/
theorem Rewritten.units_eq (rewritten : Rewritten unicode doc groups' replies doc')
    (apt : ∀ answer ∈ conversation unicode doc groups' replies, answer.Apt unicode) :
    groups'.filterMap (unitOf unicode doc') =
      (conversation unicode doc groups' replies).map UnitAnswer.rewritten := by
  have firsts : groups' = (groups'.zip replies).map Prod.fst :=
    (List.map_fst_zip (Nat.le_of_eq rewritten.heard.length_eq)).symm
  rw [conversation, List.map_filterMap]
  nth_rewrite 1 [firsts]
  rw [List.filterMap_map]
  refine List.filterMap_congr fun reply member => ?_
  rw [Function.comp_apply, rewritten.unitOf_eq apt member, Option.map_map]
  rfl

/-- The units that the conversation is about are those of the part as it was before. -/
theorem map_unit_conversation (same : groups'.length = replies.length) :
    (conversation unicode doc groups' replies).map UnitAnswer.unit =
      groups'.filterMap (unitOf unicode doc) := by
  have firsts : groups' = (groups'.zip replies).map Prod.fst :=
    (List.map_fst_zip (Nat.le_of_eq same)).symm
  rw [conversation, List.map_filterMap]
  nth_rewrite 2 [firsts]
  rw [List.filterMap_map]
  refine List.filterMap_congr fun reply _ => ?_
  rw [Function.comp_apply, Option.map_map]
  exact Option.map_id'

/-! ## Groups that stay -/

/-- A text that is a group of its own if it is read at all. -/
def Alone (doc : XmlDocument) (groups : List TextGroup) (slot : Slot) : Prop :=
  ∀ group ∈ groups, slot ∈ group.slots → group.slots = [slot] ∧ doc.content slot ≠ []

/-- A text that stands alone in its group is empty after the rewriting if and only if it was empty
before, since no reply puts in an empty text. -/
theorem Rewritten.eq_nil_iff (rewritten : Rewritten unicode doc groups' replies doc')
    (apt : ∀ answer ∈ conversation unicode doc groups' replies, answer.Apt unicode) {slot : Slot}
    (ordinary : Ordinary slot) (alone : Alone doc groups' slot) :
    doc'.content slot = [] ↔ doc.content slot = [] := by
  by_cases outside : slot ∈ groups'.flatMap TextGroup.slots
  · obtain ⟨group, member, among⟩ := List.mem_flatMap.mp outside
    obtain ⟨single, filled⟩ := alone group member among
    refine iff_of_false (fun empty => ?_) filled
    have reads (d : XmlDocument) : (texts d group).flatten = d.content slot := by
      rw [texts, single]
      exact List.append_nil _
    obtain ⟨reps, pair⟩ : ∃ reps, (group, reps) ∈ groups'.zip replies := by
      have firsts : groups' = (groups'.zip replies).map Prod.fst :=
        (List.map_fst_zip (Nat.le_of_eq rewritten.heard.length_eq)).symm
      rw [firsts] at member
      obtain ⟨pair, taken, rfl⟩ := List.mem_map.mp member
      exact ⟨pair.2, taken⟩
    have unit := rewritten.unitOf_eq apt pair
    -- a blank group stays as it is, and another one is visible afterwards
    cases found : unitOf unicode doc group with
    | none =>
      obtain ⟨held, blank⟩ := List.forall₂_zip rewritten.heard pair
      obtain rfl := blank found
      have kept : doc'.content slot = doc.content slot := by
        rw [← reads, ← reads, held]
        rfl
      exact filled (kept ▸ empty)
    | some u =>
      rw [found, unitOf, reads, empty] at unit
      cases unit
  · rw [rewritten.others.kept slot ordinary outside]

theorem childGroups_congr {force : Text → Option (Option Text)} (shape : doc'.shape = doc.shape)
    (filled : ∀ el, doc'.content (.text el) = [] ↔ doc.content (.text el) = []) :
    childGroups doc' force = childGroups doc force := by
  rw [childGroups, childGroups, shape]
  refine List.filterMap_congr fun el _ => ?_
  simp only [childGroup, filled, shape]

theorem authorGroups_congr (shape : doc'.shape = doc.shape)
    (filled : ∀ el, ∀ attr ∈ nameAttrs,
      (doc'.content (.attr el attr.1) = [] ↔ doc.content (.attr el attr.1) = [])) :
    authorGroups doc' = authorGroups doc := by
  rw [authorGroups, authorGroups, shape]
  refine List.flatMap_congr fun el _ => List.filterMap_congr fun attr member => ?_
  simp only [filled el attr member]

/-! ## Texts in groups -/

theorem mem_childGroups {force : Text → Option (Option Text)} {group : TextGroup} :
    group ∈ childGroups doc force ↔ ∃ el known, el ∈ doc.shape.children ∧
      doc.content (.text el) ≠ [] ∧ (doc.shape.tag el).bind force = some known ∧
        group = .single (.text el) known := by
  rw [childGroups, List.mem_filterMap]
  constructor
  · rintro ⟨el, child, made⟩
    rw [childGroup] at made
    split at made
    · cases made
    · next filled =>
      obtain ⟨known, forced, rfl⟩ := Option.map_eq_some_iff.mp made
      exact ⟨el, known, child, filled, forced, rfl⟩
  · rintro ⟨el, known, child, filled, forced, rfl⟩
    exact ⟨el, child, by rw [childGroup, if_neg filled, forced]; rfl⟩

theorem mem_nameGroups {el : Nat} {group : TextGroup} : group ∈ nameGroups doc el ↔
    ∃ attr ∈ nameAttrs, doc.content (.attr el attr.1) ≠ [] ∧
      group = .single (.attr el attr.1) attr.2 := by
  rw [nameGroups, List.mem_filterMap]
  constructor
  · rintro ⟨attr, named, made⟩
    split at made
    · cases made
    · next filled => exact ⟨attr, named, filled, (Option.some.inj made).symm⟩
  · rintro ⟨attr, named, filled, rfl⟩
    exact ⟨attr, named, if_neg filled⟩

theorem mem_authorGroups {group : TextGroup} : group ∈ authorGroups doc ↔
    ∃ el attr, el ∈ doc.shape.places ∧ attr ∈ nameAttrs ∧ doc.content (.attr el attr.1) ≠ [] ∧
      group = .single (.attr el attr.1) attr.2 := by
  rw [authorGroups, List.mem_flatMap]
  constructor
  · rintro ⟨el, place, member⟩
    obtain ⟨attr, named, filled, rfl⟩ := mem_nameGroups.mp member
    exact ⟨el, attr, place, named, filled, rfl⟩
  · rintro ⟨el, attr, place, named, filled, rfl⟩
    exact ⟨el, place, mem_nameGroups.mpr ⟨attr, named, filled, rfl⟩⟩

theorem mem_ownNodes {shape : Shape} {p t : Nat} {tag : Text} :
    t ∈ ownNodes shape p tag ↔ shape.tag t = some tag ∧ ownerP shape t = some p := by
  rw [ownNodes, List.mem_filter, Shape.mem_iter, decide_eq_true_iff]
  constructor
  · rintro ⟨⟨tagged, _⟩, owned⟩
    exact ⟨tagged, owned⟩
  · rintro ⟨tagged, owned⟩
    exact ⟨⟨tagged, .inr (Shape.tag_of_owner owned).2⟩, owned⟩

theorem mem_runGroups {shape : Shape} {p : Nat} {group : TextGroup} :
    group ∈ runGroups shape p ↔ ∃ tag ∈ textTags, ownNodes shape p tag ≠ [] ∧
      group = ⟨(ownNodes shape p tag).map Slot.text, none⟩ := by
  rw [runGroups, List.mem_filterMap]
  constructor
  · rintro ⟨tag, named, made⟩
    split at made
    · cases made
    · next filled => exact ⟨tag, named, filled, (Option.some.inj made).symm⟩
  · rintro ⟨tag, named, filled, rfl⟩
    exact ⟨tag, named, if_neg filled⟩

theorem mem_paragraphGroups {shape : Shape} {group : TextGroup} :
    group ∈ paragraphGroups shape ↔ ∃ p tag, shape.tag p = some (w "p") ∧ tag ∈ textTags ∧
      ownNodes shape p tag ≠ [] ∧ group = ⟨(ownNodes shape p tag).map Slot.text, none⟩ := by
  rw [paragraphGroups, List.mem_flatMap]
  constructor
  · rintro ⟨p, place, member⟩
    obtain ⟨tag, named, filled, rfl⟩ := mem_runGroups.mp member
    exact ⟨p, tag, Shape.mem_all.mp place, named, filled, rfl⟩
  · rintro ⟨p, tag, place, named, filled, rfl⟩
    exact ⟨p, Shape.mem_all.mpr place, mem_runGroups.mpr ⟨tag, named, filled, rfl⟩⟩

/-- The texts that paragraphs are read from: those in a paragraph whose tag is of text, of
deleted text or of a field. -/
theorem mem_slots_paragraphGroups {shape : Shape} {slot : Slot} :
    slot ∈ (paragraphGroups shape).flatMap TextGroup.slots ↔ ∃ t, slot = .text t ∧
      (∃ tag ∈ textTags, shape.tag t = some tag) ∧
        ∃ p, shape.tag p = some (w "p") ∧ shape.Encloses p t := by
  rw [← exists_congr fun t => and_congr_right' (and_congr_right' Shape.isSome_owner)]
  rw [List.mem_flatMap]
  constructor
  · rintro ⟨group, member, among⟩
    obtain ⟨p, tag, _, named, _, rfl⟩ := mem_paragraphGroups.mp member
    obtain ⟨t, own, rfl⟩ := List.mem_map.mp among
    obtain ⟨tagged, owned⟩ := mem_ownNodes.mp own
    exact ⟨t, rfl, ⟨tag, named, tagged⟩, Option.isSome_iff_exists.mpr ⟨p, owned⟩⟩
  · rintro ⟨t, rfl, ⟨tag, named, tagged⟩, owned⟩
    obtain ⟨p, owned⟩ := Option.isSome_iff_exists.mp owned
    have own : t ∈ ownNodes shape p tag := mem_ownNodes.mpr ⟨tagged, owned⟩
    exact ⟨⟨(ownNodes shape p tag).map Slot.text, none⟩, mem_paragraphGroups.mpr
      ⟨p, tag, (Shape.tag_of_owner owned).1, named, List.ne_nil_of_mem own, rfl⟩,
      List.mem_map_of_mem own⟩

/-- Groups that are made of the elements of a list, none twice, where the texts of a group are
told by its element. -/
theorem nodup_slots_filterMap {α : Type} {f : α → Option TextGroup} {l : List α}
    (distinct : l.Nodup) (each : ∀ x ∈ l, ∀ group, f x = some group → group.slots.Nodup)
    (own : ∀ x ∈ l, ∀ y ∈ l, ∀ g h, f x = some g → f y = some h →
      ∀ slot ∈ g.slots, slot ∈ h.slots → x = y) :
    ((l.filterMap f).flatMap TextGroup.slots).Nodup := by
  rw [List.filterMap_eq_flatMap_toList, List.flatMap_assoc]
  refine List.nodup_flatMap.mpr ⟨fun x member => ?_, ?_⟩
  · cases made : f x with
    | none => exact List.nodup_nil
    | some group =>
      refine (List.flatMap_singleton TextGroup.slots group).symm ▸ ?_
      exact each x member group made
  · refine distinct.imp_of_mem fun {x y} first second other => ?_
    intro slot here there
    obtain ⟨g, made, among⟩ := List.mem_flatMap.mp here
    obtain ⟨h, made', among'⟩ := List.mem_flatMap.mp there
    exact other (own x first y second g h (Option.mem_toList.mp made) (Option.mem_toList.mp made')
      slot among among')

theorem nodup_childGroups (doc : XmlDocument) (force : Text → Option (Option Text)) :
    ((childGroups doc force).flatMap TextGroup.slots).Nodup := by
  have single {el : Nat} {group : TextGroup} (made : childGroup doc force el = some group) :
      group.slots = [.text el] := by
    rw [childGroup] at made
    split at made
    · cases made
    · obtain ⟨_, _, rfl⟩ := Option.map_eq_some_iff.mp made
      rfl
  refine nodup_slots_filterMap (List.nodup_range.filter _)
    (fun el _ group made => single made ▸ List.nodup_singleton _) ?_
  intro el _ el' _ g h first second slot here there
  rw [single first, List.mem_singleton] at here
  rw [single second, List.mem_singleton] at there
  exact Slot.text.inj (here.symm.trans there)

theorem nodup_authorGroups (doc : XmlDocument) :
    ((authorGroups doc).flatMap TextGroup.slots).Nodup := by
  have names {el : Nat} {slot : Slot}
      (member : slot ∈ (nameGroups doc el).flatMap TextGroup.slots) :
      ∃ name, slot = .attr el name := by
    obtain ⟨group, made, among⟩ := List.mem_flatMap.mp member
    obtain ⟨attr, _, _, rfl⟩ := mem_nameGroups.mp made
    exact ⟨attr.1, List.mem_singleton.mp among⟩
  rw [authorGroups, List.flatMap_assoc]
  -- one node's attributes have different names, and two nodes share no slot
  refine List.nodup_flatMap.mpr ⟨fun el _ => ?_, ?_⟩
  · refine @nodup_slots_filterMap _ _ nameAttrs (by decide) ?_ ?_
    · intro attr _ group made
      split at made
      · cases made
      · obtain rfl := Option.some.inj made
        exact List.nodup_singleton _
    · intro attr first attr' second g h made made' slot here there
      have names : (nameAttrs.map Prod.fst).Nodup := by decide
      split at made
      · cases made
      · split at made'
        · cases made'
        · obtain rfl := Option.some.inj made
          obtain rfl := Option.some.inj made'
          have same := (List.mem_singleton.mp here).symm.trans (List.mem_singleton.mp there)
          exact List.inj_on_of_nodup_map names first second (Slot.attr.inj same).2
  · refine List.nodup_range.imp fun {el el'} other => ?_
    intro slot first second
    obtain ⟨name, rfl⟩ := names first
    obtain ⟨name', same⟩ := names second
    exact other (Slot.attr.inj same).1

theorem nodup_map_text {nodes : List Nat} (distinct : nodes.Nodup) :
    (nodes.map Slot.text).Nodup := distinct.map fun _ _ same => Slot.text.inj same

theorem nodup_paragraphGroups (shape : Shape) :
    ((paragraphGroups shape).flatMap TextGroup.slots).Nodup := by
  rw [paragraphGroups, List.flatMap_assoc]
  refine List.nodup_flatMap.mpr ⟨fun p _ => ?_, ?_⟩
  · refine @nodup_slots_filterMap _ _ textTags (by decide) ?_ ?_
    · intro tag _ group made
      split at made
      · cases made
      · obtain rfl := Option.some.inj made
        exact nodup_map_text ((Shape.nodup_all.filter _).filter _)
    · -- a node has one tag
      intro tag _ tag' _ g h made made' slot here there
      split at made
      · cases made
      · split at made'
        · cases made'
        · obtain rfl := Option.some.inj made
          obtain rfl := Option.some.inj made'
          obtain ⟨t, own, rfl⟩ := List.mem_map.mp here
          obtain ⟨t', own', same⟩ := List.mem_map.mp there
          obtain rfl := Slot.text.inj same
          exact Option.some.inj ((mem_ownNodes.mp own).1.symm.trans (mem_ownNodes.mp own').1)
  · -- and one owner
    refine Shape.nodup_all.imp fun {p p'} other => ?_
    have owned {p : Nat} {slot : Slot}
        (member : slot ∈ (runGroups shape p).flatMap TextGroup.slots) :
        ∃ t, slot = .text t ∧ ownerP shape t = some p := by
      obtain ⟨group, made, among⟩ := List.mem_flatMap.mp member
      obtain ⟨tag, _, _, rfl⟩ := mem_runGroups.mp made
      obtain ⟨t, own, rfl⟩ := List.mem_map.mp among
      exact ⟨t, rfl, (mem_ownNodes.mp own).2⟩
    intro slot first second
    obtain ⟨t, rfl, owner⟩ := owned first
    obtain ⟨t', same, owner'⟩ := owned second
    obtain rfl := Slot.text.inj same
    exact other (Option.some.inj (owner.symm.trans owner'))

/-- Text in paragraphs is read once: an element of text, of deleted text or of a field is in one
group if it stands in a paragraph, however the paragraphs are nested, and else in none. This holds
of every tree. -/
theorem count_text_paragraphGroups (shape : Shape) (t : Nat) :
    ((paragraphGroups shape).flatMap TextGroup.slots).count (.text t) ≤ 1 ∧
      (((paragraphGroups shape).flatMap TextGroup.slots).count (.text t) = 1 ↔
        (∃ tag ∈ textTags, shape.tag t = some tag) ∧
          ∃ p, shape.tag p = some (w "p") ∧ shape.Encloses p t) := by
  have distinct := nodup_paragraphGroups shape
  refine ⟨List.nodup_iff_count_le_one.mp distinct _, fun once => ?_, fun inside => ?_⟩
  · have member : Slot.text t ∈ (paragraphGroups shape).flatMap TextGroup.slots :=
      List.count_pos_iff.mp (by omega)
    obtain ⟨t', same, inside⟩ := mem_slots_paragraphGroups.mp member
    obtain rfl := Slot.text.inj same
    exact inside
  · exact List.count_eq_one_of_mem distinct (mem_slots_paragraphGroups.mpr ⟨t, rfl, inside⟩)

/-- No paragraph of the slides is in another one. -/
def Flat (shape : Shape) : Prop :=
  ∀ p q, shape.tag p = some (a "p") → shape.tag q = some (a "p") → ¬shape.Encloses p q

theorem mem_slideGroups {shape : Shape} {group : TextGroup} : group ∈ slideGroups shape ↔
    ∃ p, shape.tag p = some (a "p") ∧ shape.iter p (a "t") ≠ [] ∧
      group = ⟨(shape.iter p (a "t")).map Slot.text, none⟩ := by
  rw [slideGroups, List.mem_filterMap]
  constructor
  · rintro ⟨p, place, made⟩
    split at made
    · cases made
    · next filled => exact ⟨p, Shape.mem_all.mp place, filled, (Option.some.inj made).symm⟩
  · rintro ⟨p, tagged, filled, rfl⟩
    exact ⟨p, Shape.mem_all.mpr tagged, if_neg filled⟩

theorem nodup_slideGroups {shape : Shape} (flat : Flat shape) :
    ((slideGroups shape).flatMap TextGroup.slots).Nodup := by
  -- a text of a slide is iterated from its paragraph, so it lies inside that paragraph
  have inside {p t : Nat} (paragraph : p ∈ shape.all (a "p")) (own : t ∈ shape.iter p (a "t")) :
      shape.Encloses p t := by
    obtain ⟨tagged, rfl | encloses⟩ := Shape.mem_iter.mp own
    · have two : a "t" = a "p" := Option.some.inj (tagged.symm.trans (Shape.mem_all.mp paragraph))
      exact absurd two (by decide)
    · exact encloses
  refine nodup_slots_filterMap Shape.nodup_all ?_ ?_
  · intro p _ group made
    split at made
    · cases made
    · obtain rfl := Option.some.inj made
      exact nodup_map_text (Shape.nodup_all.filter _)
  · intro p first q second g h made made' slot here there
    split at made
    · cases made
    · split at made'
      · cases made'
      · obtain rfl := Option.some.inj made
        obtain rfl := Option.some.inj made'
        obtain ⟨t, own, rfl⟩ := List.mem_map.mp here
        obtain ⟨t', own', same⟩ := List.mem_map.mp there
        obtain rfl := Slot.text.inj same
        have tags := And.intro (Shape.mem_all.mp first) (Shape.mem_all.mp second)
        -- two paragraphs around one text are nested, which a flat slide excludes
        rcases (inside first own).linear (inside second own') with same | before | before
        · exact same
        · exact absurd before (flat p q tags.1 tags.2)
        · exact absurd before (flat q p tags.2 tags.1)

/-! ## The groups of a part -/

/-- The groups of a part are those of its children, or of its paragraphs and authors, or of its
slides, or none: what holds of these four kinds holds of every part. -/
theorem groups_cases {P : List TextGroup → Prop} {part : Text}
    (children : ∀ force, P (childGroups doc force))
    (words : kind = .docx → P (paragraphGroups doc.shape ++ authorGroups doc))
    (slides : kind = .pptx → P (slideGroups doc.shape)) (none : P []) :
    P (groups kind part doc) := by
  rw [groups]
  split
  · exact children _
  · split
    · exact children _
    · split
      · next docx => exact words docx
      · split
        · next pptx => exact slides pptx
        · exact none

theorem ordinary_text {groups : List TextGroup}
    (texts : ∀ group ∈ groups, ∀ slot ∈ group.slots, ∃ t, slot = .text t) :
    ∀ slot ∈ groups.flatMap TextGroup.slots, Ordinary slot := by
  intro slot member
  obtain ⟨group, among, inside⟩ := List.mem_flatMap.mp member
  obtain ⟨t, rfl⟩ := texts group among slot inside
  trivial

theorem text_of_paragraphGroups {shape : Shape} {group : TextGroup}
    (member : group ∈ paragraphGroups shape) {slot : Slot} (among : slot ∈ group.slots) :
    ∃ t, slot = .text t ∧ (shape.tag t).isSome := by
  obtain ⟨p, tag, _, _, _, rfl⟩ := mem_paragraphGroups.mp member
  obtain ⟨t, own, rfl⟩ := List.mem_map.mp among
  exact ⟨t, rfl, by rw [(mem_ownNodes.mp own).1]; rfl⟩

theorem text_of_slideGroups {shape : Shape} {group : TextGroup}
    (member : group ∈ slideGroups shape) {slot : Slot} (among : slot ∈ group.slots) :
    ∃ t, slot = .text t ∧ (shape.tag t).isSome := by
  obtain ⟨p, _, _, rfl⟩ := mem_slideGroups.mp member
  obtain ⟨t, own, rfl⟩ := List.mem_map.mp among
  exact ⟨t, rfl, by rw [(Shape.mem_iter.mp own).1]; rfl⟩

/-- No two groups of a part share a text: a paragraph has its own runs, and in a presentation no
paragraph is inside another one. -/
theorem groupsApart {part : Text} (flat : kind = .pptx → Flat doc.shape) :
    GroupsApart (groups kind part doc) := by
  -- the four tables of groups: core properties, application properties, document parts and slides
  refine groups_cases (fun force => ⟨nodup_childGroups doc force, ?_⟩) (fun _ => ?_)
    (fun pptx => ⟨nodup_slideGroups (flat pptx), ?_⟩) ⟨List.nodup_nil, ?_⟩
  · refine ordinary_text fun group member slot among => ?_
    obtain ⟨el, _, _, _, _, rfl⟩ := mem_childGroups.mp member
    exact ⟨el, List.mem_singleton.mp among⟩
  · have names {slot : Slot} (member : slot ∈ (authorGroups doc).flatMap TextGroup.slots) :
        ∃ el, ∃ attr ∈ nameAttrs, slot = .attr el attr.1 := by
      obtain ⟨group, made, among⟩ := List.mem_flatMap.mp member
      obtain ⟨el, attr, _, named, _, rfl⟩ := mem_authorGroups.mp made
      exact ⟨el, attr, named, List.mem_singleton.mp among⟩
    constructor
    · rw [List.flatMap_append]
      refine List.nodup_append.mpr ⟨nodup_paragraphGroups _, nodup_authorGroups _, ?_⟩
      intro slot first other second same
      obtain ⟨t, rfl, _⟩ := mem_slots_paragraphGroups.mp first
      obtain ⟨el, attr, _, rfl⟩ := names second
      cases same
    · rw [List.flatMap_append]
      intro slot member
      rcases List.mem_append.mp member with first | second
      · obtain ⟨t, rfl, _⟩ := mem_slots_paragraphGroups.mp first
        trivial
      · obtain ⟨el, attr, named, rfl⟩ := names second
        have other : ∀ attr ∈ nameAttrs, attr.1 ≠ xmlSpace := by decide
        exact other attr named
  · exact ordinary_text fun group member slot among =>
      (text_of_slideGroups member among).imp fun _ found => found.1
  · exact fun slot none => absurd none List.not_mem_nil

theorem alone_childGroups (force : Text → Option (Option Text)) (el : Nat) :
    Alone doc (childGroups doc force) (.text el) := by
  intro group member among
  obtain ⟨el', _, _, filled, _, rfl⟩ := mem_childGroups.mp member
  obtain rfl := Slot.text.inj (List.mem_singleton.mp among)
  exact ⟨rfl, filled⟩

theorem alone_authorGroups (el : Nat) (name : Text) :
    Alone doc (paragraphGroups doc.shape ++ authorGroups doc) (.attr el name) := by
  intro group member among
  rcases List.mem_append.mp member with member | member
  · obtain ⟨t, same, _⟩ := text_of_paragraphGroups member among
    cases same
  · obtain ⟨el', attr, _, _, filled, rfl⟩ := mem_authorGroups.mp member
    obtain ⟨rfl, rfl⟩ := Slot.attr.inj (List.mem_singleton.mp among)
    exact ⟨rfl, filled⟩

/-- The groups of a part are the same after it was rewritten by apt replies. Which groups there are
depends on which texts are empty, and a reply empties none. -/
theorem Rewritten.groups_eq {part : Text}
    (rewritten : Rewritten unicode doc (groups kind part doc) replies doc')
    (apt : ∀ answer ∈ conversation unicode doc (groups kind part doc) replies, answer.Apt unicode) :
    groups kind part doc' = groups kind part doc := by
  have shape := rewritten.others.shape
  -- the groups of the property parts depend on which texts are empty, and a rewrite empties none
  have children {force : Text → Option (Option Text)}
      (here : groups kind part doc = childGroups doc force) :
      childGroups doc' force = childGroups doc force := by
    rw [here] at rewritten apt
    exact childGroups_congr shape fun el =>
      rewritten.eq_nil_iff apt trivial (alone_childGroups force el)
  rw [groups]
  split
  · next core => rw [groups, if_pos core] at children ⊢; exact children rfl
  · next no_core =>
    split
    · next app => rw [groups, if_neg no_core, if_pos app] at children ⊢; exact children rfl
    · next no_app =>
      split
      · next docx =>
        have here : groups kind part doc = paragraphGroups doc.shape ++ authorGroups doc := by
          rw [groups, if_neg no_core, if_neg no_app, if_pos docx]
        rw [here] at rewritten apt ⊢
        have names : ∀ attr ∈ nameAttrs, attr.1 ≠ xmlSpace := by decide
        rw [shape, authorGroups_congr shape fun el attr named =>
          rewritten.eq_nil_iff apt (names attr named) (alone_authorGroups el attr.1)]
      · next no_docx => rw [groups, if_neg no_core, if_neg no_app, if_neg no_docx, shape]

/-- The units of a part after it was rewritten. -/
theorem Rewritten.unitsOfPart_eq {part : Text}
    (rewritten : Rewritten unicode doc (groups kind part doc) replies doc')
    (apt : ∀ answer ∈ conversation unicode doc (groups kind part doc) replies, answer.Apt unicode) :
    unitsOfPart unicode kind part doc' =
      (conversation unicode doc (groups kind part doc) replies).map UnitAnswer.rewritten := by
  rw [unitsOfPart, rewritten.groups_eq apt, rewritten.units_eq apt]

/-! ## The archive -/

/-- An archive of a text document or of slides, whose parts are plain and whose slides have no
paragraph in another one. -/
structure Sound (unicode : Unicode) (xml : Xml) (zip : Zip) (kind : Kind) (Plain : Bytes → Prop)
    (data : Bytes) (entries : List ZipEntry) : Prop extends Archive zip data entries where
  office : kind = .docx ∨ kind = .pptx
  plain : ∀ part ∈ partsOf unicode kind entries, ∀ raw, read entries part = .ok raw → Plain raw
  flat : kind = .pptx → ∀ part ∈ partsOf unicode kind entries, ∀ raw tree,
    readPart xml entries part = .ok (raw, tree) → Flat (xml.view tree).shape

section

variable {data : Bytes} {entries entries' : List ZipEntry} {answers : List UnitAnswer} {out : Bytes}
  {newParts : Dict Text Bytes} {copied : List (ZipInfo × Bytes)} {talks : List (List UnitAnswer)}
  {part : Text} {talk : List UnitAnswer} {raw : Bytes} {tree tree' : xml.Tree}

theorem Sound.apart (sound : Sound unicode xml zip kind Plain data entries) :
    ∀ part ∈ partsOf unicode kind entries, ∀ raw tree,
      readPart xml entries part = .ok (raw, tree) →
        GroupsApart (groups kind part (xml.view tree)) :=
  fun part member raw tree found =>
    groupsApart fun pptx => sound.flat pptx part member raw tree found

theorem PartMade.units
    (made : PartMade unicode xml kind entries newParts part talk raw tree tree' replies) :
    unitsOfPart unicode kind part (xml.view tree) = talk.map UnitAnswer.unit := by
  rw [made.said, map_unit_conversation made.made.heard.length_eq]
  rfl

/-- The units that the rewriting of an archive asks for are those that reading it gives, in the same
order. -/
theorem ArchiveMade.units (sound : Sound unicode xml zip kind Plain data entries)
    (done : ArchiveMade unicode xml zip kind entries answers out newParts copied talks) :
    OoxmlHandler.units unicode xml zip kind data = .ok (answers.map UnitAnswer.unit) := by
  have read : List.Forall₂ (fun part units => ∃ raw tree,
      readPart xml entries part = .ok (raw, tree) ∧
        unitsOfPart unicode kind part (xml.view tree) = units)
      (partsOf unicode kind entries) (talks.map (List.map UnitAnswer.unit)) := by
    refine List.forall₂_map_right_iff.mpr (done.made.imp fun part talk made => ?_)
    obtain ⟨raw, tree, tree', replies, made⟩ := made
    exact ⟨raw, tree, made.found, made.units⟩
  rw [OoxmlHandler.units, sound.opened, done.said, List.map_flatten]
  exact unitsOfParts_eq read

/-- The units of the new archive, read again, are the units of the old one with the replacements
that were asked for, in the same order. -/
theorem ArchiveMade.reread (laws : XmlLaws xml Plain) (zipLaws : ZipLaws zip)
    (sound : Sound unicode xml zip kind Plain data entries)
    (done : ArchiveMade unicode xml zip kind entries answers out newParts copied talks)
    (apt : ∀ answer ∈ answers, answer.Apt unicode) : ∃ entries',
      Sound unicode xml zip kind Plain out entries' ∧
        OoxmlHandler.units unicode xml zip kind out = .ok (answers.map UnitAnswer.rewritten) := by
  obtain ⟨entries', archive, names, found⟩ := done.reopened zipLaws sound.toArchive
  have same : partsOf unicode kind entries' = partsOf unicode kind entries := by
    rw [partsOf, names, partsOf]
  -- every part is read back to the view that was written
  have again : ∀ part ∈ partsOf unicode kind entries, ∀ talk raw tree tree' replies,
      PartMade unicode xml kind entries newParts part talk raw tree tree' replies →
        ∃ raw' tree'', readPart xml entries' part = .ok (raw', tree'') ∧
          xml.view tree'' = xml.view tree' ∧ Plain raw' := by
    intro part member talk raw tree tree' replies made
    exact made.reread laws (sound.plain part member raw (parsed_of_readPart made.found).1)
      (found part (mem_partsOf member))
  -- and every part listed was rewritten in some exchange
  have every : ∀ part ∈ partsOf unicode kind entries, ∃ talk raw tree tree' replies,
      talk ∈ talks ∧
        PartMade unicode xml kind entries newParts part talk raw tree tree' replies := by
    intro part member
    have firsts := List.map_fst_zip (Nat.le_of_eq done.made.length_eq)
    rw [← firsts] at member
    obtain ⟨pair, among, rfl⟩ := List.mem_map.mp member
    obtain ⟨raw, tree, tree', replies, made⟩ := List.forall₂_zip done.made among
    exact ⟨pair.2, raw, tree, tree', replies, (List.of_mem_zip among).2, made⟩
  refine ⟨entries', { archive with office := sound.office, plain := ?_, flat := ?_ }, ?_⟩
  · rw [same]
    intro part member raw got
    obtain ⟨talk, raw₀, tree, tree', replies, _, made⟩ := every part member
    obtain ⟨raw', tree'', read, _, plain⟩ := again part member _ _ _ _ _ made
    obtain rfl := Except.ok.inj (got.symm.trans (parsed_of_readPart read).1)
    exact plain
  · rw [same]
    intro pptx part member raw tree got
    obtain ⟨talk, raw₀, tree₀, tree', replies, _, made⟩ := every part member
    obtain ⟨raw', tree'', read, view, _⟩ := again part member _ _ _ _ _ made
    obtain ⟨rfl, rfl⟩ := Prod.mk.inj (Except.ok.inj (got.symm.trans read))
    rw [view, made.made.others.shape]
    exact sound.flat pptx part member raw₀ tree₀ made.found
  · have read : List.Forall₂ (fun part units => ∃ raw tree,
        readPart xml entries' part = .ok (raw, tree) ∧
          unitsOfPart unicode kind part (xml.view tree) = units)
        (partsOf unicode kind entries) (talks.map (List.map UnitAnswer.rewritten)) := by
      refine List.forall₂_map_right_iff.mpr ?_
      refine List.forall₂_iff_zip.mpr ⟨done.made.length_eq, fun {part talk} among => ?_⟩
      obtain ⟨raw, tree, tree', replies, made⟩ := List.forall₂_zip done.made among
      obtain ⟨member, taken⟩ := List.of_mem_zip among
      obtain ⟨raw', tree'', read, view, _⟩ := again part member _ _ _ _ _ made
      refine ⟨raw', tree'', read, ?_⟩
      rw [view, made.made.unitsOfPart_eq fun answer spoken => ?_, made.said]
      refine apt answer (done.said ▸ List.mem_flatten.mpr ⟨talk, taken, ?_⟩)
      rw [made.said]
      exact spoken
    have all := unitsOfParts_eq read
    rw [← same, partsOf] at all
    rw [OoxmlHandler.units, archive.opened, done.said, List.map_flatten]
    exact all

end

/-- Rewriting an office file asks for the units that are read from it and for nothing else. The new
file has the units with the replacements in them, if these lie in the units apart from each other
and leave something to be seen, and copies of what carries no text. The file is sound: no two
entries have one name, all of them can be read, the parts with text are in UTF-8 without entities of
their own, and no paragraph of a slide is in another one. -/
theorem rewrite_eq_units (laws : XmlLaws xml Plain) (zipLaws : ZipLaws zip) {data : Bytes}
    {entries : List ZipEntry} (sound : Sound unicode xml zip kind Plain data entries) {τ : Type}
    {fn : Text → Option Text → τ → Except FileError (List Replacement) × τ} {t t' : τ} {out : Bytes}
    (done : (rewrite unicode xml zip kind data).run fn t = (.ok out, t')) :
    ∃ answers entries', Rewriting.Serves fn answers t t' ∧
      OoxmlHandler.units unicode xml zip kind data = .ok (answers.map UnitAnswer.unit) ∧
      ((∀ answer ∈ answers, answer.Apt unicode) →
        OoxmlHandler.units unicode xml zip kind out = .ok (answers.map UnitAnswer.rewritten)) ∧
      zip.entries out = .ok entries' ∧
      entries'.map (·.info.filename) = entries.map (·.info.filename) ∧
      ∀ name ∈ entries.map (·.info.filename), name ∉ partsOf unicode kind entries →
        read entries' name = read entries name := by
  obtain ⟨answers, answered, serves⟩ := Rewriting.answered_of_run done
  obtain ⟨newParts, copied, talks, made⟩ :=
    rewrite_answered laws sound.toArchive sound.apart answered
  obtain ⟨entries', archive, names, found⟩ := made.reopened zipLaws sound.toArchive
  refine ⟨answers, entries', serves, made.units sound, fun apt => ?_, archive.opened, names,
    fun name among outside => ?_⟩
  · obtain ⟨_, _, reread⟩ := made.reread laws zipLaws sound apt
    exact reread
  · rw [found name among, copyOf, made.others name outside]
    rfl

end OoxmlHandler

/-- A document that a batch anonymizes holds the copies of its units: the result is an archive whose
units are those of the file with the replacements made. -/
theorem anonymizeFile_office {unicode : Unicode} {xml : Xml} {zip : Zip} {Plain : Bytes → Prop}
    (laws : XmlLaws xml Plain) (zipLaws : ZipLaws zip) {lower : Text → Text} {others : Handlers}
    {engine : Engine} {file : BatchFile} {kind : Kind} (named : kindOf lower file.name = .ok kind)
    (office : isOffice kind = true) {entries : List ZipEntry}
    (sound : OoxmlHandler.Sound unicode xml zip (officeKind kind) Plain file.data entries)
    {lang : Text} {options : Options} {p p' : Project} {result : FileResult}
    (done : anonymizeFile lower (ooxmlHandlers unicode xml zip others) engine.calls lang options file
      p = (.ok result, p')) :
    ∃ answers : List UnitAnswer,
      OoxmlHandler.units unicode xml zip (officeKind kind) file.data =
        .ok (answers.map UnitAnswer.unit) ∧
      engine.anonymizeFile lang options (answers.map fun a => (a.unit.force, a.unit.text)) p =
        some (answers.map UnitAnswer.reps, p') ∧
      ((∀ answer ∈ answers, answer.Apt unicode) →
        OoxmlHandler.units unicode xml zip (officeKind kind) result.data =
          .ok (answers.map UnitAnswer.rewritten)) := by
  have handled : (ooxmlHandlers unicode xml zip others).rewrite kind file.name file.data =
      OoxmlHandler.rewrite unicode xml zip (officeKind kind) file.data := if_pos office
  simp only [Desktop.anonymizeFile, named, anonymizing, handled] at done
  -- the handler either raises, and there is no result, or writes the file
  split at done
  · cases (Prod.mk.inj done).1
  · next out run p₁ written =>
    obtain ⟨outcome, rfl⟩ := Prod.mk.inj done
    obtain rfl := Except.ok.inj outcome
    obtain ⟨answers, _, serves, units, rewritten, _⟩ :=
      OoxmlHandler.rewrite_eq_units laws zipLaws sound written
    refine ⟨answers, units, ?_, rewritten⟩
    rw [Engine.anonymizeFile, anonymizeUnits_of_serves serves]
    rfl

namespace OoxmlHandler

/-! ## A paragraph in an archive of one part -/

/-- Items of bytes in one list: every byte behind a one, and a zero at the end of an item. -/
def pack (items : List Bytes) : Bytes :=
  items.flatMap fun item => item.flatMap (fun b => [1, b]) ++ [0]

/-- The items of packed bytes, with the bytes of the first one that were read before. -/
def unpack : Bytes → Bytes → Option (List Bytes)
  | _, [] => some []
  | front, 0 :: rest => (unpack [] rest).map (front :: ·)
  | front, 1 :: b :: rest => unpack (front ++ [b]) rest
  | _, _ => none

theorem unpack_pack (items : List Bytes) : unpack [] (pack items) = some items := by
  have item (front item rest : Bytes) : unpack front (item.flatMap (fun b => [1, b]) ++ 0 :: rest) =
      (unpack [] rest).map ((front ++ item) :: ·) := by
    induction item generalizing front with
    | nil => rw [List.append_nil]; rfl
    | cons b item ih =>
      have step : unpack front ((b :: item).flatMap (fun b => [1, b]) ++ 0 :: rest) =
          unpack (front ++ [b]) (item.flatMap (fun b => [1, b]) ++ 0 :: rest) := rfl
      rw [step, ih, List.append_assoc]
      rfl
  induction items with
  | nil => rfl
  | cons first items ih =>
    rw [pack, List.flatMap_cons, List.append_assoc]
    refine (item [] first _).trans ?_
    exact congrArg (Option.map (first :: ·)) ih

/-- A document of one paragraph with two runs of text, as small as a part with a group of two slots
can be. -/
def sampleShape : Shape where
  nodes := [⟨none, some (w "p")⟩, ⟨some 0, some (w "t")⟩, ⟨some 0, some (w "t")⟩]
  nested := by
    intro i j found
    rcases i with _ | _ | _ | i
    · cases found
    · obtain rfl := Option.some.inj found
      omega
    · obtain rfl := Option.some.inj found
      omega
    · cases found

/-- A text that is written into one of the three nodes. -/
def writable (write : Slot × Text) : Bool :=
  decide (write.1.node < 3) && write.2.all XmlDocument.isXmlChar

/-- Texts in the nodes of the paragraph, the newest first. -/
abbrev SampleTree := { writes : List (Slot × Text) // writes.all writable = true }

def writeItems (write : Slot × Text) : List Bytes :=
  match write.1 with
  | .text node => [List.replicate node 0, [], utf8 write.2]
  | .attr node name => [List.replicate node 0, 0 :: utf8 name, utf8 write.2]

def slotOf (node : Bytes) : Bytes → Option Slot
  | [] => some (.text node.length)
  | _ :: name => (utf8Decode name).map (.attr node.length)

def readWrites : List Bytes → Option (List (Slot × Text))
  | [] => some []
  | node :: name :: value :: rest => do
    let slot ← slotOf node name
    let text ← utf8Decode value
    let writes ← readWrites rest
    some ((slot, text) :: writes)
  | _ => none

theorem readWrites_items (writes : List (Slot × Text)) :
    readWrites (writes.flatMap writeItems) = some writes := by
  induction writes with
  | nil => rfl
  | cons write writes ih =>
    obtain ⟨slot, text⟩ := write
    rw [List.flatMap_cons]
    cases slot with
    | text node => simp [writeItems, readWrites, slotOf, ih]
    | attr node name => simp [writeItems, readWrites, slotOf, ih]

def sampleView (tree : SampleTree) : XmlDocument :=
  ⟨sampleShape, fun slot => (tree.1.lookup slot).getD []⟩

/-- A parser for documents with the shape of the paragraph, whose bytes list the texts that were
written to it. -/
def sampleXml : Xml where
  Tree := SampleTree
  fromstring raw :=
    match raw with
    | 0 :: rest => ((unpack [] rest).bind readWrites).bind fun writes =>
        if valid : writes.all writable = true then some ⟨writes, valid⟩ else none
    | _ => none
  tostring tree := 0 :: pack (tree.1.flatMap writeItems)
  view := sampleView
  set slot value tree :=
    if valid : ((slot, value) :: tree.1).all writable = true then some ⟨_, valid⟩ else none

/-- The documents that have no declaration. -/
def Undeclared (raw : Bytes) : Prop := declaration raw = []

theorem sampleTree_reads (tree : SampleTree) :
    sampleXml.fromstring (sampleXml.tostring tree) = some tree := by
  have read : sampleXml.fromstring (sampleXml.tostring tree) =
      ((unpack [] (pack (tree.1.flatMap writeItems))).bind readWrites).bind fun writes =>
        if valid : writes.all writable = true then some (⟨writes, valid⟩ : SampleTree)
        else none := rfl
  rw [read, unpack_pack, Option.bind_some, readWrites_items, Option.bind_some, dif_pos tree.2]

theorem sampleXml_laws : XmlLaws sampleXml Undeclared where
  view_set := by
    intro slot value tree tree' written
    simp only [sampleXml] at written
    split at written
    · obtain rfl := Option.some.inj written
      have content : (sampleView ⟨(slot, value) :: tree.1, by assumption⟩).content =
          Function.update (sampleView tree).content slot value := by
        funext other
        -- the newest write of a slot is the one the view shows
        by_cases same : other = slot
        · subst same
          simp [sampleView, List.lookup_cons]
        · have different : (other == slot) = false := beq_false_of_ne same
          simp [sampleView, List.lookup_cons, different, same]
      exact congrArg (XmlDocument.mk sampleShape) content
    · cases written
  reads := by
    intro raw tree plain _
    have front : declaration raw = [] := plain
    rw [front, List.nil_append]
    exact ⟨rfl, tree, sampleTree_reads tree, rfl⟩

/-- Archives that are their only part. -/
def sampleZip : Zip where
  entries data := .ok [⟨⟨"word/document.xml".toList, [], zipDeflated, 0⟩, .ok data⟩]
  write entries := (entries.head?.map Prod.snd).getD []

theorem sampleZip_laws : ZipLaws sampleZip where
  reads := by
    intro data entries copied opened names
    obtain rfl := Except.ok.inj opened
    rcases copied with _ | ⟨copy, rest⟩
    · cases names
    · obtain ⟨name, none⟩ := List.cons.inj names
      obtain rfl := List.map_eq_nil_iff.mp none
      refine ⟨_, rfl, ?_⟩
      exact congrArg (fun name => [(name, Except.ok copy.2)]) name.symm

/-- A name over two runs. -/
def sampleDocx : Bytes :=
  sampleXml.tostring ⟨[(.text 1, "ТОВ «An".toList), (.text 2, "t»".toList)], by decide⟩

def sampleReps : List Replacement := [⟨⟨5, 8, "[1]".toList⟩, "PARTY".toList, 1, "Ant".toList⟩]

theorem rewrite_eq_units_docx : ∃ out,
    ((rewrite Unicode.ascii sampleXml sampleZip .docx sampleDocx).run
      (fun _ _ t => (.ok sampleReps, t)) ()).1 = .ok out ∧
    OoxmlHandler.units Unicode.ascii sampleXml sampleZip .docx out =
      .ok [⟨"ТОВ «[1]»".toList, none⟩] := by
  have finished : ((rewrite Unicode.ascii sampleXml sampleZip .docx sampleDocx).run
      (fun _ _ t => (.ok sampleReps, t)) ()).1.toOption.isSome = true := by
    decide +kernel
  have asked : (OoxmlHandler.units Unicode.ascii sampleXml sampleZip .docx sampleDocx).toOption.map
      (List.map fun unit => (unit.text, unit.force)) = some [("ТОВ «Ant»".toList, none)] := by
    decide +kernel
  generalize outcome : (rewrite Unicode.ascii sampleXml sampleZip .docx sampleDocx).run
    (fun _ _ t => (.ok sampleReps, t)) () = result at finished
  obtain ⟨made, t'⟩ := result
  cases made with
  | error error => cases finished
  | ok out =>
    have sound : Sound Unicode.ascii sampleXml sampleZip .docx Undeclared sampleDocx
        [⟨⟨"word/document.xml".toList, [], zipDeflated, 0⟩, .ok sampleDocx⟩] :=
      { opened := rfl
        named := List.nodup_singleton _
        readable := fun name member => by
          obtain rfl := List.mem_singleton.mp member
          exact ⟨sampleDocx, rfl⟩
        office := .inl rfl
        plain := fun part member raw found => by
          obtain rfl := List.mem_singleton.mp (mem_partsOf member)
          obtain rfl := Except.ok.inj found
          rfl
        flat := fun pptx => by cases pptx }
    obtain ⟨answers, _, serves, units, reread, _⟩ :=
      rewrite_eq_units sampleXml_laws sampleZip_laws sound outcome
    rw [units] at asked
    refine ⟨out, rfl, ?_⟩
    -- the document has one unit, so one answer was given
    rcases serves with _ | ⟨first, rest⟩
    · cases asked
    · rename_i answer answers t₁
      rcases rest with _ | ⟨_, _⟩
      · obtain ⟨same, _⟩ := Prod.mk.inj first
        have reps : sampleReps = answer.reps := Except.ok.inj same
        obtain ⟨⟨text, force⟩, reps'⟩ := answer
        obtain rfl : sampleReps = reps' := reps
        have pair : (text, force) = ("ТОВ «Ant»".toList, none) :=
          List.singleton_inj.mp (Option.some.inj asked)
        obtain ⟨rfl, rfl⟩ := Prod.mk.inj pair
        refine reread (List.forall_mem_singleton.mpr ⟨⟨?_, ?_⟩, ?_⟩)
        · exact List.pairwise_singleton _ _
        · exact List.forall_mem_singleton.mpr (by decide)
        · decide
      · cases congrArg (Option.map List.length) asked

end OoxmlHandler

end RedactGate.Desktop
