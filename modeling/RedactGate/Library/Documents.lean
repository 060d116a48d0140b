import RedactGate.Library.Bytes
import Mathlib.Logic.Function.Basic
import Mathlib.Logic.Relation

/-!
# Parsed documents

The elements of a parsed document in document order, each with the place of its parent, and
the texts that can be written: the text in front of the first child of an element, and the
values of its attributes.
-/
namespace RedactGate.Library

/-- A node of a tree. Comments and other nodes that are no elements have no tag. -/
structure TreeNode where
  parent : Option Nat
  tag : Option Text
  deriving DecidableEq

/-- The nodes of a tree in document order: a parent stands before its children. -/
structure Shape where
  nodes : List TreeNode
  nested : ∀ i j, (nodes[i]?.bind TreeNode.parent) = some j → j < i

/-- Where a text stands in a document: in a node, or in an attribute of one. -/
inductive Slot where
  | text (node : Nat)
  | attr (node : Nat) (name : Text)
  deriving DecidableEq

def Slot.node : Slot → Nat
  | text node => node
  | attr node _ => node

/-- A tree with its texts. A text or a value that is missing is empty. -/
structure XmlDocument where
  shape : Shape
  content : Slot → Text

namespace Shape

variable (shape : Shape)

def parent (i : Nat) : Option Nat := shape.nodes[i]?.bind TreeNode.parent

def tag (i : Nat) : Option Text := shape.nodes[i]?.bind TreeNode.tag

def places : List Nat := List.range shape.nodes.length

/-- The parent, its parent and so on. Every step goes to a place before. -/
def ancestorsWithin : (fuel : Nat) → Nat → List Nat
  | 0, _ => []
  | fuel + 1, i => (shape.parent i).elim [] fun j => j :: ancestorsWithin fuel j

def ancestors (i : Nat) : List Nat := shape.ancestorsWithin i i

/-- All elements with a tag. -/
def all (tag : Text) : List Nat := shape.places.filter fun i => shape.tag i = some tag

/-- `iter`: the elements with a tag from an element on. -/
def iter (top : Nat) (tag : Text) : List Nat :=
  (shape.all tag).filter fun i => i = top || top ∈ shape.ancestors i

/-- The children of the first node, which is the root. -/
def children : List Nat := shape.places.filter fun i => shape.parent i = some 0

/-- The nearest element with a tag that a node is in. -/
def owner (tag : Text) (i : Nat) : Option Nat :=
  (shape.ancestors i).find? fun j => shape.tag j = some tag

/-- An element that a node is in. -/
def Encloses (i j : Nat) : Prop := Relation.TransGen (fun a b => shape.parent b = some a) i j

variable {shape} {i j : Nat} {tag : Text}

theorem ancestorsWithin_eq {fuel : Nat} (enough : i ≤ fuel) :
    shape.ancestorsWithin fuel i = shape.ancestors i := by
  induction i using Nat.strongRecOn generalizing fuel with
  | ind i ih =>
    -- a parent stands before its child, so the number of a node is fuel enough
    have single {fuel : Nat} (enough : i ≤ fuel) : shape.ancestorsWithin fuel i =
        (shape.parent i).elim [] fun j => j :: shape.ancestors j := by
      cases found : shape.parent i with
      | none =>
        cases fuel with
        | zero => rfl
        | succ fuel => rw [ancestorsWithin, found]; rfl
      | some j =>
        have before : j < i := shape.nested i j found
        cases fuel with
        | zero => omega
        | succ fuel =>
          rw [ancestorsWithin, found, Option.elim_some, ih j before (by omega)]
          rfl
    rw [single enough, ancestors, single (Nat.le_refl i)]

theorem ancestors_eq (i : Nat) :
    shape.ancestors i = (shape.parent i).elim [] fun j => j :: shape.ancestors j := by
  cases found : shape.parent i with
  | none =>
    rw [ancestors]
    cases i with
    | zero => rfl
    | succ i => rw [ancestorsWithin, found]; rfl
  | some j =>
    have before : j < i := shape.nested i j found
    cases i with
    | zero => omega
    | succ i =>
      rw [ancestors, ancestorsWithin, found, Option.elim_some, ancestorsWithin_eq (by omega)]
      rfl

theorem mem_ancestors : i ∈ shape.ancestors j ↔ shape.Encloses i j := by
  constructor
  -- along the parents, which have smaller numbers
  · induction j using Nat.strongRecOn with
    | ind j ih =>
      rw [ancestors_eq]
      cases found : shape.parent j with
      | none => exact fun member => absurd member List.not_mem_nil
      | some k =>
        intro member
        rcases List.mem_cons.mp member with rfl | member
        · exact .single found
        · exact (ih k (shape.nested j k found) member).tail found
  · intro encloses
    induction encloses with
    | single step =>
      rw [ancestors_eq, step]
      exact List.mem_cons_self
    | tail _ step ih =>
      rw [ancestors_eq, step]
      exact List.mem_cons_of_mem _ ih

/-- Of two elements that a node is in, one is in the other: the elements around a node are a chain
from the root down to it. -/
theorem Encloses.linear {k : Nat} (first : shape.Encloses i k) (second : shape.Encloses j k) :
    i = j ∨ shape.Encloses i j ∨ shape.Encloses j i := by
  induction first with
  | single step =>
    cases second with
    | single step' => exact .inl (Option.some.inj (step.symm.trans step'))
    | tail before step' =>
      obtain rfl := Option.some.inj (step.symm.trans step')
      exact .inr (.inr before)
  | tail before step ih =>
    cases second with
    | single step' =>
      obtain rfl := Option.some.inj (step.symm.trans step')
      exact .inr (.inl before)
    | tail before' step' =>
      obtain rfl := Option.some.inj (step.symm.trans step')
      exact ih before'

theorem mem_all : i ∈ shape.all tag ↔ shape.tag i = some tag := by
  rw [all, List.mem_filter, decide_eq_true_iff, and_iff_right_iff_imp, places, List.mem_range]
  intro found
  by_contra outside
  rw [Shape.tag, List.getElem?_eq_none (by omega)] at found
  cases found

theorem nodup_all : (shape.all tag).Nodup := List.nodup_range.filter _

theorem mem_iter {top : Nat} :
    i ∈ shape.iter top tag ↔ shape.tag i = some tag ∧ (i = top ∨ shape.Encloses top i) := by
  rw [iter, List.mem_filter, mem_all, Bool.or_eq_true, decide_eq_true_iff, decide_eq_true_iff,
    mem_ancestors]

theorem tag_of_owner (found : shape.owner tag i = some j) :
    shape.tag j = some tag ∧ shape.Encloses j i :=
  ⟨of_decide_eq_true (List.find?_some found :), mem_ancestors.mp (List.mem_of_find?_eq_some found)⟩

/-- A node has an owner with a tag if and only if it is inside some element with this tag at all. -/
theorem isSome_owner : (shape.owner tag i).isSome ↔
    ∃ j, shape.tag j = some tag ∧ shape.Encloses j i := by
  rw [owner, List.find?_isSome]
  constructor
  · rintro ⟨j, member, tagged⟩
    exact ⟨j, of_decide_eq_true tagged, mem_ancestors.mp member⟩
  · rintro ⟨j, tagged, encloses⟩
    exact ⟨j, mem_ancestors.mpr encloses, decide_eq_true tagged⟩

end Shape

namespace XmlDocument

variable (doc : XmlDocument)

/-- A text is written. -/
def set (slot : Slot) (value : Text) : XmlDocument :=
  { doc with content := Function.update doc.content slot value }

@[simp] theorem shape_set (slot : Slot) (value : Text) : (doc.set slot value).shape = doc.shape :=
  rfl

@[simp] theorem content_set_self (slot : Slot) (value : Text) :
    (doc.set slot value).content slot = value := by
  simp [set]

@[simp] theorem content_set_of_ne {slot other : Slot} (ne : other ≠ slot) (value : Text) :
    (doc.set slot value).content other = doc.content other := by
  simp [set, ne]

/-- The characters that a document can hold. -/
def isXmlChar (c : Char) : Bool :=
  c = '\t' || c = '\n' || c = '\r' ||
    (decide (0x20 ≤ c.toNat) && c.toNat != 0xFFFE && c.toNat != 0xFFFF)

end XmlDocument

/-- A library that parses documents into trees and writes the trees. Parsing fails on what is no
document, and writing a text into a tree fails on a text that a document cannot hold. -/
structure Xml where
  Tree : Type
  fromstring : Bytes → Option Tree
  tostring : Tree → Bytes
  view : Tree → XmlDocument
  set : Slot → Text → Tree → Option Tree

/-- A tree that was parsed from the data and had texts written into it, any number of times. -/
inductive Xml.Edited (xml : Xml) (raw : Bytes) : xml.Tree → Prop
  | parsed {tree : xml.Tree} (parsed : xml.fromstring raw = some tree) : Edited xml raw tree
  | set {tree tree' : xml.Tree} {slot : Slot} {value : Text} (edited : Edited xml raw tree)
      (written : xml.set slot value tree = some tree') : Edited xml raw tree'

end RedactGate.Library
