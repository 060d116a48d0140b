import RedactGate.Desktop.LabelSearch
import RedactGate.Desktop.Replacements
import RedactGate.Library.Neighbours
import Mathlib.Data.List.Pairwise

/-!
# Inserted labels

Where the labels that are put into a text stand in the copy, and what the search finds there.
If it finds all of them and the text has no label of its own, it finds nothing else: what it
would find beside them stands in the text as well.
-/
namespace RedactGate.Desktop

open Library

/-- The labels that replacements in reading order put in, where they stand in the copy. The
first one is at `pos` in the text and at `pos'` in the copy, or behind. -/
def insertedHits (pos pos' : Nat) : List Replacement → List LabelHit
  | [] => []
  | r :: reps =>
    let start := pos' + (r.start - pos)
    ⟨start, start + r.new.length, r.category, r.n, r.new⟩ ::
      insertedHits r.stop (start + r.new.length) reps

variable {casing : Casing} {text : Text} {reps : List Replacement} {pos pos' : Nat}

theorem map_key_insertedHits : (insertedHits pos pos' reps).map LabelHit.key =
    reps.map fun r => (r.category, r.n) := by
  induction reps generalizing pos pos' with
  | nil => rfl
  | cons r reps ih => exact congrArg ((r.category, r.n) :: ·) ih

theorem map_text_insertedHits : (insertedHits pos pos' reps).map LabelHit.text =
    reps.map (·.new) := by
  induction reps generalizing pos pos' with
  | nil => rfl
  | cons r reps ih => exact congrArg (r.new :: ·) ih

/-- The labels that are put in stand where the edits put something in, counted from the same offset. -/
theorem map_stretch_insertedHits : (insertedHits pos pos' reps).map (fun h => (h.start, h.stop)) =
    (Edit.inserted pos (reps.map Replacement.toEdit)).map fun s => (s.1 + pos', s.2 + pos') := by
  induction reps generalizing pos pos' with
  | nil => rfl
  | cons r reps ih =>
    simp only [insertedHits, Edit.inserted, List.map_cons, List.map_map, ih, List.cons.injEq,
      Prod.mk.injEq]
    refine ⟨⟨Nat.add_comm _ _, by omega⟩, List.map_congr_left fun s _ => ?_⟩
    simp only [Function.comp, Prod.mk.injEq]
    omega

theorem bounds_insertedHits (filled : ∀ r ∈ reps, r.new ≠ []) :
    ∀ hit ∈ insertedHits pos pos' reps, pos' ≤ hit.start ∧ hit.start < hit.stop := by
  induction reps generalizing pos pos' with
  | nil => exact fun _ none => absurd none List.not_mem_nil
  | cons r reps ih =>
    obtain ⟨here, later⟩ := List.forall_mem_cons.mp filled
    have width := List.length_pos_iff.mpr here
    refine List.forall_mem_cons.mpr ⟨⟨Nat.le_add_right _ _, Nat.lt_add_of_pos_right width⟩, ?_⟩
    intro hit member
    obtain ⟨behind, proper⟩ := ih later hit member
    exact ⟨by omega, proper⟩

theorem pairwise_insertedHits (filled : ∀ r ∈ reps, r.new ≠ []) :
    (insertedHits pos pos' reps).Pairwise fun a b => a.stop ≤ b.start := by
  induction reps generalizing pos pos' with
  | nil => exact .nil
  | cons r reps ih =>
    have later := (List.forall_mem_cons.mp filled).2
    exact .cons (fun hit member => (bounds_insertedHits later hit member).1) (ih later)

/-- Every label that is put in splits the copy into what stands before and behind it, and it is the
label of one of the replacements, with its category and its number. -/
theorem exists_of_mem_insertedHits
    (ordered : Edit.Ordered text pos (reps.map Replacement.toEdit)) {hit : LabelHit}
    (member : hit ∈ insertedHits pos pos' reps) : ∃ front back,
      Edit.patch text pos (reps.map Replacement.toEdit) = front ++ hit.text ++ back ∧
        hit.start = pos' + front.length ∧ hit.stop = hit.start + hit.text.length ∧
          ∃ r ∈ reps, r.category = hit.category ∧ r.n = hit.number ∧ r.new = hit.text := by
  induction reps generalizing pos pos' with
  | nil => cases member
  | cons r reps ih =>
    obtain ⟨behind, proper, later⟩ := ordered
    have gap : (text.slice pos r.start).length = r.start - pos :=
      Text.length_slice (Nat.le_trans proper later.le_length)
    rcases List.mem_cons.mp member with rfl | member
    · refine ⟨text.slice pos r.start, Edit.patch text r.stop (reps.map Replacement.toEdit), rfl, ?_,
        rfl, r, List.mem_cons_self, rfl, rfl, rfl⟩
      exact congrArg (pos' + ·) gap.symm
    -- a later hit is found in the patch of the rest, behind the gap and this label
    · obtain ⟨front, back, split, start, stop, r', among, same⟩ := ih later member
      refine ⟨text.slice pos r.start ++ r.new ++ front, back, ?_, ?_, stop, r',
        List.mem_cons_of_mem _ among, same⟩
      · simp only [List.map_cons, Edit.patch, split, List.append_assoc]
      · simp only [start, List.length_append, gap]
        omega

/-- Two lists of hits that follow one another without overlapping and have the same members are the
same list: the offsets determine the order. -/
theorem hits_eq {hits hits' : List LabelHit} (proper : ∀ h ∈ hits, h.start < h.stop)
    (apart : hits.Pairwise fun a b => a.stop ≤ b.start)
    (apart' : hits'.Pairwise fun a b => a.stop ≤ b.start) (same : ∀ h, h ∈ hits ↔ h ∈ hits') :
    hits = hits' := by
  have once {hits : List LabelHit} (proper : ∀ h ∈ hits, h.start < h.stop)
      (apart : hits.Pairwise fun a b => a.stop ≤ b.start) : hits.Nodup := by
    refine apart.imp_of_mem fun {a b} ha _ before => ?_
    rintro rfl
    have width := proper a ha
    omega
  have proper' : ∀ h ∈ hits', h.start < h.stop := fun h member => proper h ((same h).mpr member)
  have perm := (List.perm_ext_iff_of_nodup (once proper apart) (once proper' apart')).mpr same
  refine perm.eq_of_pairwise (fun a b ha _ before after => ?_) apart apart'
  -- no hit can end before another one starts that ends before the first one
  have width := proper a ha
  have width' := proper' b ‹_›
  omega

theorem label_of_mem_findLabels (tables : LabelTables casing) {hit : LabelHit}
    (found : hit ∈ findLabels casing text) :
    hit.start < hit.stop ∧ ∃ s h d, LabelText casing hit.text s h d := by
  have here := mem_findLabels.mp found
  obtain ⟨width, _, _, shape, _⟩ := label_of_taken tables here.taken
  exact ⟨width, here.text ▸ shape⟩

/-- Two different hits in a text do not overlap: the search goes on behind each match. -/
theorem apart_of_mem_findLabels {hit hit' : LabelHit} (found : hit ∈ findLabels casing text)
    (found' : hit' ∈ findLabels casing text) (other : hit ≠ hit') :
    hit.stop ≤ hit'.start ∨ hit'.stop ≤ hit.start := by
  have symm : Std.Symm fun a b : LabelHit => a.stop ≤ b.start ∨ b.stop ≤ a.start :=
    ⟨fun _ _ => Or.symm⟩
  have either : (findLabels casing text).Pairwise fun a b => a.stop ≤ b.start ∨ b.stop ≤ a.start :=
    (pairwise_findLabels casing text).imp Or.inl
  exact either.forall found found' other

/-- The search finds the labels that are put in. -/
def Recognised (casing : Casing) (text : Text) (reps : List Replacement) : Prop :=
  ∀ hit ∈ insertedHits 0 0 reps,
    hit ∈ findLabels casing (Edit.patch text 0 (reps.map Replacement.toEdit))

namespace Recognised

variable (tables : LabelTables casing) (recognised : Recognised casing text reps)

include tables recognised

theorem label {r : Replacement} (member : r ∈ reps) : ∃ s h d, LabelText casing r.new s h d := by
  have texts : r.new ∈ (insertedHits 0 0 reps).map LabelHit.text :=
    map_text_insertedHits ▸ List.mem_map_of_mem member
  obtain ⟨hit, among, same⟩ := List.mem_map.mp texts
  exact same ▸ (label_of_mem_findLabels tables (recognised hit among)).2

theorem filled : ∀ r ∈ reps, r.new ≠ [] := by
  intro r member
  obtain ⟨s, h, d, shape⟩ := recognised.label tables member
  obtain ⟨c, rest, same, _⟩ := shape.head tables
  rw [same]
  exact List.cons_ne_nil _ _

omit tables in
/-- What the search finds in the copy besides the labels that are put in lies outside of them, since
no two hits overlap. -/
theorem outside {hit : LabelHit}
    (found : hit ∈ findLabels casing (Edit.patch text 0 (reps.map Replacement.toEdit)))
    (other : hit ∉ insertedHits 0 0 reps) {front : Text} (start : front.length = hit.start)
    {value : Text} (stop : front.length + value.length = hit.stop) :
    Outside (Edit.inserted 0 (reps.map Replacement.toEdit)) front value := by
  intro s member
  have among : (s.1 + 0, s.2 + 0) ∈ (insertedHits 0 0 reps).map fun h => (h.start, h.stop) := by
    rw [map_stretch_insertedHits]
    exact List.mem_map_of_mem member
  obtain ⟨hit', among, same⟩ := List.mem_map.mp among
  obtain ⟨from_start, to_stop⟩ := Prod.mk.inj same
  have apart := apart_of_mem_findLabels found (recognised hit' among) fun same =>
    other (same ▸ among)
  omega

/-- The character before a stretch outside the labels is that of the text, unless it is a digit
of a label that is put in. -/
theorem endsOpen_text {front : Text} {offset : Nat} {old : Text}
    (before : front.getLast? = (Edit.preceding offset old (reps.map Replacement.toEdit)).getLast?)
    (opened : EndsOpen (joinsLabel casing) front) : EndsOpen (joinsLabel casing) old := by
  rcases Edit.preceding_cases offset old (reps.map Replacement.toEdit) with
    ⟨same, _⟩ | ⟨e, member, _, new⟩
  · rw [same] at before
    exact fun c last => opened c (before.trans last)
  · obtain ⟨r, among, rfl⟩ := List.mem_map.mp member
    obtain ⟨s, h, d, shape⟩ := recognised.label tables among
    obtain ⟨c, last, word⟩ := shape.last
    have joins := opened c (before.trans (new old ▸ last))
    rw [joinsLabel, word, Bool.true_or] at joins
    cases joins

theorem startsOpen_text {back : Text} {offset : Nat} {old : Text}
    (after : back.head? = (Edit.following offset old (reps.map Replacement.toEdit)).head?)
    (closed : StartsOpen casing.isWord back) : StartsOpen casing.isWord old := by
  rcases Edit.following_cases offset old (reps.map Replacement.toEdit) with
    ⟨same, _⟩ | ⟨e, member, _, new⟩
  · rw [same] at after
    exact fun c head => closed c (after.trans head)
  · obtain ⟨r, among, rfl⟩ := List.mem_map.mp member
    obtain ⟨s, h, d, shape⟩ := recognised.label tables among
    obtain ⟨c, rest, begins, word⟩ := shape.head tables
    have outside := closed c (after.trans (by rw [new, begins]; rfl))
    exact absurd (word.symm.trans outside) (by decide)

/-- If the text had no label of its own, then every label that the search finds in the copy is one
of those that were put in: no label arises at the seams. -/
theorem mem_insertedHits (placed : Placed text (reps.map Replacement.toEdit))
    (none : findLabels casing text = []) {hit : LabelHit}
    (found : hit ∈ findLabels casing (Edit.patch text 0 (reps.map Replacement.toEdit))) :
    hit ∈ insertedHits 0 0 reps := by
  -- a label that is none of the inserted ones would stand in the text between them, where none
  -- stands
  by_contra other
  have filled : ∀ e ∈ reps.map Replacement.toEdit, e.new ≠ [] := fun e member => by
    obtain ⟨r, among, rfl⟩ := List.mem_map.mp member
    exact recognised.filled tables r among
  obtain ⟨width, inside, opened, ⟨s, h, d, shape⟩, closed⟩ :=
    label_of_taken tables (mem_findLabels.mp found).taken
  have start : ((Edit.patch text 0 (reps.map Replacement.toEdit)).take hit.start).length =
    hit.start := List.length_take_of_le (by omega)
  have length : (Text.slice (Edit.patch text 0 (reps.map Replacement.toEdit)) hit.start
      hit.stop).length = hit.stop - hit.start := Text.length_slice inside
  have some : Text.slice (Edit.patch text 0 (reps.map Replacement.toEdit)) hit.start hit.stop ≠ [] :=
    List.length_pos_iff.mp (by omega)
  obtain ⟨front, back, split, _, before, after⟩ := Edit.exists_of_patch placed.ordered placed.proper
    filled some (Text.take_append_slice_append_drop (Nat.le_of_lt width)).symm
    (recognised.outside found other start (by omega))
  refine findLabels_ne_nil tables split ((matches_labelRe_iff tables).mpr ⟨?_, ⟨s, h, d, shape⟩, ?_⟩)
    none
  · exact recognised.endsOpen_text tables before opened
  · exact recognised.startsOpen_text tables after closed

end Recognised

/-- If the search finds the labels that are put in and the text has none of its own, it finds
nothing else. -/
theorem findLabels_eq_insertedHits (tables : LabelTables casing)
    (placed : Placed text (reps.map Replacement.toEdit)) (none : findLabels casing text = [])
    (recognised : Recognised casing text reps) :
    findLabels casing (Edit.patch text 0 (reps.map Replacement.toEdit)) = insertedHits 0 0 reps := by
  refine hits_eq (fun hit found => (label_of_mem_findLabels tables found).1)
    (pairwise_findLabels casing _) (pairwise_insertedHits (recognised.filled tables)) fun hit => ?_
  exact ⟨recognised.mem_insertedHits tables placed none, recognised hit⟩

end RedactGate.Desktop
