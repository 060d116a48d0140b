import RedactGate.Library.Text

/-!
# Edits of a text

Replacing stretches of a text from right to left, one splice at a time, copies the
gaps between them and puts the new texts in place of the stretches.
-/
namespace RedactGate.Library

structure Edit where
  start : Nat
  stop : Nat
  new : Text
  deriving DecidableEq, Repr

/-- A stretch of a text: the offsets where it begins and ends. -/
abbrev Stretch := Nat × Nat

/-- The pieces of the text from `pos` on that lie between stretches. -/
def pieces (text : Text) (pos : Nat) : List Stretch → List Text
  | [] => [text.drop pos]
  | s :: stretches => text.slice pos s.1 :: pieces text s.2 stretches

theorem length_pieces (text : Text) (pos : Nat) (stretches : List Stretch) :
    (pieces text pos stretches).length = stretches.length + 1 := by
  induction stretches generalizing pos with
  | nil => rfl
  | cons s stretches ih => exact congrArg (· + 1) (ih s.2)

theorem infix_of_mem_pieces {text piece : Text} {pos : Nat} {stretches : List Stretch}
    (member : piece ∈ pieces text pos stretches) : piece <:+: text := by
  induction stretches generalizing pos with
  | nil =>
    obtain rfl := List.mem_singleton.mp member
    exact (List.drop_suffix pos text).isInfix
  | cons s stretches ih =>
    rcases List.mem_cons.mp member with rfl | later
    · exact (List.drop_suffix pos _).isInfix.trans (List.take_prefix s.1 text).isInfix
    · exact ih later

namespace Edit

/-- The stretch that an edit replaces. -/
def stretch (e : Edit) : Stretch := (e.start, e.stop)

def splice (e : Edit) (text : Text) : Text := text.splice e.start e.stop e.new

/-- The text from `pos` on, with the stretches of the edits replaced. -/
def patch (text : Text) (pos : Nat) : List Edit → Text
  | [] => text.drop pos
  | e :: es => text.slice pos e.start ++ e.new ++ patch text e.stop es

/-- The edits lie in the text from `pos` on, one after the other. -/
def Ordered (text : Text) (pos : Nat) : List Edit → Prop
  | [] => pos ≤ text.length
  | e :: es => pos ≤ e.start ∧ e.start ≤ e.stop ∧ Ordered text e.stop es

theorem Ordered.le_length {text : Text} {pos : Nat} {es : List Edit}
    (ordered : Ordered text pos es) : pos ≤ text.length := by
  induction es generalizing pos with
  | nil => exact ordered
  | cons e es ih =>
    have later := ih ordered.2.2
    have first := ordered.1
    have second := ordered.2.1
    omega

theorem ordered_of_pairwise {text : Text} {pos : Nat} {es : List Edit}
    (proper : ∀ e ∈ es, pos ≤ e.start ∧ e.start ≤ e.stop ∧ e.stop ≤ text.length)
    (apart : es.Pairwise fun a b => a.stop ≤ b.start) (inside : pos ≤ text.length) :
    Ordered text pos es := by
  induction es generalizing pos with
  | nil => exact inside
  | cons e es ih =>
    obtain ⟨before, stretch, bound⟩ := proper e List.mem_cons_self
    refine ⟨before, stretch, ih (fun e' member => ?_) apart.of_cons bound⟩
    have later := proper e' (List.mem_cons_of_mem _ member)
    exact ⟨List.rel_of_pairwise_cons apart member, later.2⟩

/-- Splicing ordered edits from the last to the first leaves the text before `pos` alone and patches
the rest: no splice moves the offsets of the edits before it. -/
theorem foldr_splice {text : Text} {pos : Nat} {es : List Edit} (ordered : Ordered text pos es) :
    es.foldr splice text = text.take pos ++ patch text pos es := by
  induction es generalizing pos with
  | nil => exact (List.take_append_drop pos text).symm
  | cons e es ih =>
    obtain ⟨before, proper, rest⟩ := ordered
    have inside := rest.le_length
    have len : (text.take e.stop).length = e.stop := by
      rw [List.length_take]
      omega
    -- the edits behind leave the text in front of them as it is
    have front : (text.take e.stop ++ patch text e.stop es).take e.start = text.take e.start := by
      rw [List.take_append_of_le_length (by omega), List.take_take, Nat.min_eq_left proper]
    have gap : text.take e.start = text.take pos ++ text.slice pos e.start := by
      have joined : text.slice 0 pos ++ text.slice pos e.start = text.slice 0 e.start :=
        Text.slice_append_slice (Nat.zero_le pos) before
      simpa [Text.slice] using joined.symm
    rw [List.foldr_cons, ih rest, splice, Text.splice, front, List.drop_left' len, patch, gap]
    simp

/-- Pieces with a new text between each two of them; what is left over of either list is dropped. -/
def weave : List Text → List Text → Text
  | [], _ => []
  | piece :: _, [] => piece
  | piece :: rest, new :: news => piece ++ new ++ weave rest news

/-- A patched text is made of the pieces between the stretches and of the new texts. -/
theorem patch_eq_weave (text : Text) (pos : Nat) (es : List Edit) :
    patch text pos es = weave (pieces text pos (es.map stretch)) (es.map new) := by
  induction es generalizing pos with
  | nil => rfl
  | cons e es ih =>
    rw [patch, ih]
    rfl

/-- Weaving goes on at the end too: the last new text, with the last piece behind it. -/
theorem weave_concat {parts news : List Text} (fit : parts.length = news.length + 1)
    (part new : Text) :
    weave (parts ++ [part]) (news ++ [new]) = weave parts news ++ new ++ part := by
  induction news generalizing parts with
  | nil =>
    obtain ⟨only, rfl⟩ := List.length_eq_one_iff.mp fit
    rfl
  | cons first news ih =>
    cases parts with
    | nil => cases fit
    | cons piece parts =>
      simp only [List.cons_append, weave, ih (Nat.succ.inj fit), List.append_assoc]

/-- Replacing every stretch by itself gives the text back, from the place on where the edits begin;
this is how restoring ends. -/
theorem patch_self {text : Text} {pos : Nat} {es : List Edit} (ordered : Ordered text pos es)
    (self : ∀ e ∈ es, e.new = text.slice e.start e.stop) : patch text pos es = text.drop pos := by
  induction es generalizing pos with
  | nil => rfl
  | cons e es ih =>
    obtain ⟨before, proper, rest⟩ := ordered
    have inside := rest.le_length
    rw [patch, self e List.mem_cons_self, Text.slice_append_slice before proper,
      ih rest fun e' member => self e' (List.mem_cons_of_mem _ member),
      Text.slice_eq_take_drop]
    have later : text.drop e.stop = (text.drop pos).drop (e.stop - pos) := by
      rw [List.drop_drop]
      congr 1
      omega
    rw [later, List.take_append_drop]

/-- If no edit shortens the text and the whole length is unchanged, no edit changes
the length of its stretch. -/
theorem length_eq_of_patch_length {text : Text} {pos : Nat} {es : List Edit}
    (ordered : Ordered text pos es) (grow : ∀ e ∈ es, e.stop - e.start ≤ e.new.length)
    (same : (patch text pos es).length = text.length - pos) :
    ∀ e ∈ es, e.new.length = e.stop - e.start := by
  -- no edit shortens the text, so the pieces cannot make up for each other
  have least {pos : Nat} {es : List Edit} (ordered : Ordered text pos es)
      (grow : ∀ e ∈ es, e.stop - e.start ≤ e.new.length) :
      text.length - pos ≤ (patch text pos es).length := by
    induction es generalizing pos with
    | nil => simp [patch]
    | cons e es ih =>
      obtain ⟨before, proper, rest⟩ := ordered
      have inside := rest.le_length
      have here := grow e List.mem_cons_self
      have later := ih rest fun e' member => grow e' (List.mem_cons_of_mem _ member)
      rw [patch, List.length_append, List.length_append, Text.length_slice (by omega)]
      omega
  induction es generalizing pos with
  | nil => simp
  | cons e es ih =>
    obtain ⟨before, proper, rest⟩ := ordered
    have inside := rest.le_length
    have here := grow e List.mem_cons_self
    have grow' : ∀ e' ∈ es, e'.stop - e'.start ≤ e'.new.length :=
      fun e' member => grow e' (List.mem_cons_of_mem _ member)
    have later := least rest grow'
    rw [patch, List.length_append, List.length_append, Text.length_slice (by omega)] at same
    intro e' member
    rcases List.mem_cons.mp member with rfl | member
    · omega
    · exact ih rest grow' (by omega) e' member

theorem Ordered.pairwise {text : Text} {pos : Nat} {es : List Edit}
    (ordered : Ordered text pos es) : es.Pairwise fun a b => a.stop ≤ b.start := by
  have first {pos : Nat} {es : List Edit} (ordered : Ordered text pos es) :
      ∀ e ∈ es, pos ≤ e.start := by
    induction es generalizing pos with
    | nil => simp
    | cons e es ih =>
      obtain ⟨before, proper, rest⟩ := ordered
      exact List.forall_mem_cons.mpr ⟨before, fun e' member =>
        Nat.le_trans (Nat.le_trans before proper) (ih rest e' member)⟩
  induction es generalizing pos with
  | nil => exact List.Pairwise.nil
  | cons e es ih => exact List.pairwise_cons.mpr ⟨first ordered.2.2, ih ordered.2.2⟩

/-- A character of a patched text is one of the text or of a new text: patching brings in nothing
else. -/
theorem mem_patch {text : Text} {pos : Nat} {es : List Edit} {c : Char}
    (member : c ∈ patch text pos es) : c ∈ text ∨ ∃ e ∈ es, c ∈ e.new := by
  induction es generalizing pos with
  | nil => exact .inl (List.mem_of_mem_drop member)
  | cons e es ih =>
    rw [patch, List.mem_append, List.mem_append] at member
    rcases member with (copied | new) | later
    · exact .inl (List.mem_of_mem_take (List.mem_of_mem_drop copied))
    · exact .inr ⟨e, List.mem_cons_self, new⟩
    · rcases ih later with copied | ⟨e', among, new⟩
      · exact .inl copied
      · exact .inr ⟨e', List.mem_cons_of_mem _ among, new⟩

theorem mem_patch_of_mem_new {text : Text} {pos : Nat} {es : List Edit} {e : Edit}
    (member : e ∈ es) {c : Char} (new : c ∈ e.new) : c ∈ patch text pos es := by
  induction es generalizing pos with
  | nil => cases member
  | cons first es ih =>
    rw [patch, List.mem_append, List.mem_append]
    rcases List.mem_cons.mp member with rfl | member
    · exact .inl (.inr new)
    · exact .inr (ih member)

/-- The characters of a patched text are those of the pieces between the edits and those of the new
texts. -/
theorem mem_patch_iff {text : Text} {pos : Nat} {es : List Edit} {c : Char} :
    c ∈ patch text pos es ↔
      (∃ piece ∈ pieces text pos (es.map stretch), c ∈ piece) ∨ ∃ e ∈ es, c ∈ e.new := by
  induction es generalizing pos with
  | nil => simp [patch, pieces]
  | cons e es ih =>
    rw [patch, List.mem_append, List.mem_append, ih]
    simp only [List.map_cons, pieces, stretch, List.mem_cons, exists_eq_or_imp]
    rw [or_assoc, or_assoc, or_left_comm (a := c ∈ e.new)]

/-- What stands before the first edit is copied: patching may begin at any offset up to that edit. -/
theorem patch_advance {text : Text} {pos next : Nat} {es : List Edit} (le : pos ≤ next)
    (ordered : Ordered text next es) :
    patch text pos es = text.slice pos next ++ patch text next es := by
  cases es with
  | nil =>
    rw [patch, patch, Text.slice_eq_take_drop]
    have later : text.drop next = (text.drop pos).drop (next - pos) := by
      rw [List.drop_drop]
      congr 1
      omega
    rw [later, List.take_append_drop]
  | cons e es =>
    rw [patch, patch, ← Text.slice_append_slice le ordered.1]
    simp only [List.append_assoc]

theorem Ordered.advance {text : Text} {pos next : Nat} {es : List Edit} (le : pos ≤ next)
    (ordered : Ordered text next es) : Ordered text pos es := by
  cases es with
  | nil => exact Nat.le_trans le ordered
  | cons e es => exact ⟨Nat.le_trans le ordered.1, ordered.2⟩

/-! ## Taking edits back -/

/-- The edits that put the old stretches back where the new texts stand. The first edit
is at `pos` in the text and at `pos'` in the patched one, or behind. -/
def undo (text : Text) (pos pos' : Nat) : List Edit → List Edit
  | [] => []
  | e :: es =>
    let start := pos' + (e.start - pos)
    ⟨start, start + e.new.length, text.slice e.start e.stop⟩ ::
      undo text e.stop (start + e.new.length) es

theorem length_undo (text : Text) (pos pos' : Nat) (es : List Edit) :
    (undo text pos pos' es).length = es.length := by
  induction es generalizing pos pos' with
  | nil => rfl
  | cons e es ih => exact congrArg (· + 1) (ih _ _)

/-- Behind any front part, the new texts stand in the patched text where `undo` looks for
them, and what it puts there makes the text again. -/
theorem patch_undo {text : Text} {pos : Nat} {es : List Edit} (ordered : Ordered text pos es)
    (front : Text) :
    Ordered (front ++ patch text pos es) front.length (undo text pos front.length es) ∧
      patch (front ++ patch text pos es) front.length (undo text pos front.length es) =
        text.drop pos := by
  -- on the edits; `front` is what the undoing has passed already
  induction es generalizing pos front with
  | nil =>
    refine ⟨?_, List.drop_left⟩
    rw [undo, Ordered, List.length_append]
    omega
  | cons e es ih =>
    obtain ⟨before, proper, rest⟩ := ordered
    have inside := rest.le_length
    have gap : (text.slice pos e.start).length = e.start - pos := Text.length_slice (by omega)
    have front_eq : front ++ patch text pos (e :: es) =
        (front ++ text.slice pos e.start ++ e.new) ++ patch text e.stop es := by
      simp [patch]
    have len : (front ++ text.slice pos e.start ++ e.new).length =
        front.length + (e.start - pos) + e.new.length := by
      rw [List.length_append, List.length_append, gap]
    obtain ⟨ordered', back⟩ := ih rest (front ++ text.slice pos e.start ++ e.new)
    rw [len] at ordered' back
    rw [front_eq, undo]
    refine ⟨⟨Nat.le_add_right _ _, Nat.le_add_right _ _, ordered'⟩, ?_⟩
    -- the gap before the edit stands in the edited text as it did in the old one
    have kept : Text.slice ((front ++ text.slice pos e.start ++ e.new) ++ patch text e.stop es)
        front.length (front.length + (e.start - pos)) = text.slice pos e.start := by
      rw [Text.slice, List.append_assoc, List.take_left' (by rw [List.length_append, gap]),
        List.drop_left]
    rw [patch, back, kept, Text.slice_append_slice before proper, Text.slice_eq_take_drop]
    have later : text.drop e.stop = (text.drop pos).drop (e.stop - pos) := by
      rw [List.drop_drop]
      congr 1
      omega
    rw [later, List.take_append_drop]

/-- No stretch that is put back is empty, if no new text is: the edits can then be undone like any
others. -/
theorem undo_proper {text : Text} {pos pos' : Nat} {es : List Edit}
    (some : ∀ e ∈ es, e.new ≠ []) : ∀ e ∈ undo text pos pos' es, e.start < e.stop := by
  induction es generalizing pos pos' with
  | nil => exact fun e member => absurd member List.not_mem_nil
  | cons e es ih =>
    obtain ⟨here, later⟩ := List.forall_mem_cons.mp some
    exact List.forall_mem_cons.mpr
      ⟨Nat.lt_add_of_pos_right (List.length_pos_iff.mpr here), ih later⟩

/-- Taking the edits of a whole text back gives the text. -/
theorem patch_undo_all {text : Text} {es : List Edit} (ordered : Ordered text 0 es) :
    patch (patch text 0 es) 0 (undo text 0 0 es) = text :=
  (patch_undo ordered []).2

end Edit

end RedactGate.Library
