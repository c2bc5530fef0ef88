import Offside.Proofs.Layout.Closing

/-!
# Falling back from nested lines

While the lines below a call are read, more calls may be open inside it. An indent that does
not lie further right than a line below the call closes all of those, as if they had been
closed before.
-/

namespace Offside.State

variable {state : State} {column : ℕ} {top : Frame} {below : List Frame}

/-- At the start of a line, an indent up to the given column finds the stack as if everything
inside its innermost call were closed. -/
structure FallsBack (column : ℕ) (top : Frame) (below : List Frame) (state : State) : Prop where
  phase : state.phase = .lineStart ∨ state.phase = .blockStart ∧
    ∃ inner outer, state.frames = inner :: outer ∧ .number column ≤ inner.column
  settle : ∀ width ≤ column, Frame.settleStack? (.number width) state.frames =
    Frame.settleStack? (.number width) (top :: below)
  close : Frame.closeStack state.frames = Frame.closeStack (top :: below)

/-- An indent to the given column leads into the block of a call: it begins that block, or the
block is there already. -/
def Invites (column : ℕ) (top : Frame) (below : List Frame) (state : State) : Prop :=
  (state.phase = .blockStart ∧ state.frames = top :: below ∧ top.column < .number column) ∨
    (state.FallsBack column top below ∧ top.block = .number column)

namespace FallsBack

/-- What holds for an indent holds for one that is not as wide. -/
theorem mono (h : state.FallsBack column top below) {width : ℕ} (hle : width ≤ column) :
    state.FallsBack width top below := by
  obtain ⟨hphase, hsettle, hclose⟩ := h
  refine ⟨?_, fun narrow hnarrow => hsettle narrow (by omega), hclose⟩
  rcases hphase with hline | ⟨hblock, inner, outer, hframes, hcolumn⟩
  · exact .inl hline
  · exact .inr ⟨hblock, inner, outer, hframes,
      Column.le_trans (Column.number_le_number.mpr hle) hcolumn⟩

/-- Behind a line of text nothing is open inside its call. -/
theorem of_lineStart (hphase : state.phase = .lineStart) (hframes : state.frames = top :: below)
    (column : ℕ) : state.FallsBack column top below :=
  ⟨.inl hphase, fun _ _ => by rw [hframes], by rw [hframes]⟩

/-- Behind a line that is a call, that call is the innermost one. -/
theorem of_blockStart (hphase : state.phase = .blockStart) (hframes : state.frames = top :: below)
    (hcolumn : .number column ≤ top.column) : state.FallsBack column top below :=
  ⟨.inr ⟨hphase, top, below, hframes, hcolumn⟩, fun _ _ => by rw [hframes], by rw [hframes]⟩

/-- A call whose block stands further right falls back into the call around it. -/
theorem close_into {parent : Frame} (h : state.FallsBack column top (parent :: below))
    (hright : .number column < top.block) :
    state.FallsBack column (parent.push top.call.toItem) below := by
  obtain ⟨hphase, hsettle, hclose⟩ := h
  refine ⟨hphase, fun width hwidth => ?_, hclose⟩
  have hwidthright : .number width < top.block :=
    Column.lt_of_le_of_lt (Column.number_le_number.mpr hwidth) hright
  rw [hsettle width hwidth, Frame.settleStack?, Frame.settle?, if_pos hwidthright]
  rfl

/-- An indent that leads to the block of a call finds it. -/
theorem settle_eq (h : state.FallsBack column top below) (hblock : top.block = .number column)
    (hfits : column < Text.greatestCount) (place : Position) :
    state.settle column place = .ok { state with frames := top :: below } := by
  have hsettle : Frame.settleStack? (.number column) (top :: below) = some (top :: below) := by
    rw [Frame.settleStack?]
    cases below with
    | nil => rw [Frame.settle?, if_pos hblock]
    | cons next below => rw [Frame.settle?, if_neg (by rw [hblock]; simp), if_pos hblock]
  rw [State.settle_eq, Column.ofWidth_of_lt hfits, h.settle column (Nat.le_refl _), hsettle]

end FallsBack

/-- An indent into the block of a call leads there, with nothing to remark on. -/
theorem feed_indent_of_invites (h : state.Invites column top below)
    (hfits : column < Text.greatestCount) (limit : ℕ) (place : Position) :
    ∃ next, state.feed limit ⟨.indent column, place⟩ = .ok next ∧
      (next.phase = .indented ∨ next.phase = .blockIndented) ∧
      next.frames = { top with block := .number column } :: below ∧
      next.closed = state.closed ∧ next.remarks = state.remarks := by
  rcases h with ⟨hphase, hframes, hright⟩ | ⟨hfalls, hblock⟩
  · rw [feed_indent_blockStart hphase hframes, Column.ofWidth_of_lt hfits, if_pos hright]
    exact ⟨_, rfl, .inr rfl, rfl, rfl, rfl⟩
  · have hsettle := hfalls.settle_eq hblock hfits place
    have hsame : { top with block := Column.number column } = top := by rw [← hblock]
    rw [hsame]
    rcases hfalls.phase with hphase | ⟨hphase, inner, outer, hframes, hcolumn⟩
    · rw [feed_indent_lineStart hphase, hsettle]
      exact ⟨_, rfl, .inl rfl, rfl, rfl, rfl⟩
    · have hleft : ¬ inner.column < .ofWidth column := by
        rw [Column.ofWidth_of_lt hfits]
        exact Column.not_lt.mpr hcolumn
      rw [feed_indent_blockStart hphase hframes, if_neg hleft, hsettle]
      exact ⟨_, rfl, .inl rfl, rfl, rfl, rfl⟩

end Offside.State
