import Offside.Proofs.Layout.LineReading

/-!
# Closing open calls

Calls are closed for an indent, for a new outermost call and at the end. Either way a chain
of calls that belong to one line is closed as a whole, and becomes one argument of the call
around it.
-/

namespace Offside

namespace Frame

/-- Closes calls of a stack until the block of the innermost one stands at the given column. -/
def settleStack? (column : Column) : List Frame → Option (List Frame)
  | [] => none
  | top :: below => top.settle? column below

/-- What a stack of open calls comes to, if there is one. -/
def closeStack : List Frame → List Call
  | [] => []
  | top :: below => [top.assemble below]

/-- Calls whose blocks all stand further right are closed into the one around them. -/
theorem settle?_append {column : Column} {top parent : Frame} {middle below : List Frame}
    (htop : column < top.block) (hmiddle : ∀ frame ∈ middle, column < frame.block) :
    top.settle? column (middle ++ parent :: below) =
      (parent.push (top.assemble middle).toItem).settle? column below := by
  induction middle generalizing top with
  | nil =>
    rw [List.nil_append, settle?, if_pos htop]
    rfl
  | cons next middle ih =>
    obtain ⟨hnext, hrest⟩ := List.forall_mem_cons.mp hmiddle
    rw [List.cons_append, settle?, if_pos htop]
    exact ih hnext hrest

/-- A chain is closed as a whole when its block stands further right. -/
theorem IsChain.settleStack?_append {chain : List Frame} {column block : Column} {call : Call}
    (h : IsChain chain column block call) {width : Nat} (hright : .number width < block)
    (parent : Frame) (below : List Frame) :
    settleStack? (.number width) (chain ++ parent :: below) =
      settleStack? (.number width) (parent.push call.toItem :: below) := by
  obtain ⟨last, middle, rfl, _, rfl, hmiddle, rfl⟩ := h
  refine settle?_append hright fun frame hframe => ?_
  rw [hmiddle frame hframe]
  exact Column.number_lt_beyond width

/-- A chain closes into the call around it. -/
theorem IsChain.closeStack_append {chain : List Frame} {column block : Column} {call : Call}
    (h : IsChain chain column block call) (parent : Frame) (below : List Frame) :
    closeStack (chain ++ parent :: below) = closeStack (parent.push call.toItem :: below) := by
  obtain ⟨last, middle, rfl, _, _, _, rfl⟩ := h
  simp [closeStack, assemble, closeInto]

/-- A chain with nothing around it closes into its call. -/
theorem IsChain.closeStack_eq {chain : List Frame} {column block : Column} {call : Call}
    (h : IsChain chain column block call) : closeStack chain = [call] := by
  obtain ⟨last, middle, rfl, _, _, _, rfl⟩ := h
  rfl

/-- Where calls are closed for an indent, the block that was found was there before. -/
theorem exists_block_of_settleStack? {column : Column} {stack frames : List Frame}
    (h : settleStack? column stack = some frames) : ∃ frame ∈ stack, frame.block = column := by
  cases stack with
  | nil => cases h
  | cons top below =>
    refine settle?_induction ?_ ?_ h
    · intro top below hblock
      exact ⟨top, List.mem_cons_self, hblock⟩
    · intro top parent rest frames _ ih
      obtain ⟨frame, hframe, hblock⟩ := ih
      rcases List.mem_cons.mp hframe with rfl | hframe
      · exact ⟨parent, by simp, hblock⟩
      · exact ⟨frame, by simp [hframe], hblock⟩

/-! ### Closing calls twice -/

/-- Calls are only closed for an indent that reaches no further than their block. -/
theorem le_block_of_settle? {column : Column} {top : Frame} {below frames : List Frame}
    (h : settle? column top below = some frames) : column ≤ top.block := by
  refine settle?_induction ?_ ?_ h
  · intro top below hblock
    exact Column.le_of_eq hblock.symm
  · intro top parent rest frames hright _
    exact Column.le_of_lt hright

/-- Closing calls for one indent and then for another that reaches no further comes to closing
them for the second one at once. -/
theorem settleStack?_settle? {first second : Column} {top : Frame} {below frames : List Frame}
    (hfirst : settle? first top below = some frames) (hle : second ≤ first) :
    settleStack? second frames = settle? second top below := by
  refine settle?_induction ?_ ?_ hfirst
  · intro top below _
    rfl
  · intro top parent rest frames hright ih
    rw [settle?, if_pos (Column.lt_of_le_of_lt hle hright)]
    exact ih

/-- The same for whole stacks. -/
theorem settleStack?_settled {first second : Column} {stack frames : List Frame}
    (hfirst : settleStack? first stack = some frames) (hle : second ≤ first) :
    settleStack? second frames = settleStack? second stack := by
  cases stack with
  | nil => cases hfirst
  | cons top below => exact settleStack?_settle? hfirst hle

/-- Closing calls for an indent leaves a block there, so nothing is closed for an indent that
reaches further. -/
theorem settleStack?_settled_eq_none {first second : Column} {stack frames : List Frame}
    (hfirst : settleStack? first stack = some frames) (hlt : first < second) :
    settleStack? second frames = none := by
  cases stack with
  | nil => cases hfirst
  | cons top below =>
    obtain ⟨inner, outer, rfl, hblock, -⟩ := assemble_of_settle? hfirst
    cases hsecond : settleStack? second (inner :: outer) with
    | none => rfl
    | some _ =>
      have hle : second ≤ inner.block := le_block_of_settle? hsecond
      rw [hblock] at hle
      exact absurd hlt (Column.not_lt.mpr hle)

/-- Closing calls for an indent does not change what the stack comes to. -/
theorem closeStack_settled {column : Column} {stack frames : List Frame}
    (h : settleStack? column stack = some frames) : closeStack frames = closeStack stack := by
  cases stack with
  | nil => cases h
  | cons top below =>
    obtain ⟨inner, outer, rfl, -, hassemble⟩ := assemble_of_settle? h
    rw [closeStack, hassemble]
    rfl

end Frame

namespace State

/-- Settling is closing the calls of the stack. -/
theorem settle_eq (state : State) (width : ℕ) (place : Position) :
    state.settle width place =
      match Frame.settleStack? (.ofWidth width) state.frames with
      | some frames => .ok { state with frames }
      | none => .error (.unmatchedIndent width place) := by
  unfold settle
  cases state.frames <;> rfl

/-- The forest is what was closed before and what the open calls come to. -/
theorem forest_eq (state : State) :
    state.forest = state.closed.reverse ++ (Frame.closeStack state.frames).reverse := by
  rw [forest, closeAll]
  cases state.frames <;> simp [Frame.closeStack]

end State

end Offside
