import Offside.Layout.State

/-!
# Walking over a forest

A walk visits each call before its arguments and these in order. What it collects from the
names and texts it meets does not depend on which calls are still open: a stack of open
calls holds the right end of the walk, outermost call first.
-/

namespace Offside

variable {α : Type} (ofText : String → List α) (ofCall : String → Position → List α)

namespace Item

mutual

/-- What a walk over an item collects. -/
def collect : Item → List α
  | .text content => ofText content
  | .call name position arguments => ofCall name position ++ collectAll arguments
  | .quoted items => collectAll items

/-- What a walk over a list of items collects. -/
def collectAll : List Item → List α
  | [] => []
  | item :: rest => item.collect ++ collectAll rest

end

/-- A walk over two lists collects from the first one and then from the second. -/
theorem collectAll_append (front back : List Item) :
    collectAll ofText ofCall (front ++ back) =
      collectAll ofText ofCall front ++ collectAll ofText ofCall back := by
  induction front with
  | nil => simp [collectAll]
  | cons item front ih => simp [collectAll, ih]

/-- A walk over one item collects what the item gives. -/
theorem collectAll_singleton (item : Item) :
    collectAll ofText ofCall [item] = item.collect ofText ofCall := by
  simp [collectAll]

end Item

/-- What a walk over a forest collects. -/
def Call.collectAll (calls : List Call) : List α :=
  Item.collectAll ofText ofCall (calls.map Call.toItem)

/-! ### Open calls -/

namespace Frame

/-- What a walk collects from an open call and the arguments that it has. -/
def collect (frame : Frame) : List α :=
  frame.call.toItem.collect ofText ofCall

/-- What a new argument gives is collected last. -/
theorem collect_push (frame : Frame) (item : Item) :
    (frame.push item).collect ofText ofCall =
      frame.collect ofText ofCall ++ item.collect ofText ofCall := by
  simp [collect, push, call, Call.toItem, Item.collect, Item.collectAll_append,
    Item.collectAll_singleton]

/-- A call that was just opened gives nothing but itself. -/
theorem collect_opened (name : String) (position : Position) (column : Column) :
    (opened name position column).collect ofText ofCall = ofCall name position := by
  simp [collect, opened, call, Call.toItem, Item.collect, Item.collectAll]

/-- Text that continues a text is collected behind it, if texts are collected piece by piece. -/
theorem collect_of_continueText? (htext : ∀ a b, ofText (a ++ b) = ofText a ++ ofText b)
    {frame grown : Frame} {content : String} (h : frame.continueText? content = some grown) :
    grown.collect ofText ofCall = frame.collect ofText ofCall ++ ofText content := by
  obtain ⟨start, earlier, harguments, rfl⟩ := eq_of_continueText? h
  simp [collect, call, Call.toItem, Item.collect, Item.collectAll_append,
    Item.collectAll_singleton, harguments, htext]

/-- The innermost open call is where the walk over a stack ends. -/
theorem collect_assemble (top : Frame) (below : List Frame) :
    (top.assemble below).toItem.collect ofText ofCall =
      below.reverse.flatMap (collect ofText ofCall) ++ top.collect ofText ofCall := by
  induction below generalizing top with
  | nil => rfl
  | cons parent rest ih =>
    rw [assemble_cons, ih, closeInto, collect_push]
    simp [collect]

end Frame

/-- A walk over the forest as it stands visits the closed calls and then the open ones. -/
theorem State.collectAll_forest (state : State) :
    Call.collectAll ofText ofCall state.forest =
      Call.collectAll ofText ofCall state.closed.reverse ++
        state.frames.reverse.flatMap (Frame.collect ofText ofCall) := by
  unfold forest closeAll
  cases state.frames with
  | nil => simp
  | cons top below =>
    simp [Call.collectAll, Item.collectAll_append, Item.collectAll_singleton,
      Frame.collect_assemble]

end Offside
