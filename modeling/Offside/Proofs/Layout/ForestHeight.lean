import Offside.Proofs.Layout.Reads
import Offside.Proofs.Tree.Height

/-!
# How high a forest grows while it is read

Each open call stands one level below the one around it, so the height of the forest as it
stands can be read off the stack: the arguments of a call count from its place in the stack.
Only a call that is opened can make the forest higher, and it reaches as deep as calls are
open then.
-/

namespace Offside

/-! ### Heights of open calls -/

namespace Frame

/-- The height of an open call with the arguments that it has. -/
def height (frame : Frame) : Nat :=
  1 + Item.heightAll frame.arguments

/-- The deepest level that a stack of open calls reaches, where the outermost call is on the
first level. -/
def stackHeight : List Frame → Nat
  | [] => 0
  | top :: below => max (below.length + top.height) (stackHeight below)

/-- An open call is as high as the call that it stands for. -/
theorem height_call (frame : Frame) : frame.call.toItem.height = frame.height := by
  rw [call, Call.toItem, Item.height, Item.heightAll_reverse, height]

/-- A call that was just opened has no others in it. -/
theorem height_opened (name : String) (place : Position) (column : Column) :
    (opened name place column).height = 1 := rfl

/-- One more argument makes a call higher only if that is as high as the call itself. -/
theorem height_push (frame : Frame) (item : Item) :
    (frame.push item).height = max frame.height (1 + item.height) := by
  rw [height, height, push, Item.heightAll]
  omega

/-- A text may grow without a change in height. -/
theorem height_of_continueText? {frame grown : Frame} {content : String}
    (h : frame.continueText? content = some grown) : grown.height = frame.height := by
  obtain ⟨start, earlier, harguments, rfl⟩ := eq_of_continueText? h
  rw [height, height, harguments, Item.heightAll, Item.heightAll, Item.height, Item.height]

/-- A stack comes to a call that is as high as the stack reaches. -/
theorem height_assemble (top : Frame) (below : List Frame) :
    (top.assemble below).toItem.height = stackHeight (top :: below) := by
  induction below generalizing top with
  | nil =>
    rw [stackHeight, stackHeight, Nat.max_zero, List.length_nil, Nat.zero_add, ← height_call,
      assemble, List.foldl_nil]
  | cons parent rest ih =>
    rw [assemble_cons, ih, closeInto]
    simp only [stackHeight, height_push, height_call, List.length_cons]
    omega

end Frame

namespace State

/-- The height of the forest as it stands. -/
def height (state : State) : Nat :=
  Item.heightAll (state.forest.map Call.toItem)

/-- The forest is as high as what was closed and what the open calls reach. -/
theorem height_eq (state : State) :
    state.height =
      max (Item.heightAll (state.closed.map Call.toItem)) (Frame.stackHeight state.frames) := by
  rw [height, forest, List.map_reverse, Item.heightAll_reverse, closeAll]
  cases state.frames with
  | nil => simp [Frame.stackHeight]
  | cons top below =>
    rw [List.map_cons, Item.heightAll, Frame.height_assemble, Nat.max_comm]

/-- The forest is as low as each of its calls. -/
theorem height_le_iff {state : State} {bound : Nat} :
    state.height ≤ bound ↔ ∀ root ∈ state.forest, root.toItem.height ≤ bound := by
  rw [height, Item.heightAll_le_iff, List.forall_mem_map]

/-- States of the same forest are equally high. -/
theorem height_of_forest {state next : State} (h : next.forest = state.forest) :
    next.height = state.height := by
  rw [height, h, height]

/-- Only the heights of the open calls matter. -/
theorem height_congr {state next : State} {top grown : Frame} {below : List Frame}
    (hframes : state.frames = top :: below) (hnext : next.frames = grown :: below)
    (hclosed : next.closed = state.closed) (hgrown : grown.height = top.height) :
    next.height = state.height := by
  rw [height_eq, height_eq, hframes, hnext, hclosed, Frame.stackHeight, Frame.stackHeight, hgrown]

/-- A new outermost call has no height but its own. -/
theorem height_openRoot (state : State) (name : String) (place : Position) :
    (state.openRoot name place).height = max state.height 1 := by
  rw [height, forest_openRoot, List.map_append, Item.heightAll_append, height]
  rfl

/-- A call that is opened inside the innermost one reaches one level below it. -/
theorem height_of_opened {state next : State} {name : String} {place : Position} {column : Column}
    (hnext : next.frames = .opened name place column :: state.frames)
    (hclosed : next.closed = state.closed) :
    next.height = max state.height (state.frames.length + 1) := by
  rw [height_eq, height_eq, hnext, hclosed, Frame.stackHeight, Frame.height_opened]
  omega

end State

end Offside
