import Offside.Layout.Column
import Offside.Tree.Basic

/-!
# Open calls

While a source is read, the calls that may still receive arguments are kept in a
stack, innermost first. Closing the innermost call makes it the latest argument of
the one around it.
-/

namespace Offside

/-- A call that may still receive arguments. -/
structure Frame where
  /-- The name of the call. -/
  name : String
  /-- Where it was written. -/
  position : Position
  /-- The column of the line block that the call itself belongs to. -/
  column : Column
  /-- The column at which its own block stands, beyond all others until that is known. -/
  block : Column
  /-- The arguments so far, latest first. -/
  arguments : List Item

namespace Frame

/-- A call that was just opened at the given column. -/
def opened (name : String) (position : Position) (column : Column) : Frame :=
  ⟨name, position, column, .beyond, []⟩

/-- The call as it stands. -/
def call (frame : Frame) : Call :=
  ⟨frame.name, frame.position, frame.arguments.reverse⟩

/-- Adds one argument behind the others. -/
def push (frame : Frame) (item : Item) : Frame :=
  { frame with arguments := item :: frame.arguments }

/-- Continues the text that is the latest argument, if it is one. -/
def continueText? (frame : Frame) (content : String) : Option Frame :=
  match frame.arguments with
  | .text start :: earlier => some { frame with arguments := .text (start ++ content) :: earlier }
  | _ => none

/-- Closes a call into the one around it. -/
def closeInto (frame parent : Frame) : Frame :=
  parent.push frame.call.toItem

/-- The outermost call once all that is open inside it is closed. -/
def assemble (top : Frame) (below : List Frame) : Call :=
  (below.foldl closeInto top).call

/-- Closes calls until the innermost open one has its block at the given column. The
outermost call is never closed. There is no result when no open call has its block there:
either a block further left is met first, or all are further right. -/
def settle? (column : Column) (top : Frame) : List Frame → Option (List Frame)
  | [] => if top.block = column then some [top] else none
  | parent :: rest =>
    if column < top.block then settle? column (top.closeInto parent) rest
    else if top.block = column then some (top :: parent :: rest)
    else none

/-- Text that is continued is the latest argument, and nothing else changes. -/
theorem eq_of_continueText? {frame grown : Frame} {content : String}
    (h : frame.continueText? content = some grown) :
    ∃ start earlier, frame.arguments = .text start :: earlier ∧
      grown = { frame with arguments := .text (start ++ content) :: earlier } := by
  unfold continueText? at h
  split at h
  · next start earlier harguments =>
    exact ⟨start, earlier, harguments, (Option.some.inj h).symm⟩
  · cases h

/-- The innermost call of a stack may as well be closed first. -/
theorem assemble_cons (top parent : Frame) (rest : List Frame) :
    top.assemble (parent :: rest) = (top.closeInto parent).assemble rest := rfl

/-- Closing calls until a block fits goes one of two ways. The innermost call stays, as its
block fits, or its block is further right, and closing goes on with the call around it. -/
@[elab_as_elim]
theorem settle?_induction {column : Column} {motive : Frame → List Frame → List Frame → Prop}
    (stays : ∀ top below, top.block = column → motive top below (top :: below))
    (closes : ∀ top parent rest frames, column < top.block →
      motive (top.closeInto parent) rest frames → motive top (parent :: rest) frames)
    {top : Frame} {below frames : List Frame} (h : settle? column top below = some frames) :
    motive top below frames := by
  induction below generalizing top with
  | nil =>
    unfold settle? at h
    split at h
    · next hblock =>
      cases h
      exact stays top [] hblock
    · cases h
  | cons parent rest ih =>
    unfold settle? at h
    split at h
    · next hright => exact closes top parent rest frames hright (ih h)
    · split at h
      · next hblock =>
        cases h
        exact stays top (parent :: rest) hblock
      · cases h

/-- Closing calls until a block fits leaves some call open, whose block fits, and does not
change what the stack comes to. -/
theorem assemble_of_settle? {column : Column} {top : Frame} {below frames : List Frame}
    (h : settle? column top below = some frames) :
    ∃ inner outer, frames = inner :: outer ∧ inner.block = column ∧
      inner.assemble outer = top.assemble below := by
  refine settle?_induction ?_ ?_ h
  · intro top below hblock
    exact ⟨top, below, rfl, hblock, rfl⟩
  · intro top parent rest frames _ ih
    rwa [assemble_cons]

end Frame

end Offside
