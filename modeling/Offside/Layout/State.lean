import Offside.Event
import Offside.Fault
import Offside.Layout.Frame
import Offside.Text.Blank
import Offside.Token.Basic

/-!
# Reading token by token

A source is read by an automaton. It knows where in a line it is, which calls are
open, and what it has remarked on. Each word is offered to it; it takes the word, or
fails, or first moves to another phase in which the word is to be offered again.
-/

namespace Offside

/-- Where in a line the reader is. -/
inductive Phase where
  /-- At the start of a line, and no call on the line before can take a block. -/
  | lineStart
  /-- At the start of a line below a call, where the block of that call may begin. -/
  | blockStart
  /-- Behind the indent of a line that continues a block. -/
  | indented
  /-- Behind the indent of a line that may begin a block. -/
  | blockIndented
  /-- Behind text. -/
  | text
  /-- Behind a call, or behind text that is an argument of it. -/
  | call
deriving DecidableEq

/-- What the reader knows. -/
structure State where
  /-- Where in a line it is. -/
  phase : Phase
  /-- The open calls, innermost first. -/
  frames : List Frame
  /-- The closed outermost calls, latest first. -/
  closed : List Call
  /-- The remarks so far, latest first. -/
  remarks : List Remark
  /-- The events so far, latest first. -/
  events : List Event

/-- What came of offering a word. -/
inductive Move where
  /-- The word was taken. -/
  | taken (state : State)
  /-- The word is to be offered once more. -/
  | again (state : State)

namespace State

/-- Before the first token. -/
def initial : State := ⟨.lineStart, [], [], [], []⟩

/-- The closed outermost calls, latest first, once every open call is closed. -/
def closeAll (state : State) : List Call :=
  match state.frames with
  | [] => state.closed
  | top :: below => top.assemble below :: state.closed

/-- The forest as it stands: all outermost calls in order, with everything that is open
closed. -/
def forest (state : State) : List Call :=
  state.closeAll.reverse

/-- Moves to another phase. -/
def goto (state : State) (phase : Phase) : State :=
  { state with phase }

/-- Makes a remark and announces it. -/
def report (state : State) (oddity : Oddity) (place : Position) : State :=
  { state with
    remarks := ⟨oddity, place⟩ :: state.remarks
    events := .remarked ⟨oddity, place⟩ :: state.events }

/-- Changes the innermost open call. -/
def updateTop (state : State) (place : Position) (change : Frame → Frame) : Except Fault State :=
  match state.frames with
  | [] => .error (.noOpenCall place)
  | top :: below => .ok { state with frames := change top :: below }

/-- Adds an argument to the innermost open call. -/
def addArgument (state : State) (place : Position) (item : Item) : Except Fault State :=
  state.updateTop place (·.push item)

/-- Continues the text that is the latest argument of the innermost open call. -/
def continueText (state : State) (place : Position) (content : String) : Except Fault State :=
  match state.frames with
  | [] => .error (.noOpenCall place)
  | top :: below =>
    match top.continueText? content with
    | some top => .ok { state with frames := top :: below }
    | none => .error (.noOpenCall place)

/-- Opens an outermost call, once all that is open is closed. -/
def openRoot (state : State) (name : String) (place : Position) : State :=
  { state with
    frames := [.opened name place .leftmost]
    closed := state.closeAll }

/-- Opens a call inside the innermost one, at a column that is read off that one, unless
as many calls are open as are allowed. -/
def openChild (limit : Nat) (state : State) (name : String) (place : Position)
    (column : Frame → Column) : Except Fault State :=
  match state.frames with
  | [] => .error (.noOpenCall place)
  | top :: below =>
    if limit ≤ state.frames.length then .error (.nestedTooDeep limit place)
    else .ok { state with frames := .opened name place (column top) :: top :: below }

/-- Closes calls until the block of the innermost one stands where an indent leads to. -/
def settle (state : State) (width : Nat) (place : Position) : Except Fault State :=
  match state.frames with
  | [] => .error (.unmatchedIndent width place)
  | top :: below =>
    match top.settle? (.ofWidth width) below with
    | some frames => .ok { state with frames }
    | none => .error (.unmatchedIndent width place)

/-! ### What each operation does to the forest -/

/-- Which phase the reader is in does not matter to the forest. -/
theorem forest_goto (state : State) (phase : Phase) : (state.goto phase).forest = state.forest :=
  rfl

/-- Remarks do not change the forest. -/
theorem forest_report (state : State) (oddity : Oddity) (place : Position) :
    (state.report oddity place).forest = state.forest := rfl

/-- A new outermost call comes last in the forest. -/
theorem forest_openRoot (state : State) (name : String) (place : Position) :
    (state.openRoot name place).forest = state.forest ++ [⟨name, place, []⟩] := by
  simp [forest, closeAll, openRoot, Frame.assemble, Frame.call, Frame.opened]

/-- Closing calls for the sake of an indent does not change the forest. -/
theorem forest_settle {state next : State} {width : Nat} {place : Position}
    (h : state.settle width place = .ok next) : next.forest = state.forest := by
  unfold settle at h
  cases hframes : state.frames with
  | nil => simp [hframes] at h
  | cons top below =>
    simp only [hframes] at h
    split at h
    · next frames hsettle =>
      cases h
      obtain ⟨inner, outer, rfl, _, hassemble⟩ := Frame.assemble_of_settle? hsettle
      simp [forest, closeAll, hframes, hassemble]
    · cases h

/-! ### Offering words -/

/-- A call after text on the same line is part of the text. After another call it is an
argument of that call and shares its column. At the start of a line it is an outermost
call; behind an indent it is an argument of the call whose block this is. -/
def offerCall (limit : Nat) (state : State) (name : String) (place : Position) :
    Except Fault Move :=
  match state.phase with
  | .text => (state.continueText place name).map .taken
  | .call => (state.openChild limit name place Frame.column).map .taken
  | .lineStart => .ok (.again (state.goto .blockStart))
  | .blockStart => .ok (.taken ((state.openRoot name place).goto .call))
  | .indented => .ok (.again (state.goto .blockIndented))
  | .blockIndented =>
    (state.openChild limit name place Frame.block).map fun next => .taken (next.goto .call)

/-- Text behind a call is an argument of it, unless it is blank. At the start of a line
text belongs to no call; behind an indent it is an argument of the call whose block this
is, and takes in the rest of the line. -/
def offerText (state : State) (content : String) (place : Position) : Except Fault Move :=
  match state.phase with
  | .text => (state.continueText place content).map .taken
  | .call =>
    if Text.isBlankText content then .ok (.taken (state.report .blankArgument place))
    else (state.addArgument place (.text content)).map .taken
  | .lineStart | .blockStart => .error (.unindentedText place)
  | .indented => .ok (.again (state.goto .blockIndented))
  | .blockIndented =>
    (state.addArgument place (.text content)).map fun next => .taken (next.goto .text)

/-- An indent stands first in its line. Below a call, an indent to the right of the call's
own column begins the block of that call; any other indent leads back to the block of an
open call. -/
def offerIndent (state : State) (width : Nat) (place : Position) : Except Fault Move :=
  match state.phase with
  | .text => .error (.indentAfterText place)
  | .call => .error (.indentAfterCall place)
  | .indented | .blockIndented => .error (.repeatedIndent place)
  | .lineStart => (state.settle width place).map fun next => .taken (next.goto .indented)
  | .blockStart =>
    match state.frames with
    | [] => .error (.noOpenCall place)
    | top :: below =>
      if top.column < .ofWidth width then
        .ok (.taken { state with
          phase := .blockIndented
          frames := { top with block := .ofWidth width } :: below })
      else (state.settle width place).map fun next => .taken (next.goto .indented)

/-- A line that ends behind its indent, or at once, is remarked on. If it would have begun
a block, the call above is as it was before. -/
def offerLineBreak (state : State) (place : Position) : Except Fault Move :=
  match state.phase with
  | .text => .ok (.taken (state.goto .lineStart))
  | .call => .ok (.taken (state.goto .blockStart))
  | .indented => .ok (.taken ((state.report .indentOnlyLine place).goto .lineStart))
  | .blockIndented =>
    ((state.report .cancelledBlock place).updateTop place fun top =>
      { top with block := .beyond }).map fun next => .taken (next.goto .blockStart)
  | .lineStart | .blockStart => .ok (.taken (state.report .emptyLine place))

/-- Offers the word of a token. -/
def offer (limit : Nat) (state : State) (token : Token) : Except Fault Move :=
  match token.word with
  | .call name => state.offerCall limit name token.position
  | .text content => state.offerText content token.position
  | .indent width => state.offerIndent width token.position
  | .lineBreak => state.offerLineBreak token.position

/-- Reads one token. No token needs to be offered more than twice, so a third offer is not
made. -/
def feed (limit : Nat) (state : State) (token : Token) : Except Fault State :=
  match state.offer limit token with
  | .error fault => .error fault
  | .ok (.taken next) => .ok next
  | .ok (.again between) =>
    match between.offer limit token with
    | .error fault => .error fault
    | .ok (.taken next) => .ok next
    | .ok (.again _) => .error (.noOpenCall token.position)

/-- Reads tokens until there are no more, or until one cannot be read; then the state is the
one before that token. -/
def run (limit : Nat) (state : State) : List Token → Option Fault × State
  | [] => (none, state)
  | token :: rest =>
    match state.feed limit token with
    | .error fault => (some fault, state)
    | .ok next => run limit next rest

end State

end Offside
