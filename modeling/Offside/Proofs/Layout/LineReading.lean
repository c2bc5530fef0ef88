import Offside.Proofs.Layout.Outline
import Offside.Proofs.Layout.Reads
import Offside.Proofs.Token.Lines

/-!
# Reading the content of a line

Behind its indent a line is either text as a whole, or a chain of calls with texts between
them. As text it becomes one argument of the innermost open call. As a chain each call
becomes an argument of the one before it, and what comes later goes to the last of them.
-/

namespace Offside

namespace State

variable {limit : Nat}

/-- Reading the tokens comes to a call that is nested too deep. -/
def NestsTooDeep (limit : Nat) (state : State) (tokens : List Token) : Prop :=
  ∃ place last, state.run limit tokens = (some (.nestedTooDeep limit place), last)

end State

/-! ### Text -/

namespace State

variable {limit : Nat} {state : State}

/-- Behind text, the rest of a line continues the text. -/
theorem run_placePieces_text {frame : Frame} {below : List Frame} {start : String}
    {pieces : List Piece} (hphase : state.phase = .text)
    (hframes : state.frames = frame.push (.text start) :: below)
    (hbody : ∀ piece ∈ pieces, piece.IsBody) (place : Position) :
    state.run limit (placePieces place pieces) =
      (none, { state with
        frames := frame.push
          (.text (start ++ String.ofList (pieces.flatMap Piece.chars))) :: below }) := by
  induction pieces generalizing state start place with
  | nil =>
    obtain ⟨_, _, _, _, _⟩ := state
    subst hframes
    simp [placePieces_nil, run]
  | cons piece rest ih =>
    obtain ⟨hpiece, hrest⟩ := List.forall_mem_cons.mp hbody
    have hcontinue (content : String) : state.continueText place content =
        .ok { state with frames := frame.push (.text (start ++ content)) :: below } := by
      rw [continueText, hframes]
      rfl
    have hfeed : state.feed limit ⟨piece.word, place⟩ = .ok { state with
        frames := frame.push (.text (start ++ String.ofList piece.chars)) :: below } := by
      cases piece with
      | call name => exact (feed_call_text hphase _).trans (hcontinue _)
      | text content => exact (feed_text_text hphase _).trans (hcontinue _)
      | indent blanks => exact hpiece.elim
      | lineBreak kind => exact hpiece.elim
    rw [placePieces_cons, run_cons_of_ok hfeed, List.flatMap_cons, String.ofList_append,
      ← String.append_assoc]
    apply ih _ _ hrest
    · exact hphase
    · rfl

/-- A line of text becomes one argument of the innermost open call. -/
theorem run_text_body {sigil : Char} {body : List Char} {top : Frame} {below : List Frame}
    (hphase : state.phase = .indented ∨ state.phase = .blockIndented)
    (hframes : state.frames = top :: below) (hbody : body ≠ [])
    (htext : opensCall sigil body = false) (place : Position) :
    state.run limit (placePieces place (bodyPieces sigil body)) =
      (none, { state with
        phase := .text
        frames := top.push (.text (String.ofList body)) :: below }) := by
  obtain ⟨c, rest, rfl⟩ := List.exists_cons_of_ne_nil hbody
  have hspelled := flatMap_chars_bodyPieces sigil (c :: rest)
  have hpieces := isBody_of_mem_bodyPieces sigil (c :: rest)
  rw [bodyPieces_text htext] at hspelled hpieces ⊢
  rw [← hspelled]
  generalize (takeText sigil [c] rest).1 = content at *
  generalize bodyPieces sigil (takeText sigil [c] rest).2 = later at *
  have hfeed : state.feed limit ⟨.text (String.ofList content), place⟩ =
      .ok { state with
        phase := .text
        frames := top.push (.text (String.ofList content)) :: below } := by
    rw [feed_text_indented hphase, addArgument, updateTop, hframes]
    rfl
  rw [placePieces_cons, Piece.word, run_cons_of_ok hfeed,
    run_placePieces_text rfl rfl (List.forall_mem_cons.mp hpieces).2, List.flatMap_cons,
    String.ofList_append]
  rfl

end State

/-! ### Chains of calls -/

namespace Frame

/-- The open calls once the pieces behind a call are read: texts become arguments of the
innermost call unless they are blank, and each call is opened inside the one before it. -/
def takeInline (place : Position) (top : Frame) (below : List Frame) : List Piece → List Frame
  | [] => top :: below
  | .call name :: rest =>
    takeInline (place.advance name) (.opened (String.ofList name) place top.column)
      (top :: below) rest
  | .text content :: rest =>
    takeInline (place.advance content)
      (if Text.isBlankText (String.ofList content) then top
        else top.push (.text (String.ofList content)))
      below rest
  | piece :: rest => takeInline (place.advance piece.chars) top below rest

/-- Gives the innermost of some open calls more arguments and a column for its block. -/
def fill (items : List Item) (block : Column) : List Frame → List Frame
  | [] => []
  | top :: below => { top with arguments := items.reverse ++ top.arguments, block } :: below

/-- The calls that are open around a chain stay as they are. -/
theorem takeInline_append (place : Position) (top : Frame) (below outer : List Frame)
    (pieces : List Piece) :
    takeInline place top (below ++ outer) pieces = takeInline place top below pieces ++ outer := by
  induction pieces generalizing place top below with
  | nil => rfl
  | cons piece rest ih =>
    cases piece with
    | call name => exact ih _ _ (top :: below)
    | text content => exact ih _ _ below
    | indent blanks => exact ih _ _ below
    | lineBreak kind => exact ih _ _ below

/-- Open calls that belong to one line, innermost first. They stand in one column, only the
innermost one has a block, and closing them all gives the given call. -/
def IsChain (chain : List Frame) (column block : Column) (call : Call) : Prop :=
  ∃ last middle, chain = last :: middle ∧ last.column = column ∧ last.block = block ∧
    (∀ frame ∈ middle, frame.block = .beyond) ∧ last.assemble middle = call

/-- Closing a stack into one more call makes it the latest argument of that. -/
theorem assemble_concat (top outer : Frame) (below : List Frame) :
    top.assemble (below ++ [outer]) = (outer.push (top.assemble below).toItem).call := by
  simp [assemble, closeInto]

/-- What is read behind a call on its line makes up a chain. -/
theorem isChain_takeInline (items : List Item) (block : Column) (place : Position)
    (top : Frame) (hblock : top.block = .beyond) (pieces : List Piece) :
    IsChain (fill items block (takeInline place top [] pieces)) top.column block
      ⟨top.name, top.position,
        top.arguments.reverse ++ SourceLine.inlineItems items place pieces⟩ := by
  induction pieces generalizing place top with
  | nil =>
    refine ⟨_, [], rfl, rfl, rfl, by simp, ?_⟩
    simp [assemble, call, SourceLine.inlineItems]
  | cons piece rest ih =>
    cases piece with
    | call name =>
      obtain ⟨last, middle, hchain, hcolumn, hlast, hmiddle, hcall⟩ :=
        ih (place.advance name) (.opened (String.ofList name) place top.column) rfl
      refine ⟨last, middle ++ [top], ?_, hcolumn, hlast, ?_, ?_⟩
      · rw [takeInline, ← List.nil_append [top], takeInline_append]
        cases hframes : takeInline (place.advance name)
            (.opened (String.ofList name) place top.column) [] rest with
        | nil => rw [hframes] at hchain; cases hchain
        | cons first frames =>
          rw [hframes] at hchain
          obtain ⟨rfl, rfl⟩ := List.cons.inj hchain
          rfl
      · intro frame hframe
        rcases List.mem_append.mp hframe with hframe | hframe
        · exact hmiddle frame hframe
        · rw [List.mem_singleton.mp hframe, hblock]
      · rw [assemble_concat, hcall]
        simp [push, Frame.call, Call.toItem, opened, SourceLine.inlineItems]
    | text content =>
      by_cases hblank : Text.isBlankText (String.ofList content) = true
      · simpa [takeInline, SourceLine.inlineItems, hblank] using
          ih (place.advance content) top hblock
      · simpa [takeInline, SourceLine.inlineItems, hblank, push] using
          ih (place.advance content) (top.push (.text (String.ofList content))) hblock
    | indent blanks => exact ih _ top hblock
    | lineBreak kind => exact ih _ top hblock

/-- A chain whose innermost call has no block yet is itself with no items from below. -/
theorem fill_takeInline {top : Frame} (hblock : top.block = .beyond) (place : Position)
    (below : List Frame) (pieces : List Piece) :
    fill [] .beyond (takeInline place top below pieces) = takeInline place top below pieces := by
  induction pieces generalizing place top below with
  | nil =>
    rw [takeInline, fill, ← hblock]
    rfl
  | cons piece rest ih =>
    cases piece with
    | call name => exact ih rfl _ (top :: below)
    | text content =>
      rw [takeInline]
      split
      · exact ih hblock _ below
      · exact ih (by simpa [push] using hblock) _ below
    | indent blanks => exact ih hblock _ below
    | lineBreak kind => exact ih hblock _ below

/-- One more item for the innermost call of a chain is one more argument of it. -/
theorem fill_concat {items : List Item} {block : Column} {chain below : List Frame} {top : Frame}
    (h : fill items block chain = top :: below) (item : Item) :
    fill (items ++ [item]) block chain = top.push item :: below := by
  cases chain with
  | nil => cases h
  | cons first rest =>
    obtain ⟨rfl, rfl⟩ := List.cons.inj h
    simp [fill, push]

/-- Another column for the block of a chain concerns its innermost call only. -/
theorem fill_block {items : List Item} {block : Column} {chain below : List Frame} {top : Frame}
    (h : fill items block chain = top :: below) (column : Column) :
    fill items column chain = { top with block := column } :: below := by
  cases chain with
  | nil => cases h
  | cons first rest =>
    obtain ⟨rfl, rfl⟩ := List.cons.inj h
    rfl

end Frame

namespace State

variable {limit : Nat} {state : State}

/-- Behind a call, the rest of a line makes up a chain, unless it nests too deep. -/
theorem run_placePieces_call {top : Frame} {below : List Frame} {pieces : List Piece}
    (hphase : state.phase = .call) (hframes : state.frames = top :: below)
    (hbody : ∀ piece ∈ pieces, piece.IsBody) (place : Position) :
    state.NestsTooDeep limit (placePieces place pieces) ∨ ∃ next,
      state.run limit (placePieces place pieces) = (none, next) ∧ next.phase = .call ∧
      next.frames = Frame.takeInline place top below pieces ∧ next.closed = state.closed := by
  induction pieces generalizing state top below place with
  | nil => exact .inr ⟨state, rfl, hphase, hframes, rfl⟩
  | cons piece rest ih =>
    obtain ⟨hpiece, hrest⟩ := List.forall_mem_cons.mp hbody
    cases piece with
    | call name =>
      rw [NestsTooDeep, placePieces_cons, Piece.word, Piece.chars]
      rcases Nat.lt_or_ge state.frames.length limit with hroom | hfull
      · rw [run_cons_of_ok ((feed_call_call hphase _).trans (openChild_of_lt hframes hroom _ _ _))]
        apply ih _ _ hrest
        · exact hphase
        · rfl
      · rw [run_cons_of_error
          ((feed_call_call hphase _).trans (openChild_of_le hframes hfull _ _ _))]
        exact .inl ⟨_, _, rfl⟩
    | text content =>
      rw [NestsTooDeep, placePieces_cons, Piece.word, Piece.chars]
      have hfeed : state.feed limit ⟨.text (String.ofList content), place⟩ = _ :=
        feed_text_call hphase (String.ofList content)
      by_cases hblank : Text.isBlankText (String.ofList content) = true
      · rw [if_pos hblank] at hfeed
        rw [run_cons_of_ok hfeed, Frame.takeInline, if_pos hblank]
        apply ih _ _ hrest
        · exact hphase
        · exact hframes
      · rw [if_neg hblank, addArgument, updateTop, hframes] at hfeed
        rw [run_cons_of_ok hfeed, Frame.takeInline, if_neg hblank]
        apply ih _ _ hrest
        · exact hphase
        · rfl
    | indent blanks => exact hpiece.elim
    | lineBreak kind => exact hpiece.elim

end State

/-! ### The calls of a line -/

namespace SourceLine

/-- The tokens of a line without its break. -/
def tokens (sigil : Char) (line : SourceLine) : List Token :=
  if line.indent = 0 then placePieces line.bodyStart (bodyPieces sigil line.body)
  else ⟨.indent line.indent, line.start⟩ ::
    placePieces line.bodyStart (bodyPieces sigil line.body)

/-- A line of a text has the tokens of its content and then its break. -/
theorem placePieces_line (sigil : Char) {line : Line} (hfeed : '\n' ∉ line.content)
    (number : Nat) :
    placePieces ⟨number, 1⟩ (line.pieces sigil) =
      (SourceLine.mk number line.content).tokens sigil ++
        placePieces ⟨number, line.content.length + 1⟩
          (line.ending.elim [] fun kind => [.lineBreak kind]) := by
  have hblanks : '\n' ∉ line.content.takeWhile Text.isBlank := fun hmem =>
    hfeed ((List.takeWhile_prefix _).subset hmem)
  have hstart : Position.advance ⟨number, 1⟩ (line.content.takeWhile Text.isBlank) =
      (SourceLine.mk number line.content).bodyStart := by
    rw [Position.advance_of_not_mem hblanks, bodyStart, indent, Nat.add_comm]
  have hcontent : placePieces ⟨number, 1⟩
      ((if (line.content.takeWhile Text.isBlank).isEmpty then []
        else [.indent (line.content.takeWhile Text.isBlank)]) ++
          bodyPieces sigil (line.content.dropWhile Text.isBlank)) =
        (SourceLine.mk number line.content).tokens sigil := by
    rw [tokens, ← hstart]
    by_cases hempty : line.content.takeWhile Text.isBlank = []
    · have hindent : (SourceLine.mk number line.content).indent = 0 :=
        congrArg List.length hempty
      rw [if_pos hindent, hempty]
      rfl
    · have hindent : (SourceLine.mk number line.content).indent ≠ 0 := fun hzero =>
        hempty (List.length_eq_zero_iff.mp hzero)
      rw [if_neg hindent, if_neg (by simpa [List.isEmpty_iff] using hempty),
        List.singleton_append, placePieces_cons]
      rfl
  have hspelled := Line.flatMap_chars_pieces sigil ⟨line.content, none⟩
  rw [Line.chars, Option.elim_none, List.append_nil, Line.pieces, Option.elim_none,
    List.append_nil] at hspelled
  rw [← hcontent, Line.pieces, placePieces_append, hspelled, Position.advance_of_not_mem hfeed,
    Nat.add_comm 1]

/-- A line that is no call comes to its text. -/
theorem item_of_not_isCall {sigil : Char} {line : SourceLine} (hbody : line.body ≠ [])
    (h : line.isCall sigil = false) (items : List Item) :
    line.item sigil items = .text (String.ofList line.body) := by
  obtain ⟨content, rest, hpieces⟩ := bodyPieces_of_not_opensCall hbody h
  rw [item, hpieces]

/-- The calls that a line opens, innermost first. -/
def frames (sigil : Char) (line : SourceLine) : List Frame :=
  match bodyPieces sigil line.body with
  | .call name :: rest =>
    Frame.takeInline (line.bodyStart.advance name)
      (.opened (String.ofList name) line.bodyStart (.number line.indent)) [] rest
  | _ => []

/-- The calls of a line make up a chain that closes into what the line comes to. -/
theorem isChain_frames {sigil : Char} {line : SourceLine} (h : line.isCall sigil = true)
    (items : List Item) (block : Column) :
    ∃ call, call.toItem = line.item sigil items ∧
      Frame.IsChain (Frame.fill items block (line.frames sigil)) (.number line.indent) block
        call := by
  obtain ⟨name, rest, hpieces⟩ := bodyPieces_of_opensCall h
  have hchain := Frame.isChain_takeInline items block (line.bodyStart.advance name)
    (.opened (String.ofList name) line.bodyStart (.number line.indent)) rfl rest
  refine ⟨⟨String.ofList name, line.bodyStart,
    inlineItems items (line.bodyStart.advance name) rest⟩, ?_, ?_⟩
  · simp [item, hpieces, Call.toItem]
  · simp only [frames, hpieces]
    exact hchain

end SourceLine

end Offside
