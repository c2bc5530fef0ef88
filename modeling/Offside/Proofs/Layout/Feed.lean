import Offside.Layout.State

/-!
# Reading a token, phase by phase

Each word that can be taken in a phase is taken by one operation. The equations here say
which one, so that a run can be followed token by token. That some words are offered twice
no longer shows in them.
-/

namespace Offside.State

variable {limit : Nat} {state : State} {place : Position}

/-- A word that is taken at once is read by what takes it. -/
theorem feed_of_offer {token : Token} {result : Except Fault State}
    (h : state.offer limit token = result.map .taken) : state.feed limit token = result := by
  rw [feed, h]
  cases result <;> rfl

/-- A word that is taken when it is offered again is read by what takes it then. -/
theorem feed_of_offer_again {token : Token} (between : State) {result : Except Fault State}
    (hagain : state.offer limit token = .ok (.again between))
    (h : between.offer limit token = result.map .taken) : state.feed limit token = result := by
  simp only [feed, hagain, h]
  cases result <;> rfl

/-- A successful operation may be followed by a change of phase at once. -/
theorem map_map_taken (result : Except Fault State) (f : State → State) :
    (result.map fun next => Move.taken (f next)) = (result.map f).map .taken := by
  cases result <;> rfl

/-- A call is opened inside the innermost one while there is room. -/
theorem openChild_of_lt {top : Frame} {below : List Frame} (hframes : state.frames = top :: below)
    (hroom : state.frames.length < limit) (name : String) (place : Position)
    (column : Frame → Column) :
    state.openChild limit name place column =
      .ok { state with frames := .opened name place (column top) :: top :: below } := by
  rw [hframes] at hroom
  simp only [openChild, hframes, if_neg (Nat.not_le_of_lt hroom)]

/-- Without room for it a call is nested too deep. -/
theorem openChild_of_le {top : Frame} {below : List Frame} (hframes : state.frames = top :: below)
    (hfull : limit ≤ state.frames.length) (name : String) (place : Position)
    (column : Frame → Column) :
    state.openChild limit name place column = .error (.nestedTooDeep limit place) := by
  rw [hframes] at hfull
  simp only [openChild, hframes, if_pos hfull]

/-- Which phase the reader is in does not matter to the opening of a call. -/
theorem openChild_goto (state : State) (phase : Phase) (name : String) (place : Position)
    (column : Frame → Column) :
    (state.goto phase).openChild limit name place column =
      (state.openChild limit name place column).map (·.goto phase) := by
  cases hframes : state.frames with
  | nil => simp only [openChild, goto, hframes]; rfl
  | cons top below =>
    have hframes' : (state.goto phase).frames = top :: below := hframes
    rcases Nat.lt_or_ge state.frames.length limit with hroom | hfull
    · rw [openChild_of_lt hframes hroom, openChild_of_lt hframes' hroom]
      rfl
    · rw [openChild_of_le hframes hfull, openChild_of_le hframes' hfull]
      rfl

/-- Nor does it matter to an argument. -/
theorem addArgument_goto (state : State) (phase : Phase) (place : Position) (item : Item) :
    (state.goto phase).addArgument place item =
      (state.addArgument place item).map (·.goto phase) := by
  obtain ⟨_, frames, _, _, _⟩ := state
  cases frames <;> rfl

/-- Of two changes of phase only the second one shows. -/
theorem map_goto_goto (result : Except Fault State) (first second : Phase) :
    ((result.map (·.goto first)).map fun next => Move.taken (next.goto second)) =
      (result.map (·.goto second)).map .taken := by
  cases result <;> rfl

/-! ### Calls -/

/-- Behind text a call is no call: its name continues the text. -/
theorem feed_call_text (hphase : state.phase = .text) (name : String) :
    state.feed limit ⟨.call name, place⟩ = state.continueText place name :=
  feed_of_offer (by simp only [offer, offerCall, hphase])

/-- Behind a call another one opens inside it, at the same column. -/
theorem feed_call_call (hphase : state.phase = .call) (name : String) :
    state.feed limit ⟨.call name, place⟩ = state.openChild limit name place Frame.column :=
  feed_of_offer (by simp only [offer, offerCall, hphase])

/-- At the start of a line a call opens outermost, wherever the line stands. -/
theorem feed_call_start (hphase : state.phase = .lineStart ∨ state.phase = .blockStart)
    (name : String) :
    state.feed limit ⟨.call name, place⟩ = .ok ((state.openRoot name place).goto .call) := by
  rcases hphase with hphase | hphase
  · exact feed_of_offer_again (state.goto .blockStart)
      (by simp only [offer, offerCall, hphase]) rfl
  · exact feed_of_offer (by simp only [offer, offerCall, hphase]; rfl)

/-- Behind an indent a call opens in the block of the call around it. -/
theorem feed_call_indented (hphase : state.phase = .indented ∨ state.phase = .blockIndented)
    (name : String) :
    state.feed limit ⟨.call name, place⟩ =
      (state.openChild limit name place Frame.block).map (·.goto .call) := by
  rcases hphase with hphase | hphase
  · refine feed_of_offer_again (state.goto .blockIndented)
      (by simp only [offer, offerCall, hphase]) ?_
    change ((state.goto .blockIndented).openChild limit name place Frame.block).map _ = _
    rw [openChild_goto, map_goto_goto]
  · refine feed_of_offer ?_
    simp only [offer, offerCall, hphase]
    exact map_map_taken _ _

/-! ### Texts -/

/-- Behind text further text continues it. -/
theorem feed_text_text (hphase : state.phase = .text) (content : String) :
    state.feed limit ⟨.text content, place⟩ = state.continueText place content :=
  feed_of_offer (by simp only [offer, offerText, hphase])

/-- Behind a call a text is its argument, unless the text is blank. -/
theorem feed_text_call (hphase : state.phase = .call) (content : String) :
    state.feed limit ⟨.text content, place⟩ =
      if Text.isBlankText content then .ok (state.report .blankArgument place)
      else state.addArgument place (.text content) := by
  apply feed_of_offer
  simp only [offer, offerText, hphase]
  split <;> rfl

/-- At the start of a line a text is rejected, since it belongs to no call. -/
theorem feed_text_start (hphase : state.phase = .lineStart ∨ state.phase = .blockStart)
    (content : String) :
    state.feed limit ⟨.text content, place⟩ = .error (.unindentedText place) := by
  apply feed_of_offer
  rcases hphase with hphase | hphase <;> simp only [offer, offerText, hphase] <;> rfl

/-- Behind an indent a text is an argument of the call whose block it stands in. -/
theorem feed_text_indented (hphase : state.phase = .indented ∨ state.phase = .blockIndented)
    (content : String) :
    state.feed limit ⟨.text content, place⟩ =
      (state.addArgument place (.text content)).map (·.goto .text) := by
  rcases hphase with hphase | hphase
  · refine feed_of_offer_again (state.goto .blockIndented)
      (by simp only [offer, offerText, hphase]) ?_
    change ((state.goto .blockIndented).addArgument place (.text content)).map _ = _
    rw [addArgument_goto, map_goto_goto]
  · refine feed_of_offer ?_
    simp only [offer, offerText, hphase]
    exact map_map_taken _ _

/-! ### Indents -/

/-- Inside a line an indent is rejected. -/
theorem feed_indent_inside (hphase : state.phase = .text ∨ state.phase = .call ∨
    state.phase = .indented ∨ state.phase = .blockIndented) (width : Nat) :
    ∃ fault, state.feed limit ⟨.indent width, place⟩ = .error fault := by
  rcases hphase with hphase | hphase | hphase | hphase
  · exact ⟨.indentAfterText place, feed_of_offer (by simp only [offer, offerIndent, hphase]; rfl)⟩
  · exact ⟨.indentAfterCall place, feed_of_offer (by simp only [offer, offerIndent, hphase]; rfl)⟩
  · exact ⟨.repeatedIndent place, feed_of_offer (by simp only [offer, offerIndent, hphase]; rfl)⟩
  · exact ⟨.repeatedIndent place, feed_of_offer (by simp only [offer, offerIndent, hphase]; rfl)⟩

/-- At the start of a line an indent closes calls until one has its block there. -/
theorem feed_indent_lineStart (hphase : state.phase = .lineStart) (width : Nat) :
    state.feed limit ⟨.indent width, place⟩ =
      (state.settle width place).map (·.goto .indented) := by
  refine feed_of_offer ?_
  simp only [offer, offerIndent, hphase]
  exact map_map_taken _ _

/-- Below a call an indent to the right of it begins its block. Any other one closes calls. -/
theorem feed_indent_blockStart {top : Frame} {below : List Frame}
    (hphase : state.phase = .blockStart) (hframes : state.frames = top :: below) (width : Nat) :
    state.feed limit ⟨.indent width, place⟩ =
      if top.column < .ofWidth width then
        .ok { state with
          phase := .blockIndented
          frames := { top with block := .ofWidth width } :: below }
      else (state.settle width place).map (·.goto .indented) := by
  refine feed_of_offer ?_
  simp only [offer, offerIndent, hphase, hframes]
  split
  · rfl
  · exact map_map_taken _ _

/-! ### Line breaks -/

/-- Behind text a line ends, and the next one begins no block. -/
theorem feed_break_text (hphase : state.phase = .text) :
    state.feed limit ⟨.lineBreak, place⟩ = .ok (state.goto .lineStart) :=
  feed_of_offer (by simp only [offer, offerLineBreak, hphase]; rfl)

/-- Behind a call a line ends, and the next one may begin the block of that call. -/
theorem feed_break_call (hphase : state.phase = .call) :
    state.feed limit ⟨.lineBreak, place⟩ = .ok (state.goto .blockStart) :=
  feed_of_offer (by simp only [offer, offerLineBreak, hphase]; rfl)

/-- A line with nothing but an indent is remarked on. The calls that the indent closed stay
closed. -/
theorem feed_break_indented (hphase : state.phase = .indented) :
    state.feed limit ⟨.lineBreak, place⟩ =
      .ok ((state.report .indentOnlyLine place).goto .lineStart) :=
  feed_of_offer (by simp only [offer, offerLineBreak, hphase]; rfl)

/-- A block that begins with a blank line is taken back, and may begin on the next line. -/
theorem feed_break_blockIndented {top : Frame} {below : List Frame}
    (hphase : state.phase = .blockIndented) (hframes : state.frames = top :: below) :
    state.feed limit ⟨.lineBreak, place⟩ =
      .ok { state.report .cancelledBlock place with
        phase := .blockStart
        frames := { top with block := .beyond } :: below } := by
  refine feed_of_offer ?_
  simp only [offer, offerLineBreak, hphase, updateTop, report, hframes]
  rfl

/-- An empty line is remarked on, and that is all. -/
theorem feed_break_start (hphase : state.phase = .lineStart ∨ state.phase = .blockStart) :
    state.feed limit ⟨.lineBreak, place⟩ = .ok (state.report .emptyLine place) := by
  apply feed_of_offer
  rcases hphase with hphase | hphase <;> simp only [offer, offerLineBreak, hphase] <;> rfl

end Offside.State
