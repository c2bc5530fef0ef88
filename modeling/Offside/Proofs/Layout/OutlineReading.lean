import Mathlib.Data.List.TakeWhile
import Offside.Proofs.Layout.FittingIndents

/-!
# Reading an outline

The reader follows the outline of a text. Behind each line that is in its place the calls of
the lines on the trail are open and the earlier outermost lines are closed, and the first
line that is not in its place is where it stops.
-/

namespace Offside

namespace Outline

/-! ### Reading one line -/

/-- What the reader knows behind the first `n` lines. The calls of the lines on the trail are
open, and the items of the outermost lines before the last one of those are closed. -/
structure Holds (sigil : Char) (lines : List SourceLine) (n : ℕ) (state : State) : Prop where
  frames_eq : state.frames = openFrames sigil lines n
  closed_eq : ∀ root ∈ trail (indents lines) n, indents lines root = 0 →
    state.closed.reverse.map Call.toItem =
      (rootsBefore lines root).map (item sigil lines)
  closed_nil : n = 0 → state.closed = []

/-- Where the reader is at the start of a line behind the first `n` lines. -/
def startPhase (sigil : Char) (lines : List SourceLine) : ℕ → Phase
  | 0 => .lineStart
  | n + 1 => if calls sigil lines n then .blockStart else .lineStart

/-- The reader is at the start of a line, whichever the line before was. -/
theorem startPhase_or {sigil : Char} {lines : List SourceLine} {n : ℕ} {phase : Phase}
    (h : phase = startPhase sigil lines n) : phase = .lineStart ∨ phase = .blockStart := by
  cases n with
  | zero => exact .inl h
  | succ m =>
    rw [startPhase] at h
    split at h
    · exact .inr h
    · exact .inl h

/-- Where the reader is at the end of line `n`. -/
def endPhase (sigil : Char) (lines : List SourceLine) (n : ℕ) : Phase :=
  if calls sigil lines n then .call else .text

variable {sigil : Char} {lines : List SourceLine} {limit : ℕ} {state : State}

/-- Behind a line that is a call, the last call of the line is the innermost one. -/
theorem Holds.frames_of_call {m : ℕ} (hstate : Holds sigil lines (m + 1) state)
    (hcall : calls sigil lines m = true) :
    ∃ last middle, lineFrames sigil lines (m + 1) .beyond m = last :: middle ∧
      last.column = .number (indents lines m) ∧
      state.frames =
        last :: (middle ++ outerFrames sigil lines m (ancestors (indents lines) m)) := by
  obtain ⟨_, _, last, middle, hframes, hcolumn, _⟩ := isChain_lineFrames hcall (m + 1) .beyond
  refine ⟨last, middle, hframes, hcolumn, ?_⟩
  rw [hstate.frames_eq, openFrames, if_pos hcall, hframes, List.cons_append]

/-- The indent of a line in its place leads to the calls around the line. -/
theorem feed_indent {n : ℕ} (hn : n < lines.length) (hstate : Holds sigil lines n state)
    (hphase : state.phase = startPhase sigil lines n) (hsound : ∀ i ≤ n, Sound sigil lines i)
    (hindent : 0 < indents lines n) (hwidth : indents lines n < Text.greatestCount)
    (place : Position) :
    ∃ next, state.feed limit ⟨.indent (indents lines n), place⟩ = .ok next ∧
      (next.phase = .indented ∨ next.phase = .blockIndented) ∧
      next.frames = outerFrames sigil lines n (ancestors (indents lines) n) ∧
      next.closed = state.closed := by
  cases n with
  | zero =>
    obtain ⟨j, hj, _⟩ := (hsound 0 (Nat.le_refl 0)).2 hindent
    exact absurd hj.1 (Nat.not_lt_zero j)
  | succ m =>
    have hsettle (hleft : calls sigil lines m = true →
        indents lines (m + 1) ≤ indents lines m) :
        state.settle (indents lines (m + 1)) place = .ok { state with
          frames := outerFrames sigil lines (m + 1) (ancestors (indents lines) (m + 1)) } := by
      rw [State.settle_eq, hstate.frames_eq, Column.ofWidth_of_lt hwidth,
        settleStack?_openFrames hn hsound hindent hleft]
    rw [startPhase] at hphase
    by_cases hcall : calls sigil lines m = true
    · rw [if_pos hcall] at hphase
      obtain ⟨last, middle, hframes, hcolumn, hstack⟩ := hstate.frames_of_call hcall
      rw [State.feed_indent_blockStart hphase hstack, hcolumn, Column.ofWidth_of_lt hwidth]
      by_cases hright : indents lines m < indents lines (m + 1)
      · rw [if_pos (Column.number_lt_number.mpr hright)]
        refine ⟨_, rfl, .inr rfl, ?_, rfl⟩
        rw [ancestors_of_isParent (isParent_succ hright), outerFrames, lineFrames,
          Frame.fill_block hframes, hcolumn]
        rfl
      · rw [if_neg (by simpa using hright), hsettle (fun _ => by omega)]
        exact ⟨_, rfl, .inl rfl, rfl, rfl⟩
    · rw [if_neg hcall] at hphase
      rw [State.feed_indent_lineStart hphase, hsettle (fun h => absurd h hcall)]
      exact ⟨_, rfl, .inl rfl, rfl, rfl⟩

/-- The indent of the first line that is not in its place is at fault. -/
theorem feed_indent_error {n : ℕ} (hstate : Holds sigil lines n state)
    (hphase : state.phase = startPhase sigil lines n) (hsound : ∀ i < n, Sound sigil lines i)
    (hindent : 0 < indents lines n) (hwidth : indents lines n < Text.greatestCount)
    (hn : ¬ Sound sigil lines n) (place : Position) :
    state.feed limit ⟨.indent (indents lines n), place⟩ =
      .error (.unmatchedIndent (indents lines n) place) := by
  have hsettle : state.settle (indents lines n) place =
      .error (.unmatchedIndent (indents lines n) place) := by
    rw [State.settle_eq, hstate.frames_eq, Column.ofWidth_of_lt hwidth,
      settleStack?_openFrames_eq_none hsound hindent hn]
  cases n with
  | zero =>
    rw [State.feed_indent_lineStart hphase, hsettle]
    rfl
  | succ m =>
    rw [startPhase] at hphase
    by_cases hcall : calls sigil lines m = true
    · rw [if_pos hcall] at hphase
      obtain ⟨last, middle, _, hcolumn, hstack⟩ := hstate.frames_of_call hcall
      have hleft : ¬ indents lines m < indents lines (m + 1) := by
        intro hright
        apply hn
        constructor
        · intro hzero
          omega
        · intro _
          exact ⟨m, isParent_succ hright, hcall, rfl⟩
      rw [State.feed_indent_blockStart hphase hstack, hcolumn, Column.ofWidth_of_lt hwidth,
        if_neg (by simpa using hleft), hsettle]
      rfl
    · rw [if_neg hcall] at hphase
      rw [State.feed_indent_lineStart hphase, hsettle]
      rfl

/-! ### Closing the outermost lines -/

/-- When no line on the trail can have more items, the forest is that of the outermost lines. -/
theorem Holds.forest_eq {n : ℕ} (hstate : Holds sigil lines n state)
    (hsound : ∀ i < n, Sound sigil lines i)
    (hdone : ∀ i ∈ trail (indents lines) n,
      children (indents lines) i n = children (indents lines) i lines.length) :
    state.forest.map Call.toItem = (rootsBefore lines n).map (item sigil lines) := by
  have hforest := state.forest_eq
  cases n with
  | zero =>
    rw [hforest, hstate.closed_nil rfl, hstate.frames_eq]
    rfl
  | succ m =>
    obtain ⟨root, hroot, hzero, hitem⟩ := closeStack_openFrames hsound hdone
    rw [← hstate.frames_eq] at hitem
    obtain ⟨hlt, hafter⟩ := mem_trail_iff.mp hroot
    have hroots : rootsBefore lines (m + 1) = rootsBefore lines root ++ [root] := by
      apply filter_range_eq_append hlt (by simpa using hzero)
      intro i hi hri
      have hless : indents lines root < indents lines i := hafter i hi hri
      exact decide_eq_false (by omega)
    have hopen : (Frame.closeStack state.frames).reverse.map Call.toItem =
        [item sigil lines root] := by
      rw [List.map_reverse, hitem]
      rfl
    rw [hforest, List.map_append, hstate.closed_eq root hroot hzero, hopen, hroots,
      List.map_append]
    rfl

/-! ### Reading one line -/

/-- Behind the first call of a line and the rest of it the calls of the line are open. -/
theorem run_chain {n : ℕ} {name : List Char} {rest : List Piece} {below : List Frame}
    (hpieces : bodyPieces sigil (line lines n).body = .call name :: rest)
    (hphase : state.phase = .call)
    (hframes : state.frames = .opened (String.ofList name) (line lines n).bodyStart
      (.number (indents lines n)) :: below) :
    state.NestsTooDeep limit (placePieces ((line lines n).bodyStart.advance name) rest) ∨
    ∃ next, state.run limit (placePieces ((line lines n).bodyStart.advance name) rest) =
        (none, next) ∧ next.phase = .call ∧
      next.frames = (line lines n).frames sigil ++ below ∧ next.closed = state.closed := by
  have hbody := isBody_of_mem_bodyPieces sigil (line lines n).body
  rw [hpieces] at hbody
  rcases State.run_placePieces_call hphase hframes (List.forall_mem_cons.mp hbody).2
    ((line lines n).bodyStart.advance name) with hdeep | ⟨next, hrun, hnext, hstack, hclosed⟩
  · exact .inl hdeep
  · refine .inr ⟨next, hrun, hnext, ?_, hclosed⟩
    rw [hstack, SourceLine.frames, hpieces, ← Frame.takeInline_append]
    rfl

/-- Reading a line at the left edge. -/
theorem run_root {n : ℕ} (hn : n < lines.length) (hstate : Holds sigil lines n state)
    (hphase : state.phase = .lineStart ∨ state.phase = .blockStart)
    (hsound : ∀ i ≤ n, Sound sigil lines i) (hzero : indents lines n = 0) :
    state.NestsTooDeep limit
        (placePieces (line lines n).bodyStart (bodyPieces sigil (line lines n).body)) ∨
    ∃ next, state.run limit
        (placePieces (line lines n).bodyStart (bodyPieces sigil (line lines n).body)) =
        (none, next) ∧ next.phase = endPhase sigil lines n ∧ Holds sigil lines (n + 1) next := by
  have hcall := (hsound n (Nat.le_refl n)).1 hzero
  obtain ⟨name, rest, hpieces⟩ := bodyPieces_of_opensCall hcall
  have hnone : ancestors (indents lines) n = [] := by simp [ancestors, hzero]
  obtain ⟨opened, hfeed, hopened, hstack, hclosed⟩ : ∃ opened,
      state.feed limit ⟨.call (String.ofList name), (line lines n).bodyStart⟩ = .ok opened ∧
      opened.phase = .call ∧
      opened.frames =
        [.opened (String.ofList name) (line lines n).bodyStart (.number (indents lines n))] ∧
      opened.closed = state.closeAll := by
    refine ⟨_, State.feed_call_start hphase _, rfl, ?_, rfl⟩
    rw [hzero]
    rfl
  rw [State.NestsTooDeep, hpieces, placePieces_cons, Piece.word, State.run_cons_of_ok hfeed]
  rcases run_chain hpieces hopened hstack with hdeep | ⟨next, hrun, hnext, hframes, hclosed'⟩
  · exact .inl hdeep
  · refine .inr ⟨next, hrun, by rw [hnext, endPhase, if_pos hcall], ⟨?_, ?_, by simp⟩⟩
    · rw [hframes, openFrames, if_pos hcall, lineFrames_succ_self n hcall, hnone]
      rfl
    · intro root hroot _
      rw [trail_succ, hnone, List.mem_singleton] at hroot
      rw [hroot, hclosed', hclosed]
      apply hstate.forest_eq
      · intro i hi
        exact hsound i (by omega)
      · intro i hi
        have hin : i < n := (mem_trail_iff.mp hi).1
        exact children_of_le hn hin (by omega)

/-- Reading what follows the indent of a line that is not at the left edge. -/
theorem run_inner {n : ℕ} (hbody : (line lines n).body ≠ [])
    (hphase : state.phase = .indented ∨ state.phase = .blockIndented)
    (hsound : Sound sigil lines n) (hindent : 0 < indents lines n)
    (hframes : state.frames = outerFrames sigil lines n (ancestors (indents lines) n)) :
    state.NestsTooDeep limit
        (placePieces (line lines n).bodyStart (bodyPieces sigil (line lines n).body)) ∨
    ∃ next, state.run limit
        (placePieces (line lines n).bodyStart (bodyPieces sigil (line lines n).body)) =
        (none, next) ∧ next.phase = endPhase sigil lines n ∧
      next.frames = openFrames sigil lines (n + 1) ∧ next.closed = state.closed := by
  obtain ⟨j, hj, hjcall, hfirst⟩ := hsound.2 hindent
  obtain ⟨top, below, houter, htop⟩ := outerFrames_eq_cons hjcall n (ancestors (indents lines) j)
  rw [hfirst] at htop
  have hstack := hframes
  rw [ancestors_of_isParent hj, houter] at hstack
  by_cases hcall : calls sigil lines n = true
  · obtain ⟨name, rest, hpieces⟩ := bodyPieces_of_opensCall hcall
    rw [State.NestsTooDeep, hpieces, placePieces_cons, Piece.word]
    rcases Nat.lt_or_ge state.frames.length limit with hroom | hfull
    · obtain ⟨opened, hfeed, hopened, hframes', hclosed⟩ : ∃ opened,
          state.feed limit ⟨.call (String.ofList name), (line lines n).bodyStart⟩ = .ok opened ∧
          opened.phase = .call ∧
          opened.frames = .opened (String.ofList name) (line lines n).bodyStart
            (.number (indents lines n)) :: top :: below ∧
          opened.closed = state.closed := by
        rw [State.feed_call_indented hphase, State.openChild_of_lt hstack hroom, htop]
        exact ⟨_, rfl, rfl, rfl, rfl⟩
      rw [State.run_cons_of_ok hfeed]
      rcases run_chain hpieces hopened hframes' with
        hdeep | ⟨next, hrun, hnext, hlast, hclosed'⟩
      · exact .inl hdeep
      · refine .inr ⟨next, hrun, by rw [hnext, endPhase, if_pos hcall], ?_, hclosed'.trans hclosed⟩
        rw [hlast, openFrames, if_pos hcall, lineFrames_succ_self n hcall,
          ancestors_of_isParent hj, houter]
    · refine .inl ⟨(line lines n).bodyStart, state, State.run_cons_of_error ?_ _⟩
      rw [State.feed_call_indented hphase, State.openChild_of_le hstack hfull]
      rfl
  · have htext : (line lines n).isCall sigil = false := by simpa [calls] using hcall
    refine .inr ⟨_, State.run_text_body hphase hstack hbody htext _, ?_, ?_, rfl⟩
    · rw [endPhase, if_neg hcall]
    · rw [openFrames, if_neg hcall, ancestors_of_isParent hj,
        outerFrames_push hj List.mem_cons_self hjcall houter, item_eq,
        SourceLine.item_of_not_isCall hbody htext]

/-- What comes of the indent of a line, if it has one, and then of what follows it. -/
theorem run_line {n : ℕ} (hn : n < lines.length) (hbody : (line lines n).body ≠ [])
    (hwidth : indents lines n < Text.greatestCount) (hstate : Holds sigil lines n state)
    (hphase : state.phase = startPhase sigil lines n) (hsound : ∀ i ≤ n, Sound sigil lines i) :
    state.NestsTooDeep limit ((line lines n).tokens sigil) ∨
    ∃ next, state.run limit ((line lines n).tokens sigil) = (none, next) ∧
      next.phase = endPhase sigil lines n ∧ Holds sigil lines (n + 1) next := by
  rcases Nat.eq_zero_or_pos (indents lines n) with hzero | hpos
  · have htokens : (line lines n).tokens sigil =
        placePieces (line lines n).bodyStart (bodyPieces sigil (line lines n).body) := if_pos hzero
    rw [htokens]
    exact run_root hn hstate (startPhase_or hphase) hsound hzero
  · have htokens : (line lines n).tokens sigil =
        ⟨.indent (indents lines n), (line lines n).start⟩ ::
          placePieces (line lines n).bodyStart (bodyPieces sigil (line lines n).body) :=
      if_neg (Nat.ne_of_gt hpos)
    obtain ⟨between, hfeed, hindented, hframes, hclosed⟩ :=
      feed_indent hn hstate hphase hsound hpos hwidth (line lines n).start
    rw [State.NestsTooDeep, htokens, State.run_cons_of_ok hfeed]
    rcases run_inner hbody hindented (hsound n (Nat.le_refl n)) hpos hframes with
      hdeep | ⟨next, hrun, hnext, hstack, hclosed'⟩
    · exact .inl hdeep
    · refine .inr ⟨next, hrun, hnext, ⟨hstack, ?_, by simp⟩⟩
      intro root hroot hzero
      rw [trail_succ] at hroot
      rcases List.mem_cons.mp hroot with rfl | hroot
      · omega
      · rw [hclosed', hclosed]
        exact hstate.closed_eq root (List.mem_filter.mp hroot).1 hzero

/-- The first line that is not in its place is at fault. -/
theorem run_line_error {n : ℕ} (hbody : (line lines n).body ≠ [])
    (hwidth : indents lines n < Text.greatestCount) (hstate : Holds sigil lines n state)
    (hphase : state.phase = startPhase sigil lines n) (hsound : ∀ i < n, Sound sigil lines i)
    (hn : ¬ Sound sigil lines n) :
    ∃ last, state.run limit ((line lines n).tokens sigil) =
      (some (line lines n).misplaced, last) := by
  rcases Nat.eq_zero_or_pos (indents lines n) with hzero | hpos
  · have htext : opensCall sigil (line lines n).body = false := by
      apply Bool.eq_false_iff.mpr
      intro hcall
      apply hn
      constructor
      · intro _
        exact hcall
      · intro hpos
        omega
    obtain ⟨content, rest, hpieces⟩ := bodyPieces_of_not_opensCall hbody htext
    have htokens : (line lines n).tokens sigil =
        placePieces (line lines n).bodyStart (bodyPieces sigil (line lines n).body) := if_pos hzero
    have hmisplaced : (line lines n).misplaced = .unindentedText (line lines n).start :=
      if_pos hzero
    rw [htokens, hpieces, placePieces_cons, hmisplaced, ← SourceLine.bodyStart_eq_start hzero]
    exact ⟨state, State.run_cons_of_error (State.feed_text_start (startPhase_or hphase) _) _⟩
  · have htokens : (line lines n).tokens sigil =
        ⟨.indent (indents lines n), (line lines n).start⟩ ::
          placePieces (line lines n).bodyStart (bodyPieces sigil (line lines n).body) :=
      if_neg (Nat.ne_of_gt hpos)
    have hmisplaced : (line lines n).misplaced =
        .unmatchedIndent (indents lines n) (line lines n).start := if_neg (Nat.ne_of_gt hpos)
    rw [htokens, hmisplaced]
    exact ⟨state, State.run_cons_of_error
      (feed_indent_error hstate hphase hsound hpos hwidth hn _) _⟩

/-! ### Reading all lines -/

/-- How the reading of an outline may end. -/
inductive Ends (sigil : Char) (lines : List SourceLine) (limit : ℕ) :
    Option Fault × State → Prop where
  /-- A call is nested too deep. -/
  | tooDeep (place : Position) (last : State) :
      Ends sigil lines limit (some (.nestedTooDeep limit place), last)
  /-- The first line that is not in its place is at fault. -/
  | misplaced {i : ℕ} (last : State) (hi : i < lines.length)
      (hbefore : ∀ j < i, Sound sigil lines j) (hn : ¬ Sound sigil lines i) :
      Ends sigil lines limit (some (line lines i).misplaced, last)
  /-- All lines are in their places. -/
  | whole {last : State} (hsound : ∀ i < lines.length, Sound sigil lines i)
      (hstate : Holds sigil lines lines.length last) : Ends sigil lines limit (none, last)

/-- Only the open and the closed calls matter. -/
theorem Holds.of_eq {n : ℕ} {next : State} (h : Holds sigil lines n state)
    (hframes : next.frames = state.frames) (hclosed : next.closed = state.closed) :
    Holds sigil lines n next := by
  obtain ⟨hstack, hroots, hnil⟩ := h
  exact ⟨hframes ▸ hstack, hclosed ▸ hroots, hclosed ▸ hnil⟩

/-- A reader that is ready for the break behind the first `n` lines, which are in place. -/
structure BeforeBreak (sigil : Char) (lines : List SourceLine) (limit n : ℕ) (state : State) :
    Prop where
  n_le : n ≤ lines.length
  sound : ∀ i < n, Sound sigil lines i
  holds : Holds sigil lines n state
  feed_break : ∀ place, ∃ next, state.feed limit ⟨.lineBreak, place⟩ = .ok next ∧
    next.phase = startPhase sigil lines n ∧ Holds sigil lines n next

/-- The lines that remain begin with the next one. -/
theorem of_drop_eq_cons {n : ℕ} {first : SourceLine} {later : List SourceLine}
    (h : lines.drop n = first :: later) :
    n < lines.length ∧ line lines n = first ∧ lines.drop (n + 1) = later := by
  have hn : n < lines.length := by
    by_contra hle
    rw [List.drop_eq_nil_of_le (by omega)] at h
    cases h
  rw [List.drop_eq_getElem_cons hn] at h
  obtain ⟨hfirst, hlater⟩ := List.cons.inj h
  exact ⟨hn, (List.getElem_eq_getD default).symm.trans hfirst, hlater⟩

/-- Reading a line up to its break, whether or not it is empty. -/
theorem run_content {current : Line} {later : List Line} {number n : ℕ}
    (hlines : lines.drop n = numberLines number (current :: later)) (hn : n ≤ lines.length)
    (hblank : current.content = [] ∨ current.content.all Text.isBlank = false)
    (hwidth : ∀ i < lines.length, indents lines i < Text.greatestCount)
    (hstate : Holds sigil lines n state) (hphase : state.phase = startPhase sigil lines n)
    (hsound : ∀ i < n, Sound sigil lines i) :
    (∃ fault last, state.run limit ((SourceLine.mk number current.content).tokens sigil) =
        (some fault, last) ∧ Ends sigil lines limit (some fault, last)) ∨
    ∃ next m, state.run limit ((SourceLine.mk number current.content).tokens sigil) =
        (none, next) ∧ lines.drop m = numberLines (number + 1) later ∧
      BeforeBreak sigil lines limit m next := by
  rw [numberLines] at hlines
  by_cases hempty : current.content = []
  · rw [if_pos hempty] at hlines
    have htokens : (SourceLine.mk number current.content).tokens sigil = [] := by
      rw [hempty]
      exact congrArg (placePieces _) (bodyPieces_nil sigil)
    rw [htokens]
    refine .inr ⟨state, n, rfl, hlines, hn, hsound, hstate, fun place => ?_⟩
    exact ⟨_, State.feed_break_start (startPhase_or hphase), hphase, hstate.of_eq rfl rfl⟩
  · rw [if_neg hempty] at hlines
    obtain ⟨hlt, hline, hlater⟩ := of_drop_eq_cons hlines
    have hbody : (line lines n).body ≠ [] := by
      rw [hline]
      intro hnil
      have hall : current.content.all Text.isBlank = true :=
        List.all_eq_true.mpr (List.dropWhile_eq_nil_iff.mp hnil)
      rw [hblank.resolve_left hempty] at hall
      cases hall
    rw [← hline]
    by_cases hplace : Sound sigil lines n
    · have hsound' : ∀ i ≤ n, Sound sigil lines i := by
        intro i hi
        rcases Nat.lt_or_eq_of_le hi with hi | rfl
        · exact hsound i hi
        · exact hplace
      rcases run_line hlt hbody (hwidth n hlt) hstate hphase hsound' with
        ⟨place, last, hrun⟩ | ⟨next, hrun, hnext, hholds⟩
      · exact .inl ⟨_, last, hrun, .tooDeep place last⟩
      · refine .inr ⟨next, n + 1, hrun, hlater, hlt, fun i hi => hsound' i (by omega), hholds,
          fun place => ?_⟩
        rw [endPhase] at hnext
        by_cases hcall : calls sigil lines n = true
        · rw [if_pos hcall] at hnext
          exact ⟨_, State.feed_break_call hnext, (if_pos hcall).symm, hholds.of_eq rfl rfl⟩
        · rw [if_neg hcall] at hnext
          exact ⟨_, State.feed_break_text hnext, (if_neg hcall).symm, hholds.of_eq rfl rfl⟩
    · obtain ⟨last, hrun⟩ := run_line_error hbody (hwidth n hlt) hstate hphase hsound hplace
      exact .inl ⟨_, last, hrun, .misplaced last hlt hsound hplace⟩

/-- Reading all lines that remain. -/
theorem run_lines {current : Line} {later : List Line} {number n : ℕ}
    (hlines : lines.drop n = numberLines number (current :: later)) (hn : n ≤ lines.length)
    (hconsecutive : current.Consecutive later)
    (hfeed : ∀ line ∈ current :: later, '\n' ∉ line.content)
    (hblank : ∀ line ∈ current :: later,
      line.content = [] ∨ line.content.all Text.isBlank = false)
    (hwidth : ∀ i < lines.length, indents lines i < Text.greatestCount)
    (hstate : Holds sigil lines n state) (hphase : state.phase = startPhase sigil lines n)
    (hsound : ∀ i < n, Sound sigil lines i) :
    Ends sigil lines limit (state.run limit (lineTokens sigil number (current :: later))) := by
  induction later generalizing current number n state with
  | nil =>
    have hending : current.ending = none := hconsecutive
    rw [lineTokens, SourceLine.placePieces_line sigil (hfeed current List.mem_cons_self),
      lineTokens, List.append_assoc]
    rcases run_content hlines hn (hblank current List.mem_cons_self) hwidth hstate hphase hsound
      with ⟨fault, last, hrun, hends⟩ | ⟨next, m, hrun, hrest, hbreak⟩
    · rw [State.run_append_of_error hrun]
      exact hends
    · have hm : m = lines.length :=
        Nat.le_antisymm hbreak.n_le (List.drop_eq_nil_iff.mp hrest)
      rw [State.run_append hrun, hending]
      exact .whole (hm ▸ hbreak.sound) (hm ▸ hbreak.holds)
  | cons following later ih =>
    obtain ⟨hbroken, hnext⟩ := hconsecutive
    obtain ⟨kind, hkind⟩ := Option.ne_none_iff_exists'.mp hbroken
    rw [lineTokens, SourceLine.placePieces_line sigil (hfeed current List.mem_cons_self),
      List.append_assoc]
    rcases run_content hlines hn (hblank current List.mem_cons_self) hwidth hstate hphase hsound
      with ⟨fault, last, hrun, hends⟩ | ⟨next, m, hrun, hrest, hbreak⟩
    · rw [State.run_append_of_error hrun]
      exact hends
    · obtain ⟨after, hafter, hstart, hholds⟩ :=
        hbreak.feed_break ⟨number, current.content.length + 1⟩
      rw [State.run_append hrun, hkind, Option.elim_some, placePieces_cons, placePieces_nil,
        List.singleton_append, Piece.word, State.run_cons_of_ok hafter]
      exact ih hrest hbreak.n_le hnext (fun line hline => hfeed line (List.mem_cons_of_mem _ hline))
        (fun line hline => hblank line (List.mem_cons_of_mem _ hline)) hholds hstart hbreak.sound

end Outline

end Offside
