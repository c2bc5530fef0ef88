import Offside.Proofs.Compile
import Offside.Proofs.Layout.Closing
import Offside.Proofs.Layout.Transfer
import Offside.Proofs.Layout.Typesetting
import Offside.Proofs.Token.Insertion

/-!
# A line of mere blanks

When a reader comes to an indent it cannot know yet that nothing follows on the line. If the
indent begins a block, the end of the line takes that back. But if it does not, calls are
closed for it, and they stay closed: the line is at fault if the indent leads back to no
block, and the next line is at fault if it stands further right. In all other cases the line
is ignored.
-/

namespace Offside

/-! ### Readers that know the same -/

namespace State

variable {limit : ℕ}

/-- Two readers that know the same, apart from what they have remarked on and announced. -/
structure Alike (one other : State) : Prop where
  /-- They are in the same phase. -/
  phase_eq : one.phase = other.phase
  /-- The same calls are open. -/
  frames_eq : one.frames = other.frames
  /-- The same calls are closed. -/
  closed_eq : one.closed = other.closed

/-- A reader reads on as if nothing had been remarked on or announced. -/
theorem run_silent (state : State) (tokens : List Token) :
    let silent : State := ⟨state.phase, state.frames, state.closed, [], []⟩
    state.run limit tokens = ((silent.run limit tokens).1,
      (Transfer.prior [] state.remarks state.events).state (silent.run limit tokens).2) := by
  intro silent
  have hstate : (Transfer.prior [] state.remarks state.events).state silent = state := by
    rw [Transfer.state_prior, List.append_nil]
    rfl
  rw [← Transfer.run_prior, hstate]

/-- Readers that know the same come to the same fault or to the same forest. -/
theorem Alike.exists_run {one other last : State} (h : Alike one other) {tokens : List Token}
    {fault? : Option Fault} (hrun : other.run limit tokens = (fault?, last)) :
    ∃ final, one.run limit tokens = (fault?, final) ∧ final.forest = last.forest := by
  obtain ⟨hphase, hframes, hclosed⟩ := h
  rw [run_silent] at hrun
  obtain ⟨rfl, rfl⟩ := Prod.mk.inj hrun
  rw [run_silent, hphase, hframes, hclosed]
  exact ⟨_, rfl, by rw [Transfer.forest_prior, Transfer.forest_prior]⟩

/-! ### Indents at the start of a line -/

/-- The reader is at the start of a line, below a call if the line may begin a block. -/
def AtStart (state : State) : Prop :=
  state.phase = .lineStart ∨ state.phase = .blockStart ∧ state.frames ≠ []

/-- At the start of a line the reader is in one of two phases. -/
theorem AtStart.phase_start {state : State} (h : state.AtStart) :
    state.phase = .lineStart ∨ state.phase = .blockStart :=
  h.imp_right And.left

/-- An indent to the given column begins the block of the innermost call. -/
def BeginsBlock (state : State) (column : Column) : Prop :=
  state.phase = .blockStart ∧ ∃ top ∈ state.frames.head?, top.column < column

variable {state : State} {width : ℕ} {place : Position}

/-- Any other indent closes calls until it leads back to a block. -/
theorem feed_indent_of_not_begins (hstart : state.AtStart)
    (h : ¬ state.BeginsBlock (.ofWidth width)) :
    state.feed limit ⟨.indent width, place⟩ =
      match Frame.settleStack? (.ofWidth width) state.frames with
      | some frames => .ok { state with phase := .indented, frames }
      | none => .error (.unmatchedIndent width place) := by
  have hsettle : (state.settle width place).map (·.goto .indented) =
      match Frame.settleStack? (.ofWidth width) state.frames with
      | some frames => .ok { state with phase := .indented, frames }
      | none => .error (.unmatchedIndent width place) := by
    rw [settle_eq]
    cases Frame.settleStack? (.ofWidth width) state.frames <;> rfl
  rcases hstart with hphase | ⟨hphase, hopen⟩
  · rw [feed_indent_lineStart hphase, hsettle]
  · obtain ⟨top, below, hframes⟩ := List.exists_cons_of_ne_nil hopen
    have hbeside : ¬ top.column < .ofWidth width := by
      intro hright
      exact h ⟨hphase, top, by rw [hframes]; rfl, hright⟩
    rw [feed_indent_blockStart hphase hframes, if_neg hbeside, hsettle]

/-- An indent that begins a block and is ended at once is remarked on, and that is all. -/
theorem run_indent_of_begins (hawaits : state.AwaitsBlock) (h : state.BeginsBlock (.ofWidth width))
    (broken : Position) (tokens : List Token) :
    state.run limit (⟨.indent width, place⟩ :: ⟨.lineBreak, broken⟩ :: tokens) =
      (state.report .cancelledBlock broken).run limit tokens := by
  obtain ⟨hphase, top, htop, hright⟩ := h
  obtain ⟨below, hframes⟩ := List.head?_eq_some_iff.mp htop
  have hblock : top.block = .beyond := hawaits (.inr hphase) top below hframes
  have hindent : state.feed limit ⟨.indent width, place⟩ =
      .ok { state with
        phase := .blockIndented
        frames := { top with block := .ofWidth width } :: below } := by
    rw [feed_indent_blockStart hphase hframes, if_pos hright]
  rw [run_cons_of_ok hindent, run_cons_of_ok (feed_break_blockIndented rfl rfl)]
  have hstate : ({ state.report .cancelledBlock broken with
      phase := .blockStart, frames := { top with block := .beyond } :: below } : State) =
        state.report .cancelledBlock broken := by
    rw [← hblock, report, hframes, hphase]
  exact congrArg (State.run limit · tokens) hstate

/-! ### A reader that has closed calls too early -/

/-- The tokens from the first one on that is no line break. -/
def behindBreaks (tokens : List Token) : List Token :=
  tokens.dropWhile fun token => token.word = .lineBreak

/-- Behind the line breaks there is no line break. -/
theorem word_ne_of_head?_behindBreaks {tokens : List Token} {token : Token}
    (h : (behindBreaks tokens).head? = some token) : token.word ≠ .lineBreak := by
  have hnot := List.head?_dropWhile_not (fun token => decide (token.word = Word.lineBreak)) tokens
  rw [behindBreaks] at h
  rw [h] at hnot
  simpa using hnot

/-- A reader at the start of a line, and one that has also closed calls for an indent. -/
structure Ahead (column : Column) (state ahead : State) : Prop where
  /-- The one is at the start of a line. -/
  start : state.AtStart
  /-- The indent would begin no block. -/
  not_begins : ¬ state.BeginsBlock column
  /-- The other is at the start of a line that continues no call. -/
  phase_ahead : ahead.phase = .lineStart
  /-- Calls were closed for the indent. -/
  settled : Frame.settleStack? column state.frames = some ahead.frames
  /-- No outermost call was closed. -/
  closed_eq : ahead.closed = state.closed

variable {column : Column} {ahead next last : State} {token : Token} {tokens : List Token}

/-- Once all is closed there is no difference. -/
theorem Ahead.forest_eq (h : Ahead column state ahead) : ahead.forest = state.forest := by
  rw [State.forest_eq, State.forest_eq, h.closed_eq, Frame.closeStack_settled h.settled]

/-- An indent that reaches no further would begin no block either. -/
theorem Ahead.not_begins_of_le (h : Ahead column state ahead) {other : Column}
    (hle : other ≤ column) : ¬ state.BeginsBlock other := by
  rintro ⟨hphase, top, htop, hright⟩
  have hbeside : ¬ top.column < column := fun hlt => h.not_begins ⟨hphase, top, htop, hlt⟩
  exact Column.not_lt.mpr (Column.le_trans hle (Column.not_lt.mp hbeside)) hright

/-- An indent that begins no block and is ended at once leaves a reader that is ahead, if it
leads back to a block. -/
theorem exists_ahead (hstart : state.AtStart) (h : ¬ state.BeginsBlock (.ofWidth width))
    {frames : List Frame} (hsettle : Frame.settleStack? (.ofWidth width) state.frames = some frames)
    (limit : ℕ) (place broken : Position) :
    ∃ ahead, Ahead (.ofWidth width) state ahead ∧ ∀ tokens,
      state.run limit (⟨.indent width, place⟩ :: ⟨.lineBreak, broken⟩ :: tokens) =
        ahead.run limit tokens := by
  have hindent : state.feed limit ⟨.indent width, place⟩ =
      .ok { state with phase := .indented, frames } := by
    rw [feed_indent_of_not_begins hstart h, hsettle]
  refine ⟨({ state with frames }.report .indentOnlyLine broken).goto .lineStart,
    ⟨hstart, h, rfl, hsettle, rfl⟩, fun tokens => ?_⟩
  rw [run_cons_of_ok hindent, run_cons_of_ok (feed_break_indented rfl)]
  rfl

/-- The reader that is ahead closes calls for any indent. -/
theorem Ahead.feed_indent (h : Ahead column state ahead) :
    ahead.feed limit ⟨.indent width, place⟩ =
      match Frame.settleStack? (.ofWidth width) ahead.frames with
      | some frames => .ok { ahead with phase := .indented, frames }
      | none => .error (.unmatchedIndent width place) := by
  apply feed_indent_of_not_begins (.inl h.phase_ahead)
  rintro ⟨hphase, -⟩
  rw [h.phase_ahead] at hphase
  cases hphase

/-- A call, or an indent that reaches no further, makes the readers know the same. -/
theorem Ahead.exists_alike (h : Ahead column state ahead) (hword : token.word ≠ .lineBreak)
    (hfeed : state.feed limit token = .ok next)
    (hlevel : ∀ width, token.word = .indent width → .ofWidth width ≤ column) :
    ∃ after, ahead.feed limit token = .ok after ∧ Alike after next := by
  obtain ⟨word, place⟩ := token
  cases word with
  | call name =>
    rw [feed_call_start h.start.phase_start] at hfeed
    obtain rfl := Except.ok.inj hfeed
    have hclosed : ahead.closeAll = state.closeAll := List.reverse_inj.mp h.forest_eq
    exact ⟨_, feed_call_start (.inl h.phase_ahead) name, rfl, rfl, hclosed⟩
  | text content =>
    rw [feed_text_start h.start.phase_start] at hfeed
    cases hfeed
  | lineBreak => exact absurd rfl hword
  | indent width =>
    have hle : .ofWidth width ≤ column := hlevel width rfl
    rw [feed_indent_of_not_begins h.start (h.not_begins_of_le hle)] at hfeed
    rw [h.feed_indent, Frame.settleStack?_settled h.settled hle]
    cases hsettle : Frame.settleStack? (.ofWidth width) state.frames with
    | none =>
      rw [hsettle] at hfeed
      cases hfeed
    | some frames =>
      rw [hsettle] at hfeed
      obtain rfl := Except.ok.inj hfeed
      exact ⟨_, rfl, rfl, rfl, h.closed_eq⟩

/-- The line breaks at the front of a list change nothing. -/
theorem Ahead.skipBreaks (h : Ahead column state ahead) (limit : ℕ) (tokens : List Token) :
    ∃ later laterAhead, Ahead column later laterAhead ∧
      state.run limit tokens = later.run limit (behindBreaks tokens) ∧
      ahead.run limit tokens = laterAhead.run limit (behindBreaks tokens) := by
  induction tokens generalizing state ahead with
  | nil => exact ⟨state, ahead, h, rfl, rfl⟩
  | cons token rest ih =>
    by_cases hword : token.word = .lineBreak
    · obtain ⟨word, place⟩ := token
      obtain rfl : word = .lineBreak := hword
      have hreport : Ahead column (state.report .emptyLine place)
          (ahead.report .emptyLine place) :=
        ⟨h.start, h.not_begins, h.phase_ahead, h.settled, h.closed_eq⟩
      rw [run_cons_of_ok (feed_break_start h.start.phase_start),
        run_cons_of_ok (feed_break_start (.inl h.phase_ahead))]
      exact ih hreport
    · rw [behindBreaks, List.dropWhile_cons_of_neg (by simpa using hword)]
      exact ⟨state, ahead, h, rfl, rfl⟩

/-- If the next line reaches no further than the indent, nothing is lost. -/
theorem Ahead.run_level (h : Ahead column state ahead)
    (hrun : state.run limit tokens = (none, last))
    (hlevel : ∀ token ∈ (behindBreaks tokens).head?,
      ∀ width, token.word = .indent width → .ofWidth width ≤ column) :
    ∃ final, ahead.run limit tokens = (none, final) ∧ final.forest = last.forest := by
  obtain ⟨later, laterAhead, hlater, hstate, hahead⟩ := h.skipBreaks limit tokens
  rw [hstate] at hrun
  rw [hahead]
  cases hrest : behindBreaks tokens with
  | nil =>
    rw [hrest] at hrun
    obtain rfl : later = last := congrArg Prod.snd hrun
    exact ⟨laterAhead, rfl, hlater.forest_eq⟩
  | cons token rest =>
    have hhead : (behindBreaks tokens).head? = some token := by rw [hrest, List.head?_cons]
    rw [hrest] at hrun
    obtain ⟨next, hfeed, hnext⟩ := exists_feed_of_run hrun
    obtain ⟨after, hafter, halike⟩ :=
      hlater.exists_alike (word_ne_of_head?_behindBreaks hhead) hfeed
      (hlevel token hhead)
    obtain ⟨final, hfinal, hforest⟩ := halike.exists_run hnext
    exact ⟨final, by rw [run_cons_of_ok hafter, hfinal], hforest⟩

/-- If the next line reaches further than the indent, it is at fault. -/
theorem Ahead.run_beyond (h : Ahead column state ahead) {place : Position}
    (hhead : (behindBreaks tokens).head? = some ⟨.indent width, place⟩)
    (hbeyond : column < .ofWidth width) :
    ∃ final, ahead.run limit tokens = (some (.unmatchedIndent width place), final) := by
  obtain ⟨later, laterAhead, hlater, -, hahead⟩ := h.skipBreaks limit tokens
  obtain ⟨rest, hrest⟩ := List.head?_eq_some_iff.mp hhead
  have hfeed : laterAhead.feed limit ⟨.indent width, place⟩ =
      .error (.unmatchedIndent width place) := by
    rw [hlater.feed_indent, Frame.settleStack?_settled_eq_none hlater.settled hbeyond]
  exact ⟨laterAhead, by rw [hahead, hrest, run_cons_of_error hfeed]⟩

end State

/-! ### Lines -/

/-- Only lines that are not empty are numbered. -/
theorem content_ne_nil_of_mem_numberLines {number : ℕ} {lines : List Line} {source : SourceLine}
    (h : source ∈ numberLines number lines) : source.content ≠ [] := by
  induction lines generalizing number with
  | nil => cases h
  | cons line later ih =>
    rw [numberLines] at h
    split at h
    · exact ih h
    · next hcontent =>
      rcases List.mem_cons.mp h with rfl | hlater
      · exact hcontent
      · exact ih hlater

namespace SourceLine

/-- A line that is not empty has tokens. The first one is its indent, if it is one at all. -/
theorem exists_tokens_eq_cons (sigil : Char) {line : SourceLine} (h : line.content ≠ []) :
    ∃ token rest, line.tokens sigil = token :: rest ∧ token.word ≠ .lineBreak ∧
      ∀ width, token.word = .indent width → width = line.indent := by
  by_cases hindent : line.indent = 0
  · have hbody : line.body ≠ [] := by
      intro hnil
      have hcontent : line.content.takeWhile Text.isBlank ++ line.body = line.content :=
        List.takeWhile_append_dropWhile
      rw [hnil, List.length_eq_zero_iff.mp hindent] at hcontent
      exact h hcontent.symm
    rw [tokens, if_pos hindent]
    cases hopens : opensCall sigil line.body with
    | true =>
      obtain ⟨name, later, hpieces⟩ := bodyPieces_of_opensCall hopens
      exact ⟨_, _, by rw [hpieces, placePieces_cons], by simp [Piece.word], by simp [Piece.word]⟩
    | false =>
      obtain ⟨content, later, hpieces⟩ := bodyPieces_of_not_opensCall hbody hopens
      exact ⟨_, _, by rw [hpieces, placePieces_cons], by simp [Piece.word], by simp [Piece.word]⟩
  · rw [tokens, if_neg hindent]
    exact ⟨_, _, rfl, by simp, fun width hword => (Word.indent.inj hword).symm⟩

/-- The indent of a line of mere blanks is all of it. -/
theorem indent_of_isIndent {width : ℕ} {blanks : List Char} (hblanks : IsIndent width blanks)
    (number : ℕ) : (SourceLine.mk number blanks).indent = width := by
  rw [indent, List.takeWhile_eq_self_iff.mpr fun c hc => (hblanks.2 c hc).1, hblanks.1]

/-- The only token of a line of mere blanks, apart from its break, is its indent. -/
theorem tokens_of_isIndent (sigil : Char) {width : ℕ} {blanks : List Char}
    (hblanks : IsIndent width blanks) (hwidth : 0 < width) (number : ℕ) :
    (SourceLine.mk number blanks).tokens sigil = [⟨.indent width, ⟨number, 1⟩⟩] := by
  have hbody : (SourceLine.mk number blanks).body = [] :=
    List.dropWhile_eq_nil_iff.mpr fun c hc => (hblanks.2 c hc).1
  rw [tokens, indent_of_isIndent hblanks, hbody, bodyPieces_nil, placePieces_nil,
    if_neg (Nat.ne_of_gt hwidth), start]

end SourceLine

namespace State

variable {limit number width : ℕ} {sigil : Char} {lines : List Line} {column : Column}
variable {state ahead last : State}

/-- Behind the line breaks the tokens of some lines begin with those of the first one that is
not empty. -/
theorem head?_behindBreaks_lineTokens (sigil : Char) (number : ℕ)
    (hfeed : ∀ line ∈ lines, '\n' ∉ line.content) :
    (behindBreaks (lineTokens sigil number lines)).head? =
      (numberLines number lines).head?.bind fun line => (line.tokens sigil).head? := by
  induction lines generalizing number with
  | nil => rfl
  | cons line later ih =>
    obtain ⟨hline, hlater⟩ := List.forall_mem_cons.mp hfeed
    rw [lineTokens, SourceLine.placePieces_line sigil hline, numberLines]
    by_cases hcontent : line.content = []
    · have htokens : (SourceLine.mk number line.content).tokens sigil = [] := by
        rw [hcontent]
        exact congrArg (placePieces _) (bodyPieces_nil sigil)
      rw [if_pos hcontent, htokens, List.nil_append, ← ih (number + 1) hlater]
      cases line.ending with
      | none => rfl
      | some kind => rfl
    · have hsource : (SourceLine.mk number line.content).content ≠ [] := hcontent
      obtain ⟨token, rest, htokens, hword, -⟩ := SourceLine.exists_tokens_eq_cons sigil hsource
      rw [if_neg hcontent, htokens, List.cons_append, List.cons_append, behindBreaks,
        List.dropWhile_cons_of_neg (by simpa using hword)]
      simp only [List.head?_cons, Option.bind_some, htokens]

/-- If the next line that is not empty is indented no further than what calls were closed for,
nothing is lost. -/
theorem Ahead.run_lines_level (h : Ahead column state ahead)
    (hfeed : ∀ line ∈ lines, '\n' ∉ line.content)
    (hrun : state.run limit (lineTokens sigil number lines) = (none, last))
    (hlevel : ∀ line ∈ (numberLines number lines).head?, .ofWidth line.indent ≤ column) :
    ∃ final, ahead.run limit (lineTokens sigil number lines) = (none, final) ∧
      final.forest = last.forest := by
  refine h.run_level hrun fun token htoken width hword => ?_
  rw [head?_behindBreaks_lineTokens sigil number hfeed] at htoken
  obtain ⟨line, hline, htokens⟩ := Option.bind_eq_some_iff.mp htoken
  have hcontent := content_ne_nil_of_mem_numberLines (List.mem_of_mem_head? hline)
  obtain ⟨first, rest, hcons, -, hindent⟩ := SourceLine.exists_tokens_eq_cons sigil hcontent
  rw [hcons, List.head?_cons] at htokens
  obtain rfl := Option.some.inj htokens
  rw [hindent width hword]
  exact hlevel line hline

/-- If it is indented further, it is at fault. -/
theorem Ahead.run_lines_beyond (h : Ahead column state ahead)
    (hfeed : ∀ line ∈ lines, '\n' ∉ line.content) {line : SourceLine}
    (hline : (numberLines number lines).head? = some line)
    (hbeyond : column < .ofWidth line.indent) :
    ∃ final, ahead.run limit (lineTokens sigil number lines) =
      (some line.misplaced, final) := by
  have hindent : line.indent ≠ 0 := by
    intro hzero
    rw [hzero] at hbeyond
    exact Column.not_lt_ofWidth_zero column hbeyond
  rw [SourceLine.misplaced, if_neg hindent]
  refine h.run_beyond ?_ hbeyond
  rw [head?_behindBreaks_lineTokens sigil number hfeed, hline, Option.bind_some,
    SourceLine.tokens, if_neg hindent, List.head?_cons]

/-- A line of mere blanks is ignored in front of the given line, if there is one. Its indent
begins a block, and its end takes that back; or its indent leads back to a block, and the next
line is indented no further. -/
def PassesOver (state : State) (column : Column) (next? : Option SourceLine) : Prop :=
  state.BeginsBlock column ∨ Frame.settleStack? column state.frames ≠ none ∧
    ∀ line ∈ next?, Column.ofWidth line.indent ≤ column

/-- An indent that begins a block, or leads back to one in front of a line that is indented no
further, can be followed by a line break at once without any change to the forest. -/
theorem exists_run_of_passesOver (hstart : state.AtStart) (hawaits : state.AwaitsBlock)
    (hfeed : ∀ line ∈ lines, '\n' ∉ line.content)
    (hrun : state.run limit (lineTokens sigil number lines) = (none, last))
    (hpasses : state.PassesOver (.ofWidth width) (numberLines number lines).head?)
    (place broken : Position) :
    ∃ final, state.run limit (⟨.indent width, place⟩ :: ⟨.lineBreak, broken⟩ ::
        lineTokens sigil number lines) = (none, final) ∧ final.forest = last.forest := by
  by_cases hbegins : state.BeginsBlock (.ofWidth width)
  · have halike : (state.report .cancelledBlock broken).Alike state := ⟨rfl, rfl, rfl⟩
    rw [run_indent_of_begins hawaits hbegins]
    exact halike.exists_run hrun
  · obtain ⟨hsettle, hlevel⟩ := hpasses.resolve_left hbegins
    obtain ⟨frames, hframes⟩ := Option.ne_none_iff_exists'.mp hsettle
    obtain ⟨ahead, hahead, hsame⟩ := exists_ahead hstart hbegins hframes limit place broken
    rw [hsame]
    exact hahead.run_lines_level hfeed hrun hlevel

/-- Any other indent that is followed by a line break at once is at fault, or else the next
line that is not empty. -/
theorem exists_run_of_not_passesOver (hstart : state.AtStart)
    (hfeed : ∀ line ∈ lines, '\n' ∉ line.content)
    (hnot : ¬ state.PassesOver (.ofWidth width) (numberLines number lines).head?)
    {blank : SourceLine} (hblank : blank.indent = width) (hwidth : 0 < width)
    (broken : Position) :
    ∃ line final, state.run limit (⟨.indent width, blank.start⟩ :: ⟨.lineBreak, broken⟩ ::
        lineTokens sigil number lines) = (some line.misplaced, final) ∧
      (Frame.settleStack? (.ofWidth width) state.frames = none ∧ line = blank ∨
        Frame.settleStack? (.ofWidth width) state.frames ≠ none ∧
          (numberLines number lines).head? = some line) := by
  obtain ⟨hbegins, hfurther⟩ := not_or.mp hnot
  cases hsettle : Frame.settleStack? (.ofWidth width) state.frames with
  | none =>
    have hindent : state.feed limit ⟨.indent width, blank.start⟩ = .error blank.misplaced := by
      rw [feed_indent_of_not_begins hstart hbegins, hsettle, SourceLine.misplaced,
        if_neg (by omega), hblank]
    exact ⟨blank, state, run_cons_of_error hindent _, .inl ⟨rfl, rfl⟩⟩
  | some frames =>
    obtain ⟨ahead, hahead, hsame⟩ :=
      exists_ahead hstart hbegins hsettle limit blank.start broken
    obtain ⟨line, hline, hbeyond⟩ : ∃ line ∈ (numberLines number lines).head?,
        .ofWidth width < Column.ofWidth line.indent := by
      by_contra hnone
      apply hfurther
      refine ⟨by simp [hsettle], fun line hline => Column.not_lt.mp fun hlt => ?_⟩
      exact hnone ⟨line, hline, hlt⟩
    obtain ⟨final, hfinal⟩ : ∃ final, ahead.run limit (lineTokens sigil number lines) =
        (some line.misplaced, final) := hahead.run_lines_beyond hfeed hline hbeyond
    exact ⟨line, final, by rw [hsame, hfinal], .inr ⟨by simp, hline⟩⟩

/-- Behind lines that are all broken the reader is at the start of a line. -/
theorem phase_of_run_lineTokens (hbroken : ∀ line ∈ lines, line.ending ≠ none)
    (hphase : state.phase = .lineStart ∨ state.phase = .blockStart)
    (hrun : state.run limit (lineTokens sigil number lines) = (none, last)) :
    last.phase = .lineStart ∨ last.phase = .blockStart := by
  induction lines generalizing number state with
  | nil =>
    obtain rfl : state = last := congrArg Prod.snd hrun
    exact hphase
  | cons line later ih =>
    obtain ⟨hending, hlater⟩ := List.forall_mem_cons.mp hbroken
    obtain ⟨kind, hkind⟩ := Option.ne_none_iff_exists'.mp hending
    obtain ⟨between, hline, hrest⟩ := exists_run_of_append hrun
    rw [Line.pieces, hkind, placePieces_append] at hline
    obtain ⟨inside, -, hbreak⟩ := exists_run_of_append hline
    obtain ⟨next, hfeed, hnext⟩ := exists_feed_of_run hbreak
    obtain rfl : next = between := congrArg Prod.snd hnext
    refine ih hlater ?_ hrest
    cases reads_lineBreak hfeed with
    | continued hphase hcontent hframes hgrown => cases hcontent
    | ended hphase => exact hphase.imp And.right And.right
    | skippedIndent hphase => exact .inl rfl
    | cancelled hframes hphase => exact .inr rfl
    | skippedLine hphase => exact hphase

/-- Behind the first lines of a text the reader is at the start of a line, and a block that
could begin there has not begun. -/
theorem atStart_of_run {text : List Char} {before after : List Line}
    (hlines : Line.ofChars text = before ++ after) (hafter : after ≠ [])
    (hrun : initial.run limit (lineTokens sigil 1 before) = (none, state)) :
    state.AtStart ∧ state.AwaitsBlock := by
  have hbroken := (Line.consecutive_cut text).ending_ne_none hlines hafter
  have hlast : (initial.run limit (lineTokens sigil 1 before)).2 = state := congrArg Prod.snd hrun
  constructor
  · obtain ⟨hsteady, -⟩ := steady_of_run (List.append_nil _) hrun
    rcases phase_of_run_lineTokens hbroken (.inl rfl) hrun with hphase | hphase
    · exact .inl hphase
    · exact .inr ⟨hphase, hsteady.frames_ne_nil (by simp [hphase])⟩
  · rw [← hlast]
    exact of_run (fun _ => awaitsBlock_of_reads) (by simp [AwaitsBlock, initial])

end State

/-! ### Moving down -/

/-- Carries a source to where one more line is behind its first lines, so many in number. -/
def Transfer.moving (number : ℕ) : Transfer := { place := Position.moved number }

/-- Once a line is put in between, the reader comes to it as before, and would read what is
behind it as before, one line further down. -/
theorem State.exists_run_moved {limit : ℕ} {sigil : Char} {before after : List Line} {last : State}
    (hplain : ∀ line ∈ before ++ after, line.IsPlain)
    (hrun : initial.run limit (lineTokens sigil 1 (before ++ after)) = (none, last)) :
    ∃ state, initial.run limit (lineTokens sigil 1 before) = (none, state) ∧
      state.run limit (lineTokens sigil (before.length + 2) after) =
        (none, (Transfer.moving before.length).state last) := by
  have hkeeps : (Transfer.moving before.length).Keeps Set.univ := Transfer.keeps_univ _ _ _ _
  have htoken : (Transfer.moving before.length).token = Token.moved before.length := by
    funext token
    rw [Transfer.token, Transfer.word_of_id rfl rfl]
    rfl
  have hmoved (state : State) (tokens : List Token) :=
    hkeeps.run_state state.among_univ (fun token (_ : token ∈ tokens) _ _ => trivial) limit
  simp only [htoken] at hmoved
  obtain ⟨hfront, hback⟩ := List.forall_mem_append.mp hplain
  rw [lineTokens_append, Nat.add_comm 1] at hrun
  obtain ⟨state, hbefore, hafter⟩ := exists_run_of_append hrun
  refine ⟨state, hbefore, ?_⟩
  -- nothing that the reader knows by then moves
  have hstays : (Transfer.moving before.length).state state = state := by
    have h := hmoved initial (lineTokens sigil 1 before)
    change initial.run limit _ = _ at h
    rw [lineTokens_moved_before sigil fun line hline => (hfront line hline).1, hbefore] at h
    exact (congrArg Prod.snd h).symm
  have h := hmoved state (lineTokens sigil (before.length + 1) after)
  rwa [lineTokens_moved_after sigil fun line hline => (hback line hline).1, hafter, hstays] at h

/-- Where a line of mere blanks is put in, its indent and its break are read first. -/
theorem State.run_insert {limit : ℕ} {sigil : Char} {before : List Line} {state : State}
    (hfront : initial.run limit (lineTokens sigil 1 before) = (none, state)) {width : ℕ}
    (hwidth : 0 < width) {blanks : List Char} (hblanks : IsIndent width blanks)
    (kind : LineBreak) (after : List Line) :
    initial.run limit (lineTokens sigil 1 (before ++ ⟨blanks, some kind⟩ :: after)) =
      state.run limit (⟨.indent width, ⟨before.length + 1, 1⟩⟩ ::
        ⟨.lineBreak, ⟨before.length + 1, width + 1⟩⟩ ::
          lineTokens sigil (before.length + 2) after) := by
  have hfeed : '\n' ∉ blanks := fun hmem => (hblanks.2 _ hmem).2.1 rfl
  rw [lineTokens_append, run_append hfront, Nat.add_comm 1, lineTokens,
    SourceLine.placePieces_line sigil hfeed, SourceLine.tokens_of_isIndent sigil hblanks hwidth,
    hblanks.1]
  rfl

/-! ### Compiling -/

/-- A line of mere blanks that is put between two lines of a text that compiles is ignored in
just the following case: the reader passes over it in front of the next line that is not
empty. Then the text compiles as before, with all behind the line one line further down. If it
is not ignored, the text is at fault at the line itself, if its indent leads back to no block,
and otherwise at the next line that is not empty. -/
theorem compile_blankLine (frontEnd : FrontEnd) {text : String} {compilation : Compilation}
    (hcompile : (frontEnd.compile text).1 = .ok compilation) {before after : List Line}
    (hlines : Line.ofChars text.toList = before ++ after) (hafter : after ≠ []) {width : ℕ}
    (hwidth : 0 < width) {blanks : List Char} (hblanks : IsIndent width blanks)
    (kind : LineBreak) :
    let number := before.length
    let widened := String.ofList ((before ++ ⟨blanks, some kind⟩ :: after).flatMap Line.chars)
    let column := Column.ofWidth width
    let next? := (numberLines (number + 2) after).head?
    ∃ state, State.initial.run frontEnd.settings.nestingLimit
        (lineTokens frontEnd.settings.sigil 1 before) = (none, state) ∧
      (state.PassesOver column next? ↔ ∃ remarks, (frontEnd.compile widened).1 =
        .ok ⟨compilation.roots.map (Transfer.moving number).call, remarks⟩) ∧
      (¬ state.PassesOver column next? → ∃ line : SourceLine,
        (frontEnd.compile widened).1 = .error line.misplaced ∧
          (Frame.settleStack? column state.frames = none ∧ line = ⟨number + 1, blanks⟩ ∨
            Frame.settleStack? column state.frames ≠ none ∧ next? = some line)) := by
  intro number widened column next?
  obtain ⟨hreturns, last, hrun, hroots⟩ := FrontEnd.exists_run_of_compile hcompile
  rw [hlines] at hrun
  have hplain : ∀ line ∈ before ++ after, line.IsPlain := fun line hline =>
    Line.isPlain_of_mem_ofChars hreturns (hlines ▸ hline)
  have hfeed : ∀ line ∈ after, '\n' ∉ line.content := fun line hline =>
    (hplain line (List.mem_append_right before hline)).1
  have hblank : Line.IsPlain ⟨blanks, some kind⟩ :=
    ⟨fun hmem => (hblanks.2 _ hmem).2.1 rfl, fun hmem => (hblanks.2 _ hmem).2.2 rfl⟩
  obtain ⟨hwidened, hunstrayed⟩ := Line.ofChars_insert hreturns hlines hafter hblank (by simp)
  have htext : widened.toList = (before ++ ⟨blanks, some kind⟩ :: after).flatMap Line.chars :=
    String.toList_ofList
  rw [← htext] at hwidened hunstrayed
  obtain ⟨state, hfront, hback⟩ := State.exists_run_moved hplain hrun
  obtain ⟨hstart, hawaits⟩ := State.atStart_of_run hlines hafter hfront
  have hread := State.run_insert hfront hwidth hblanks kind after
  rw [← hwidened] at hread
  have hignored : state.PassesOver column next? → ∃ remarks, (frontEnd.compile widened).1 =
      .ok ⟨compilation.roots.map (Transfer.moving number).call, remarks⟩ := by
    intro hpasses
    obtain ⟨final, hfinal, hforest⟩ := State.exists_run_of_passesOver hstart hawaits hfeed hback
      hpasses ⟨number + 1, 1⟩ ⟨number + 1, width + 1⟩
    have hok := FrontEnd.compile_of_run hunstrayed (hread.trans hfinal)
    refine ⟨final.remarks.reverse, ?_⟩
    rw [hok, hforest, Transfer.forest_state, hroots]
    rfl
  have hfault : ¬ state.PassesOver column next? → ∃ line : SourceLine,
      (frontEnd.compile widened).1 = .error line.misplaced ∧
        (Frame.settleStack? column state.frames = none ∧ line = ⟨number + 1, blanks⟩ ∨
          Frame.settleStack? column state.frames ≠ none ∧ next? = some line) := by
    intro hnot
    have hindent : (SourceLine.mk (number + 1) blanks).indent = width :=
      SourceLine.indent_of_isIndent hblanks (number + 1)
    obtain ⟨line, final, hfinal, hline⟩ := State.exists_run_of_not_passesOver
      hstart hfeed hnot hindent hwidth ⟨number + 1, width + 1⟩
    exact ⟨line, FrontEnd.compile_of_run_error hunstrayed (hread.trans hfinal), hline⟩
  refine ⟨state, hfront, ⟨hignored, ?_⟩, hfault⟩
  rintro ⟨remarks, hok⟩
  by_contra hnot
  obtain ⟨line, herror, -⟩ := hfault hnot
  rw [herror] at hok
  cases hok

/-- A line of two blanks ends the inner one of two blocks, so the next line is at fault. -/
theorem compile_blankLine_block :
    let text := "$$a\n  $$b\n    x\n    y"
    let widened := "$$a\n  $$b\n    x\n  \n    y"
    let before : List Line := [⟨['$', '$', 'a'], some .feed⟩,
      ⟨[' ', ' ', '$', '$', 'b'], some .feed⟩, ⟨[' ', ' ', ' ', ' ', 'x'], some .feed⟩]
    (FrontEnd.standard.compile text).1.map Compilation.roots =
        .ok [⟨"$$a", ⟨1, 1⟩, [.call "$$b" ⟨2, 3⟩ [.text "x", .text "y"]]⟩] ∧
      (FrontEnd.standard.compile widened).1.map Compilation.roots =
        .error (.unmatchedIndent 4 ⟨5, 1⟩) ∧
      ∃ state, State.initial.run 128 (lineTokens '$' 1 before) = (none, state) ∧
        ¬ state.PassesOver (.ofWidth 2) (some ⟨5, [' ', ' ', ' ', ' ', 'y']⟩) := by
  intro text widened before
  have htext : (FrontEnd.standard.compile text).1.map Compilation.roots =
      .ok [⟨"$$a", ⟨1, 1⟩, [.call "$$b" ⟨2, 3⟩ [.text "x", .text "y"]]⟩] := by
    decide +kernel
  have hwidened : (FrontEnd.standard.compile widened).1.map Compilation.roots =
      .error (.unmatchedIndent 4 ⟨5, 1⟩) := by
    decide +kernel
  refine ⟨htext, hwidened, ?_⟩
  cases hcompile : (FrontEnd.standard.compile text).1 with
  | error fault =>
    rw [hcompile] at htext
    cases htext
  | ok compilation =>
    have hlines : Line.ofChars text.toList =
        before ++ [⟨[' ', ' ', ' ', ' ', 'y'], none⟩] := by decide
    obtain ⟨state, hrun, hignored, -⟩ := compile_blankLine .standard hcompile hlines (by simp)
      (show 0 < 2 by decide) (isIndent_replicate 2) .feed
    refine ⟨state, hrun, fun hpasses => ?_⟩
    obtain ⟨remarks, hok⟩ := hignored.mp hpasses
    have hsame : (FrontEnd.standard.compile widened).1 = _ := hok
    rw [hsame] at hwidened
    cases hwidened

end Offside
