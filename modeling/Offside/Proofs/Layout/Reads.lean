import Offside.Layout.Parser
import Offside.Proofs.Layout.Feed

/-!
# What reading a token does

All that can come of reading one token is listed once, as an inductive relation with one
constructor for each way of taking a word. What a token keeps or changes is then shown
case by case, without looking into the automaton again.
-/

namespace Offside

/-- What a call or a text spells. -/
def Word.content? : Word → Option String
  | .call name => some name
  | .text content => some content
  | .lineBreak => none
  | .indent _ => none

/-- Only a call or a text spells something. -/
theorem Word.eq_of_content? {word : Word} {content : String}
    (h : word.content? = some content) : word = .call content ∨ word = .text content := by
  cases word with
  | call name => exact .inl (congrArg _ (Option.some.inj h))
  | text content => exact .inr (congrArg _ (Option.some.inj h))
  | lineBreak => cases h
  | indent width => cases h

namespace State

/-- A state, a token that can be read in it, and the state behind the token. -/
inductive Reads (limit : Nat) (state : State) : Token → State → Prop where
  /-- Behind text, calls and texts continue the text. -/
  | continued {token : Token} {content : String} {top grown : Frame} {below : List Frame}
      (hphase : state.phase = .text) (hcontent : token.word.content? = some content)
      (hframes : state.frames = top :: below) (hgrown : top.continueText? content = some grown) :
      Reads limit state token { state with frames := grown :: below }
  /-- At the start of a line a call is an outermost one. -/
  | openedRoot {name : String} {place : Position}
      (hphase : state.phase = .lineStart ∨ state.phase = .blockStart) :
      Reads limit state ⟨.call name, place⟩ ((state.openRoot name place).goto .call)
  /-- Behind a call or an indent a call is an argument of the innermost open one. -/
  | openedChild {name : String} {place : Position} {column : Column} {top : Frame}
      {below : List Frame} (hframes : state.frames = top :: below)
      (hroom : state.frames.length < limit)
      (hcolumn : state.phase = .call ∧ column = top.column ∨
        (state.phase = .indented ∨ state.phase = .blockIndented) ∧ column = top.block) :
      Reads limit state ⟨.call name, place⟩
        { state with phase := .call, frames := .opened name place column :: top :: below }
  /-- Blank text behind a call is dropped. -/
  | dropped {content : String} {place : Position} (hphase : state.phase = .call)
      (hblank : Text.isBlankText content = true) :
      Reads limit state ⟨.text content, place⟩ (state.report .blankArgument place)
  /-- Any other text behind a call, and text behind an indent, is an argument. -/
  | added {content : String} {place : Position} {phase : Phase} {top : Frame}
      {below : List Frame} (hframes : state.frames = top :: below)
      (hphase : state.phase = .call ∧ phase = .call ∧ Text.isBlankText content = false ∨
        (state.phase = .indented ∨ state.phase = .blockIndented) ∧ phase = .text) :
      Reads limit state ⟨.text content, place⟩
        { state with phase, frames := top.push (.text content) :: below }
  /-- An indent that begins no block leads back to one. -/
  | settled {width : Nat} {place : Position} {top : Frame} {below frames : List Frame}
      (hframes : state.frames = top :: below)
      (hphase : state.phase = .lineStart ∨
        state.phase = .blockStart ∧ ¬ top.column < .ofWidth width)
      (hsettle : top.settle? (.ofWidth width) below = some frames) :
      Reads limit state ⟨.indent width, place⟩ { state with phase := .indented, frames }
  /-- An indent to the right of the call above begins its block. -/
  | begun {width : Nat} {place : Position} {top : Frame} {below : List Frame}
      (hframes : state.frames = top :: below) (hphase : state.phase = .blockStart)
      (hright : top.column < .ofWidth width) :
      Reads limit state ⟨.indent width, place⟩
        { state with
          phase := .blockIndented
          frames := { top with block := .ofWidth width } :: below }
  /-- A line with text or a call ends. -/
  | ended {place : Position} {phase : Phase}
      (hphase : state.phase = .text ∧ phase = .lineStart ∨
        state.phase = .call ∧ phase = .blockStart) :
      Reads limit state ⟨.lineBreak, place⟩ (state.goto phase)
  /-- A line ends behind its indent. -/
  | skippedIndent {place : Position} (hphase : state.phase = .indented) :
      Reads limit state ⟨.lineBreak, place⟩ ((state.report .indentOnlyLine place).goto .lineStart)
  /-- A line ends behind an indent that was to begin a block. -/
  | cancelled {place : Position} {top : Frame} {below : List Frame}
      (hframes : state.frames = top :: below) (hphase : state.phase = .blockIndented) :
      Reads limit state ⟨.lineBreak, place⟩
        { state.report .cancelledBlock place with
          phase := .blockStart
          frames := { top with block := .beyond } :: below }
  /-- A line ends at once. -/
  | skippedLine {place : Position}
      (hphase : state.phase = .lineStart ∨ state.phase = .blockStart) :
      Reads limit state ⟨.lineBreak, place⟩ (state.report .emptyLine place)

/-! ### The operations, when they succeed -/

/-- If a text is continued, the innermost call ends in one. -/
theorem continueText_eq_ok {state next : State} {place : Position} {content : String}
    (h : state.continueText place content = .ok next) :
    ∃ top below grown, state.frames = top :: below ∧ top.continueText? content = some grown ∧
      next = { state with frames := grown :: below } := by
  unfold continueText at h
  split at h
  · cases h
  · next top below hframes =>
    split at h
    · next grown hgrown => exact ⟨top, below, grown, hframes, hgrown, (Except.ok.inj h).symm⟩
    · cases h

/-- If an argument is added, it is added to the innermost open call. -/
theorem addArgument_eq_ok {state next : State} {place : Position} {item : Item}
    (h : state.addArgument place item = .ok next) :
    ∃ top below, state.frames = top :: below ∧
      next = { state with frames := top.push item :: below } := by
  unfold addArgument updateTop at h
  split at h
  · cases h
  · next top below hframes => exact ⟨top, below, hframes, (Except.ok.inj h).symm⟩

/-- If a call opens inside another one, there was room for it. -/
theorem openChild_eq_ok {limit : Nat} {state next : State} {name : String} {place : Position}
    {column : Frame → Column} (h : state.openChild limit name place column = .ok next) :
    ∃ top below, state.frames = top :: below ∧ state.frames.length < limit ∧
      next = { state with frames := .opened name place (column top) :: top :: below } := by
  unfold openChild at h
  split at h
  · cases h
  · next top below hframes =>
    split at h
    · cases h
    · next hroom => exact ⟨top, below, hframes, by omega, (Except.ok.inj h).symm⟩

/-- If calls are closed for an indent, those left open begin with one whose block stands there. -/
theorem settle_eq_ok {state next : State} {width : Nat} {place : Position}
    (h : state.settle width place = .ok next) :
    ∃ top below frames, state.frames = top :: below ∧
      top.settle? (.ofWidth width) below = some frames ∧ next = { state with frames } := by
  unfold settle at h
  split at h
  · cases h
  · next top below hframes =>
    split at h
    · next frames hsettle => exact ⟨top, below, frames, hframes, hsettle, (Except.ok.inj h).symm⟩
    · cases h

/-- An operation with a change of phase succeeds when the operation does. -/
theorem map_goto_eq_ok {result : Except Fault State} {phase : Phase} {next : State}
    (h : result.map (·.goto phase) = .ok next) :
    ∃ between, result = .ok between ∧ next = between.goto phase := by
  cases result with
  | error fault => cases h
  | ok between => exact ⟨between, rfl, (Except.ok.inj h).symm⟩

/-! ### Every successful reading is listed -/

variable {limit : Nat} {state next : State} {place : Position}

/-- A call opens outermost or inside another one, or its name continues a text. -/
theorem reads_call {name : String} (h : state.feed limit ⟨.call name, place⟩ = .ok next) :
    Reads limit state ⟨.call name, place⟩ next := by
  cases hphase : state.phase with
  | lineStart | blockStart =>
    rw [feed_call_start (by simp [hphase])] at h
    obtain rfl := Except.ok.inj h
    exact .openedRoot (by simp [hphase])
  | indented | blockIndented =>
    rw [feed_call_indented (by simp [hphase])] at h
    obtain ⟨between, hopen, rfl⟩ := map_goto_eq_ok h
    obtain ⟨top, below, hframes, hroom, rfl⟩ := openChild_eq_ok hopen
    exact .openedChild hframes hroom (.inr ⟨by simp [hphase], rfl⟩)
  | text =>
    rw [feed_call_text hphase] at h
    obtain ⟨top, below, grown, hframes, hgrown, rfl⟩ := continueText_eq_ok h
    exact .continued hphase rfl hframes hgrown
  | call =>
    rw [feed_call_call hphase] at h
    obtain ⟨top, below, hframes, hroom, rfl⟩ := openChild_eq_ok h
    rw [hphase]
    exact .openedChild hframes hroom (.inl ⟨hphase, rfl⟩)

/-- A text continues another one, or it is an argument, or it is dropped because it is blank. -/
theorem reads_text {content : String} (h : state.feed limit ⟨.text content, place⟩ = .ok next) :
    Reads limit state ⟨.text content, place⟩ next := by
  cases hphase : state.phase with
  | lineStart | blockStart =>
    rw [feed_text_start (by simp [hphase])] at h
    cases h
  | indented | blockIndented =>
    rw [feed_text_indented (by simp [hphase])] at h
    obtain ⟨between, hadd, rfl⟩ := map_goto_eq_ok h
    obtain ⟨top, below, hframes, rfl⟩ := addArgument_eq_ok hadd
    exact .added hframes (.inr ⟨by simp [hphase], rfl⟩)
  | text =>
    rw [feed_text_text hphase] at h
    obtain ⟨top, below, grown, hframes, hgrown, rfl⟩ := continueText_eq_ok h
    exact .continued hphase rfl hframes hgrown
  | call =>
    rw [feed_text_call hphase] at h
    split at h
    · next hblank =>
      obtain rfl := Except.ok.inj h
      exact .dropped hphase hblank
    · next hblank =>
      obtain ⟨top, below, hframes, rfl⟩ := addArgument_eq_ok h
      exact .added hframes (.inl ⟨hphase, hphase, by simpa using hblank⟩)

/-- An indent begins a block or closes calls. -/
theorem reads_indent {width : Nat} (h : state.feed limit ⟨.indent width, place⟩ = .ok next) :
    Reads limit state ⟨.indent width, place⟩ next := by
  cases hphase : state.phase with
  | lineStart =>
    rw [feed_indent_lineStart hphase] at h
    obtain ⟨between, hbetween, rfl⟩ := map_goto_eq_ok h
    obtain ⟨top, below, frames, hframes, hsettle, rfl⟩ := settle_eq_ok hbetween
    exact .settled hframes (.inl hphase) hsettle
  | blockStart =>
    cases hframes : state.frames with
    | nil => simp [feed, offer, offerIndent, hphase, hframes] at h
    | cons top below =>
      rw [feed_indent_blockStart hphase hframes] at h
      split at h
      · next hright =>
        obtain rfl := Except.ok.inj h
        exact .begun hframes hphase hright
      · next hright =>
        obtain ⟨between, hbetween, rfl⟩ := map_goto_eq_ok h
        obtain ⟨top', below', frames, hframes', hsettle, rfl⟩ := settle_eq_ok hbetween
        obtain ⟨rfl, rfl⟩ := List.cons.inj (hframes.symm.trans hframes')
        exact .settled hframes (.inr ⟨hphase, hright⟩) hsettle
  | indented | blockIndented | text | call =>
    obtain ⟨fault, hfault⟩ : ∃ fault, state.feed limit ⟨.indent width, place⟩ = .error fault :=
      feed_indent_inside (by simp [hphase]) width
    rw [hfault] at h
    cases h

/-- A line break ends a line that holds something, one that holds only an indent, or an empty one.
-/
theorem reads_lineBreak (h : state.feed limit ⟨.lineBreak, place⟩ = .ok next) :
    Reads limit state ⟨.lineBreak, place⟩ next := by
  cases hphase : state.phase with
  | lineStart | blockStart =>
    rw [feed_break_start (by simp [hphase])] at h
    obtain rfl := Except.ok.inj h
    exact .skippedLine (by simp [hphase])
  | indented =>
    rw [feed_break_indented hphase] at h
    obtain rfl := Except.ok.inj h
    exact .skippedIndent hphase
  | blockIndented =>
    cases hframes : state.frames with
    | nil => simp [feed, offer, offerLineBreak, hphase, hframes, report, updateTop, Except.map] at h
    | cons top below =>
      rw [feed_break_blockIndented hphase hframes] at h
      obtain rfl := Except.ok.inj h
      exact .cancelled hframes hphase
  | text =>
    rw [feed_break_text hphase] at h
    obtain rfl := Except.ok.inj h
    exact .ended (.inl ⟨hphase, rfl⟩)
  | call =>
    rw [feed_break_call hphase] at h
    obtain rfl := Except.ok.inj h
    exact .ended (.inr ⟨hphase, rfl⟩)

/-- Whatever token is read, it is read in one of the listed ways. -/
theorem reads_of_feed {token : Token} (h : state.feed limit token = .ok next) :
    Reads limit state token next := by
  obtain ⟨word, place⟩ := token
  cases word with
  | call name => exact reads_call h
  | lineBreak => exact reads_lineBreak h
  | indent width => exact reads_indent h
  | text content => exact reads_text h

/-! ### Every listed reading happens -/

/-- A text is continued if the innermost call ends in one. -/
theorem continueText_of_grown {content : String} {top grown : Frame} {below : List Frame}
    (hframes : state.frames = top :: below) (hgrown : top.continueText? content = some grown)
    (place : Position) :
    state.continueText place content = .ok { state with frames := grown :: below } := by
  simp only [continueText, hframes, hgrown]

/-- An argument is added if any call is open. -/
theorem addArgument_of_frames {top : Frame} {below : List Frame}
    (hframes : state.frames = top :: below) (place : Position) (item : Item) :
    state.addArgument place item = .ok { state with frames := top.push item :: below } := by
  simp only [addArgument, updateTop, hframes]

/-- Calls are closed for an indent if one of those that are open has its block there. -/
theorem settle_of_settle? {top : Frame} {below frames : List Frame} {width : Nat}
    (hframes : state.frames = top :: below)
    (hsettle : top.settle? (.ofWidth width) below = some frames) (place : Position) :
    state.settle width place = .ok { state with frames } := by
  simp only [settle, hframes, hsettle]

/-- A token is read in each of the listed ways. -/
theorem feed_of_reads {token : Token} (h : Reads limit state token next) :
    state.feed limit token = .ok next := by
  cases h with
  | @continued token content top grown below hphase hcontent hframes hgrown =>
    obtain ⟨word, place⟩ := token
    have htaken := continueText_of_grown hframes hgrown place
    rcases (Word.eq_of_content? hcontent : word = _ ∨ word = _) with rfl | rfl
    · rw [feed_call_text hphase, htaken]
    · rw [feed_text_text hphase, htaken]
  | openedRoot hphase => exact feed_call_start hphase _
  | openedChild hframes hroom hcolumn =>
    rcases hcolumn with ⟨hphase, rfl⟩ | ⟨hphase, rfl⟩
    · rw [feed_call_call hphase, openChild_of_lt hframes hroom, hphase]
    · rw [feed_call_indented hphase, openChild_of_lt hframes hroom]
      rfl
  | dropped hphase hblank => rw [feed_text_call hphase, if_pos hblank]
  | added hframes hphase =>
    rcases hphase with ⟨hphase, rfl, hblank⟩ | ⟨hphase, rfl⟩
    · rw [feed_text_call hphase, if_neg (by simp [hblank]), addArgument_of_frames hframes, hphase]
    · rw [feed_text_indented hphase, addArgument_of_frames hframes]
      rfl
  | settled hframes hphase hsettle =>
    rcases hphase with hphase | ⟨hphase, hleft⟩
    · rw [feed_indent_lineStart hphase, settle_of_settle? hframes hsettle]
      rfl
    · rw [feed_indent_blockStart hphase hframes, if_neg hleft, settle_of_settle? hframes hsettle]
      rfl
  | begun hframes hphase hright => rw [feed_indent_blockStart hphase hframes, if_pos hright]
  | ended hphase =>
    rcases hphase with ⟨hphase, rfl⟩ | ⟨hphase, rfl⟩
    · exact feed_break_text hphase
    · exact feed_break_call hphase
  | skippedIndent hphase => exact feed_break_indented hphase
  | cancelled hframes hphase => exact feed_break_blockIndented hphase hframes
  | skippedLine hphase => exact feed_break_start hphase

/-! ### Runs -/

/-- One token of a run, with the states before and behind it. -/
structure Reading where
  /-- The state in which the token arrives. -/
  before : State
  /-- The token. -/
  token : Token
  /-- The state that it leads to. -/
  after : State

/-- The readings of a run, as far as its tokens can be read. -/
def readings (limit : Nat) (state : State) : List Token → List Reading
  | [] => []
  | token :: rest =>
    match state.feed limit token with
    | .error _ => []
    | .ok next => ⟨state, token, next⟩ :: readings limit next rest

/-- Behind a token that can be read a run goes on. -/
theorem run_cons_of_ok {token : Token} (h : state.feed limit token = .ok next)
    (rest : List Token) : state.run limit (token :: rest) = next.run limit rest := by
  rw [run, h]

/-- At a token that cannot be read a run ends, in the state before it. -/
theorem run_cons_of_error {token : Token} {fault : Fault}
    (h : state.feed limit token = .error fault) (rest : List Token) :
    state.run limit (token :: rest) = (some fault, state) := by
  rw [run, h]

/-- The reading of the first token comes first. -/
theorem readings_cons_of_ok {token : Token} (h : state.feed limit token = .ok next)
    (rest : List Token) :
    state.readings limit (token :: rest) = ⟨state, token, next⟩ :: next.readings limit rest := by
  rw [readings, h]

/-- A run to the end reads its first token and then the others. -/
theorem exists_feed_of_run {token : Token} {rest : List Token} {last : State}
    (h : state.run limit (token :: rest) = (none, last)) :
    ∃ next, state.feed limit token = .ok next ∧ next.run limit rest = (none, last) := by
  cases hfeed : state.feed limit token with
  | error fault =>
    rw [run_cons_of_error hfeed] at h
    cases h
  | ok next => exact ⟨next, rfl, by rwa [run_cons_of_ok hfeed] at h⟩

/-- Tokens behind others are read where those lead to. -/
theorem run_append {state between : State} {front : List Token}
    (h : state.run limit front = (none, between)) (back : List Token) :
    state.run limit (front ++ back) = between.run limit back := by
  induction front generalizing state with
  | nil =>
    obtain rfl : state = between := congrArg Prod.snd h
    rfl
  | cons token rest ih =>
    obtain ⟨next, hfeed, hrest⟩ := exists_feed_of_run h
    rw [List.cons_append, run_cons_of_ok hfeed, ih hrest]

/-- Tokens behind a fault are not read. -/
theorem run_append_of_error {state last : State} {front : List Token} {fault : Fault}
    (h : state.run limit front = (some fault, last)) (back : List Token) :
    state.run limit (front ++ back) = (some fault, last) := by
  induction front generalizing state with
  | nil => cases h
  | cons token rest ih =>
    cases hfeed : state.feed limit token with
    | error fault' =>
      rw [run_cons_of_error hfeed] at h
      rw [List.cons_append, run_cons_of_error hfeed, h]
    | ok next =>
      rw [run_cons_of_ok hfeed] at h
      rw [List.cons_append, run_cons_of_ok hfeed, ih h]

/-- A run to the end passes by any place between its tokens. -/
theorem exists_run_of_append {state last : State} {front back : List Token}
    (h : state.run limit (front ++ back) = (none, last)) :
    ∃ between, state.run limit front = (none, between) ∧ between.run limit back = (none, last) := by
  induction front generalizing state with
  | nil => exact ⟨state, rfl, h⟩
  | cons token front ih =>
    obtain ⟨next, hfeed, hrest⟩ := exists_feed_of_run h
    obtain ⟨between, hfront, hback⟩ := ih hrest
    exact ⟨between, by rw [run_cons_of_ok hfeed, hfront], hback⟩

/-- A run to the end reads every token. -/
theorem map_token_readings {tokens : List Token} {last : State}
    (h : state.run limit tokens = (none, last)) :
    (state.readings limit tokens).map Reading.token = tokens := by
  induction tokens generalizing state with
  | nil => rfl
  | cons token rest ih =>
    obtain ⟨next, hfeed, hrest⟩ := exists_feed_of_run h
    rw [readings_cons_of_ok hfeed, List.map_cons, ih hrest]

/-- The readings of tokens behind others are those behind where the others lead to. -/
theorem readings_append {between : State} {front : List Token}
    (h : state.run limit front = (none, between)) (back : List Token) :
    state.readings limit (front ++ back) =
      state.readings limit front ++ between.readings limit back := by
  induction front generalizing state with
  | nil =>
    obtain rfl : state = between := congrArg Prod.snd h
    rfl
  | cons token rest ih =>
    obtain ⟨next, hfeed, hrest⟩ := exists_feed_of_run h
    rw [List.cons_append, readings_cons_of_ok hfeed, readings_cons_of_ok hfeed, ih hrest,
      List.cons_append]

/-- What every reading appends to a list, a run to the end appends in order. -/
theorem append_of_run {α : Type} (view : State → List α) (added : Reading → List α)
    (hstep : ∀ {state token next}, Reads limit state token next →
      view next = view state ++ added ⟨state, token, next⟩)
    {tokens : List Token} {last : State} (h : state.run limit tokens = (none, last)) :
    view last = view state ++ (state.readings limit tokens).flatMap added := by
  induction tokens generalizing state with
  | nil =>
    obtain rfl : state = last := congrArg Prod.snd h
    simp [readings]
  | cons token rest ih =>
    obtain ⟨next, hfeed, hrest⟩ := exists_feed_of_run h
    rw [ih hrest, hstep (reads_of_feed hfeed), readings_cons_of_ok hfeed, List.flatMap_cons,
      List.append_assoc]

/-- What every reading keeps, a run keeps as far as it comes. -/
theorem of_run {motive : State → Prop} {tokens : List Token}
    (hstep : ∀ {state token next}, token ∈ tokens → Reads limit state token next →
      motive state → motive next) (hstart : motive state) : motive (state.run limit tokens).2 := by
  induction tokens generalizing state with
  | nil => exact hstart
  | cons token rest ih =>
    cases hfeed : state.feed limit token with
    | error fault =>
      rw [run_cons_of_error hfeed]
      exact hstart
    | ok next =>
      rw [run_cons_of_ok hfeed]
      exact ih (fun hmem => hstep (List.mem_cons_of_mem token hmem))
        (hstep List.mem_cons_self (reads_of_feed hfeed) hstart)

end State

/-- A token list that can be read to the end is parsed into the forest at its end. -/
theorem Parser.outcome_of_run {parser : Parser} {tokens : List Token} {last : State}
    (h : State.initial.run parser.limit tokens = (none, last)) :
    (parser.parse tokens).outcome = .ok last.forest := by
  simp only [Parser.parse, Parser.state_reset, h]

/-- A token list that cannot be read is at fault where reading stops. -/
theorem Parser.outcome_of_run_error {parser : Parser} {tokens : List Token} {fault : Fault}
    {last : State} (h : State.initial.run parser.limit tokens = (some fault, last)) :
    (parser.parse tokens).outcome = .error fault := by
  simp only [Parser.parse, Parser.state_reset, h]

/-- What is parsed was read to the end. -/
theorem Parser.exists_run_of_outcome {parser : Parser} {tokens : List Token} {roots : List Call}
    (h : (parser.parse tokens).outcome = .ok roots) :
    ∃ last, State.initial.run parser.limit tokens = (none, last) ∧ last.forest = roots := by
  rcases hrun : State.initial.run parser.limit tokens with ⟨_ | fault, last⟩
  · exact ⟨last, rfl, Except.ok.inj ((outcome_of_run hrun).symm.trans h)⟩
  · rw [outcome_of_run_error hrun] at h
    cases h

end Offside
