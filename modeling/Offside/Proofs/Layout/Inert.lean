import Offside.Proofs.Layout.Closing
import Offside.Proofs.Layout.Stack

/-!
# Remarks point at what does not matter

Tokens that were remarked on can be left out of a list without a change to its forest. While
both lists are read the reader of the shorter list may fall behind: an indent on a line of
its own has closed calls for the one reader that are still open for the other. The next
indent, the next outermost call or the end of the list closes them for both.
-/

namespace Offside

/-! ### Leaving tokens out -/

namespace State

namespace Reading

/-- The token was remarked on as being odd in the given way. -/
def raises (reading : Reading) (oddity : Oddity) : Bool :=
  reading.after.remarks = ⟨oddity, reading.token.position⟩ :: reading.before.remarks

/-- A line break that was remarked on because only an indent stands before it in its line. -/
def endsIndent (reading : Reading) : Bool :=
  match reading.token.word with
  | .lineBreak => reading.raises .indentOnlyLine || reading.raises .cancelledBlock
  | _ => false

/-- A blank text, or the break of a line that is empty or holds only an indent, that was
remarked on. -/
def isReported (reading : Reading) : Bool :=
  match reading.token.word with
  | .text _ => reading.raises .blankArgument
  | .lineBreak => reading.raises .emptyLine || reading.endsIndent
  | _ => false

/-- The token is an indent. -/
def isIndent (reading : Reading) : Bool :=
  match reading.token.word with
  | .indent _ => true
  | _ => false

/-- The tokens that were not remarked on. Where a line break was remarked on because only an
indent stands before it, that indent is left out as well. -/
def unreported : List Reading → List Token
  | [] => []
  | reading :: rest =>
    if reading.isReported || (reading.isIndent && rest.head?.any endsIndent) then unreported rest
    else reading.token :: unreported rest

/-- A token that was remarked on is left out. -/
theorem unreported_cons_of_isReported {reading : Reading} (h : reading.isReported = true)
    (rest : List Reading) : unreported (reading :: rest) = unreported rest := by
  rw [unreported, h]
  rfl

/-- A token that was not remarked on stays, unless it is the indent of a line with nothing else on
it. -/
theorem unreported_cons_of_not {reading : Reading} {rest : List Reading}
    (h : reading.isReported = false) (hrest : rest.head?.any endsIndent = false) :
    unreported (reading :: rest) = reading.token :: unreported rest := by
  simp [unreported, h, hrest]

/-- The break behind nothing but an indent is always remarked on. -/
theorem isReported_of_endsIndent {reading : Reading} (h : reading.endsIndent = true) :
    reading.isReported = true := by
  obtain ⟨before, ⟨word, place⟩, after⟩ := reading
  cases word with
  | lineBreak => exact Bool.or_eq_true_iff.mpr (.inr h)
  | call name => cases h
  | text content => cases h
  | indent width => cases h

/-- An indent is left out together with the line break that ends it. -/
theorem unreported_cons_cons {first second : Reading} (hfirst : first.isIndent = true)
    (hsecond : second.endsIndent = true) (rest : List Reading) :
    unreported (first :: second :: rest) = unreported rest := by
  rw [unreported, List.head?_cons, Option.any_some, hfirst, hsecond, Bool.and_self, Bool.or_true,
    if_pos rfl, unreported_cons_of_isReported (isReported_of_endsIndent hsecond)]

end Reading

/-! ### Two readers -/

/-- The reader of the whole list and the reader of what is left of it. -/
inductive Shadows (full bare : State) : Prop where
  /-- They are level with each other. -/
  | level (hphase : bare.phase = full.phase) (hframes : bare.frames = full.frames)
      (hclosed : bare.closed = full.closed) (hremarks : bare.remarks = [])
  /-- The one has closed calls for an indent that the other has not seen. The other would
  close the same calls for it. -/
  | behind {column : Column} {top : Frame} {below : List Frame}
      (hfull : full.phase = .lineStart) (hframes : bare.frames = top :: below)
      (hphase : bare.phase = .lineStart ∨ bare.phase = .blockStart ∧ ¬ top.column < column)
      (hsettle : top.settle? column below = some full.frames)
      (hclosed : bare.closed = full.closed) (hremarks : bare.remarks = [])

variable {full bare : State}

/-- Both readers have closed the same outermost calls. -/
theorem Shadows.closed_eq (h : Shadows full bare) : bare.closed = full.closed := by
  cases h <;> assumption

/-- The second reader has nothing to remark on. -/
theorem Shadows.remarks_eq (h : Shadows full bare) : bare.remarks = [] := by
  cases h <;> assumption

/-- Both readers come to the same once all that is open is closed. -/
theorem Shadows.closeAll_eq (h : Shadows full bare) : bare.closeAll = full.closeAll := by
  cases h with
  | level hphase hframes hclosed hremarks => simp only [closeAll, hframes, hclosed]
  | behind hfull hframes hphase hsettle hclosed hremarks =>
    obtain ⟨inner, outer, hinner, -, hassemble⟩ := Frame.assemble_of_settle? hsettle
    simp only [closeAll, hframes, hinner, hclosed, hassemble]

/-- At the start of a line neither reader is inside a line. -/
theorem Shadows.phase_start (h : Shadows full bare)
    (hphase : full.phase = .lineStart ∨ full.phase = .blockStart) :
    bare.phase = .lineStart ∨ bare.phase = .blockStart := by
  cases h with
  | level hsame hframes hclosed hremarks => rwa [hsame]
  | behind hfull hframes hstart hsettle hclosed hremarks => exact hstart.imp_right And.left

/-- Behind the start of a line the readers are level. -/
theorem Shadows.level_of_ne (h : Shadows full bare) (hphase : full.phase ≠ .lineStart) :
    bare.phase = full.phase ∧ bare.frames = full.frames := by
  cases h with
  | level hsame hframes hclosed hremarks => exact ⟨hsame, hframes⟩
  | behind hfull hframes hstart hsettle hclosed hremarks => exact absurd hfull hphase

/-- Where the one closes calls for an indent, the other closes what is still open of them. -/
theorem Shadows.settled (h : Shadows full bare) {column : Column} {top : Frame}
    {below frames : List Frame} (hframes : full.frames = top :: below)
    (hphase : full.phase = .lineStart ∨ full.phase = .blockStart ∧ ¬ top.column < column)
    (hsettle : top.settle? column below = some frames) :
    ∃ outer rest, bare.frames = outer :: rest ∧
      (bare.phase = .lineStart ∨ bare.phase = .blockStart ∧ ¬ outer.column < column) ∧
      outer.settle? column rest = some frames := by
  cases h with
  | level hsame hbare hclosed hremarks =>
    exact ⟨top, below, hbare.trans hframes, hsame ▸ hphase, hsettle⟩
  | @behind earlier outer rest hfull hbare hstart hearlier hclosed hremarks =>
    rw [hframes] at hearlier
    have hle : column ≤ earlier := by
      obtain ⟨_, _, hcons, hat, -⟩ := Frame.assemble_of_settle? hearlier
      cases hcons
      exact hat ▸ Frame.le_block_of_settle? hsettle
    have hclosing : outer.settle? column rest = some frames :=
      (Frame.settleStack?_settle? hearlier hle).symm.trans hsettle
    refine ⟨outer, rest, hbare, hstart.imp_right fun ⟨hblock, hleft⟩ => ⟨hblock, ?_⟩, hclosing⟩
    exact Column.not_lt.mpr (Column.le_trans hle (Column.not_lt.mp hleft))

variable {limit : Nat} {next : State} {token : Token}

/-- A token that is not remarked on is read by both. -/
theorem Shadows.reads (h : Shadows full bare) (hreads : Reads limit full token next)
    (hquiet : Reading.isReported ⟨full, token, next⟩ = false) :
    ∃ after, Reads limit bare token after ∧ Shadows next after := by
  have hclosed := h.closed_eq
  have hremarks := h.remarks_eq
  cases hreads with
  | continued hphase hcontent hframes hgrown =>
    obtain ⟨hsame, hbare⟩ := h.level_of_ne (by simp [hphase])
    exact ⟨_, .continued (hsame.trans hphase) hcontent (hbare.trans hframes) hgrown,
      .level hsame rfl hclosed hremarks⟩
  | openedRoot hphase =>
    exact ⟨_, .openedRoot (h.phase_start hphase), .level rfl rfl h.closeAll_eq hremarks⟩
  | openedChild hframes hroom hcolumn =>
    have hne : full.phase ≠ .lineStart := by
      rcases hcolumn with ⟨hphase, -⟩ | ⟨hphase | hphase, -⟩ <;> simp [hphase]
    obtain ⟨hsame, hbare⟩ := h.level_of_ne hne
    exact ⟨_, .openedChild (hbare.trans hframes) (hbare ▸ hroom) (hsame ▸ hcolumn),
      .level rfl rfl hclosed hremarks⟩
  | dropped hphase hblank => simp [Reading.isReported, Reading.raises, report] at hquiet
  | added hframes hphase =>
    have hne : full.phase ≠ .lineStart := by
      rcases hphase with ⟨hphase, -⟩ | ⟨hphase | hphase, -⟩ <;> simp [hphase]
    obtain ⟨hsame, hbare⟩ := h.level_of_ne hne
    exact ⟨_, .added (hbare.trans hframes) (hsame ▸ hphase), .level rfl rfl hclosed hremarks⟩
  | settled hframes hphase hsettle =>
    obtain ⟨outer, rest, hbare, hstart, hclosing⟩ := h.settled hframes hphase hsettle
    exact ⟨_, .settled hbare hstart hclosing, .level rfl rfl hclosed hremarks⟩
  | begun hframes hphase hright =>
    obtain ⟨hsame, hbare⟩ := h.level_of_ne (by simp [hphase])
    exact ⟨_, .begun (hbare.trans hframes) (hsame.trans hphase) hright,
      .level rfl rfl hclosed hremarks⟩
  | ended hphase =>
    have hne : full.phase ≠ .lineStart := by
      rcases hphase with ⟨hphase, -⟩ | ⟨hphase, -⟩ <;> simp [hphase]
    obtain ⟨hsame, hbare⟩ := h.level_of_ne hne
    exact ⟨_, .ended (hsame ▸ hphase), .level rfl hbare hclosed hremarks⟩
  | skippedIndent hphase =>
    simp [Reading.isReported, Reading.endsIndent, Reading.raises, report, goto] at hquiet
  | cancelled hframes hphase =>
    simp [Reading.isReported, Reading.endsIndent, Reading.raises, report] at hquiet
  | skippedLine hphase => simp [Reading.isReported, Reading.raises, report] at hquiet

/-- A blank text and an empty line change nothing for the one, and the other does without. -/
theorem Shadows.skip (h : Shadows full bare) (hreads : Reads limit full token next)
    (hreported : Reading.isReported ⟨full, token, next⟩ = true)
    (hends : Reading.endsIndent ⟨full, token, next⟩ = false) : Shadows next bare := by
  have hsame (oddity : Oddity) (place : Position) : Shadows (full.report oddity place) bare := by
    cases h with
    | level hphase hframes hclosed hremarks => exact .level hphase hframes hclosed hremarks
    | behind hfull hframes hphase hsettle hclosed hremarks =>
      exact .behind hfull hframes hphase hsettle hclosed hremarks
  cases hreads with
  | continued hphase hcontent hframes hgrown =>
    rcases Word.eq_of_content? hcontent with hword | hword <;>
      simp [Reading.isReported, Reading.raises, hword] at hreported
  | openedRoot hphase => simp [Reading.isReported] at hreported
  | openedChild hframes hroom hcolumn => simp [Reading.isReported] at hreported
  | dropped hphase hblank => exact hsame _ _
  | added hframes hphase => simp [Reading.isReported, Reading.raises] at hreported
  | settled hframes hphase hsettle => simp [Reading.isReported] at hreported
  | begun hframes hphase hright => simp [Reading.isReported] at hreported
  | ended hphase =>
    simp [Reading.isReported, Reading.endsIndent, Reading.raises, goto] at hreported
  | skippedIndent hphase => simp [Reading.endsIndent, Reading.raises, report, goto] at hends
  | cancelled hframes hphase => simp [Reading.endsIndent, Reading.raises, report] at hends
  | skippedLine hphase => exact hsame _ _

/-- An indent that continues a block was settled. -/
theorem exists_settle_of_phase (h : Reads limit full token next)
    (hphase : next.phase = .indented) :
    ∃ width place top below frames, token = ⟨.indent width, place⟩ ∧
      full.frames = top :: below ∧
      (full.phase = .lineStart ∨ full.phase = .blockStart ∧ ¬ top.column < .ofWidth width) ∧
      top.settle? (.ofWidth width) below = some frames ∧
      next = { full with phase := .indented, frames } := by
  cases h with
  | settled hframes hstart hsettle => exact ⟨_, _, _, _, _, rfl, hframes, hstart, hsettle, rfl⟩
  | _ => simp_all [report, goto]

/-- An indent that may begin a block stands below a call. -/
theorem exists_block_of_phase (h : Reads limit full token next)
    (hphase : next.phase = .blockIndented) :
    ∃ width place top below, token = ⟨.indent width, place⟩ ∧
      full.frames = top :: below ∧ full.phase = .blockStart ∧
      next = { full with
        phase := .blockIndented
        frames := { top with block := .ofWidth width } :: below } := by
  cases h with
  | begun hframes hstart hright => exact ⟨_, _, _, _, rfl, hframes, hstart, rfl⟩
  | _ => simp_all [report, goto]

/-- An indent that a line break ends changes nothing that lasts: calls that it closed are
those that the other reader closes later, and a block that it began is none. -/
theorem Shadows.skipIndent {between : State} {other : Token} (h : Shadows full bare)
    (hawaits : full.AwaitsBlock) (hfirst : Reads limit full token between)
    (hsecond : Reads limit between other next)
    (hends : Reading.endsIndent ⟨between, other, next⟩ = true) :
    Reading.isIndent ⟨full, token, between⟩ = true ∧ Shadows next bare ∧
      (next.phase = .lineStart ∨ next.phase = .blockStart) := by
  have hclosed := h.closed_eq
  have hremarks := h.remarks_eq
  cases hsecond with
  | continued hphase hcontent hframes hgrown =>
    rcases Word.eq_of_content? hcontent with hword | hword <;>
      simp [Reading.endsIndent, hword] at hends
  | skippedIndent hphase =>
    obtain ⟨width, place, top, below, frames, rfl, hframes, hstart, hsettle, rfl⟩ :=
      exists_settle_of_phase hfirst hphase
    obtain ⟨outer, rest, hbare, hbehind, hclosing⟩ := h.settled hframes hstart hsettle
    exact ⟨rfl, .behind rfl hbare hbehind hclosing hclosed hremarks, .inl rfl⟩
  | cancelled hinside hphase =>
    obtain ⟨width, place, top, below, rfl, hframes, hstart, rfl⟩ :=
      exists_block_of_phase hfirst hphase
    obtain ⟨hsame, hbare⟩ := h.level_of_ne (by simp [hstart])
    obtain ⟨rfl, rfl⟩ := List.cons.inj hinside
    refine ⟨rfl, .level (hsame.trans hstart) (hbare.trans (hframes.trans ?_)) hclosed hremarks,
      .inr rfl⟩
    -- the call had no block before the indent
    have hblock : top.block = .beyond := hawaits (.inr hstart) top below hframes
    rw [← hblock]
  | _ => simp [Reading.endsIndent, Reading.raises, report, goto] at hends

/-- At the start of a line no indent can be ended. -/
theorem head_readings_start (hphase : full.phase = .lineStart ∨ full.phase = .blockStart)
    (tokens : List Token) :
    (full.readings limit tokens).head?.any Reading.endsIndent = false := by
  cases tokens with
  | nil => rfl
  | cons token rest =>
    cases hfeed : full.feed limit token with
    | error fault =>
      rw [readings, hfeed]
      rfl
    | ok next =>
      rw [readings_cons_of_ok hfeed, List.head?_cons, Option.any_some]
      cases reads_of_feed hfeed with
      | continued htext hcontent hframes hgrown =>
        simp [htext] at hphase
      | skippedIndent hinside => simp [hinside] at hphase
      | cancelled hframes hinside => simp [hinside] at hphase
      | _ => simp [Reading.endsIndent, Reading.raises, report, goto]

/-- The reader of what is left shadows the reader of the whole list to the end. -/
theorem Shadows.run {tokens : List Token} {last : State} (h : Shadows full bare)
    (hawaits : full.AwaitsBlock)
    (hhead : (full.readings limit tokens).head?.any Reading.endsIndent = false)
    (hrun : full.run limit tokens = (none, last)) :
    ∃ final, bare.run limit (Reading.unreported (full.readings limit tokens)) = (none, final) ∧
      Shadows last final := by
  -- an indent that is left out goes together with the token behind it, so the induction is
  -- on the length
  induction hlength : tokens.length using Nat.strongRecOn generalizing tokens full bare with
  | _ length ih =>
    cases tokens with
    | nil =>
      obtain rfl : full = last := congrArg Prod.snd hrun
      exact ⟨bare, rfl, h⟩
    | cons token rest =>
      rw [List.length_cons] at hlength
      obtain ⟨next, hfeed, hrest⟩ := exists_feed_of_run hrun
      have hreads := reads_of_feed hfeed
      have hnext := awaitsBlock_of_reads hreads hawaits
      rw [readings_cons_of_ok hfeed] at hhead ⊢
      cases hpair : (next.readings limit rest).head?.any Reading.endsIndent with
      | true =>
        cases rest with
        | nil => cases hpair
        | cons other later =>
          rw [List.length_cons] at hlength
          obtain ⟨after, hother, hlater⟩ := exists_feed_of_run hrest
          rw [readings_cons_of_ok hother] at hpair ⊢
          obtain ⟨hindent, hafter, hstart⟩ :=
            h.skipIndent hawaits hreads (reads_of_feed hother) hpair
          rw [Reading.unreported_cons_cons hindent hpair]
          have hlast := awaitsBlock_of_reads (reads_of_feed hother) hnext
          exact ih later.length (by omega) hafter hlast (head_readings_start hstart later)
            hlater rfl
      | false =>
        cases hreported : Reading.isReported ⟨full, token, next⟩ with
        | true =>
          rw [Reading.unreported_cons_of_isReported hreported]
          exact ih rest.length (by omega) (h.skip hreads hreported hhead) hnext hpair hrest rfl
        | false =>
          obtain ⟨after, hbare, hafter⟩ := h.reads hreads hreported
          rw [Reading.unreported_cons_of_not hreported hpair, run_cons_of_ok (feed_of_reads hbare)]
          exact ih rest.length (by omega) hafter hnext hpair hrest rfl

end State

/-! ### Parsing -/

/-- What was remarked on can be left out. If a token list can be parsed, so can the list
without the blank texts behind calls, without the empty lines and without the lines of mere
indent that were remarked on, under the same limit. It is parsed into the same forest, and
nothing is left to remark on. -/
theorem parse_unreported {parser : Parser} {tokens : List Token} {roots : List Call}
    (h : (parser.parse tokens).outcome = .ok roots) :
    let readings := State.initial.readings parser.limit tokens
    let bare := parser.parse (State.Reading.unreported readings)
    readings.map State.Reading.token = tokens ∧ bare.outcome = .ok roots ∧
      bare.parser.remarks = [] := by
  intro readings bare
  obtain ⟨last, hrun, rfl⟩ := Parser.exists_run_of_outcome h
  have hstart : State.Shadows .initial .initial := .level rfl rfl rfl rfl
  obtain ⟨final, hfinal, hshadows⟩ := hstart.run (by simp [State.AwaitsBlock, State.initial])
    (State.head_readings_start (.inl rfl) tokens) hrun
  refine ⟨State.map_token_readings hrun, ?_, ?_⟩
  · rw [Parser.outcome_of_run hfinal, State.forest, State.forest, hshadows.closeAll_eq]
  · have hremarks : bare.parser.remarks = final.remarks.reverse := by
      simp only [bare, Parser.parse, Parser.state_reset, readings, hfinal]
    rw [hremarks, hshadows.remarks_eq, List.reverse_nil]

/-- A blank text, an empty line, and two lines of mere indent, of which the second closes a
call before the next line does. -/
theorem parse_unreported_block :
    let tokens : List Token := [⟨.call "$$a", ⟨1, 1⟩⟩, ⟨.text "  ", ⟨1, 4⟩⟩, ⟨.lineBreak, ⟨1, 6⟩⟩,
      ⟨.lineBreak, ⟨2, 1⟩⟩, ⟨.indent 3, ⟨3, 1⟩⟩, ⟨.lineBreak, ⟨3, 4⟩⟩, ⟨.indent 2, ⟨4, 1⟩⟩,
      ⟨.call "$$b", ⟨4, 3⟩⟩, ⟨.lineBreak, ⟨4, 6⟩⟩, ⟨.indent 2, ⟨5, 1⟩⟩, ⟨.lineBreak, ⟨5, 3⟩⟩,
      ⟨.indent 2, ⟨6, 1⟩⟩, ⟨.text "x", ⟨6, 3⟩⟩]
    let bare : List Token := [⟨.call "$$a", ⟨1, 1⟩⟩, ⟨.lineBreak, ⟨1, 6⟩⟩, ⟨.indent 2, ⟨4, 1⟩⟩,
      ⟨.call "$$b", ⟨4, 3⟩⟩, ⟨.lineBreak, ⟨4, 6⟩⟩, ⟨.indent 2, ⟨6, 1⟩⟩, ⟨.text "x", ⟨6, 3⟩⟩]
    let roots : List Call := [⟨"$$a", ⟨1, 1⟩, [.call "$$b" ⟨4, 3⟩ [], .text "x"]⟩]
    (Parser.standard.parse tokens).outcome = .ok roots ∧
      (Parser.standard.parse tokens).parser.remarks.map Remark.oddity =
        [.blankArgument, .emptyLine, .cancelledBlock, .indentOnlyLine] ∧
      (Parser.standard.parse bare).outcome = .ok roots ∧
      (Parser.standard.parse bare).parser.remarks = [] := by
  intro tokens bare roots
  have houtcome : (Parser.standard.parse tokens).outcome = .ok roots := rfl
  have hbare : State.Reading.unreported (State.initial.readings Parser.standard.limit tokens) =
      bare := by decide
  obtain ⟨-, hsame, hnone⟩ := parse_unreported houtcome
  rw [hbare] at hsame hnone
  exact ⟨houtcome, rfl, hsame, hnone⟩

end Offside
