import Offside.Proofs.Layout.LineReading
import Offside.Proofs.Layout.OffsideRule

/-!
# The oddities of a text

The remarks on a text can be read off its lines. An empty line is odd, and so is a line of mere
blanks, unless it is the last one. Which remark such a line gets depends on the nearest line above
that counts: if that is a call further left, the line takes back the block that could begin below
the call. On a line that is a call blank texts are odd.
-/

namespace Offside

/-! ### The remarks that lines call for -/

namespace SourceLine

/-- Whether a line holds blanks and nothing else. -/
def isMereIndent (line : SourceLine) : Bool :=
  !line.content.isEmpty && line.content.all Text.isBlank

/-- Whether a line of mere blanks takes back the block of a call: the nearest line above that
counts is a call, and it is indented less. -/
def cancels (sigil : Char) (near : Option SourceLine) (line : SourceLine) : Bool :=
  line.isMereIndent &&
    near.any fun above => above.isCall sigil && decide (above.indent < line.indent)

/-- The nearest of the lines above that counts. The lines come latest first, and those that are
empty or take back a block do not count. -/
def nearest? (sigil : Char) : List SourceLine → Option SourceLine
  | [] => none
  | line :: above =>
    if line.content.isEmpty || line.cancels sigil (nearest? sigil above) then nearest? sigil above
    else some line

/-- The place of the break behind a line. -/
def stop (line : SourceLine) : Position := ⟨line.number, line.content.length + 1⟩

end SourceLine

/-- The remark that a token calls for on a line that is a call. -/
def Token.blankArgument? (token : Token) : Option Remark :=
  match token.word with
  | .text content =>
    if Text.isBlankText content then some ⟨.blankArgument, token.position⟩ else none
  | _ => none

namespace SourceLine

/-- The remarks that a line calls for, given the lines above it, latest first, and whether it
is broken. -/
def remarks (sigil : Char) (above : List SourceLine) (broken : Bool) (line : SourceLine) :
    List Remark :=
  if line.isCall sigil then (line.tokens sigil).filterMap Token.blankArgument?
  else if !broken then []
  else if line.content.isEmpty then [⟨.emptyLine, line.start⟩]
  else if line.isMereIndent then
    [⟨if line.cancels sigil (nearest? sigil above) then .cancelledBlock else .indentOnlyLine,
      line.stop⟩]
  else []

end SourceLine

/-- The remarks that lines below the given ones call for. The latter come latest first. -/
def remarksBelow (sigil : Char) (above : List SourceLine) : List Line → List Remark
  | [] => []
  | line :: later =>
    let source : SourceLine := ⟨above.length + 1, line.content⟩
    source.remarks sigil above line.ending.isSome ++ remarksBelow sigil (source :: above) later

/-- The remarks that a text calls for. -/
def remarksOn (sigil : Char) (text : String) : List Remark :=
  remarksBelow sigil [] (Line.ofChars text.toList)

/-! ### Between the lines -/

/-- An indent leads further right than another exactly if it is wider, as long as it leads to a
column of its own. -/
theorem Column.ofWidth_lt_ofWidth {width other : ℕ} (hfits : width < Text.greatestCount) :
    ofWidth other < ofWidth width ↔ other < width := by
  rw [ofWidth_of_lt hfits]
  rcases Nat.lt_or_ge other Text.greatestCount with hother | hother
  · rw [ofWidth_of_lt hother, number_lt_number]
  · rw [ofWidth, if_neg (Nat.not_lt_of_le hother)]
    refine iff_of_false (not_beyond_lt _) ?_
    omega

namespace State

variable {limit : ℕ} {sigil : Char} {above : List SourceLine} {state next last : State}
variable {line : SourceLine}

/-- At the start of a line the reader knows the nearest line above that counts, if it is a
call. -/
inductive Below (sigil : Char) (above : List SourceLine) (state : State) : Prop where
  /-- Below a call the block of that call may begin. -/
  | call {near : SourceLine} {top : Frame} {below : List Frame}
      (hnear : SourceLine.nearest? sigil above = some near) (hcall : near.isCall sigil = true)
      (hphase : state.phase = .blockStart) (hframes : state.frames = top :: below)
      (hcolumn : top.column = .ofWidth near.indent)
  /-- Elsewhere no block may begin. -/
  | other (hnone : ∀ near, SourceLine.nearest? sigil above = some near →
        near.isCall sigil = false)
      (hphase : state.phase = .lineStart)

/-- Below the nearest line that counts the reader is at the start of a line. -/
theorem Below.phase_start (h : Below sigil above state) :
    state.phase = .lineStart ∨ state.phase = .blockStart := by
  cases h with
  | call hnear hcall hphase hframes hcolumn => exact .inr hphase
  | other hnone hphase => exact .inl hphase

/-- Behind an indent its block is open. It has just begun if the nearest line above that counts
is a call further left. -/
inductive Entered (sigil : Char) (above : List SourceLine) (width : ℕ) (state : State) : Prop where
  | begun {near : SourceLine} {top : Frame} {below : List Frame}
      (hnear : SourceLine.nearest? sigil above = some near) (hcall : near.isCall sigil = true)
      (hleft : near.indent < width) (hphase : state.phase = .blockIndented)
      (hframes : state.frames = top :: below) (hblock : top.block = .ofWidth width)
      (hcolumn : top.column = .ofWidth near.indent)
  | settled {top : Frame} {below : List Frame}
      (hnone : ∀ near, SourceLine.nearest? sigil above = some near →
        near.isCall sigil = true → ¬ near.indent < width)
      (hphase : state.phase = .indented) (hframes : state.frames = top :: below)
      (hblock : top.block = .ofWidth width)

/-- An indent that can be read opens its block, without a remark. -/
theorem Below.entered {width : ℕ} {place : Position} (h : Below sigil above state)
    (hfits : width < Text.greatestCount)
    (hfeed : state.feed limit ⟨.indent width, place⟩ = .ok next) :
    Entered sigil above width next ∧ next.remarks = state.remarks := by
  cases reads_indent hfeed with
  | continued hphase hcontent hframes hgrown => cases hcontent
  | settled hframes hphase hsettle =>
    obtain ⟨inner, outer, rfl, hblock, -⟩ := Frame.assemble_of_settle? hsettle
    refine ⟨.settled ?_ rfl rfl hblock, rfl⟩
    intro near hnear hcall
    cases h with
    | call hnear' hcall' hstart hframes' hcolumn =>
      obtain rfl := Option.some.inj (hnear.symm.trans hnear')
      obtain ⟨rfl, -⟩ := List.cons.inj (hframes.symm.trans hframes')
      obtain ⟨-, hleft⟩ := hphase.resolve_left (by simp [hstart])
      rwa [hcolumn, Column.ofWidth_lt_ofWidth hfits] at hleft
    | other hnone hstart =>
      rw [hnone near hnear] at hcall
      cases hcall
  | begun hframes hphase hright =>
    cases h with
    | call hnear hcall hstart hframes' hcolumn =>
      obtain ⟨rfl, -⟩ := List.cons.inj (hframes.symm.trans hframes')
      rw [hcolumn, Column.ofWidth_lt_ofWidth hfits] at hright
      exact ⟨.begun hnear hcall hright rfl rfl rfl hcolumn, rfl⟩
    | other hnone hstart =>
      rw [hstart] at hphase
      cases hphase

/-- Whatever comes next, the block of the indent is that of the innermost call. -/
theorem Entered.exists_frames {width : ℕ} (h : Entered sigil above width state) :
    (state.phase = .indented ∨ state.phase = .blockIndented) ∧
      ∃ top below, state.frames = top :: below ∧ top.block = .ofWidth width := by
  cases h with
  | begun hnear hcall hleft hphase hframes hblock hcolumn =>
    exact ⟨.inr hphase, _, _, hframes, hblock⟩
  | settled hnone hphase hframes hblock => exact ⟨.inl hphase, _, _, hframes, hblock⟩

/-! ### Behind a call -/

/-- Behind a call of a line the reader stays in the column of that line. -/
def BehindCall (column : Column) (state : State) : Prop :=
  state.phase = .call ∧ ∃ top below, state.frames = top :: below ∧ top.column = column

/-- Behind a call a blank text is remarked on, and nothing else is. -/
theorem BehindCall.of_feed {column : Column} {token : Token} (h : BehindCall column state)
    (hspelled : token.word.content?.isSome) (hfeed : state.feed limit token = .ok next) :
    BehindCall column next ∧ next.remarks = token.blankArgument?.toList ++ state.remarks := by
  obtain ⟨hphase, top, below, hframes, hcolumn⟩ := h
  cases reads_of_feed hfeed with
  | continued htext hcontent hframes' hgrown => simp [hphase] at htext
  | openedRoot hstart => simp [hphase] at hstart
  | openedChild hframes' hroom hchild =>
    obtain ⟨rfl, -⟩ := List.cons.inj (hframes.symm.trans hframes')
    obtain ⟨-, rfl⟩ := hchild.resolve_right (by simp [hphase])
    exact ⟨⟨rfl, _, _, rfl, hcolumn⟩, rfl⟩
  | dropped hcall hblank =>
    refine ⟨⟨hphase, top, below, hframes, hcolumn⟩, ?_⟩
    simp [Token.blankArgument?, hblank, report]
  | added hframes' hadded =>
    obtain ⟨rfl, -⟩ := List.cons.inj (hframes.symm.trans hframes')
    obtain ⟨-, rfl, hblank⟩ := hadded.resolve_right (by simp [hphase])
    refine ⟨⟨rfl, _, _, rfl, hcolumn⟩, ?_⟩
    simp [Token.blankArgument?, hblank]
  | settled hframes' hphase' hsettle => cases hspelled
  | begun hframes' hphase' hright => cases hspelled
  | ended hphase' => cases hspelled
  | skippedIndent hphase' => cases hspelled
  | cancelled hframes' hphase' => cases hspelled
  | skippedLine hphase' => cases hspelled

/-- A call behind an indent stands in the column of the indent. -/
theorem Entered.of_call {width : ℕ} {name : String} {place : Position}
    (h : Entered sigil above width state)
    (hfeed : state.feed limit ⟨.call name, place⟩ = .ok next) :
    BehindCall (.ofWidth width) next ∧ next.remarks = state.remarks := by
  obtain ⟨hphase, top, below, hframes, hblock⟩ := h.exists_frames
  rw [feed_call_indented hphase] at hfeed
  obtain ⟨opened, hopen, rfl⟩ := map_goto_eq_ok hfeed
  obtain ⟨top', below', hframes', -, rfl⟩ := openChild_eq_ok hopen
  obtain ⟨rfl, -⟩ := List.cons.inj (hframes.symm.trans hframes')
  exact ⟨⟨rfl, _, _, rfl, hblock⟩, rfl⟩

/-- The rest of a line behind its first call. -/
theorem BehindCall.of_run {column : Column} {tokens : List Token} (h : BehindCall column state)
    (hspelled : ∀ token ∈ tokens, token.word.content?.isSome)
    (hrun : state.run limit tokens = (none, last)) :
    BehindCall column last ∧
      last.remarks = (tokens.filterMap Token.blankArgument?).reverse ++ state.remarks := by
  induction tokens generalizing state with
  | nil =>
    obtain rfl : state = last := congrArg Prod.snd hrun
    exact ⟨h, rfl⟩
  | cons token rest ih =>
    obtain ⟨htoken, hrest⟩ := List.forall_mem_cons.mp hspelled
    obtain ⟨next, hfeed, hrun⟩ := exists_feed_of_run hrun
    obtain ⟨hnext, hremarks⟩ := h.of_feed htoken hfeed
    obtain ⟨hlast, hlater⟩ := ih hnext hrest hrun
    refine ⟨hlast, ?_⟩
    rw [hlater, hremarks, List.filterMap_cons]
    cases token.blankArgument? <;> simp

/-! ### One line -/

/-- The calls and texts of a line spell something. -/
theorem spelled_placePieces {pieces : List Piece} (hbody : ∀ piece ∈ pieces, piece.IsBody)
    (place : Position) : ∀ token ∈ placePieces place pieces, token.word.content?.isSome := by
  induction pieces generalizing place with
  | nil => simp [placePieces_nil]
  | cons piece rest ih =>
    obtain ⟨hpiece, hrest⟩ := List.forall_mem_cons.mp hbody
    rw [placePieces_cons]
    refine List.forall_mem_cons.mpr ⟨?_, ih hrest _⟩
    cases piece with
    | call name => rfl
    | text content => rfl
    | indent blanks => exact hpiece.elim
    | lineBreak kind => exact hpiece.elim

/-- A line that is a call is read into its column, and its blank texts are remarked on. -/
theorem Below.of_call (h : Below sigil above state) (hfits : line.indent < Text.greatestCount)
    (hcall : line.isCall sigil = true)
    (hrun : state.run limit (line.tokens sigil) = (none, last)) :
    BehindCall (.ofWidth line.indent) last ∧
      last.remarks = ((line.tokens sigil).filterMap Token.blankArgument?).reverse ++
        state.remarks := by
  obtain ⟨name, rest, hpieces⟩ := bodyPieces_of_opensCall hcall
  have hbody : ∀ piece ∈ rest, piece.IsBody := by
    have hall := isBody_of_mem_bodyPieces sigil line.body
    rw [hpieces] at hall
    exact (List.forall_mem_cons.mp hall).2
  -- once the first call is open, the rest of the line is behind it
  have hafter {between opened : State} (hopen : between.feed limit
        ⟨.call (String.ofList name), line.bodyStart⟩ = .ok opened)
      (hopened : BehindCall (.ofWidth line.indent) opened)
      (hremarks : opened.remarks = state.remarks)
      (hline : between.run limit (placePieces line.bodyStart (bodyPieces sigil line.body)) =
        (none, last)) :
      BehindCall (.ofWidth line.indent) last ∧ last.remarks =
        ((placePieces line.bodyStart (bodyPieces sigil line.body)).filterMap
          Token.blankArgument?).reverse ++ state.remarks := by
    rw [hpieces, placePieces_cons, Piece.word, run_cons_of_ok hopen] at hline
    obtain ⟨hlast, hlater⟩ := hopened.of_run (spelled_placePieces hbody _) hline
    refine ⟨hlast, ?_⟩
    rw [hlater, hremarks, hpieces, placePieces_cons, List.filterMap_cons_none rfl]
  rw [SourceLine.tokens] at hrun ⊢
  split at hrun
  · next hindent =>
    rw [if_pos hindent]
    refine hafter (feed_call_start h.phase_start _) ⟨rfl, _, _, rfl, ?_⟩ rfl hrun
    rw [hindent, Column.ofWidth_of_lt (by decide)]
    rfl
  · next hindent =>
    obtain ⟨between, hindented, hline⟩ := exists_feed_of_run hrun
    obtain ⟨hentered, hsame⟩ := h.entered hfits hindented
    rw [if_neg hindent, List.filterMap_cons_none rfl]
    obtain ⟨opened, hopen, -⟩ : ∃ opened, between.feed limit
        ⟨.call (String.ofList name), line.bodyStart⟩ = .ok opened ∧
          opened.run limit (placePieces (line.bodyStart.advance name) rest) = (none, last) := by
      rw [hpieces, placePieces_cons] at hline
      exact exists_feed_of_run hline
    obtain ⟨hopened, hremarks⟩ := hentered.of_call hopen
    exact hafter hopen hopened (hremarks.trans hsame) hline

/-- A line of text that can be read is indented, and nothing on it is remarked on. -/
theorem Below.of_text (h : Below sigil above state) (hfits : line.indent < Text.greatestCount)
    (htext : line.isCall sigil = false) (hbody : line.body ≠ [])
    (hrun : state.run limit (line.tokens sigil) = (none, last)) :
    last.phase = .text ∧ last.remarks = state.remarks := by
  rw [SourceLine.tokens] at hrun
  split at hrun
  · obtain ⟨content, rest, hpieces⟩ := bodyPieces_of_not_opensCall hbody htext
    rw [hpieces, placePieces_cons] at hrun
    obtain ⟨next, hfeed, -⟩ := exists_feed_of_run hrun
    rw [Piece.word, feed_text_start h.phase_start] at hfeed
    cases hfeed
  · obtain ⟨between, hindented, hline⟩ := exists_feed_of_run hrun
    obtain ⟨hentered, hsame⟩ := h.entered hfits hindented
    obtain ⟨hphase, top, below, hframes, -⟩ := hentered.exists_frames
    rw [run_text_body hphase hframes hbody htext] at hline
    obtain rfl := congrArg Prod.snd hline
    exact ⟨rfl, hsame⟩

end State

namespace SourceLine

variable {sigil : Char} {above : List SourceLine} {line : SourceLine}

/-- A line of mere blanks has nothing but its indent. -/
theorem tokens_of_isMereIndent (sigil : Char) (h : line.isMereIndent = true) :
    line.tokens sigil = [⟨.indent line.indent, line.start⟩] ∧ line.isCall sigil = false := by
  simp only [isMereIndent, Bool.and_eq_true, Bool.not_eq_true', List.isEmpty_eq_false_iff,
    List.all_eq_true] at h
  obtain ⟨hsome, hblank⟩ := h
  have hbody : line.body = [] := List.dropWhile_eq_nil_iff.mpr hblank
  have hindent : line.indent ≠ 0 := by
    rw [indent, List.takeWhile_eq_self_iff.mpr hblank]
    exact fun hzero => hsome (List.length_eq_zero_iff.mp hzero)
  constructor
  · rw [tokens, if_neg hindent, hbody, bodyPieces_nil, placePieces_nil]
  · rw [isCall, hbody]
    rfl

/-- A line is empty, or it is mere blanks, or something follows its indent. -/
theorem content_cases (line : SourceLine) :
    line.content = [] ∨
      line.content.isEmpty = false ∧ (line.isMereIndent = true ∨
        line.isMereIndent = false ∧ line.body ≠ []) := by
  by_cases hempty : line.content = []
  · exact .inl hempty
  have hsome : line.content.isEmpty = false := List.isEmpty_eq_false_iff.mpr hempty
  refine .inr ⟨hsome, ?_⟩
  rw [isMereIndent, hsome]
  cases hall : line.content.all Text.isBlank with
  | true => exact .inl rfl
  | false =>
    refine .inr ⟨rfl, fun hbody => ?_⟩
    have hblank := List.all_eq_true.mpr (List.dropWhile_eq_nil_iff.mp hbody)
    rw [hall] at hblank
    cases hblank

/-- Something follows the indent of a line that is a call. -/
theorem content_of_isCall (h : line.isCall sigil = true) :
    line.content.isEmpty = false ∧ line.isMereIndent = false := by
  rcases line.content_cases with hempty | ⟨hsome, hblank | ⟨hink, -⟩⟩
  · rw [isCall, body, hempty] at h
    cases h
  · rw [(tokens_of_isMereIndent sigil hblank).2] at h
    cases h
  · exact ⟨hsome, hink⟩

/-- An empty line has no tokens. -/
theorem tokens_of_empty (sigil : Char) (h : line.content = []) : line.tokens sigil = [] := by
  rw [tokens, indent, body, h]
  exact congrArg (placePieces _) (bodyPieces_nil sigil)

/-- A line with something behind its indent is the nearest one to the lines below it. -/
theorem nearest?_cons_of_ink (hsome : line.content.isEmpty = false)
    (hink : line.isMereIndent = false) : nearest? sigil (line :: above) = some line := by
  rw [nearest?, cancels, hsome, hink]
  rfl

end SourceLine

namespace State

variable {limit : ℕ} {sigil : Char} {above : List SourceLine} {state next last : State}
variable {line : SourceLine} {place : Position}

/-- The break behind a line of mere blanks is remarked on, and if it takes back a block, all is
as before that line. -/
theorem Entered.of_break (h : Entered sigil above line.indent state)
    (hsome : line.content.isEmpty = false) (hblank : line.isMereIndent = true)
    (hfeed : state.feed limit ⟨.lineBreak, place⟩ = .ok next) :
    next.remarks = ⟨if line.cancels sigil (SourceLine.nearest? sigil above) then .cancelledBlock
        else .indentOnlyLine, place⟩ :: state.remarks ∧
      Below sigil (line :: above) next := by
  obtain ⟨-, hnot⟩ := SourceLine.tokens_of_isMereIndent sigil hblank
  cases h with
  | begun hnear hcall hleft hphase hframes hblock hcolumn =>
    have hcancels : line.cancels sigil (SourceLine.nearest? sigil above) = true := by
      simp [SourceLine.cancels, hblank, hnear, hcall, hleft]
    rw [feed_break_blockIndented hphase hframes] at hfeed
    obtain rfl := Except.ok.inj hfeed
    rw [if_pos hcancels]
    refine ⟨rfl, .call ?_ hcall rfl rfl hcolumn⟩
    rw [SourceLine.nearest?, hcancels, Bool.or_true, if_pos rfl, hnear]
  | settled hnone hphase hframes hblock =>
    have hcancels : line.cancels sigil (SourceLine.nearest? sigil above) = false := by
      rw [Bool.eq_false_iff, SourceLine.cancels, hblank, Bool.true_and, ne_eq, Option.any_eq_true]
      rintro ⟨near, hnear, hnearer⟩
      simp only [Bool.and_eq_true, decide_eq_true_eq] at hnearer
      exact hnone near hnear hnearer.1 hnearer.2
    rw [feed_break_indented hphase] at hfeed
    obtain rfl := Except.ok.inj hfeed
    rw [hcancels]
    refine ⟨rfl, .other ?_ rfl⟩
    rw [SourceLine.nearest?, hcancels, hsome]
    rintro near ⟨⟩
    exact hnot

/-- A line that ends at once is remarked on, and for the lines below it does not count. -/
theorem Below.of_empty (h : Below sigil above state) (hempty : line.content = [])
    (hfeed : state.feed limit ⟨.lineBreak, place⟩ = .ok next) :
    next.remarks = ⟨.emptyLine, place⟩ :: state.remarks ∧ Below sigil (line :: above) next := by
  rw [feed_break_start h.phase_start] at hfeed
  obtain rfl := Except.ok.inj hfeed
  have hnearest : SourceLine.nearest? sigil (line :: above) = SourceLine.nearest? sigil above := by
    rw [SourceLine.nearest?, hempty]
    rfl
  refine ⟨rfl, ?_⟩
  cases h with
  | call hnear hcall hphase hframes hcolumn =>
    exact .call (hnearest.trans hnear) hcall hphase hframes hcolumn
  | other hnone hphase => exact .other (fun near hnear => hnone near (hnearest ▸ hnear)) hphase

/-- The tokens behind the content of a line are its break, if it has one. -/
theorem cases_of_break {ending : Option LineBreak}
    (hrun : state.run limit (placePieces place (ending.elim [] fun kind => [.lineBreak kind])) =
      (none, last)) :
    (ending = none ∧ state = last) ∨
      (ending.isSome = true ∧ state.feed limit ⟨.lineBreak, place⟩ = .ok last) := by
  cases ending with
  | none => exact .inl ⟨rfl, congrArg Prod.snd hrun⟩
  | some kind =>
    obtain ⟨next, hfeed, hnext⟩ := exists_feed_of_run hrun
    obtain rfl : next = last := congrArg Prod.snd hnext
    exact .inr ⟨rfl, hfeed⟩

/-- One line: what it calls for is remarked on, and below it the reader knows what it has to. -/
theorem Below.of_line {ending : Option LineBreak} (h : Below sigil above state)
    (hfits : line.indent < Text.greatestCount)
    (hrun : state.run limit (line.tokens sigil ++
      placePieces line.stop (ending.elim [] fun kind => [.lineBreak kind])) = (none, last)) :
    last.remarks = (line.remarks sigil above ending.isSome).reverse ++ state.remarks ∧
      (ending ≠ none → Below sigil (line :: above) last) := by
  obtain ⟨between, hline, hbreak⟩ := exists_run_of_append hrun
  rw [SourceLine.remarks]
  cases hcall : line.isCall sigil with
  | true =>
    obtain ⟨hsome, hink⟩ := SourceLine.content_of_isCall hcall
    obtain ⟨⟨hphase, top, below, hframes, hcolumn⟩, hremarks⟩ := h.of_call hfits hcall hline
    rw [if_pos rfl]
    rcases cases_of_break hbreak with ⟨rfl, rfl⟩ | ⟨hbroken, hfeed⟩
    · exact ⟨hremarks, fun hne => absurd rfl hne⟩
    · rw [feed_break_call hphase] at hfeed
      obtain rfl := Except.ok.inj hfeed
      exact ⟨hremarks, fun _ => .call (SourceLine.nearest?_cons_of_ink hsome hink) hcall rfl
        hframes hcolumn⟩
  | false =>
    rw [if_neg Bool.false_ne_true]
    rcases line.content_cases with hempty | ⟨hsome, hblank | ⟨hink, hbody⟩⟩
    · rw [SourceLine.tokens_of_empty sigil hempty] at hline
      obtain rfl : state = between := congrArg Prod.snd hline
      rcases cases_of_break hbreak with ⟨rfl, rfl⟩ | ⟨hbroken, hfeed⟩
      · exact ⟨rfl, fun hne => absurd rfl hne⟩
      · obtain ⟨hremarks, hbelow⟩ := h.of_empty hempty hfeed
        rw [hbroken, hremarks, SourceLine.stop, hempty]
        exact ⟨rfl, fun _ => hbelow⟩
    · rw [(SourceLine.tokens_of_isMereIndent sigil hblank).1] at hline
      obtain ⟨next, hindent, hnext⟩ := exists_feed_of_run hline
      obtain rfl : next = between := congrArg Prod.snd hnext
      obtain ⟨hentered, hsame⟩ := h.entered hfits hindent
      rcases cases_of_break hbreak with ⟨rfl, rfl⟩ | ⟨hbroken, hfeed⟩
      · exact ⟨hsame, fun hne => absurd rfl hne⟩
      · obtain ⟨hremarks, hbelow⟩ := hentered.of_break hsome hblank hfeed
        rw [hbroken, hsome, hblank, hremarks, hsame]
        exact ⟨rfl, fun _ => hbelow⟩
    · obtain ⟨hphase, hremarks⟩ := h.of_text hfits hcall hbody hline
      rcases cases_of_break hbreak with ⟨rfl, rfl⟩ | ⟨hbroken, hfeed⟩
      · exact ⟨hremarks, fun hne => absurd rfl hne⟩
      · rw [feed_break_text hphase] at hfeed
        obtain rfl := Except.ok.inj hfeed
        rw [hbroken, hsome, hink]
        refine ⟨hremarks, fun _ => .other ?_ rfl⟩
        rw [SourceLine.nearest?_cons_of_ink hsome hink]
        rintro near ⟨⟩
        exact hcall

/-! ### All lines -/

/-- The tokens of a line of a text are its content and its break. -/
theorem Below.of_content {content : Line} (h : Below sigil above state)
    (hfeed : '\n' ∉ content.content) (hfits : content.content.length < Text.greatestCount)
    (hrun : state.run limit (placePieces ⟨above.length + 1, 1⟩ (content.pieces sigil)) =
      (none, last)) :
    last.remarks = ((SourceLine.mk (above.length + 1) content.content).remarks sigil above
        content.ending.isSome).reverse ++ state.remarks ∧
      (content.ending ≠ none →
        Below sigil (⟨above.length + 1, content.content⟩ :: above) last) := by
  rw [SourceLine.placePieces_line sigil hfeed] at hrun
  exact h.of_line (Nat.lt_of_le_of_lt (List.takeWhile_prefix _).length_le hfits) hrun

/-- What lines call for is remarked on, line after line. -/
theorem Below.of_lines {first : Line} {later : List Line} (h : Below sigil above state)
    (hfeed : ∀ line ∈ first :: later, '\n' ∉ line.content)
    (hfits : ∀ line ∈ first :: later, line.content.length < Text.greatestCount)
    (hlines : first.Consecutive later)
    (hrun : state.run limit (lineTokens sigil (above.length + 1) (first :: later)) =
      (none, last)) :
    last.remarks = (remarksBelow sigil above (first :: later)).reverse ++ state.remarks := by
  induction later generalizing first above state with
  | nil =>
    obtain ⟨between, hfirst, hlast⟩ := exists_run_of_append hrun
    obtain rfl : between = last := congrArg Prod.snd hlast
    obtain ⟨hremarks, -⟩ :=
      h.of_content (hfeed first List.mem_cons_self) (hfits first List.mem_cons_self) hfirst
    rw [hremarks, remarksBelow, remarksBelow, List.append_nil]
  | cons next later ih =>
    obtain ⟨hbroken, hnext⟩ := hlines
    obtain ⟨between, hfirst, hlater⟩ := exists_run_of_append hrun
    obtain ⟨hremarks, hbelow⟩ :=
      h.of_content (hfeed first List.mem_cons_self) (hfits first List.mem_cons_self) hfirst
    have hrest := ih (hbelow hbroken) (fun line hline => hfeed line (List.mem_cons_of_mem _ hline))
      (fun line hline => hfits line (List.mem_cons_of_mem _ hline)) hnext hlater
    rw [hrest, hremarks, ← List.append_assoc, ← List.reverse_append]
    rfl

/-- Every remark is announced when it is made, and nothing else is announced. -/
theorem events_of_reads {token : Token} (h : Reads limit state token next)
    (hstate : state.events = state.remarks.map .remarked) :
    next.events = next.remarks.map .remarked := by
  cases h with
  | dropped hphase hblank => exact congrArg (_ :: ·) hstate
  | skippedIndent hphase => exact congrArg (_ :: ·) hstate
  | cancelled hframes hphase => exact congrArg (_ :: ·) hstate
  | skippedLine hphase => exact congrArg (_ :: ·) hstate
  | continued hphase hcontent hframes hgrown => exact hstate
  | openedRoot hphase => exact hstate
  | openedChild hframes hroom hcolumn => exact hstate
  | added hframes hphase => exact hstate
  | settled hframes hphase hsettle => exact hstate
  | begun hframes hphase hright => exact hstate
  | ended hphase => exact hstate

end State

/-! ### Parsing -/

/-- A parser once it has read some token lists, whether they could be parsed or not. -/
def Parser.after (parser : Parser) (history : List (List Token)) : Parser :=
  history.foldl (fun used tokens => (used.parse tokens).parser) parser

/-- Whatever a parser has read before, the remarks on a text that it can parse are those that the
lines of the text call for, in order. Each is announced once. A text that fits in memory has fewer
characters than the greatest count, so every indent leads to a column. -/
theorem Parser.remarks_parse (parser : Parser) (history : List (List Token)) {sigil : Char}
    {text : String} {tokens : List Token} {roots : List Call}
    (htokens : tokenize sigil text = .ok tokens) (hfits : text.length < Text.greatestCount)
    (hroots : ((parser.after history).parse tokens).outcome = .ok roots) :
    ((parser.after history).parse tokens).parser.remarks = remarksOn sigil text ∧
      ((parser.after history).parse tokens).events =
        (remarksOn sigil text).map .remarked := by
  generalize parser.after history = used at hroots ⊢
  obtain ⟨last, hrun, -⟩ := Parser.exists_run_of_outcome hroots
  obtain ⟨hunstrayed, rfl⟩ := unstrayed_of_tokenize htokens
  rw [placePieces_pieces] at hrun ⊢
  have hlength : ∀ line ∈ Line.ofChars text.toList, line.content.length < Text.greatestCount := by
    intro line hline
    have hle := Line.length_content_le hline
    rw [String.length_toList] at hle
    exact Nat.lt_of_le_of_lt hle hfits
  have hstart : State.Below sigil [] State.initial := .other nofun rfl
  have hremarks : last.remarks = (remarksOn sigil text).reverse := by
    have hlines := hstart.of_lines (Line.feed_not_mem_content text.toList) hlength
      (Line.consecutive_cut text.toList) hrun
    rwa [State.initial, List.append_nil] at hlines
  have hevents : last.events = last.remarks.map .remarked := by
    have hkept : (State.initial.run used.limit
          (lineTokens sigil 1 (Line.ofChars text.toList))).2.events =
        (State.initial.run used.limit
          (lineTokens sigil 1 (Line.ofChars text.toList))).2.remarks.map .remarked :=
      State.of_run (motive := fun state => state.events = state.remarks.map .remarked)
        (fun _ => State.events_of_reads) rfl
    rwa [hrun] at hkept
  simp only [Parser.parse, Parser.state_reset, hrun, hevents, hremarks, List.map_reverse,
    List.reverse_reverse, and_self]

/-- A parser that has failed before finds all four oddities. The fifth line takes back a block
below the fourth one, and the sixth line does not. -/
theorem Parser.remarks_parse_block :
    let text := "$$a \n\n  \n $$b\n   \n \n x $$c \n "
    let history : List (List Token) :=
      [[⟨.lineBreak, ⟨1, 1⟩⟩, ⟨.text "x", ⟨2, 1⟩⟩], [⟨.call "$$a", ⟨1, 1⟩⟩]]
    ∃ tokens, tokenize '$' text = .ok tokens ∧
      ((Parser.standard.after history).parse tokens).outcome =
        .ok [⟨"$$a", ⟨1, 1⟩, [.call "$$b" ⟨4, 2⟩ [], .text "x $$c "]⟩] ∧
      ((Parser.standard.after history).parse tokens).parser.remarks =
        [⟨.blankArgument, ⟨1, 4⟩⟩, ⟨.emptyLine, ⟨2, 1⟩⟩, ⟨.cancelledBlock, ⟨3, 3⟩⟩,
          ⟨.cancelledBlock, ⟨5, 4⟩⟩, ⟨.indentOnlyLine, ⟨6, 2⟩⟩] := by
  intro text history
  have hoddities : remarksOn '$' text =
      [⟨.blankArgument, ⟨1, 4⟩⟩, ⟨.emptyLine, ⟨2, 1⟩⟩, ⟨.cancelledBlock, ⟨3, 3⟩⟩,
        ⟨.cancelledBlock, ⟨5, 4⟩⟩, ⟨.indentOnlyLine, ⟨6, 2⟩⟩] := by
    decide +kernel
  have htokens : tokenize '$' text = .ok (placePieces .first (pieces '$' text.toList)) := by
    decide +kernel
  have hroots : ((Parser.standard.after history).parse
      (placePieces .first (pieces '$' text.toList))).outcome =
        .ok [⟨"$$a", ⟨1, 1⟩, [.call "$$b" ⟨4, 2⟩ [], .text "x $$c "]⟩] := by
    decide +kernel
  refine ⟨_, htokens, hroots, ?_⟩
  rw [(Parser.remarks_parse .standard history htokens (by decide) hroots).1, hoddities]

end Offside
