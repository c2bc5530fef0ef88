import Offside.Proofs.Compile
import Offside.Proofs.Layout.Closing
import Offside.Proofs.Layout.Typesetting
import Offside.Proofs.Token.Alternation

/-!
# Texts of one line

A text of one line comes to one call if it comes to anything. It begins with a name, and behind
the name there are texts and calls in turn. Whether it can be compiled then depends on the number
of its calls only.
-/

namespace Offside

/-! ### What stands behind a name -/

/-- Whether a piece is a call. -/
def Piece.isCall : Piece → Bool
  | .call _ => true
  | _ => false

/-- Characters with a blank in front. -/
def Spaced (content : List Char) : Prop :=
  ∃ c more, content = c :: more ∧ Text.isBlank c = true

/-- A text is not interrupted inside, if the given characters are behind it. -/
def Uninterrupted (sigil : Char) (content behind : List Char) : Prop :=
  ∀ i < content.length, ¬ Interrupts sigil (content.drop i ++ behind)

/-- The pieces that can stand behind a name on its line: texts with a blank in front, and behind
each of them but the last one a call where the text is first interrupted. -/
inductive IsTail (sigil : Char) : List Piece → Prop where
  | nil : IsTail sigil []
  | text {content : List Char} (hspaced : Spaced content)
      (hinside : Uninterrupted sigil content []) : IsTail sigil [.text content]
  | call {content name : List Char} {rest : List Piece} (hspaced : Spaced content)
      (hname : Interrupts sigil name) (hink : ∀ c ∈ name, Text.isBlank c = false)
      (hinside : Uninterrupted sigil content name) (hrest : IsTail sigil rest) :
      IsTail sigil (.text content :: .call name :: rest)

variable {sigil : Char}

/-- Behind a name the line ends or goes on with a blank. -/
theorem IsTail.beginsBlank {rest : List Piece} (h : IsTail sigil rest) :
    BeginsBlank (rest.flatMap Piece.chars) := by
  cases h with
  | nil => simp [BeginsBlank]
  | text hspaced _ =>
    obtain ⟨c, more, rfl, hc⟩ := hspaced
    simpa [BeginsBlank, Piece.chars] using hc
  | call hspaced _ _ _ _ =>
    obtain ⟨c, more, rfl, hc⟩ := hspaced
    simpa [BeginsBlank, Piece.chars] using hc

/-- What stands behind a name holds no indent and no break, and none of its pieces is empty. -/
theorem IsTail.isBody {rest : List Piece} (h : IsTail sigil rest) :
    ∀ piece ∈ rest, piece.IsBody := by
  induction h with
  | nil => simp
  | text hspaced _ =>
    obtain ⟨c, more, rfl, _⟩ := hspaced
    simp [Piece.IsBody]
  | call hspaced hname _ _ _ ih =>
    obtain ⟨c, more, rfl, _⟩ := hspaced
    obtain ⟨first, others, rfl, _⟩ := hname
    simpa [Piece.IsBody] using ih

/-- What begins with a blank does not take part in an interruption. -/
theorem uninterrupted_append_iff (hsigil : Text.isBlank sigil = false)
    {content name behind : List Char} (hbehind : BeginsBlank behind) :
    Uninterrupted sigil content (name ++ behind) ↔ Uninterrupted sigil content name := by
  refine forall₂_congr fun i _ => not_congr ?_
  rw [← List.append_assoc, interrupts_append_iff hsigil hbehind]

/-- A text that begins with a blank is a piece up to where it is first interrupted. -/
theorem bodyPieces_spaced (hsigil : Text.isBlank sigil = false) {content rest : List Char}
    (hspaced : Spaced content) (hinside : Uninterrupted sigil content rest)
    (hend : rest = [] ∨ Interrupts sigil rest) :
    bodyPieces sigil (content ++ rest) = .text content :: bodyPieces sigil rest := by
  obtain ⟨c, more, rfl, hc⟩ := hspaced
  have hcloses : opensCall sigil (c :: (more ++ rest)) = false := by
    rw [Bool.eq_false_iff, ne_eq, ← beginsCall_iff]
    exact not_beginsCall_of_blank hsigil hc _
  have hmore : ∀ i < more.length, ¬ Interrupts sigil (more.drop i ++ rest) := fun i hi =>
    hinside (i + 1) (Nat.succ_lt_succ hi)
  rw [List.cons_append, bodyPieces_text hcloses, takeText_append_of_ends hmore hend]
  rfl

/-- A call is a piece up to the next blank, so a name is cut off in front of one. -/
theorem bodyPieces_name {name rest : List Char}
    (hname : BeginsCall sigil name) (hink : ∀ c ∈ name, Text.isBlank c = false)
    (hrest : BeginsBlank rest) :
    bodyPieces sigil (name ++ rest) = .call name :: bodyPieces sigil rest := by
  obtain ⟨first, others, rfl, hfirst⟩ := hname
  have hopens : opensCall sigil (sigil :: (sigil :: first :: others ++ rest)) = true := by
    simp [opensCall, hfirst]
  obtain ⟨htaken, hleft⟩ := span_of_beginsBlank
    (fun c hc => hink c (List.mem_cons_of_mem sigil hc)) hrest
  rw [List.cons_append, bodyPieces_call hopens, htaken, hleft]

/-- Pieces that can stand behind a name are those that their characters are cut into. -/
theorem IsTail.bodyPieces_eq (hsigil : Text.isBlank sigil = false) {rest : List Piece}
    (h : IsTail sigil rest) : bodyPieces sigil (rest.flatMap Piece.chars) = rest := by
  induction h with
  | nil => exact bodyPieces_nil sigil
  | @text content hspaced hinside =>
    have hcut := bodyPieces_spaced hsigil hspaced hinside (.inl rfl)
    simpa [Piece.chars, bodyPieces_nil] using hcut
  | @call content name rest hspaced hname hink hinside hrest ih =>
    have hblank := hrest.beginsBlank
    rw [List.flatMap_cons, List.flatMap_cons, Piece.chars, Piece.chars,
      bodyPieces_spaced hsigil hspaced ((uninterrupted_append_iff hsigil hblank).mpr hinside)
        (.inr ((interrupts_append_iff hsigil hblank name).mpr hname)),
      bodyPieces_name hname.beginsCall hink hblank, ih]

/-- Where a line is cut as it has to be, what begins with a blank can stand behind a name. -/
theorem WellCut.isTail (hsigil : Text.isBlank sigil = false) {content : List Char}
    {body : List Piece} (h : WellCut sigil [] content body) (hblank : BeginsBlank content) :
    IsTail sigil body := by
  have hspaced {text : List Char} {later : List Piece}
      (hright : Piece.EndsRight sigil [] later (.text text))
      (hcontent : BeginsBlank (text ++ later.flatMap Piece.chars)) : Spaced text := by
    obtain ⟨c, more, rfl⟩ := List.exists_cons_of_ne_nil hright.1
    exact ⟨c, more, rfl, hcontent c rfl⟩
  have hspells := h.spells
  match body with
  | [] => exact .nil
  | [.text text] =>
    have hright := h.ends_right [] _ [] rfl
    refine .text (hspaced hright ?_) fun i hi => ?_
    · rwa [← hspells] at hblank
    · simpa using hright.2.1 i hi
  | .text text :: .call name :: rest =>
    have htext := h.ends_right [] _ _ rfl
    obtain ⟨run, -, hname, hrun, hend⟩ := h.ends_right [.text text] _ rest rfl
    have hbehind : BeginsBlank (rest.flatMap Piece.chars) := by
      rwa [List.append_nil] at hend
    have hfollows : Piece.Follows sigil (.text text) (.call name) :=
      (List.isChain_cons.mp h.in_turn).1 _ rfl
    have hrest := ((h.tail hsigil).tail hsigil).isTail hsigil hbehind
    have hinside : Uninterrupted sigil text (name ++ rest.flatMap Piece.chars) := by
      intro i hi
      simpa [Piece.chars] using htext.2.1 i hi
    refine .call (hspaced htext ?_) hfollows ?_
      ((uninterrupted_append_iff hsigil hbehind).mp hinside) hrest
    · rwa [← hspells] at hblank
    · rw [hname]
      exact List.forall_mem_cons.mpr ⟨hsigil, List.forall_mem_cons.mpr ⟨hsigil, hrun⟩⟩
  | .text _ :: .text _ :: _ => exact ((List.isChain_cons.mp h.in_turn).1 _ rfl).elim
  | .text _ :: .indent _ :: _ => exact ((List.isChain_cons.mp h.in_turn).1 _ rfl).elim
  | .text _ :: .lineBreak _ :: _ => exact ((List.isChain_cons.mp h.in_turn).1 _ rfl).elim
  | .call _ :: _ =>
    obtain ⟨c, rest, hcontent, -⟩ := h.begins.mp ⟨_, _, rfl⟩
    have hc := hblank sigil (by rw [hcontent]; rfl)
    rw [hsigil] at hc
    cases hc
  | .indent _ :: _ => exact (h.ends_right [] _ _ rfl).elim
  | .lineBreak _ :: _ => exact (h.ends_right [] _ _ rfl).elim

/-- A line begins with a call exactly when it is a name with pieces that can stand behind it. -/
theorem bodyPieces_eq_call_iff (hsigil : Text.isBlank sigil = false) {chars name : List Char}
    {rest : List Piece} :
    bodyPieces sigil chars = .call name :: rest ↔
      IsName sigil (String.ofList name) ∧ IsTail sigil rest ∧
        chars = name ++ rest.flatMap Piece.chars := by
  constructor
  · intro hpieces
    have hcut : WellCut sigil [] chars (bodyPieces sigil chars) :=
      wellCut_bodyPieces hsigil (by simp [BeginsBlank]) chars
    rw [hpieces] at hcut
    obtain ⟨run, hsome, rfl, hrun, hend⟩ := hcut.ends_right [] _ rest rfl
    obtain ⟨first, others, rfl⟩ := List.exists_cons_of_ne_nil hsome
    rw [List.append_nil] at hend
    exact ⟨⟨first, others, by simp, hrun⟩, (hcut.tail hsigil).isTail hsigil hend,
      hcut.spells.symm⟩
  · rintro ⟨hname, htail, rfl⟩
    have hink := hname.not_blank hsigil
    obtain ⟨first, others, hchars, hfirst⟩ := hname
    rw [String.toList_ofList] at hchars hink
    rw [bodyPieces_name ⟨first, others, hchars, hfirst first List.mem_cons_self⟩ hink
      htail.beginsBlank, htail.bodyPieces_eq hsigil]

/-! ### Arguments -/

/-- The arguments that a text behind a name comes to. -/
def textItems (content : List Char) : List Item :=
  if Text.isBlankText (String.ofList content) then [] else [.text (String.ofList content)]

/-- A text behind a name comes first among the arguments of the name. -/
theorem inlineItems_text (items : List Item) (place : Position) (content : List Char)
    (rest : List Piece) :
    SourceLine.inlineItems items place (.text content :: rest) =
      textItems content ++ SourceLine.inlineItems items (place.advance content) rest := by
  rw [SourceLine.inlineItems, textItems]
  split <;> rfl

/-! ### How many calls fit -/

namespace State

variable {limit : ℕ} {state next : State}

/-- Behind a token that can be read the calls nest too deep if they do from there on. -/
theorem nestsTooDeep_cons_of_ok {token : Token} (h : state.feed limit token = .ok next)
    (rest : List Token) :
    state.NestsTooDeep limit (token :: rest) ↔ next.NestsTooDeep limit rest := by
  rw [NestsTooDeep, NestsTooDeep, run_cons_of_ok h]

/-- Behind a name the calls of a line nest too deep exactly when there are more of them than
still fit. -/
theorem nestsTooDeep_placePieces_iff (limit : ℕ) {pieces : List Piece}
    (hphase : state.phase = .call) (hsome : state.frames ≠ [])
    (hbody : ∀ piece ∈ pieces, piece.IsBody) (place : Position) :
    state.NestsTooDeep limit (placePieces place pieces) ↔
      max limit state.frames.length < state.frames.length + pieces.countP Piece.isCall := by
  induction pieces generalizing state place with
  | nil =>
    constructor
    · rintro ⟨_, _, hrun⟩
      simp [placePieces_nil, run] at hrun
    · intro hless
      rw [List.countP_nil] at hless
      omega
  | cons piece rest ih =>
    obtain ⟨hpiece, hrest⟩ := List.forall_mem_cons.mp hbody
    obtain ⟨top, below, hframes⟩ := List.exists_cons_of_ne_nil hsome
    rw [placePieces_cons]
    cases piece with
    | call name =>
      rw [List.countP_cons_of_pos rfl]
      rcases Nat.lt_or_ge state.frames.length limit with hroom | hfull
      · have hfeed := (feed_call_call hphase (String.ofList name)).trans
          (openChild_of_lt hframes hroom _ place _)
        rw [Piece.word, nestsTooDeep_cons_of_ok hfeed]
        refine Iff.trans (ih ?_ (List.cons_ne_nil _ _) hrest _) ?_
        · exact hphase
        · rw [List.length_cons, ← hframes]
          omega
      · have hfeed := (feed_call_call hphase (String.ofList name)).trans
          (openChild_of_le hframes hfull _ place _)
        have hdeep : state.NestsTooDeep limit (⟨.call (String.ofList name), place⟩ ::
            placePieces (place.advance name) rest) :=
          ⟨place, state, run_cons_of_error hfeed _⟩
        refine iff_of_true hdeep ?_
        omega
    | text content =>
      rw [List.countP_cons_of_neg (by simp [Piece.isCall])]
      have hfeed : state.feed limit ⟨.text (String.ofList content), place⟩ = _ :=
        feed_text_call hphase _
      by_cases hblank : Text.isBlankText (String.ofList content) = true
      · rw [if_pos hblank] at hfeed
        rw [Piece.word, nestsTooDeep_cons_of_ok hfeed]
        refine ih ?_ ?_ hrest _
        · exact hphase
        · exact hsome
      · rw [if_neg hblank, addArgument_of_frames hframes] at hfeed
        rw [Piece.word, nestsTooDeep_cons_of_ok hfeed]
        refine Iff.trans (ih ?_ (List.cons_ne_nil _ _) hrest _) ?_
        · exact hphase
        · rw [hframes, List.length_cons, List.length_cons]
    | indent blanks => exact hpiece.elim
    | lineBreak kind => exact hpiece.elim

end State

/-! ### Compiling one line -/

/-- A name with what can stand behind it has the tokens of its pieces. -/
theorem lineTokens_name (hsigil : Text.isBlank sigil = false) {name : String} {rest : List Piece}
    (hname : IsName sigil name) (htail : IsTail sigil rest)
    (hplain : '\n' ∉ rest.flatMap Piece.chars ∧ '\r' ∉ rest.flatMap Piece.chars) :
    Unstrayed (name.toList ++ rest.flatMap Piece.chars) ∧
      lineTokens sigil 1 (Line.ofChars (name.toList ++ rest.flatMap Piece.chars)) =
        ⟨.call name, .first⟩ :: placePieces (Position.first.advance name.toList) rest := by
  obtain ⟨hnameFeed, hnameReturn⟩ := not_mem_of_not_blank (hname.not_blank hsigil)
  have hpieces : bodyPieces sigil (name.toList ++ rest.flatMap Piece.chars) =
      .call name.toList :: rest :=
    (bodyPieces_eq_call_iff hsigil).mpr ⟨by rwa [String.ofList_toList], htail, rfl⟩
  have hline : '\n' ∉ name.toList ++ rest.flatMap Piece.chars ∧
      '\r' ∉ name.toList ++ rest.flatMap Piece.chars := by
    rw [List.mem_append, List.mem_append]
    exact ⟨not_or.mpr ⟨hnameFeed, hplain.1⟩, not_or.mpr ⟨hnameReturn, hplain.2⟩⟩
  have hink : BeginsInk (name.toList ++ rest.flatMap Piece.chars) := by
    obtain ⟨first, others, hchars, hfirst⟩ := hname.beginsInk hsigil
    exact ⟨first, others ++ rest.flatMap Piece.chars, by rw [hchars, List.cons_append], hfirst⟩
  generalize name.toList ++ rest.flatMap Piece.chars = chars at hpieces hline hink ⊢
  constructor
  · rw [← List.append_nil chars]
    exact unstrayed_append hline.2 unstrayed_nil
  · have htokens : (SourceLine.mk 1 ([] ++ chars)).tokens sigil =
        placePieces .first (bodyPieces sigil chars) :=
      SourceLine.tokens_of_zero (isIndent_replicate 0) hink 1
    rw [hpieces, placePieces_cons, Piece.word, Piece.chars, String.ofList_toList] at htokens
    rw [Line.ofChars_singleton hline.1 hline.2, lineTokens, lineTokens, List.append_nil,
      SourceLine.placePieces_line sigil hline.1, Option.elim_none, placePieces_nil,
      List.append_nil]
    exact htokens

namespace FrontEnd

variable {frontEnd : FrontEnd} {name text : String} {rest : List Piece}

/-- A name with what can stand behind it compiles to one call if its calls are not too many. -/
theorem compile_line (hname : IsName frontEnd.settings.sigil name)
    (htail : IsTail frontEnd.settings.sigil rest)
    (hplain : '\n' ∉ rest.flatMap Piece.chars ∧ '\r' ∉ rest.flatMap Piece.chars)
    (htext : text.toList = name.toList ++ rest.flatMap Piece.chars)
    (hroom : rest.countP Piece.isCall < max frontEnd.settings.nestingLimit 1) :
    ∃ remarks, (frontEnd.compile text).1 = .ok ⟨[⟨name, .first,
      SourceLine.inlineItems [] (Position.first.advance name.toList) rest⟩], remarks⟩ := by
  obtain ⟨hunstrayed, htokens⟩ := lineTokens_name frontEnd.sigil_not_blank hname htail hplain
  rw [← htext] at hunstrayed htokens
  have hphase : ((State.initial.openRoot name .first).goto .call).phase = .call := rfl
  have hframes : ((State.initial.openRoot name .first).goto .call).frames =
      [.opened name .first .leftmost] := rfl
  obtain hdeep | ⟨last, hrun, -, hopen, hclosed⟩ := @State.run_placePieces_call
    frontEnd.settings.nestingLimit _ _ _ _ hphase hframes htail.isBody
    (Position.first.advance name.toList)
  · -- only the name itself is open in front of the other calls
    have hcount : max frontEnd.settings.nestingLimit 1 < 1 + rest.countP Piece.isCall :=
      (State.nestsTooDeep_placePieces_iff _ hphase (List.cons_ne_nil _ _) htail.isBody _).mp hdeep
    omega
  · have hchain := Frame.isChain_takeInline [] .beyond (Position.first.advance name.toList)
      (.opened name .first .leftmost) rfl rest
    have hforest : last.forest = [⟨name, .first,
        SourceLine.inlineItems [] (Position.first.advance name.toList) rest⟩] := by
      have hnone : last.closed = [] := hclosed
      rw [Frame.fill_takeInline rfl] at hchain
      rw [State.forest_eq, hnone, hopen, hchain.closeStack_eq]
      rfl
    refine ⟨last.remarks.reverse, ?_⟩
    rw [← hforest]
    apply compile_of_run hunstrayed
    rw [htokens, State.run_cons_of_ok (State.feed_call_start (.inl rfl) name), hrun]

/-- With more calls than may be open it does not compile. -/
theorem compile_line_error (hname : IsName frontEnd.settings.sigil name)
    (htail : IsTail frontEnd.settings.sigil rest)
    (hplain : '\n' ∉ rest.flatMap Piece.chars ∧ '\r' ∉ rest.flatMap Piece.chars)
    (htext : text.toList = name.toList ++ rest.flatMap Piece.chars)
    (hfull : max frontEnd.settings.nestingLimit 1 ≤ rest.countP Piece.isCall) :
    ∃ place, (frontEnd.compile text).1 =
      .error (.nestedTooDeep frontEnd.settings.nestingLimit place) := by
  obtain ⟨hunstrayed, htokens⟩ := lineTokens_name frontEnd.sigil_not_blank hname htail hplain
  rw [← htext] at hunstrayed htokens
  have hcount : max frontEnd.settings.nestingLimit 1 < 1 + rest.countP Piece.isCall := by omega
  have hphase : ((State.initial.openRoot name .first).goto .call).phase = .call := rfl
  obtain ⟨place, last, hrun⟩ := (State.nestsTooDeep_placePieces_iff _ hphase
    (List.cons_ne_nil _ _) htail.isBody (Position.first.advance name.toList)).mpr hcount
  have hread : State.initial.run frontEnd.settings.nestingLimit
      (lineTokens frontEnd.settings.sigil 1 (Line.ofChars text.toList)) =
        (some (.nestedTooDeep frontEnd.settings.nestingLimit place), last) := by
    rw [htokens, State.run_cons_of_ok (State.feed_call_start (.inl rfl) name), hrun]
  exact ⟨place, compile_of_run_error hunstrayed hread⟩

/-- A text of one line that compiles is read from its first character on: it is not indented, for
there is no block that its indent could lead to. -/
theorem exists_run_of_line {compilation : Compilation} (hfeed : '\n' ∉ text.toList)
    (h : (frontEnd.compile text).1 = .ok compilation) :
    '\r' ∉ text.toList ∧ ∃ last, State.initial.run frontEnd.settings.nestingLimit
      (placePieces .first (bodyPieces frontEnd.settings.sigil text.toList)) = (none, last) ∧
        compilation.roots = last.forest := by
  obtain ⟨hunstrayed, last, hrun, hforest⟩ := exists_run_of_compile h
  have hreturn : '\r' ∉ text.toList := by
    intro hmem
    obtain ⟨i, hi⟩ := List.mem_iff_getElem?.mp hmem
    exact hunstrayed i ⟨hi, fun hnext => hfeed (List.mem_of_getElem? hnext)⟩
  rw [Line.ofChars_singleton hfeed hreturn, lineTokens, lineTokens, List.append_nil,
    SourceLine.placePieces_line _ hfeed, Option.elim_none, placePieces_nil,
    List.append_nil] at hrun
  have hindent : (SourceLine.mk 1 text.toList).indent = 0 := by
    by_contra hindent
    rw [SourceLine.tokens, if_neg hindent] at hrun
    obtain ⟨next, hnext, -⟩ := State.exists_feed_of_run hrun
    rw [State.feed_indent_lineStart rfl] at hnext
    cases hnext
  have hbody : (SourceLine.mk 1 text.toList).body = text.toList := by
    have hspelled := List.takeWhile_append_dropWhile (p := Text.isBlank) (l := text.toList)
    rwa [List.length_eq_zero_iff.mp hindent, List.nil_append] at hspelled
  rw [SourceLine.tokens, if_pos hindent, hbody, SourceLine.bodyStart_eq_start hindent] at hrun
  exact ⟨hreturn, last, hrun, hforest⟩

/-- A text of one line that compiles to something is a name with what can stand behind it, and
its calls are not too many. -/
theorem exists_line_of_compile {compilation : Compilation} (hfeed : '\n' ∉ text.toList)
    (h : (frontEnd.compile text).1 = .ok compilation) (hroots : compilation.roots ≠ []) :
    '\r' ∉ text.toList ∧ ∃ name rest, IsName frontEnd.settings.sigil name ∧
      IsTail frontEnd.settings.sigil rest ∧
      text.toList = name.toList ++ rest.flatMap Piece.chars ∧
      rest.countP Piece.isCall < max frontEnd.settings.nestingLimit 1 ∧
      compilation.roots = [⟨name, .first,
        SourceLine.inlineItems [] (Position.first.advance name.toList) rest⟩] := by
  obtain ⟨hreturn, last, hrun, hforest⟩ := exists_run_of_line hfeed h
  refine ⟨hreturn, ?_⟩
  rcases hpieces : bodyPieces frontEnd.settings.sigil text.toList with _ | ⟨piece, rest⟩
  · rw [hpieces] at hrun
    obtain rfl : State.initial = last := congrArg Prod.snd hrun
    exact absurd hforest hroots
  rw [hpieces, placePieces_cons] at hrun
  have hpiece := isBody_of_mem_bodyPieces frontEnd.settings.sigil text.toList piece
    (by rw [hpieces]; exact List.mem_cons_self)
  cases piece with
  | call name =>
    obtain ⟨hname, htail, htext⟩ :=
      (bodyPieces_eq_call_iff frontEnd.sigil_not_blank).mp hpieces
    have hchars : text.toList = (String.ofList name).toList ++ rest.flatMap Piece.chars := by
      rwa [String.toList_ofList]
    have hplain : '\n' ∉ rest.flatMap Piece.chars ∧ '\r' ∉ rest.flatMap Piece.chars := by
      rw [htext, List.mem_append, not_or] at hfeed hreturn
      exact ⟨hfeed.2, hreturn.2⟩
    rcases Nat.lt_or_ge (rest.countP Piece.isCall) (max frontEnd.settings.nestingLimit 1) with
      hroom | hfull
    · obtain ⟨remarks, hcompile⟩ := compile_line hname htail hplain hchars hroom
      rw [hcompile] at h
      obtain rfl := Except.ok.inj h
      exact ⟨String.ofList name, rest, hname, htail, hchars, hroom, rfl⟩
    · obtain ⟨place, hcompile⟩ := compile_line_error hname htail hplain hchars hfull
      rw [hcompile] at h
      cases h
  | text content =>
    obtain ⟨next, hnext, -⟩ := State.exists_feed_of_run hrun
    rw [Piece.word, State.feed_text_start (.inl rfl)] at hnext
    cases hnext
  | indent blanks => exact hpiece.elim
  | lineBreak kind => exact hpiece.elim

end FrontEnd

end Offside
