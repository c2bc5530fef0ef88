import Mathlib.Order.Monotone.Basic
import Offside.Proofs.Layout.Transfer

/-!
# Only the order of columns matters

How wide the indents of a source are does not matter, as long as wider ones stay wider and
what stands leftmost stays there. A list whose indents are spaced otherwise is parsed into the
same forest, with the same remarks, or is at fault in the same way.
-/

namespace Offside

/-! ### Other widths -/

/-- The word with another width, if it is an indent. -/
def Word.respaced (width : ℕ → ℕ) : Word → Word
  | .indent blanks => .indent (width blanks)
  | word => word

/-- The token with another width, if it is an indent. -/
def Token.respaced (width : ℕ → ℕ) (token : Token) : Token :=
  ⟨token.word.respaced width, token.position⟩

/-- The fault with another width, if it is about an indent that leads nowhere. -/
def Fault.respaced (width : ℕ → ℕ) : Fault → Fault
  | .unmatchedIndent blanks position => .unmatchedIndent (width blanks) position
  | fault => fault

/-- The widths of the indents in a token list, and that of no indent. -/
def indentWidths (tokens : List Token) : Set ℕ :=
  {width | width = 0 ∨ ∃ token ∈ tokens, token.word = .indent width}

namespace Transfer

/-- Carries a source to where its indents have other widths. -/
def spacing (width : ℕ → ℕ) : Transfer := { width := width }

/-- The transfer gives indents other widths and changes no other token. -/
theorem token_spacing (width : ℕ → ℕ) : (spacing width).token = Token.respaced width := by
  funext ⟨word, place⟩
  cases word <;> rfl

/-- Of the faults it changes those that name a width. -/
theorem fault_spacing (width : ℕ → ℕ) : (spacing width).fault = Fault.respaced width := by
  funext fault
  cases fault <;> rfl

/-- A change of widths that keeps their order is not told by a reader. -/
theorem keeps_spacing {tokens : List Token} {width : ℕ → ℕ} (hzero : width 0 = 0)
    (hmono : StrictMonoOn width (indentWidths tokens))
    (hfits : ∀ blanks ∈ indentWidths tokens,
      blanks < Text.greatestCount ∧ width blanks < Text.greatestCount) :
    (spacing width).Keeps (indentWidths tokens) where
  spell_append _ _ := rfl
  isBlankText_spell _ := rfl
  zero_mem := .inl rfl
  width_zero := hzero
  width_lt _ ha _ hb := hmono.lt_iff_lt ha hb
  width_fits a ha := iff_of_true (hfits a ha).2 (hfits a ha).1

end Transfer

/-! ### Parsing -/

/-- Only the order of columns matters. If the widths of the indents in a token list are
replaced so that their order stays, and so that they still lead to columns of their own, the
list is parsed into the same forest with the same remarks and events. If it was at fault, it
is at fault in the same way; the fault names the new width if it is about an indent that leads
nowhere. -/
theorem parse_respaced (parser : Parser) (tokens : List Token) {width : ℕ → ℕ}
    (hzero : width 0 = 0) (hmono : StrictMonoOn width (indentWidths tokens))
    (hfits : ∀ blanks ∈ indentWidths tokens,
      blanks < Text.greatestCount ∧ width blanks < Text.greatestCount) :
    let parsed := parser.parse tokens
    let respaced := parser.parse (tokens.map (Token.respaced width))
    respaced.outcome = parsed.outcome.mapError (Fault.respaced width) ∧
      respaced.parser.remarks = parsed.parser.remarks ∧ respaced.events = parsed.events := by
  intro parsed respaced
  let t := Transfer.spacing width
  have hcall : t.call = id := Transfer.call_of_id rfl rfl
  have hremark : t.remark = id := Transfer.remark_of_id rfl
  have hevent : t.event = id := Transfer.event_of_id rfl
  have hrun : State.initial.run parser.limit (tokens.map (Token.respaced width)) =
      ((State.initial.run parser.limit tokens).1.map (Fault.respaced width),
        t.state (State.initial.run parser.limit tokens).2) := by
    have hkeeps := Transfer.keeps_spacing hzero hmono hfits
    have hamong : State.initial.Among (indentWidths tokens) := fun _ hframe => nomatch hframe
    have h := hkeeps.run_state hamong
      (fun token htoken blanks hword => .inr ⟨token, htoken, hword⟩) parser.limit
    rwa [Transfer.token_spacing, Transfer.fault_spacing] at h
  rcases hresult : State.initial.run parser.limit tokens with ⟨fault?, last⟩
  rw [hresult] at hrun
  have hforest : (t.state last).forest = last.forest := by
    rw [Transfer.forest_state, hcall, List.map_id]
    rfl
  have hremarks : (t.state last).remarks = last.remarks := by
    change last.remarks.map t.remark ++ [] = last.remarks
    rw [hremark, List.map_id, List.append_nil]
  have hevents : (t.state last).events = last.events := by
    change last.events.map t.event ++ [] = last.events
    rw [hevent, List.map_id, List.append_nil]
  simp only [parsed, respaced, Parser.parse, Parser.state_reset, hrun, hresult, hforest, hremarks,
    hevents, and_true]
  cases fault? <;> rfl

/-- The widths are squared. Before and after, the last indent leads to neither block. -/
theorem parse_respaced_block :
    let tokens : List Token := [⟨.call "$$a", ⟨1, 1⟩⟩, ⟨.lineBreak, ⟨1, 4⟩⟩,
      ⟨.indent 2, ⟨2, 1⟩⟩, ⟨.call "$$b", ⟨2, 3⟩⟩, ⟨.lineBreak, ⟨2, 6⟩⟩,
      ⟨.indent 4, ⟨3, 1⟩⟩, ⟨.text "x", ⟨3, 5⟩⟩, ⟨.lineBreak, ⟨3, 6⟩⟩, ⟨.indent 3, ⟨4, 1⟩⟩]
    let width : ℕ → ℕ := fun blanks => blanks * blanks
    StrictMonoOn width (indentWidths tokens) ∧
      (Parser.standard.parse tokens).outcome = .error (.unmatchedIndent 3 ⟨4, 1⟩) ∧
      (Parser.standard.parse (tokens.map (Token.respaced width))).outcome =
        .error (.unmatchedIndent 9 ⟨4, 1⟩) := by
  intro tokens width
  have hwidths : ∀ blanks ∈ indentWidths tokens,
      blanks = 0 ∨ blanks = 2 ∨ blanks = 3 ∨ blanks = 4 := by
    rintro blanks (rfl | ⟨token, htoken, hword⟩)
    · exact .inl rfl
    · simp only [tokens, List.mem_cons, List.not_mem_nil, or_false] at htoken
      rcases htoken with rfl | rfl | rfl | rfl | rfl | rfl | rfl | rfl | rfl <;> simp_all
  have hmono : StrictMonoOn width (indentWidths tokens) := by
    intro a _ b _ hab
    exact Nat.mul_lt_mul'' hab hab
  have hfits : ∀ blanks ∈ indentWidths tokens,
      blanks < Text.greatestCount ∧ width blanks < Text.greatestCount := by
    intro blanks hblanks
    rcases hwidths blanks hblanks with rfl | rfl | rfl | rfl <;> decide
  have houtcome : (Parser.standard.parse tokens).outcome =
      .error (.unmatchedIndent 3 ⟨4, 1⟩) := rfl
  obtain ⟨hrespaced, -, -⟩ := parse_respaced .standard tokens rfl hmono hfits
  rw [houtcome] at hrespaced
  exact ⟨hmono, houtcome, hrespaced⟩

end Offside
