import Offside.Proofs.Layout.Transfer

/-!
# One source behind another

A call at the left edge closes all that is open. So what comes from there on is read as if
nothing had been read before: its calls stand behind those of the earlier lines, its remarks
behind theirs, and it is at fault only if it is at fault on its own.
-/

namespace Offside

namespace State

variable {limit : ℕ} {state : State}

/-- A line may end anywhere, and that changes nothing in the forest. -/
theorem Steady.exists_feed_break (h : state.Steady) (limit : ℕ) (place : Position) :
    ∃ next, state.feed limit ⟨.lineBreak, place⟩ = .ok next ∧
      (next.phase = .lineStart ∨ next.phase = .blockStart) ∧ next.forest = state.forest := by
  cases hphase : state.phase with
  | lineStart | blockStart =>
    exact ⟨_, feed_break_start (by simp [hphase]), by simp [report, hphase], forest_report _ _ _⟩
  | text => exact ⟨_, feed_break_text hphase, .inl rfl, forest_goto _ _⟩
  | call => exact ⟨_, feed_break_call hphase, .inr rfl, forest_goto _ _⟩
  | indented => exact ⟨_, feed_break_indented hphase, .inl rfl, rfl⟩
  | blockIndented =>
    obtain ⟨top, below, hframes⟩ := h.exists_frames (by simp [hphase])
    have hforest : State.forest
        { state.report .cancelledBlock place with
          phase := .blockStart
          frames := { top with block := .beyond } :: below } = state.forest := by
      simp only [forest, closeAll, hframes, Frame.assemble]
      cases below <;> rfl
    exact ⟨_, feed_break_blockIndented hphase hframes, .inr rfl, hforest⟩

/-- From an outermost call on, a list is read as if it stood alone, behind what is closed by
then. -/
theorem run_call_behind (hphase : state.phase = .lineStart ∨ state.phase = .blockStart)
    (name : String) (place : Position) (rest : List Token) :
    let alone := initial.run limit (⟨.call name, place⟩ :: rest)
    state.run limit (⟨.call name, place⟩ :: rest) =
      (alone.1, (Transfer.prior state.closeAll state.remarks state.events).state alone.2) := by
  have hopened : (state.openRoot name place).goto .call =
      (Transfer.prior state.closeAll state.remarks state.events).state
        ((initial.openRoot name place).goto .call) := rfl
  have hfirst : initial.feed limit ⟨.call name, place⟩ =
      .ok ((initial.openRoot name place).goto .call) := feed_call_start (.inl rfl) name
  intro alone
  simp only [alone, run_cons_of_ok (feed_call_start hphase name), run_cons_of_ok hfirst]
  rw [hopened, Transfer.run_prior]

end State

/-! ### Parsing -/

/-- What begins at the left edge is parsed on its own. If a token list can be parsed, then the
list with a line break and with another list behind it that begins with a call comes to what
the other list comes to: the same fault, or the roots of the one behind the roots of the
other. Either way the remarks and the events on the two parts follow each other. -/
theorem parse_behind {parser : Parser} {front : List Token} {roots : List Call}
    (hfront : (parser.parse front).outcome = .ok roots) (broken : Position) (name : String)
    (place : Position) (rest : List Token) :
    let ended := parser.parse (front ++ [⟨.lineBreak, broken⟩])
    let alone := parser.parse (⟨.call name, place⟩ :: rest)
    let whole := parser.parse (front ++ [⟨.lineBreak, broken⟩] ++ ⟨.call name, place⟩ :: rest)
    whole.outcome = alone.outcome.map (roots ++ ·) ∧
      whole.parser.remarks = ended.parser.remarks ++ alone.parser.remarks ∧
      whole.events = ended.events ++ alone.events := by
  obtain ⟨last, hrun, rfl⟩ := Parser.exists_run_of_outcome hfront
  obtain ⟨hsteady, -⟩ := State.steady_of_run (List.append_nil front) hrun
  obtain ⟨next, hfeed, hphase, hforest⟩ := hsteady.exists_feed_break parser.limit broken
  have hended : State.initial.run parser.limit (front ++ [⟨.lineBreak, broken⟩]) =
      (none, next) := by
    rw [State.run_append hrun, State.run_cons_of_ok hfeed]
    rfl
  have hwhole := State.run_append hended (⟨.call name, place⟩ :: rest)
  rw [State.run_call_behind hphase] at hwhole
  simp only [Parser.parse, Parser.state_reset, hended, hwhole]
  generalize State.initial.run parser.limit (⟨.call name, place⟩ :: rest) = alone
  refine ⟨?_, ?_, ?_⟩
  · cases alone.1 with
    | some fault => rfl
    | none =>
      rw [Transfer.forest_prior]
      change Except.ok (next.forest ++ alone.2.forest) = _
      rw [hforest]
      rfl
  · rw [Transfer.state_prior, List.reverse_append]
  · rw [Transfer.state_prior, List.reverse_append]

/-- Behind a block whose first line ends at its indent, a call is at fault as on its own. -/
theorem parse_behind_block :
    let front : List Token := [⟨.call "$$a", ⟨1, 1⟩⟩, ⟨.lineBreak, ⟨1, 4⟩⟩, ⟨.indent 2, ⟨2, 1⟩⟩]
    let back : List Token := [⟨.call "$$b", ⟨3, 1⟩⟩, ⟨.text " x", ⟨3, 4⟩⟩, ⟨.lineBreak, ⟨3, 6⟩⟩,
      ⟨.indent 2, ⟨4, 1⟩⟩, ⟨.call "$$c", ⟨4, 3⟩⟩, ⟨.indent 4, ⟨4, 6⟩⟩]
    let whole := Parser.standard.parse (front ++ [⟨.lineBreak, ⟨2, 3⟩⟩] ++ back)
    (Parser.standard.parse front).outcome = .ok [⟨"$$a", ⟨1, 1⟩, []⟩] ∧
      whole.outcome = .error (.indentAfterCall ⟨4, 6⟩) ∧
      whole.parser.remarks = [⟨.cancelledBlock, ⟨2, 3⟩⟩] := by
  intro front back whole
  have hfront : (Parser.standard.parse front).outcome = .ok [⟨"$$a", ⟨1, 1⟩, []⟩] := rfl
  obtain ⟨houtcome, hremarks, -⟩ := parse_behind hfront ⟨2, 3⟩ "$$b" ⟨3, 1⟩ back.tail
  exact ⟨hfront, houtcome, hremarks⟩

end Offside
