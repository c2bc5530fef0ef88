import Offside.Proofs.Layout.Stack

/-!
# Offering a token again

A token is offered to the reader once, or twice where a line begins with a call or goes on
behind its indent. The second offer is always the last one. No offer, the first or the second,
fails for want of an open call or of a text to continue, so nothing that is parsed ends in
that fault.
-/

namespace Offside

namespace State

variable {limit : Nat} {state between : State} {token : Token}

/-! ### When a token is offered again -/

/-- An operation that takes the word does not offer it again. -/
theorem map_taken_ne_again (result : Except Fault State) (f : State → State) :
    (result.map fun next => Move.taken (f next)) ≠ .ok (.again between) := by
  cases result <;> simp [Except.map]

/-- A token is offered again in two cases: a call at the start of a line that continues no
call, and a call or a text behind an indent that begins no block. Only the phase changes. -/
theorem phase_of_again (h : state.offer limit token = .ok (.again between)) :
    (state.phase = .lineStart ∧ between = state.goto .blockStart ∧
        ∃ name, token.word = .call name) ∨
      (state.phase = .indented ∧ between = state.goto .blockIndented) := by
  obtain ⟨word, place⟩ := token
  cases word with
  | call name =>
    cases hphase : state.phase with
    | lineStart =>
      simp only [offer, offerCall, hphase, Except.ok.injEq, Move.again.injEq] at h
      exact .inl ⟨rfl, h.symm, name, rfl⟩
    | indented =>
      simp only [offer, offerCall, hphase, Except.ok.injEq, Move.again.injEq] at h
      exact .inr ⟨rfl, h.symm⟩
    | blockStart => simp [offer, offerCall, hphase] at h
    | text | call | blockIndented =>
      simp only [offer, offerCall, hphase] at h
      exact absurd h (map_taken_ne_again _ _)
  | text content =>
    cases hphase : state.phase with
    | indented =>
      simp only [offer, offerText, hphase, Except.ok.injEq, Move.again.injEq] at h
      exact .inr ⟨rfl, h.symm⟩
    | lineStart | blockStart => simp [offer, offerText, hphase] at h
    | call =>
      simp only [offer, offerText, hphase] at h
      split at h
      · cases h
      · exact absurd h (map_taken_ne_again _ _)
    | text | blockIndented =>
      simp only [offer, offerText, hphase] at h
      exact absurd h (map_taken_ne_again _ _)
  | indent width =>
    cases hphase : state.phase with
    | lineStart =>
      simp only [offer, offerIndent, hphase] at h
      exact absurd h (map_taken_ne_again _ _)
    | blockStart =>
      simp only [offer, offerIndent, hphase] at h
      split at h
      · cases h
      · split at h
        · cases h
        · exact absurd h (map_taken_ne_again _ _)
    | text | call | indented | blockIndented => simp [offer, offerIndent, hphase] at h
  | lineBreak =>
    cases hphase : state.phase with
    | blockIndented =>
      simp only [offer, offerLineBreak, hphase] at h
      exact absurd h (map_taken_ne_again _ _)
    | lineStart | blockStart | indented | text | call => simp [offer, offerLineBreak, hphase] at h

/-- A token that was offered again is not offered a third time. -/
theorem offer_ne_again (h : state.offer limit token = .ok (.again between)) (third : State) :
    between.offer limit token ≠ .ok (.again third) := by
  intro hthird
  have hphase : between.phase = .lineStart ∨ between.phase = .indented :=
    (phase_of_again hthird).imp And.left And.left
  rcases phase_of_again h with ⟨-, rfl, -⟩ | ⟨-, rfl⟩ <;> simp [goto] at hphase

/-! ### Offers do not fail for want of an open call -/

/-- An operation with a change of phase is at fault when the operation is. -/
theorem map_eq_error {α β : Type} {result : Except Fault α} {f : α → β} {fault : Fault}
    (h : result.map f = .error fault) : result = .error fault := by
  cases result with
  | error other => exact congrArg _ (Except.error.inj h)
  | ok a => cases h

/-- In a steady state no offer asks for a call that is not open or for a text that is not
there. -/
theorem Steady.offer_ne_noOpenCall (h : state.Steady) (token : Token) (place : Position) :
    state.offer limit token ≠ .error (.noOpenCall place) := by
  intro herror
  obtain ⟨word, here⟩ := token
  have hcontinue (content : String) (hphase : state.phase = .text) :
      state.continueText here content ≠ .error (.noOpenCall place) := by
    obtain ⟨top, below, start, earlier, hframes, harguments⟩ := h.ends_in_text hphase
    simp [continueText, hframes, Frame.continueText?, harguments]
  have hopen (column : Frame → Column) (name : String) (hphase : state.phase ≠ .lineStart) :
      state.openChild limit name here column ≠ .error (.noOpenCall place) := by
    obtain ⟨top, below, hframes⟩ := h.exists_frames hphase
    simp only [openChild, hframes]
    split <;> simp
  have hadd (item : Item) (hphase : state.phase ≠ .lineStart) :
      state.addArgument here item ≠ .error (.noOpenCall place) := by
    obtain ⟨top, below, hframes⟩ := h.exists_frames hphase
    simp [addArgument, updateTop, hframes]
  have hsettle (width : Nat) : state.settle width here ≠ .error (.noOpenCall place) := by
    unfold settle
    split
    · simp
    · split <;> simp
  cases word with
  | call name =>
    cases hphase : state.phase <;> simp only [offer, offerCall, hphase] at herror
    case text => exact hcontinue name hphase (map_eq_error herror)
    case call => exact hopen _ name (by simp [hphase]) (map_eq_error herror)
    case blockIndented => exact hopen _ name (by simp [hphase]) (map_eq_error herror)
    all_goals cases herror
  | text content =>
    cases hphase : state.phase <;> simp only [offer, offerText, hphase] at herror
    case text => exact hcontinue content hphase (map_eq_error herror)
    case call =>
      split at herror
      · cases herror
      · exact hadd _ (by simp [hphase]) (map_eq_error herror)
    case blockIndented => exact hadd _ (by simp [hphase]) (map_eq_error herror)
    all_goals cases herror
  | indent width =>
    cases hphase : state.phase <;> simp only [offer, offerIndent, hphase] at herror
    case lineStart => exact hsettle width (map_eq_error herror)
    case blockStart =>
      obtain ⟨top, below, hframes⟩ := h.exists_frames (by simp [hphase])
      simp only [hframes] at herror
      split at herror
      · cases herror
      · exact hsettle width (map_eq_error herror)
    all_goals cases herror
  | lineBreak =>
    cases hphase : state.phase <;> simp only [offer, offerLineBreak, hphase] at herror
    case blockIndented =>
      obtain ⟨top, below, hframes⟩ := h.exists_frames (by simp [hphase])
      simp [report, updateTop, hframes, Except.map] at herror
    all_goals cases herror

/-! ### Passing through a token list -/

/-- What the reader passes through with a token list: a state, the tokens that it has yet to
take, and how often the first of those has been offered to it already. -/
inductive Passes (limit : Nat) (tokens : List Token) : Nat → State → List Token → Prop where
  /-- It has taken some tokens, and the next one has not been offered. -/
  | between {read rest : List Token} {state : State} (htokens : read ++ rest = tokens)
      (hrun : initial.run limit read = (none, state)) : Passes limit tokens 0 state rest
  /-- The next token was offered, and is to be offered again. -/
  | again {offers : Nat} {state between : State} {token : Token} {rest : List Token}
      (h : Passes limit tokens offers state (token :: rest))
      (hagain : state.offer limit token = .ok (.again between)) :
      Passes limit tokens (offers + 1) between (token :: rest)

/-- A call at the left edge is about to be offered again, as an outermost one. The stack is
still that of the lines above. -/
def MeetsRoot (state : State) (offers : Nat) (rest : List Token) : Prop :=
  offers = 1 ∧ state.phase = .blockStart ∧ ∃ name place later, rest = ⟨.call name, place⟩ :: later

variable {tokens rest : List Token} {offers : Nat}

/-- Between two tokens the state is steady, and its columns are aligned if the indents lead to
columns of their own. -/
theorem steady_of_run {read : List Token} (htokens : read ++ rest = tokens)
    (hrun : initial.run limit read = (none, state)) :
    state.Steady ∧ ((∀ token ∈ tokens, token.Fits) → state.Aligned) := by
  have hlast : (initial.run limit read).2 = state := congrArg Prod.snd hrun
  constructor
  · rw [← hlast]
    exact of_run (fun _ => steady_of_reads) steady_initial
  · intro hfits
    have hread : ∀ token ∈ read, token.Fits := by
      intro token hmem
      exact hfits token (htokens ▸ List.mem_append_left rest hmem)
    rw [← hlast]
    exact of_run (fun hmem hreads => aligned_of_reads hreads (hread _ hmem)) aligned_initial

/-- The reader is between two tokens, or it was so just before the next one was offered. -/
theorem Passes.exists_steady (h : Passes limit tokens offers state rest) :
    (offers = 0 ∧ state.Steady ∧ ((∀ token ∈ tokens, token.Fits) → state.Aligned)) ∨
      offers = 1 ∧ ∃ (before : State) (token : Token) (later : List Token), rest = token :: later ∧
        before.offer limit token = .ok (.again state) ∧ before.Steady ∧
        ((∀ token ∈ tokens, token.Fits) → before.Aligned) := by
  induction h with
  | between htokens hrun => exact .inl ⟨rfl, steady_of_run htokens hrun⟩
  | again h hagain ih =>
    rcases ih with ⟨rfl, hsteady, haligned⟩ | ⟨-, before, other, later, hrest, hbefore, -⟩
    · exact .inr ⟨rfl, _, _, _, rfl, hagain, hsteady, haligned⟩
    · obtain ⟨rfl, -⟩ := List.cons.inj hrest
      exact absurd hagain (offer_ne_again hbefore _)

/-- What the reader passes through is steady, except where a call at the left edge is about to
be taken as an outermost one. Then the columns are those of the steady state before. -/
theorem Passes.steady_or_meetsRoot (h : Passes limit tokens offers state rest) :
    offers ≤ 1 ∧
      ((∀ token ∈ tokens, token.Fits) → Frame.Staggered state.frames) ∧
      (state.MeetsRoot offers rest ∨
        state.Steady ∧ ((∀ token ∈ tokens, token.Fits) → state.AwaitsBlock)) := by
  rcases h.exists_steady with
    ⟨rfl, hsteady, haligned⟩ | ⟨rfl, before, token, later, rfl, hagain, hsteady, haligned⟩
  · refine ⟨by omega, fun hfits => (haligned hfits).staggered, .inr ⟨hsteady, ?_⟩⟩
    intro hfits
    exact (haligned hfits).awaits
  · rcases phase_of_again hagain with ⟨hphase, rfl, name, hword⟩ | ⟨hphase, rfl⟩
    · refine ⟨Nat.le_refl 1, fun hfits => (haligned hfits).staggered, .inl ⟨rfl, rfl, ?_⟩⟩
      obtain ⟨word, place⟩ := token
      exact ⟨name, place, later, by rw [show word = .call name from hword]⟩
    · refine ⟨Nat.le_refl 1, fun hfits => (haligned hfits).staggered, .inr ⟨?_, ?_⟩⟩
      · constructor
        · intro _
          exact hsteady.frames_ne_nil (by simp [hphase])
        · intro htext
          cases htext
      · intro _ hstart
        rcases hstart with hstart | hstart <;> cases hstart

/-- No offer on the way fails for want of an open call. -/
theorem Passes.offer_ne_noOpenCall {token : Token}
    (h : Passes limit tokens offers state (token :: rest)) (place : Position) :
    state.offer limit token ≠ .error (.noOpenCall place) := by
  obtain ⟨-, -, hroot | ⟨hsteady, -⟩⟩ := h.steady_or_meetsRoot
  · -- an outermost call is taken whatever is open
    obtain ⟨-, hphase, name, here, later, hrest⟩ := hroot
    obtain ⟨rfl, -⟩ := List.cons.inj hrest
    simp [offer, offerCall, hphase]
  · exact hsteady.offer_ne_noOpenCall token place

/-- In a steady state no token that is read is at fault for want of an open call. -/
theorem Steady.feed_ne_noOpenCall (h : state.Steady) (token : Token) (place : Position) :
    state.feed limit token ≠ .error (.noOpenCall place) := by
  intro herror
  unfold feed at herror
  split at herror
  · next fault hoffer =>
    obtain rfl := Except.error.inj herror
    exact h.offer_ne_noOpenCall token place hoffer
  · cases herror
  · next between hagain =>
    have hbetween : between.offer limit token ≠ .error (.noOpenCall place) := by
      rcases phase_of_again hagain with ⟨-, rfl, name, hword⟩ | ⟨hphase, rfl⟩
      · simp [offer, hword, offerCall, goto]
      · have hsteady : (state.goto .blockIndented).Steady :=
          ⟨fun _ => h.frames_ne_nil (by simp [hphase]), by simp [goto]⟩
        exact hsteady.offer_ne_noOpenCall token place
    split at herror
    · next fault hoffer =>
      obtain rfl := Except.error.inj herror
      exact hbetween hoffer
    · cases herror
    · next third hthird => exact offer_ne_again hagain third hthird

/-- No run from a steady state ends for want of an open call. -/
theorem Steady.run_ne_noOpenCall (h : state.Steady) (tokens : List Token) (place : Position) :
    (state.run limit tokens).1 ≠ some (.noOpenCall place) := by
  induction tokens generalizing state with
  | nil => exact fun hnone => nomatch hnone
  | cons token rest ih =>
    cases hfeed : state.feed limit token with
    | error fault =>
      rw [run_cons_of_error hfeed]
      rintro hfault
      obtain rfl := Option.some.inj hfault
      exact h.feed_ne_noOpenCall token place hfeed
    | ok next =>
      rw [run_cons_of_ok hfeed]
      exact ih (steady_of_reads (reads_of_feed hfeed) h)

end State

/-! ### Parsing -/

/-- Whatever tokens are parsed, the parse does not fail for want of an open call, nor does any
offer on the way. No token is offered more than twice. Outside the start of a line that
continues no call some call is open, unless a call at the left edge is about to be taken as an
outermost one; behind text the latest argument is a text. If the indents lead to columns of
their own, the block of a call that a line may begin has not begun, the outermost call stands
leftmost, blocks stand to the right of their calls, and each other call stands in the block of
the call around it, or in the column of that as long as it has no block. -/
theorem parse_steady (parser : Parser) (tokens : List Token) :
    (∀ place, (parser.parse tokens).outcome ≠ .error (.noOpenCall place)) ∧
      ∀ offers state rest, State.Passes parser.limit tokens offers state rest →
        offers ≤ 1 ∧
        (state.frames = [] → state.phase = .lineStart ∨ state.MeetsRoot offers rest) ∧
        (state.phase = .text → ∃ top below start earlier,
          state.frames = top :: below ∧ top.arguments = .text start :: earlier) ∧
        (∀ token later, rest = token :: later →
          ∀ place, state.offer parser.limit token ≠ .error (.noOpenCall place)) ∧
        ((∀ token ∈ tokens, token.Fits) →
          (state.MeetsRoot offers rest ∨ state.AwaitsBlock) ∧ Frame.Staggered state.frames) := by
  constructor
  · intro place herror
    have hrun : (State.initial.run parser.limit tokens).1 ≠ some (.noOpenCall place) :=
      State.steady_initial.run_ne_noOpenCall tokens place
    rcases hresult : State.initial.run parser.limit tokens with ⟨_ | fault, last⟩
    · rw [Parser.outcome_of_run hresult] at herror
      cases herror
    · rw [Parser.outcome_of_run_error hresult] at herror
      rw [hresult, Except.error.inj herror] at hrun
      exact hrun rfl
  · intro offers state rest hpasses
    obtain ⟨hoffers, hstaggered, hsteady⟩ := hpasses.steady_or_meetsRoot
    refine ⟨hoffers, ?_, ?_, ?_, ?_⟩
    · intro hnil
      rcases hsteady with hroot | ⟨hsteady, -⟩
      · exact .inr hroot
      · by_contra hnot
        exact hsteady.frames_ne_nil (fun hphase => hnot (.inl hphase)) hnil
    · intro htext
      rcases hsteady with ⟨-, hphase, -⟩ | ⟨hsteady, -⟩
      · rw [hphase] at htext
        cases htext
      · exact hsteady.ends_in_text htext
    · rintro token later rfl place
      exact hpasses.offer_ne_noOpenCall place
    · intro hfits
      exact ⟨hsteady.imp_right fun h => h.2 hfits, hstaggered hfits⟩

/-- Behind the indent below two calls on one line: the second one has the block, and stands in
the column of the first one, which has none. -/
theorem parse_steady_chain :
    let tokens : List Token := [⟨.call "$$a", ⟨1, 1⟩⟩, ⟨.call "$$b", ⟨1, 4⟩⟩,
      ⟨.lineBreak, ⟨1, 7⟩⟩, ⟨.indent 2, ⟨2, 1⟩⟩, ⟨.text "x", ⟨2, 3⟩⟩]
    let state : State := ⟨.blockIndented, [⟨"$$b", ⟨1, 4⟩, .leftmost, .number 2, []⟩,
      ⟨"$$a", ⟨1, 1⟩, .leftmost, .beyond, []⟩], [], [], []⟩
    State.Passes 128 tokens 0 state [⟨.text "x", ⟨2, 3⟩⟩] ∧
      (∀ token ∈ tokens, token.Fits) ∧ Frame.Staggered state.frames := by
  intro tokens state
  have hpasses : State.Passes 128 tokens 0 state [⟨.text "x", ⟨2, 3⟩⟩] :=
    .between (show tokens.take 4 ++ [⟨.text "x", ⟨2, 3⟩⟩] = tokens from rfl) rfl
  have hfits : ∀ token ∈ tokens, token.Fits := by
    intro token htoken width hword
    simp only [tokens, List.mem_cons, List.not_mem_nil, or_false] at htoken
    rcases htoken with rfl | rfl | rfl | rfl | rfl
    case inr.inr.inr.inl =>
      obtain rfl : 2 = width := Word.indent.inj hword
      decide
    all_goals cases hword
  obtain ⟨-, hmoments⟩ := parse_steady .standard tokens
  obtain ⟨-, -, -, -, hcolumns⟩ := hmoments 0 state _ hpasses
  exact ⟨hpasses, hfits, (hcolumns hfits).2⟩

end Offside
