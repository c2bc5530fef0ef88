import Mathlib.Data.List.Basic
import Offside.Proofs.Layout.Reads
import Offside.Proofs.Tree.Preorder

/-!
# Nothing is lost, doubled or moved

While a token list is read, calls move from the open ones into arguments and on into the
forest. Walking over the forest as it stands shows that this never loses, doubles or moves
anything: each token adds what it spells at the end of the walk, or nothing if it is a text
that was dropped with a remark.
-/

namespace Offside

/-! ### What a token adds -/

section Gathering

variable {α : Type} (ofText : String → List α) (ofCall : String → Position → List α)

/-- What the walk over the forest gains by a token: a call or a text, unless that is blank
text behind a call. A call behind text counts as text. -/
def State.gathered (state : State) (token : Token) : List α :=
  match token.word with
  | .call name => if state.phase = .text then ofText name else ofCall name token.position
  | .text content =>
    if state.phase = .call ∧ Text.isBlankText content = true then [] else ofText content
  | .lineBreak => []
  | .indent _ => []

/-- Growing the innermost call is all that happens to the walk. -/
theorem State.collectAll_forest_of_frames {state next : State} {top grown : Frame}
    {below : List Frame} {added : List α} (hframes : state.frames = top :: below)
    (hnext : next.frames = grown :: below) (hclosed : next.closed = state.closed)
    (hgrown : grown.collect ofText ofCall = top.collect ofText ofCall ++ added) :
    Call.collectAll ofText ofCall next.forest =
      Call.collectAll ofText ofCall state.forest ++ added := by
  rw [collectAll_forest, collectAll_forest, hframes, hnext, hclosed]
  simp [hgrown]

/-- A token adds to the end of the walk what it spells. -/
theorem State.collectAll_forest_of_reads (htext : ∀ a b, ofText (a ++ b) = ofText a ++ ofText b)
    {limit : Nat} {state next : State} {token : Token} (h : Reads limit state token next) :
    Call.collectAll ofText ofCall next.forest =
      Call.collectAll ofText ofCall state.forest ++ state.gathered ofText ofCall token := by
  cases h with
  | @continued token content _ _ _ hphase hcontent hframes hgrown =>
    have hgathered : state.gathered ofText ofCall token = ofText content := by
      obtain ⟨word, place⟩ := token
      cases word with
      | call name =>
        cases hcontent
        simp [gathered, hphase]
      | text content =>
        cases hcontent
        simp [gathered, hphase]
      | lineBreak => cases hcontent
      | indent width => cases hcontent
    rw [hgathered]
    exact collectAll_forest_of_frames ofText ofCall hframes rfl rfl
      (Frame.collect_of_continueText? ofText ofCall htext hgrown)
  | @openedRoot name place hphase =>
    have hnot : state.phase ≠ .text := by rcases hphase with h | h <;> simp [h]
    rw [forest_goto, forest_openRoot, Call.collectAll, List.map_append, Item.collectAll_append]
    simp [gathered, hnot, Call.collectAll, Call.toItem, Item.collectAll, Item.collect]
  | @openedChild name place column top below hframes hroom hcolumn =>
    have hnot : state.phase ≠ .text := by
      rcases hcolumn with ⟨h, _⟩ | ⟨h | h, _⟩ <;> simp [h]
    rw [collectAll_forest, collectAll_forest, hframes]
    simp [gathered, hnot, Frame.collect_opened]
  | dropped hphase hblank =>
    rw [forest_report]
    simp [gathered, hphase, hblank]
  | @added content place phase top below hframes hphase =>
    have hkept : ¬ (state.phase = .call ∧ Text.isBlankText content = true) := by
      rcases hphase with ⟨_, _, h⟩ | ⟨h | h, _⟩ <;> simp [h]
    have hgathered : state.gathered ofText ofCall ⟨.text content, place⟩ = ofText content :=
      if_neg hkept
    rw [hgathered]
    refine collectAll_forest_of_frames ofText ofCall hframes rfl rfl ?_
    rw [Frame.collect_push, Item.collect]
  | settled hframes hphase hsettle =>
    obtain ⟨inner, outer, rfl, _, hassemble⟩ := Frame.assemble_of_settle? hsettle
    simp [forest, closeAll, hframes, hassemble, gathered]
  | begun hframes hphase hright =>
    exact collectAll_forest_of_frames ofText ofCall hframes rfl rfl (List.append_nil _).symm
  | ended hphase => exact (List.append_nil _).symm
  | skippedIndent hphase => exact (List.append_nil _).symm
  | cancelled hframes hphase =>
    exact collectAll_forest_of_frames ofText ofCall hframes rfl rfl (List.append_nil _).symm
  | skippedLine hphase => exact (List.append_nil _).symm

end Gathering

/-! ### The words and the headings of a forest -/

/-- The names and the texts of a forest, calls before their arguments, joined. -/
def Call.spelling (calls : List Call) : List Char :=
  collectAll String.toList (fun name _ => name.toList) calls

/-- The names of all calls of a forest with their places, calls before their arguments. -/
def Call.headings (calls : List Call) : List (String × Position) :=
  collectAll (fun _ => []) (fun name place => [(name, place)]) calls

namespace State.Reading

/-- A text that is dropped with a remark. -/
def dropsText (reading : Reading) : Bool :=
  match reading.token.word with
  | .text _ =>
    reading.after.remarks = ⟨.blankArgument, reading.token.position⟩ :: reading.before.remarks
  | _ => false

/-- What a call or a text spells, and nothing for any other token. -/
def spelling (reading : Reading) : List Char :=
  (reading.token.word.content?.getD "").toList

/-- The name and the place of a call that does not stand behind text. -/
def heading? (reading : Reading) : Option (String × Position) :=
  match reading.token.word with
  | .call name => if reading.before.phase = .text then none else some (name, reading.token.position)
  | _ => none

end State.Reading

/-- Only blank text behind a call is dropped. -/
theorem State.dropsText_of_reads {limit : Nat} {state next : State} {content : String}
    {place : Position} (h : Reads limit state ⟨.text content, place⟩ next) :
    Reading.dropsText ⟨state, ⟨.text content, place⟩, next⟩ = true ↔
      state.phase = .call ∧ Text.isBlankText content = true := by
  cases h with
  | continued hphase hcontent hframes hgrown => simp [Reading.dropsText, hphase]
  | dropped hphase hblank => simp [Reading.dropsText, hphase, hblank, report]
  | added hframes hphase =>
    rcases hphase with ⟨_, _, h⟩ | ⟨h | h, _⟩ <;> simp [Reading.dropsText, h]

/-- A token that is not dropped adds what it spells to what the forest spells. -/
theorem State.gathered_spelling {limit : Nat} {state next : State} {token : Token}
    (h : Reads limit state token next) :
    state.gathered String.toList (fun name _ => name.toList) token =
      if Reading.dropsText ⟨state, token, next⟩ then []
      else Reading.spelling ⟨state, token, next⟩ := by
  obtain ⟨word, place⟩ := token
  cases word with
  | call name => simp [gathered, Reading.dropsText, Reading.spelling, Word.content?]
  | lineBreak => rfl
  | indent width => rfl
  | text content =>
    have hdrops := dropsText_of_reads h
    simp only [gathered, ← hdrops]
    rfl

/-- A call that is not part of a text adds a heading. -/
theorem State.gathered_headings (state next : State) (token : Token) :
    state.gathered (fun _ => []) (fun name place => [(name, place)]) token =
      (Reading.heading? ⟨state, token, next⟩).toList := by
  obtain ⟨word, place⟩ := token
  cases word with
  | call name => by_cases h : state.phase = .text <;> simp [gathered, Reading.heading?, h]
  | lineBreak => rfl
  | indent width => rfl
  | text content => simp [gathered, Reading.heading?]

/-! ### Parsing -/

/-- What is left out of a list adds nothing. -/
theorem flatMap_filter_not {α β : Type} (p : α → Bool) (f : α → List β) (list : List α) :
    (list.filter fun a => !p a).flatMap f = list.flatMap fun a => if p a then [] else f a := by
  induction list with
  | nil => rfl
  | cons a rest ih => cases hp : p a <;> simp [hp, ih]

/-- Parsing loses nothing, doubles nothing and moves nothing. The names and texts of the
forest, calls before their arguments, are what the calls and texts of the token list spell,
in the order of the tokens, but for the texts that were dropped with a remark. The calls of
the forest are the call tokens that did not come behind text on their line, each with its
place. -/
theorem parse_conserves {parser : Parser} {tokens : List Token} {roots : List Call}
    (h : (parser.parse tokens).outcome = .ok roots) :
    let readings := State.initial.readings parser.limit tokens
    readings.map State.Reading.token = tokens ∧
      Call.spelling roots =
        (readings.filter fun reading => !reading.dropsText).flatMap State.Reading.spelling ∧
      Call.headings roots = readings.filterMap State.Reading.heading? := by
  intro readings
  obtain ⟨last, hrun, rfl⟩ := Parser.exists_run_of_outcome h
  refine ⟨State.map_token_readings hrun, ?_, ?_⟩
  · have hspelling := State.append_of_run (fun state => Call.spelling state.forest)
      (fun reading => if reading.dropsText then [] else reading.spelling)
      (fun hreads => by
        rw [Call.spelling, State.collectAll_forest_of_reads _ _ (fun _ _ => String.toList_append)
          hreads, State.gathered_spelling hreads]
        rfl) hrun
    rw [hspelling, flatMap_filter_not]
    rfl
  · have hheadings := State.append_of_run (fun state => Call.headings state.forest)
      (fun reading => reading.heading?.toList)
      (fun {state token next} hreads => by
        rw [Call.headings, State.collectAll_forest_of_reads _ _ (fun _ _ => rfl) hreads,
          State.gathered_headings state next]
        rfl) hrun
    rw [hheadings, List.filterMap_eq_flatMap_toList]
    rfl

/-- A blank text behind a call is dropped, and a call behind text is spelled as text. -/
theorem parse_conserves_block :
    (Parser.standard.parse [⟨.call "$$a", ⟨1, 1⟩⟩, ⟨.text "  ", ⟨1, 4⟩⟩, ⟨.lineBreak, ⟨1, 6⟩⟩,
      ⟨.indent 2, ⟨2, 1⟩⟩, ⟨.text "x ", ⟨2, 3⟩⟩, ⟨.call "$$b", ⟨2, 5⟩⟩]).outcome =
        .ok [⟨"$$a", ⟨1, 1⟩, [.text "x $$b"]⟩] ∧
      Call.spelling [⟨"$$a", ⟨1, 1⟩, [.text "x $$b"]⟩] = "$$ax $$b".toList ∧
      Call.headings [⟨"$$a", ⟨1, 1⟩, [.text "x $$b"]⟩] = [("$$a", ⟨1, 1⟩)] := by
  have houtcome : (Parser.standard.parse [⟨.call "$$a", ⟨1, 1⟩⟩, ⟨.text "  ", ⟨1, 4⟩⟩,
      ⟨.lineBreak, ⟨1, 6⟩⟩, ⟨.indent 2, ⟨2, 1⟩⟩, ⟨.text "x ", ⟨2, 3⟩⟩,
      ⟨.call "$$b", ⟨2, 5⟩⟩]).outcome = .ok [⟨"$$a", ⟨1, 1⟩, [.text "x $$b"]⟩] := rfl
  obtain ⟨_, hspelling, hheadings⟩ := parse_conserves houtcome
  exact ⟨houtcome, hspelling.trans (by decide), hheadings.trans (by decide)⟩

end Offside
