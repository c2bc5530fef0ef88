import Offside.Proofs.Layout.Offers
import Offside.Proofs.Tree.Branch

/-!
# Closed calls stay as they are

Wherever the reader is, closing all that is open gives the forest as it stands. The open calls
begin its rightmost branch. A token edits that forest once at most, and only at the end of the
open calls: there is a new outermost call, a new last argument of the innermost open call, or
more text at the end of its last argument. So whatever is not open keeps its address for good,
and stays as it is.
-/

namespace Offside

/-- The argument that a call or a text is when nothing is inside it. -/
def Token.item? (token : Token) : Option Item :=
  match token.word with
  | .call name => some (.call name token.position [])
  | .text content => some (.text content)
  | .lineBreak => none
  | .indent _ => none

/-! ### The branch of open calls -/

namespace Frame

/-- The arguments of the innermost open call, or all outermost calls when none is open. -/
def tip (roots : List Item) : List Frame → List Item
  | [] => roots
  | top :: _ => top.arguments.reverse

/-- The open calls behind some outermost ones, as the branch that they are once closed. -/
def branch (roots : List Item) : List Frame → List Bough
  | [] => []
  | top :: below => branch roots below ++ [⟨tip roots below, top.name, top.position⟩]

variable {roots : List Item}

/-- The innermost open call stands behind the earlier arguments of the call around it. -/
theorem address_branch (top : Frame) (below : List Frame) :
    Bough.address (branch roots (top :: below)) =
      Bough.address (branch roots below) ++ [(tip roots below).length] :=
  Bough.address_concat _ _

/-- The branch consists of the open calls. -/
theorem exists_frame_of_mem_branch {frames : List Frame} {bough : Bough}
    (h : bough ∈ branch roots frames) :
    ∃ frame ∈ frames, frame.name = bough.name ∧ frame.position = bough.position := by
  induction frames with
  | nil => cases h
  | cons top below ih =>
    rcases List.mem_append.mp h with hbelow | htop
    · obtain ⟨frame, hframe, hheading⟩ := ih hbelow
      exact ⟨frame, List.mem_cons_of_mem top hframe, hheading⟩
    · obtain rfl := List.mem_singleton.mp htop
      exact ⟨top, List.mem_cons_self, rfl, rfl⟩

/-- What the innermost call is closed into bears it as its last argument. -/
theorem bear_branch (top : Frame) (below : List Frame) :
    Bough.bear (branch roots (top :: below)) top.arguments.reverse =
      Bough.bear (branch roots below) (tip roots below ++ [top.call.toItem]) :=
  Bough.bear_concat _ _ _

/-- Open calls, once closed, are the last outermost call. -/
theorem concat_assemble (top : Frame) (below : List Frame) :
    roots ++ [(top.assemble below).toItem] =
      Bough.bear (branch roots (top :: below)) top.arguments.reverse := by
  induction below generalizing top with
  | nil => rfl
  | cons parent rest ih =>
    rw [bear_branch, assemble_cons, ih]
    change Bough.bear (branch roots (parent :: rest)) (top.closeInto parent).arguments.reverse = _
    rw [closeInto, push, List.reverse_cons]
    rfl

/-- Closing calls for an indent leaves a beginning of the branch. -/
theorem address_of_settle? {column : Column} {top : Frame} {below frames : List Frame}
    (h : settle? column top below = some frames) :
    Bough.address (branch roots frames) <+: Bough.address (branch roots (top :: below)) := by
  refine settle?_induction ?_ ?_ h
  · intro top below _
    exact List.prefix_rfl
  · intro top parent rest frames _ ih
    rw [address_branch top (parent :: rest)]
    exact ih.trans (List.prefix_append _ _)

/-- What open calls come to does not depend on the block of the innermost one. -/
theorem assemble_withBlock (top : Frame) (block : Column) (below : List Frame) :
    ({ top with block } : Frame).assemble below = top.assemble below := by
  cases below <;> rfl

end Frame

namespace State

/-- The closed outermost calls in order, as items. -/
def roots (state : State) : List Item :=
  state.closed.reverse.map Call.toItem

/-- The arguments of the innermost open call, or the forest when no call is open. -/
def tip (state : State) : List Item :=
  Frame.tip state.roots state.frames

/-- The open calls as the branch that they are in the forest as it stands. -/
def branch (state : State) : List Bough :=
  Frame.branch state.roots state.frames

/-- Whether what stands at an address may still change: the forest itself, an open call, or
behind text that text, which is the last argument of the innermost open call. -/
def IsOpen (state : State) (address : List Nat) : Prop :=
  address <+: Bough.address state.branch ∨
    state.phase = .text ∧ address = Bough.address state.branch ++ [state.tip.length - 1]

/-- Whether what stands at an address may still change can be decided. -/
instance (state : State) (address : List Nat) : Decidable (state.IsOpen address) :=
  inferInstanceAs (Decidable (_ ∨ _))

/-- What a token may do to the forest: nothing, or one edit at the end of the open calls. -/
inductive Edit (state : State) (token : Token) (forest : List Call) : Prop where
  /-- An indent, a line break, and blank text behind a call leave it as it is. -/
  | unchanged
      (htoken : token.item? = none ∨ state.phase = .call ∧ ∃ content,
        token.word = .text content ∧ Text.isBlankText content = true)
      (hforest : forest = state.forest)
  /-- A call at the start of a line becomes the last outermost call. -/
  | outermost {name : String} (hphase : state.phase = .lineStart ∨ state.phase = .blockStart)
      (htoken : token.word = .call name)
      (hforest : forest = state.forest ++ [⟨name, token.position, []⟩])
  /-- Elsewhere a call or a text becomes the last argument of the innermost open call. -/
  | argument {item : Item} (hopen : state.frames ≠ []) (hphase : state.phase ≠ .text)
      (htoken : token.item? = some item)
      (hforest : forest.map Call.toItem = Bough.bear state.branch (state.tip ++ [item]))
  /-- Behind text it goes on with that text. -/
  | continued {earlier : List Item} {start content : String} (hopen : state.frames ≠ [])
      (hphase : state.phase = .text) (htoken : token.word.content? = some content)
      (htip : state.tip = earlier ++ [.text start])
      (hforest : forest.map Call.toItem =
        Bough.bear state.branch (earlier ++ [.text (start ++ content)]))

variable {limit : Nat} {state next : State} {token : Token} {tokens rest : List Token}

/-- The forest ends in the branch of the open calls. -/
theorem map_forest (state : State) :
    state.forest.map Call.toItem = Bough.bear state.branch state.tip := by
  rw [forest, closeAll, tip, branch]
  cases state.frames with
  | nil => rfl
  | cons top below =>
    rw [List.reverse_cons, List.map_append]
    exact Frame.concat_assemble top below

/-- While a call is open the forest ends in the branch of the open calls, and that in the
arguments of the innermost one. -/
theorem map_forest_of_frames {top : Frame} {below : List Frame}
    (hframes : state.frames = top :: below) :
    state.forest.map Call.toItem =
      Bough.bear (Frame.branch state.roots (top :: below)) top.arguments.reverse := by
  rw [map_forest, branch, tip, hframes, Frame.tip]

/-- Open calls that come to the same come to the same forest. -/
theorem forest_eq_of_assemble {top inner : Frame} {below outer : List Frame}
    (hframes : state.frames = top :: below) (hnext : next.frames = inner :: outer)
    (hclosed : next.closed = state.closed)
    (hassemble : inner.assemble outer = top.assemble below) : next.forest = state.forest := by
  simp only [forest, closeAll, hframes, hnext, hclosed, hassemble]

/-- Every token that is read edits the forest in one of these ways. -/
theorem edit_of_reads (h : Reads limit state token next) : state.Edit token next.forest := by
  cases h with
  | @continued _ content top grown below hphase hcontent hframes hgrown =>
    obtain ⟨start, earlier, harguments, rfl⟩ := Frame.eq_of_continueText? hgrown
    have htip : state.tip = earlier.reverse ++ [.text start] := by
      rw [tip, hframes, Frame.tip, harguments, List.reverse_cons]
    refine .continued (by simp [hframes]) hphase hcontent htip ?_
    rw [map_forest_of_frames rfl, branch, hframes, ← List.reverse_cons]
    rfl
  | openedRoot hphase => exact .outermost hphase rfl (forest_openRoot _ _ _)
  | @openedChild name place column top below hframes hroom hcolumn =>
    refine .argument (by simp [hframes]) ?_ rfl ?_
    · rcases hcolumn with ⟨hphase, -⟩ | ⟨hphase | hphase, -⟩ <;> simp [hphase]
    · rw [map_forest_of_frames rfl, branch, tip, hframes]
      exact Frame.bear_branch (.opened name place column) (top :: below)
  | dropped hphase hblank => exact .unchanged (.inr ⟨hphase, _, rfl, hblank⟩) rfl
  | @added content place phase top below hframes hphase =>
    refine .argument (by simp [hframes]) ?_ rfl ?_
    · rcases hphase with ⟨hphase, -⟩ | ⟨hphase | hphase, -⟩ <;> simp [hphase]
    · rw [map_forest_of_frames rfl, branch, tip, hframes, Frame.tip, ← List.reverse_cons]
      rfl
  | settled hframes hphase hsettle =>
    obtain ⟨inner, outer, rfl, -, hassemble⟩ := Frame.assemble_of_settle? hsettle
    exact .unchanged (.inl rfl) (forest_eq_of_assemble hframes rfl rfl hassemble)
  | begun hframes hphase hright =>
    exact .unchanged (.inl rfl)
      (forest_eq_of_assemble hframes rfl rfl (Frame.assemble_withBlock _ _ _))
  | ended hphase => exact .unchanged (.inl rfl) rfl
  | skippedIndent hphase => exact .unchanged (.inl rfl) rfl
  | cancelled hframes hphase =>
    exact .unchanged (.inl rfl)
      (forest_eq_of_assemble hframes rfl rfl (Frame.assemble_withBlock _ _ _))
  | skippedLine hphase => exact .unchanged (.inl rfl) rfl

/-! ### What is not open stays -/

variable {address : List Nat} {found : Item}

/-- An edit leaves what is not open as it is and where it is. -/
theorem descend?_of_edit {forest : List Call} (h : state.Edit token forest)
    (hclosed : ¬ state.IsOpen address) (hfound : Call.descend? state.forest address = some found) :
    Call.descend? forest address = some found := by
  have hbranch : ¬ address <+: Bough.address state.branch := fun habove => hclosed (.inl habove)
  cases h with
  | unchanged _ hforest => rwa [hforest]
  | @outermost name _ _ hforest =>
    -- an outermost call is added at the end of a branch without calls
    have hempty : ¬ address <+: Bough.address [] := fun habove =>
      hbranch (habove.trans List.nil_prefix)
    have hitems : forest.map Call.toItem =
        Bough.bear [] (state.forest.map Call.toItem ++ [.call name token.position []]) := by
      rw [hforest]
      exact List.map_append
    exact Call.descend?_of_added rfl hitems hempty hfound
  | argument _ _ _ hforest => exact Call.descend?_of_added state.map_forest hforest hbranch hfound
  | @continued earlier start content _ hphase _ htip hforest =>
    have hstate : state.forest.map Call.toItem =
        Bough.bear state.branch (earlier ++ [.text start]) := by
      rw [map_forest, htip]
    refine Call.descend?_of_continued hstate hforest ?_ hfound
    intro habove
    rcases List.prefix_concat_iff.mp habove with hlast | habove
    · refine hclosed (.inr ⟨hphase, ?_⟩)
      rw [hlast, htip, List.length_append, List.length_singleton, Nat.add_sub_cancel]
    · exact hbranch habove

/-- Where no more calls are open than before, and no text but one that went on before, nothing
is open that was closed. -/
theorem isOpen_of_above (h : next.IsOpen address)
    (hbranch : Bough.address next.branch <+: Bough.address state.branch)
    (htext : next.phase = .text → state.phase = .text ∧ next.tip.length = state.tip.length ∧
      Bough.address next.branch = Bough.address state.branch) : state.IsOpen address := by
  rcases h with habove | ⟨hphase, hlast⟩
  · exact .inl (habove.trans hbranch)
  · obtain ⟨hbefore, htip, hsame⟩ := htext hphase
    exact .inr ⟨hbefore, by rw [hlast, htip, hsame]⟩

/-- Up to where the next argument will be, there are only the open calls. -/
theorem isOpen_or_new (h : address <+: Bough.address state.branch ++ [state.tip.length]) :
    state.IsOpen address ∨ Call.descend? state.forest address = none := by
  rcases List.prefix_concat_iff.mp h with rfl | habove
  · exact .inr (Call.descend?_behind state.map_forest)
  · exact .inl (.inl habove)

/-- A token opens only what was open before or is new. -/
theorem isOpen_of_reads (h : Reads limit state token next) (hopen : next.IsOpen address) :
    state.IsOpen address ∨ Call.descend? state.forest address = none := by
  cases h with
  | @continued _ content top grown below hphase hcontent hframes hgrown =>
    obtain ⟨start, earlier, harguments, rfl⟩ := Frame.eq_of_continueText? hgrown
    have hbranch : Bough.address state.branch =
        Bough.address (Frame.branch state.roots (top :: below)) := by rw [branch, hframes]
    refine .inl (isOpen_of_above hopen ?_ fun _ => ⟨hphase, ?_, hbranch.symm⟩)
    · rw [hbranch]
      exact List.prefix_rfl
    · rw [tip, tip, hframes, Frame.tip, Frame.tip, harguments]
      simp
  | @openedRoot name place hphase =>
    rcases hopen with habove | ⟨htext, -⟩
    · have hroot : Bough.address ((state.openRoot name place).goto .call).branch =
          Bough.address [] ++ [(state.forest.map Call.toItem).length] := rfl
      rcases List.prefix_concat_iff.mp (hroot ▸ habove) with rfl | hempty
      · exact .inr (Call.descend?_behind rfl)
      · exact .inl (.inl (hempty.trans List.nil_prefix))
    · cases htext
  | @openedChild name place column top below hframes hroom hcolumn =>
    rcases hopen with habove | ⟨htext, -⟩
    · refine isOpen_or_new ?_
      rw [branch, tip, hframes]
      rwa [branch, Frame.address_branch] at habove
    · cases htext
  | dropped hphase hblank =>
    refine .inl (isOpen_of_above hopen List.prefix_rfl fun htext => ?_)
    cases hphase.symm.trans htext
  | @added content place phase top below hframes hphase =>
    refine isOpen_or_new ?_
    rw [branch, tip, hframes]
    rcases hopen with habove | ⟨-, hlast⟩
    · exact habove.trans (List.prefix_append _ _)
    · rw [hlast, tip, Frame.tip, Frame.push, List.reverse_cons, List.length_append,
        List.length_singleton, Nat.add_sub_cancel]
      exact List.prefix_rfl
  | settled hframes hphase hsettle =>
    refine .inl (isOpen_of_above hopen ?_ fun htext => nomatch htext)
    rw [branch, branch, hframes]
    exact Frame.address_of_settle? hsettle
  | begun hframes hphase hright =>
    refine .inl (isOpen_of_above hopen ?_ fun htext => nomatch htext)
    rw [branch, branch, hframes]
    exact List.prefix_rfl
  | ended hphase =>
    refine .inl (isOpen_of_above hopen List.prefix_rfl ?_)
    rcases hphase with ⟨-, rfl⟩ | ⟨-, rfl⟩ <;> exact fun htext => nomatch htext
  | skippedIndent hphase =>
    exact .inl (isOpen_of_above hopen List.prefix_rfl fun htext => nomatch htext)
  | cancelled hframes hphase =>
    refine .inl (isOpen_of_above hopen ?_ fun htext => nomatch htext)
    rw [branch, branch, hframes]
    exact List.prefix_rfl
  | skippedLine hphase => exact .inl hopen

/-- What is not open stays as it is and where it is, however many tokens are read. -/
theorem descend?_run (hclosed : ¬ state.IsOpen address)
    (hfound : Call.descend? state.forest address = some found) (tokens : List Token) :
    ¬ (state.run limit tokens).2.IsOpen address ∧
      Call.descend? (state.run limit tokens).2.forest address = some found := by
  refine of_run (motive := fun later => ¬ later.IsOpen address ∧
    Call.descend? later.forest address = some found) ?_ ⟨hclosed, hfound⟩
  intro before token after _ hreads ⟨hbefore, hthere⟩
  refine ⟨?_, descend?_of_edit (edit_of_reads hreads) hbefore hthere⟩
  intro hopen
  rcases isOpen_of_reads hreads hopen with hopen | hnone
  · exact hbefore hopen
  · rw [hnone] at hthere
    cases hthere

/-- What is not open stays in what is parsed. -/
theorem Passes.descend?_outcome {parser : Parser} {offers : Nat} {roots : List Call}
    (h : Passes parser.limit tokens offers state rest) (hclosed : ¬ state.IsOpen address)
    (hfound : Call.descend? state.forest address = some found)
    (hroots : (parser.parse tokens).outcome = .ok roots) :
    Call.descend? roots address = some found := by
  induction h with
  | @between read rest state htokens hrun =>
    obtain ⟨last, hlast, rfl⟩ := Parser.exists_run_of_outcome hroots
    rw [← htokens, run_append hrun] at hlast
    have hthere : Call.descend? (state.run parser.limit rest).2.forest address = some found :=
      (descend?_run hclosed hfound rest).2
    rwa [hlast] at hthere
  | @again offers state between token rest h hagain ih =>
    -- only the phase changes, and text goes on in neither of the two phases
    rcases phase_of_again hagain with ⟨hphase, rfl, -⟩ | ⟨hphase, rfl⟩
    all_goals
      refine ih (fun hopen => hclosed ?_) hfound
      refine isOpen_of_above hopen List.prefix_rfl fun htext => ?_
      cases hphase.symm.trans htext

/-- What stands at an open address is an open call, or behind text that text. -/
theorem Passes.eq_of_isOpen {offers : Nat} (h : Passes limit tokens offers state rest)
    (hopen : state.IsOpen address) (hfound : Call.descend? state.forest address = some found) :
    address = [] ∨
      (∃ frame ∈ state.frames, ∃ arguments, found = .call frame.name frame.position arguments) ∨
      state.phase = .text ∧ ∃ content, found = .text content := by
  have hparts : (Item.quoted (state.forest.map Call.toItem)).parts =
      Bough.bear state.branch state.tip := state.map_forest
  rcases hopen with habove | ⟨hphase, rfl⟩
  · rcases Bough.exists_mem_of_descend? hparts habove hfound with
      hnil | ⟨bough, hbough, arguments, rfl⟩
    · exact .inl hnil
    · obtain ⟨frame, hframe, hname, hposition⟩ := Frame.exists_frame_of_mem_branch hbough
      exact .inr (.inl ⟨frame, hframe, arguments, by rw [hname, hposition]⟩)
  · have hsteady : state.Steady := by
      obtain ⟨-, -, ⟨-, hroot, -⟩ | ⟨hsteady, -⟩⟩ := h.steady_or_meetsRoot
      · cases hroot.symm.trans hphase
      · exact hsteady
    obtain ⟨top, below, start, earlier, hframes, harguments⟩ := hsteady.ends_in_text hphase
    have htip : state.tip = earlier.reverse ++ [.text start] := by
      rw [tip, hframes, Frame.tip, harguments, List.reverse_cons]
    rw [Call.descend?, Bough.descend?_tip hparts, htip, List.length_append, List.length_singleton,
      Nat.add_sub_cancel, List.getElem?_concat_length] at hfound
    exact .inr (.inr ⟨hphase, start, (Option.some.inj hfound).symm⟩)

end State

/-! ### Parsing -/

/-- Closed calls are never touched again. Whatever the reader passes through, the forest as it
stands ends in the branch of the open calls. A token that is read edits it once at most: it
adds an outermost call, or an argument of the innermost open call, or it continues the text
that is the last argument of that; an indent edits nothing. Whatever stands anywhere else than
at the address of an open call, or behind text at the address of that text, stays as it is and
where it is, whatever tokens follow, and is part of what is parsed. -/
theorem parse_keeps_closed {parser : Parser} {tokens rest : List Token} {offers : Nat}
    {state : State} (h : State.Passes parser.limit tokens offers state rest) :
    state.forest.map Call.toItem = Bough.bear state.branch state.tip ∧
    (∀ token next, state.feed parser.limit token = .ok next →
      state.Edit token next.forest ∧
        ∀ width, token.word = .indent width → next.forest = state.forest) ∧
    ∀ address found, Call.descend? state.forest address = some found →
      (state.IsOpen address → address = [] ∨
        (∃ frame ∈ state.frames, ∃ arguments,
          found = .call frame.name frame.position arguments) ∨
        state.phase = .text ∧ ∃ content, found = .text content) ∧
      (¬ state.IsOpen address →
        (∀ later, let reached := (state.run parser.limit later).2
          ¬ reached.IsOpen address ∧ Call.descend? reached.forest address = some found) ∧
        ∀ roots, (parser.parse tokens).outcome = .ok roots →
          Call.descend? roots address = some found) := by
  refine ⟨state.map_forest, ?_, ?_⟩
  · intro token next hfeed
    have hedit := State.edit_of_reads (State.reads_of_feed hfeed)
    refine ⟨hedit, ?_⟩
    intro width hword
    cases hedit with
    | unchanged _ hforest => exact hforest
    | outermost _ htoken => cases htoken.symm.trans hword
    | argument _ _ htoken =>
      rw [Token.item?, hword] at htoken
      cases htoken
    | continued _ _ htoken =>
      rw [hword] at htoken
      cases htoken
  · intro address found hfound
    refine ⟨fun hopen => h.eq_of_isOpen hopen hfound, fun hclosed => ⟨?_, ?_⟩⟩
    · exact fun later => State.descend?_run hclosed hfound later
    · exact fun roots hroots => h.descend?_outcome hclosed hfound hroots

/-- Behind the indent that closes a call, that call is closed for good: the text on the line
goes to the call around it. -/
theorem parse_keeps_closed_block :
    let tokens : List Token := [⟨.call "$$a", ⟨1, 1⟩⟩, ⟨.lineBreak, ⟨1, 4⟩⟩, ⟨.indent 2, ⟨2, 1⟩⟩,
      ⟨.call "$$b", ⟨2, 3⟩⟩, ⟨.text " x", ⟨2, 6⟩⟩, ⟨.lineBreak, ⟨2, 8⟩⟩, ⟨.indent 2, ⟨3, 1⟩⟩,
      ⟨.text "y", ⟨3, 3⟩⟩]
    let inner : Item := .call "$$b" ⟨2, 3⟩ [.text " x"]
    let state : State :=
      ⟨.indented, [⟨"$$a", ⟨1, 1⟩, .leftmost, .number 2, [inner]⟩], [], [], []⟩
    let roots : List Call := [⟨"$$a", ⟨1, 1⟩, [inner, .text "y"]⟩]
    State.Passes Parser.standard.limit tokens 0 state [⟨.text "y", ⟨3, 3⟩⟩] ∧
      ¬ state.IsOpen [0, 0] ∧
      Call.descend? state.forest [0, 0] = some inner ∧
      (Parser.standard.parse tokens).outcome = .ok roots ∧
      Call.descend? roots [0, 0] = some inner := by
  intro tokens inner state roots
  have hpasses : State.Passes Parser.standard.limit tokens 0 state [⟨.text "y", ⟨3, 3⟩⟩] :=
    .between (show tokens.take 7 ++ [⟨.text "y", ⟨3, 3⟩⟩] = tokens from rfl) rfl
  have hclosed : ¬ state.IsOpen [0, 0] := by decide
  have hfound : Call.descend? state.forest [0, 0] = some inner := rfl
  have hroots : (Parser.standard.parse tokens).outcome = .ok roots := rfl
  obtain ⟨-, -, hstands⟩ := parse_keeps_closed hpasses
  obtain ⟨-, hstays⟩ := hstands [0, 0] inner hfound
  exact ⟨hpasses, hclosed, hfound, hroots, (hstays hclosed).2 roots hroots⟩

end Offside
