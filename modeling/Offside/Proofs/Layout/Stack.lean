import Mathlib.Data.List.Chain
import Offside.Proofs.Layout.Reads

/-!
# The stack of open calls

Whatever tokens are read, the reader never asks for an open call where there is none, and
never continues a text that is not there. Where in a line the reader is tells which calls are
open. As long as every indent leads to a column of its own, the columns of the open calls
also follow from each other: each call stands where the block of the call around it is.
-/

namespace Offside

/-! ### The columns of a stack -/

namespace Frame

/-- The column of a call and the column of its block. -/
def margins (frame : Frame) : Column × Column :=
  (frame.column, frame.block)

/-- Where the calls inside a call stand: in its block, or in its own column as long as it has
no block. -/
def innerColumn (frame : Frame) : Column :=
  if frame.block = .beyond then frame.column else frame.block

/-- The columns of open calls, innermost first, follow from each other. -/
structure Staggered (frames : List Frame) : Prop where
  /-- The outermost call stands leftmost. -/
  column_root : ∀ root, frames.getLast? = some root → root.column = .leftmost
  /-- A block stands to the right of its call. -/
  column_lt_block : ∀ frame ∈ frames, frame.block ≠ .beyond → frame.column < frame.block
  /-- A call stands where the calls inside the call around it do. -/
  column_inner : frames.IsChain fun frame parent => frame.column = parent.innerColumn

/-- Only the columns matter, and closing inner calls keeps those of the outer ones. -/
theorem Staggered.of_suffix {frames outer : List Frame} (h : Staggered frames)
    (hsuffix : outer.map margins <:+ frames.map margins) : Staggered outer := by
  obtain ⟨hroot, hblock, hinner⟩ := h
  constructor
  · intro root hlast
    have hmargins : (outer.map margins).getLast? = some root.margins := by
      rw [List.getLast?_map, hlast, Option.map_some]
    obtain ⟨inner, hinner⟩ := hsuffix
    have hsame : (frames.map margins).getLast? = some root.margins := by
      rw [← hinner, List.getLast?_append, hmargins, Option.some_or]
    rw [List.getLast?_map, Option.map_eq_some_iff] at hsame
    obtain ⟨other, hother, heq⟩ := hsame
    have hcolumn : other.column = root.column := congrArg Prod.fst heq
    rw [← hcolumn]
    exact hroot other hother
  · intro frame hframe hne
    have hmem : frame.margins ∈ frames.map margins :=
      hsuffix.subset (List.mem_map_of_mem hframe)
    obtain ⟨other, hother, heq⟩ := List.mem_map.mp hmem
    have hcolumn : other.column = frame.column := congrArg Prod.fst heq
    have hsame : other.block = frame.block := congrArg Prod.snd heq
    have hlt := hblock other hother (hsame ▸ hne)
    rwa [hcolumn, hsame] at hlt
  · have hchain : (frames.map margins).IsChain fun inner parent =>
        inner.1 = if parent.2 = .beyond then parent.1 else parent.2 :=
      (List.isChain_map _).mpr hinner
    exact (List.isChain_map _).mp (hchain.suffix hsuffix)

/-- A call that is opened inside the innermost one stands where the calls inside that do. -/
theorem Staggered.opened {top : Frame} {below : List Frame} (h : Staggered (top :: below))
    (name : String) (place : Position) :
    Staggered (.opened name place top.innerColumn :: top :: below) := by
  obtain ⟨hroot, hblock, hinner⟩ := h
  constructor
  · intro root hlast
    rw [List.getLast?_cons_cons] at hlast
    exact hroot root hlast
  · intro frame hframe hne
    rcases List.mem_cons.mp hframe with rfl | hframe
    · exact absurd rfl hne
    · exact hblock frame hframe hne
  · exact hinner.cons_cons rfl

/-- The innermost call may have another block, as long as that stands to its right. -/
theorem Staggered.withBlock {top : Frame} {below : List Frame} (h : Staggered (top :: below))
    {block : Column} (hright : block ≠ .beyond → top.column < block) :
    Staggered ({ top with block } :: below) := by
  obtain ⟨hroot, hblock, hinner⟩ := h
  constructor
  · intro root hlast
    cases below with
    | nil =>
      obtain rfl : { top with block } = root := Option.some.inj hlast
      exact hroot top rfl
    | cons parent rest => exact hroot root hlast
  · intro frame hframe hne
    rcases List.mem_cons.mp hframe with rfl | hframe
    · exact hright hne
    · exact hblock frame (List.mem_cons_of_mem top hframe) hne
  · cases below with
    | nil => exact List.isChain_singleton _
    | cons parent rest =>
      obtain ⟨hfirst, hrest⟩ := List.isChain_cons_cons.mp hinner
      exact hrest.cons_cons hfirst

/-- Continuing a text changes no column. -/
theorem margins_of_continueText? {frame grown : Frame} {content : String}
    (h : frame.continueText? content = some grown) : grown.margins = frame.margins := by
  obtain ⟨start, earlier, -, rfl⟩ := eq_of_continueText? h
  rfl

/-- Closing calls for an indent keeps the columns of the calls that stay open. -/
theorem suffix_of_settle? {column : Column} {top : Frame} {below frames : List Frame}
    (h : settle? column top below = some frames) :
    frames.map margins <:+ (top :: below).map margins := by
  refine settle?_induction ?_ ?_ h
  · intro top below _
    exact List.suffix_rfl
  · intro top parent rest frames _ ih
    -- closing a call into its parent keeps the columns of that
    have hparent : frames.map margins <:+ (parent :: rest).map margins := ih
    exact hparent.trans (List.suffix_cons _ _)

end Frame

namespace State

variable {limit : Nat} {state next : State} {token : Token}

/-! ### What every state keeps -/

/-- Where in a line the reader is tells what it finds on the stack. -/
structure Steady (state : State) : Prop where
  /-- Some call is open, unless the reader is at the start of a line that continues none. -/
  frames_ne_nil : state.phase ≠ .lineStart → state.frames ≠ []
  /-- Behind text, the latest argument of the innermost call is a text. -/
  ends_in_text : state.phase = .text → ∃ top below start earlier,
    state.frames = top :: below ∧ top.arguments = .text start :: earlier

/-- Outside the start of a line that continues no call, some call is the innermost one. -/
theorem Steady.exists_frames (h : state.Steady) (hphase : state.phase ≠ .lineStart) :
    ∃ top below, state.frames = top :: below :=
  List.exists_cons_of_ne_nil (h.frames_ne_nil hphase)

/-- At first nothing is open, and no line has begun. -/
theorem steady_initial : initial.Steady :=
  ⟨fun h => absurd rfl h, fun h => nomatch h⟩

/-- Every reading keeps the stack steady. -/
theorem steady_of_reads (h : Reads limit state token next) (hsteady : state.Steady) :
    next.Steady := by
  obtain ⟨hopen, htext⟩ := hsteady
  cases h with
  | continued hphase hcontent hframes hgrown =>
    obtain ⟨start, earlier, -, rfl⟩ := Frame.eq_of_continueText? hgrown
    exact ⟨fun _ => List.cons_ne_nil _ _, fun _ => ⟨_, _, _, earlier, rfl, rfl⟩⟩
  | openedRoot hphase => exact ⟨fun _ => List.cons_ne_nil _ _, fun h => nomatch h⟩
  | openedChild hframes hroom hcolumn =>
    exact ⟨fun _ => List.cons_ne_nil _ _, fun h => nomatch h⟩
  | dropped hphase hblank => exact ⟨hopen, htext⟩
  | added hframes hphase =>
    exact ⟨fun _ => List.cons_ne_nil _ _, fun _ => ⟨_, _, _, _, rfl, rfl⟩⟩
  | settled hframes hphase hsettle =>
    obtain ⟨inner, outer, rfl, -, -⟩ := Frame.assemble_of_settle? hsettle
    exact ⟨fun _ => List.cons_ne_nil _ _, fun h => nomatch h⟩
  | begun hframes hphase hright => exact ⟨fun _ => List.cons_ne_nil _ _, fun h => nomatch h⟩
  | ended hphase =>
    rcases hphase with ⟨-, rfl⟩ | ⟨hcall, rfl⟩
    · exact ⟨fun h => absurd rfl h, fun h => nomatch h⟩
    · exact ⟨fun _ => hopen (by simp [hcall]), fun h => nomatch h⟩
  | skippedIndent hphase => exact ⟨fun h => absurd rfl h, fun h => nomatch h⟩
  | cancelled hframes hphase => exact ⟨fun _ => List.cons_ne_nil _ _, fun h => nomatch h⟩
  | skippedLine hphase => exact ⟨hopen, htext⟩

/-- The innermost open call has no block yet when a line may begin one. -/
def AwaitsBlock (state : State) : Prop :=
  (state.phase = .call ∨ state.phase = .blockStart) →
    ∀ top below, state.frames = top :: below → top.block = .beyond

/-- No reading gives a call a block where a line may still begin one: it opens without any, and a
blank line takes back the one that has begun. -/
theorem awaitsBlock_of_reads {limit : Nat} {state next : State} {token : Token}
    (h : Reads limit state token next) (hawaits : state.AwaitsBlock) : next.AwaitsBlock := by
  cases h with
  | continued hphase hcontent hframes hgrown => simp [AwaitsBlock, hphase]
  | openedRoot hphase => simp [AwaitsBlock, openRoot, goto, Frame.opened]
  | openedChild hframes hroom hcolumn => simp [AwaitsBlock, Frame.opened]
  | dropped hphase hblank => exact hawaits
  | added hframes hphase =>
    rcases hphase with ⟨hcall, rfl, -⟩ | ⟨-, rfl⟩
    · intro _ top below hcons
      obtain ⟨rfl, -⟩ := List.cons.inj hcons
      have hblock := hawaits (.inl hcall) _ _ hframes
      exact hblock
    · simp [AwaitsBlock]
  | settled hframes hphase hsettle => simp [AwaitsBlock]
  | begun hframes hphase hright => simp [AwaitsBlock]
  | ended hphase =>
    rcases hphase with ⟨-, rfl⟩ | ⟨hcall, rfl⟩
    · simp [AwaitsBlock, goto]
    · exact fun _ => hawaits (.inl hcall)
  | skippedIndent hphase => simp [AwaitsBlock, goto]
  | cancelled hframes hphase => simp [AwaitsBlock]
  | skippedLine hphase => exact hawaits

/-- The columns of the open calls agree with where in a line the reader is. -/
structure Aligned (state : State) : Prop where
  /-- Below a call its block has not begun. -/
  awaits : state.AwaitsBlock
  /-- Behind an indent the innermost call has a block. -/
  block_ne_beyond : state.phase = .indented ∨ state.phase = .blockIndented →
    ∀ top below, state.frames = top :: below → top.block ≠ .beyond
  /-- The columns follow from each other. -/
  staggered : Frame.Staggered state.frames

/-- At first there are no columns that could disagree. -/
theorem aligned_initial : initial.Aligned := by
  refine ⟨by simp [AwaitsBlock, initial], by simp [initial], ?_, ?_, ?_⟩
  · intro root hroot
    cases hroot
  · intro frame hframe
    cases hframe
  · exact List.isChain_nil

end State

/-- A token that is no indent, or an indent that leads to a column of its own. -/
def Token.Fits (token : Token) : Prop :=
  ∀ width, token.word = .indent width → width < Text.greatestCount

namespace State

variable {limit : Nat} {state next : State} {token : Token}

/-- Every reading keeps the columns aligned, as long as indents lead to columns of their
own. -/
theorem aligned_of_reads (h : Reads limit state token next) (hfits : token.Fits)
    (haligned : state.Aligned) : next.Aligned := by
  have hawaits := awaitsBlock_of_reads h haligned.awaits
  obtain ⟨hnone, hsome, hstaggered⟩ := haligned
  -- an argument of the innermost call changes no column
  have hsame {top grown : Frame} {below : List Frame} (hframes : state.frames = top :: below)
      (hgrown : grown.margins = top.margins) : Frame.Staggered (grown :: below) := by
    have hmargins : (grown :: below).map Frame.margins = state.frames.map Frame.margins := by
      rw [hframes, List.map_cons, List.map_cons, hgrown]
    exact hstaggered.of_suffix (hmargins ▸ List.suffix_rfl)
  refine ⟨hawaits, ?_, ?_⟩
  · cases h with
    | continued hphase hcontent hframes hgrown => simp [hphase]
    | openedRoot hphase => simp [goto]
    | openedChild hframes hroom hcolumn => simp
    | dropped hphase hblank => simp [report, hphase]
    | added hframes hphase => rcases hphase with ⟨-, rfl, -⟩ | ⟨-, rfl⟩ <;> simp
    | settled hframes hphase hsettle =>
      rintro - top below hcons
      obtain ⟨inner, outer, rfl, hblock, -⟩ := Frame.assemble_of_settle? hsettle
      obtain ⟨rfl, -⟩ := List.cons.inj hcons
      simp [hblock, Column.ofWidth_of_lt (hfits _ rfl)]
    | begun hframes hphase hright =>
      rintro - top below hcons
      obtain ⟨rfl, -⟩ := List.cons.inj hcons
      simp [Column.ofWidth_of_lt (hfits _ rfl)]
    | ended hphase => rcases hphase with ⟨-, rfl⟩ | ⟨-, rfl⟩ <;> simp [goto]
    | skippedIndent hphase => simp [goto]
    | cancelled hframes hphase => simp
    | skippedLine hphase => rcases hphase with hphase | hphase <;> simp [report, hphase]
  · cases h with
    | continued hphase hcontent hframes hgrown =>
      exact hsame hframes (Frame.margins_of_continueText? hgrown)
    | openedRoot hphase =>
      refine ⟨?_, ?_, List.isChain_singleton _⟩
      · intro root hroot
        obtain rfl := Option.some.inj hroot
        rfl
      · intro frame hframe hne
        obtain rfl := List.mem_singleton.mp hframe
        exact absurd rfl hne
    | @openedChild name place column top below hframes hroom hcolumn =>
      have hinner : column = top.innerColumn := by
        rcases hcolumn with ⟨hphase, rfl⟩ | ⟨hphase, rfl⟩
        · rw [Frame.innerColumn, if_pos (hnone (.inl hphase) top below hframes)]
        · rw [Frame.innerColumn, if_neg (hsome hphase top below hframes)]
      rw [hinner]
      exact (hframes ▸ hstaggered).opened name place
    | dropped hphase hblank => exact hstaggered
    | added hframes hphase => exact hsame hframes rfl
    | settled hframes hphase hsettle =>
      rw [hframes] at hstaggered
      exact hstaggered.of_suffix (Frame.suffix_of_settle? hsettle)
    | begun hframes hphase hright => exact (hframes ▸ hstaggered).withBlock fun _ => hright
    | ended hphase => exact hstaggered
    | skippedIndent hphase => exact hstaggered
    | cancelled hframes hphase =>
      exact (hframes ▸ hstaggered).withBlock fun hne => absurd rfl hne
    | skippedLine hphase => exact hstaggered

end State

end Offside
