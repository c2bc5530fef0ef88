import Offside.Proofs.Layout.BlankLine
import Offside.Proofs.Layout.Rejects

/-!
# Which block an indent leads back to

The block of an open call is where an indent has begun it, until the call is closed or a line that
holds nothing else gives the block up again. Blocks stand ever further to the right the further
inside their calls are, so an indent that begins no block leads back to the one block in its
column, if there is one. An indent that is as wide as counts go has no column of its own. It leads
to the innermost call, if that has no block in any other column.
-/

namespace Offside

/-! ### Closing the calls inside a call -/

namespace Frame

/-- Closes the calls inside a call, innermost first, each into the one around it. -/
def closeInner : List Frame → Frame → Frame
  | [], frame => frame
  | top :: middle, frame => frame.push (top.assemble middle).toItem

/-- Calls are closed up to the one whose block is in the given column, if the blocks of all calls
inside it are further to the right. -/
theorem settleStack?_append {width : ℕ} {inner outer : List Frame} {frame : Frame}
    (hinner : ∀ other ∈ inner, .number width < other.block) (hframe : frame.block = .number width) :
    settleStack? (.number width) (inner ++ frame :: outer) =
      some (closeInner inner frame :: outer) := by
  have hstop (found : Frame) (hfound : found.block = .number width) :
      found.settle? (.number width) outer = some (found :: outer) := by
    cases outer with
    | nil => rw [settle?, if_pos hfound]
    | cons parent rest => rw [settle?, if_neg (by simp [hfound]), if_pos hfound]
  cases inner with
  | nil => exact hstop frame hframe
  | cons top middle =>
    obtain ⟨htop, hmiddle⟩ := List.forall_mem_cons.mp hinner
    exact (settle?_append htop hmiddle).trans (hstop _ hframe)

/-- Nothing is closed for an indent without a column of its own. -/
theorem settleStack?_beyond (top : Frame) (below : List Frame) :
    settleStack? .beyond (top :: below) =
      if top.block = .beyond then some (top :: below) else none := by
  cases below with
  | nil => rfl
  | cons parent rest => rw [settleStack?, settle?, if_neg (Column.not_beyond_lt _)]

/-! ### Blocks of a stack -/

/-- The block of the open call that stands inside so many others. -/
def blockAt (depth : ℕ) (frames : List Frame) : Option Column :=
  (frames.map Frame.block).reverse[depth]?

/-- The innermost call is the one inside all others; the calls around it stand where they stood.
-/
theorem blockAt_cons (depth : ℕ) (top : Frame) (below : List Frame) :
    blockAt depth (top :: below) =
      if depth = below.length then some top.block else blockAt depth below := by
  rw [blockAt, List.map_cons, List.reverse_cons, List.getElem?_append]
  simp only [List.length_reverse, List.length_map]
  split
  · next hlt => rw [if_neg (Nat.ne_of_lt hlt), blockAt]
  · next hge =>
    split
    · next heq => simp [heq]
    · next hne =>
      rw [blockAt, List.getElem?_eq_none, List.getElem?_eq_none]
      · simp only [List.length_reverse, List.length_map]
        omega
      · simp only [List.length_singleton]
        omega

/-- A call that stands inside so many others is an open one. -/
theorem lt_of_blockAt {depth : ℕ} {frames : List Frame} {column : Column}
    (h : blockAt depth frames = some column) : depth < frames.length := by
  obtain ⟨hlt, -⟩ := List.getElem?_eq_some_iff.mp h
  simpa using hlt

/-- It is found in the stack with the calls inside it in front and those around it behind. -/
theorem exists_of_blockAt {depth : ℕ} {frames : List Frame} {column : Column}
    (h : blockAt depth frames = some column) :
    ∃ inner frame outer, frames = inner ++ frame :: outer ∧ outer.length = depth ∧
      frame.block = column := by
  induction frames with
  | nil => simp [blockAt] at h
  | cons top below ih =>
    rw [blockAt_cons] at h
    split at h
    · next heq => exact ⟨[], top, below, rfl, heq.symm, Option.some.inj h⟩
    · obtain ⟨inner, frame, outer, rfl, hdepth, hblock⟩ := ih h
      exact ⟨top :: inner, frame, outer, rfl, hdepth, hblock⟩

/-- Every block of the stack is the block of some call. -/
theorem exists_blockAt_of_mem {frames : List Frame} {frame : Frame} (h : frame ∈ frames) :
    ∃ depth, blockAt depth frames = some frame.block := by
  have hmem : frame.block ∈ (frames.map Frame.block).reverse :=
    List.mem_reverse.mpr (List.mem_map_of_mem h)
  exact List.mem_iff_getElem?.mp hmem

/-- Stacks with the same columns have the same blocks. -/
theorem blockAt_congr {frames other : List Frame} (h : frames.map margins = other.map margins)
    (depth : ℕ) : blockAt depth frames = blockAt depth other := by
  have hblocks := congrArg (List.map Prod.snd) h
  rw [List.map_map, List.map_map] at hblocks
  exact congrArg (fun blocks : List Column => blocks.reverse[depth]?) hblocks

/-- The calls that stay open keep their blocks. -/
theorem blockAt_of_suffix {frames outer : List Frame}
    (h : outer.map margins <:+ frames.map margins) {depth : ℕ} (hdepth : depth < outer.length) :
    blockAt depth outer = blockAt depth frames := by
  obtain ⟨inner, hinner⟩ := h
  have hblocks := congrArg (List.map Prod.snd) hinner
  rw [List.map_append, List.map_map, List.map_map] at hblocks
  change inner.map Prod.snd ++ outer.map Frame.block = frames.map Frame.block at hblocks
  rw [blockAt, blockAt, ← hblocks, List.reverse_append, List.getElem?_append_left (by simpa)]

/-! ### Blocks stand further to the right inside -/

/-- The columns of open calls and of their blocks, innermost first, if each block stands to the
right of its call, and what is inside a call with a block stands in that block or to the right. -/
structure Ascending (columns : List (Column × Column)) : Prop where
  /-- A block stands to the right of its call. -/
  column_lt_block : ∀ frame ∈ columns, frame.2 ≠ .beyond → frame.1 < frame.2
  /-- What is inside a block does not stand left of it. -/
  block_le_column : columns.Pairwise fun inner outer => outer.2 ≠ .beyond → outer.2 ≤ inner.1

/-- Closing calls from the inside leaves the columns of the others as they are. -/
theorem Ascending.of_suffix {columns outer : List (Column × Column)} (h : Ascending columns)
    (hsuffix : outer <:+ columns) : Ascending outer :=
  ⟨fun frame hframe => h.column_lt_block frame (hsuffix.subset hframe),
    h.block_le_column.sublist hsuffix.sublist⟩

/-- A call may be opened inside the innermost one, in its block if it has one. -/
theorem Ascending.opened {top : Column × Column} {below : List (Column × Column)} {column : Column}
    (h : Ascending (top :: below)) (hcolumn : top.2 = .beyond ∧ column = top.1 ∨ column = top.2) :
    Ascending ((column, .beyond) :: top :: below) := by
  obtain ⟨hright, hinside⟩ := h
  obtain ⟨htop, hbelow⟩ := List.pairwise_cons.mp hinside
  have hle : top.1 ≤ column := by
    rcases hcolumn with ⟨-, rfl⟩ | rfl
    · exact Column.le_of_eq rfl
    · by_cases hblock : top.2 = .beyond
      · rw [hblock]
        exact Column.le_beyond _
      · exact Column.le_of_lt (hright top List.mem_cons_self hblock)
  constructor
  · intro frame hframe hne
    rcases List.mem_cons.mp hframe with rfl | hframe
    · exact absurd rfl hne
    · exact hright frame hframe hne
  · refine List.pairwise_cons.mpr ⟨?_, hinside⟩
    intro outer houter hne
    rcases List.mem_cons.mp houter with rfl | houter
    · rcases hcolumn with ⟨hnone, -⟩ | rfl
      · exact absurd hnone hne
      · exact Column.le_of_eq rfl
    · exact Column.le_trans (htop outer houter hne) hle

/-- The innermost call may have another block, as long as that stands to its right. -/
theorem Ascending.withBlock {top : Column × Column} {below : List (Column × Column)}
    {block : Column} (h : Ascending (top :: below)) (hright : block ≠ .beyond → top.1 < block) :
    Ascending ((top.1, block) :: below) := by
  obtain ⟨hblocks, hinside⟩ := h
  obtain ⟨htop, hbelow⟩ := List.pairwise_cons.mp hinside
  constructor
  · intro frame hframe hne
    rcases List.mem_cons.mp hframe with rfl | hframe
    · exact hright hne
    · exact hblocks frame (List.mem_cons_of_mem top hframe) hne
  · exact List.pairwise_cons.mpr ⟨htop, hbelow⟩

/-- Inside a call with a block all blocks stand further to the right. -/
theorem Ascending.block_lt {inner outer : List Frame} {frame : Frame}
    (h : Ascending ((inner ++ frame :: outer).map margins)) {width : ℕ}
    (hframe : frame.block = .number width) :
    ∀ other ∈ inner, .number width < other.block := by
  intro other hother
  obtain ⟨hright, hinside⟩ := h
  rw [List.map_append, List.map_cons, List.pairwise_append] at hinside
  have hle : frame.block ≠ .beyond → frame.block ≤ other.column :=
    hinside.2.2 other.margins (List.mem_map_of_mem hother) frame.margins List.mem_cons_self
  have hcolumn : .number width ≤ other.column := hframe ▸ hle (by simp [hframe])
  cases hblock : other.block with
  | beyond => exact Column.number_lt_beyond width
  | number other' =>
    have hlt : other.column < other.block :=
      hright other.margins (List.mem_map_of_mem (List.mem_append_left _ hother))
        (by simp [margins, hblock])
    exact Column.lt_of_le_of_lt hcolumn (hblock ▸ hlt)

end Frame

namespace State

variable {limit : ℕ} {state next : State} {token : Token}

/-- Whatever token is read, blocks stand further to the right inside. -/
theorem ascending_of_reads (h : Reads limit state token next) (hawaits : state.AwaitsBlock)
    (hascending : Frame.Ascending (state.frames.map Frame.margins)) :
    Frame.Ascending (next.frames.map Frame.margins) := by
  cases h with
  | continued hphase hcontent hframes hgrown =>
    rw [hframes] at hascending
    rwa [List.map_cons, Frame.margins_of_continueText? hgrown]
  | openedRoot hphase =>
    constructor
    · intro frame hframe hne
      obtain rfl := List.mem_singleton.mp hframe
      exact absurd rfl hne
    · exact List.pairwise_singleton _ _
  | openedChild hframes hroom hcolumn =>
    refine (hframes ▸ hascending).opened ?_
    rcases hcolumn with ⟨hphase, rfl⟩ | ⟨-, rfl⟩
    · exact .inl ⟨hawaits (.inl hphase) _ _ hframes, rfl⟩
    · exact .inr rfl
  | dropped hphase hblank => exact hascending
  | added hframes hphase => rwa [hframes] at hascending
  | settled hframes hphase hsettle =>
    exact (hframes ▸ hascending).of_suffix (Frame.suffix_of_settle? hsettle)
  | begun hframes hphase hright => exact (hframes ▸ hascending).withBlock fun _ => hright
  | ended hphase => exact hascending
  | skippedIndent hphase => exact hascending
  | cancelled hframes hphase =>
    exact (hframes ▸ hascending).withBlock fun hne => absurd rfl hne
  | skippedLine hphase => exact hascending

/-- Behind any tokens a call whose block may begin has none, and blocks stand further to the right
inside. -/
theorem ascending_of_run {tokens : List Token} (h : initial.run limit tokens = (none, state)) :
    state.AwaitsBlock ∧ Frame.Ascending (state.frames.map Frame.margins) := by
  have hlast : (initial.run limit tokens).2 = state := congrArg Prod.snd h
  rw [← hlast]
  refine of_run (motive := fun state =>
      state.AwaitsBlock ∧ Frame.Ascending (state.frames.map Frame.margins)) ?_ ?_
  · rintro state token next - hreads ⟨hawaits, hascending⟩
    exact ⟨awaitsBlock_of_reads hreads hawaits, ascending_of_reads hreads hawaits hascending⟩
  · exact ⟨by simp [AwaitsBlock, initial], by simp [initial], List.Pairwise.nil⟩

end State

end Offside
