import Offside.Proofs.Layout.Closing

/-!
# Which calls are open

As long as every line is in its place, the calls that are open behind some lines can be read
off the outline. They are the calls of the lines on the trail, the chain of each line with the
items of the lines below it that are closed already. An indent closes just the lines that are
not indented less, and each closed line becomes the latest item of its parent.
-/

namespace Offside

/-! ### The open calls of an outline -/

namespace Outline

variable (sigil : Char) (lines : List SourceLine)

/-- The calls of line `j` with the items of the lines before line `n` that belong to it, and
its block at the given column. -/
def lineFrames (n : ℕ) (block : Column) (j : ℕ) : List Frame :=
  Frame.fill ((children (indents lines) j n).map (item sigil lines)) block
    ((line lines j).frames sigil)

/-- The calls of lines that enclose line `n`, nearest first. Of the lines that belong to one
of them the latest is still open, and so not among its items yet. -/
def outerFrames (n : ℕ) : List ℕ → List Frame
  | [] => []
  | j :: rest => lineFrames sigil lines n (.number (indents lines (j + 1))) j ++ outerFrames j rest

/-- The calls that are open behind the first `n` lines. -/
def openFrames : ℕ → List Frame
  | 0 => []
  | n + 1 =>
    if calls sigil lines n then
      lineFrames sigil lines (n + 1) .beyond n ++
        outerFrames sigil lines n (ancestors (indents lines) n)
    else outerFrames sigil lines (n + 1) (ancestors (indents lines) n)

variable {sigil lines}

/-- The calls of a line make up a chain. -/
theorem isChain_lineFrames {j : ℕ} (hcall : calls sigil lines j = true) (n : ℕ) (block : Column) :
    ∃ call, call.toItem =
        (line lines j).item sigil ((children (indents lines) j n).map (item sigil lines)) ∧
      Frame.IsChain (lineFrames sigil lines n block j) (.number (indents lines j)) block call :=
  SourceLine.isChain_frames hcall _ block

/-- Once all lines that belong to a line are closed, its chain closes into its item. -/
theorem isChain_lineFrames_item {j n : ℕ} (hcall : calls sigil lines j = true)
    (hdone : children (indents lines) j n = children (indents lines) j lines.length)
    (block : Column) :
    ∃ call, call.toItem = item sigil lines j ∧
      Frame.IsChain (lineFrames sigil lines n block j) (.number (indents lines j)) block call := by
  obtain ⟨call, hitem, hchain⟩ := isChain_lineFrames hcall n block
  rw [hdone, ← item_eq] at hitem
  exact ⟨call, hitem, hchain⟩

/-- The calls of the latest line are as the line has left them. -/
theorem lineFrames_succ_self (n : ℕ) (hcall : calls sigil lines n = true) :
    lineFrames sigil lines (n + 1) .beyond n = (line lines n).frames sigil := by
  obtain ⟨name, rest, hpieces⟩ := bodyPieces_of_opensCall hcall
  rw [lineFrames, children_succ_self, List.map_nil, SourceLine.frames, hpieces]
  exact Frame.fill_takeInline rfl _ [] rest

/-- The calls around a line begin with the innermost call of its parent. -/
theorem outerFrames_eq_cons {j : ℕ} (hcall : calls sigil lines j = true) (n : ℕ) (rest : List ℕ) :
    ∃ top below, outerFrames sigil lines n (j :: rest) = top :: below ∧
      top.block = .number (indents lines (j + 1)) := by
  obtain ⟨_, _, last, middle, hframes, _, hblock, _⟩ :=
    isChain_lineFrames hcall n (.number (indents lines (j + 1)))
  exact ⟨last, middle ++ outerFrames sigil lines j rest, by rw [outerFrames, hframes]; rfl, hblock⟩

/-- A line that is closed becomes the latest item of its parent. -/
theorem outerFrames_push {n i j : ℕ} {rest : List ℕ} {top : Frame} {below : List Frame}
    (hparent : IsParent (indents lines) j i) (hi : i ∈ trail (indents lines) n)
    (hcall : calls sigil lines j = true)
    (h : outerFrames sigil lines i (j :: rest) = top :: below) :
    outerFrames sigil lines n (j :: rest) = top.push (item sigil lines i) :: below := by
  obtain ⟨_, _, last, middle, hframes, _⟩ :=
    isChain_lineFrames hcall i (.number (indents lines (j + 1)))
  rw [outerFrames, hframes] at h
  obtain ⟨rfl, rfl⟩ := List.cons.inj h
  rw [outerFrames, lineFrames, children_eq_append hparent hi, List.map_append, List.map_singleton,
    Frame.fill_concat hframes]
  rfl

/-! ### Closing lines -/

/-- A line with no line behind it that could belong to it has all its items. -/
theorem children_of_le {n j : ℕ} (hn : n < lines.length) (hjn : j < n)
    (hle : indents lines n ≤ indents lines j) :
    children (indents lines) j n = children (indents lines) j lines.length := by
  refine (filter_range_eq (Nat.le_of_lt hn) fun m hm hnm => decide_eq_false ?_).symm
  rintro ⟨hjm, hless, hbetween⟩
  rcases Nat.eq_or_lt_of_le hnm with rfl | hlt
  · omega
  · have := hbetween n hlt hjn
    omega

/-- The lines around a line on the trail that are indented less than the next line lead to the
parent of that. -/
theorem isParent_of_lt {n i j : ℕ} (hi : i ∈ trail (indents lines) n)
    (hji : IsParent (indents lines) j i) (hle : indents lines n ≤ indents lines i)
    (hless : indents lines j < indents lines n) : IsParent (indents lines) j n := by
  obtain ⟨hin, hafter⟩ := mem_trail_iff.mp hi
  obtain ⟨hlt, _, hbetween⟩ := hji
  refine ⟨by omega, hless, fun m hm hjm => ?_⟩
  rcases Nat.lt_trichotomy m i with hmi | rfl | him
  · exact Nat.le_trans hle (hbetween m hmi hjm)
  · exact hle
  · exact Nat.le_trans hle (Nat.le_of_lt (hafter m hm him))

/-- Closing a chain leaves the calls around it, with one more item. -/
theorem settleStack?_lineFrames {n i j width : ℕ} {block : Column}
    (hcalls : calls sigil lines i = true ∧ calls sigil lines j = true)
    (hi : i ∈ trail (indents lines) n) (hji : IsParent (indents lines) j i)
    (hdone : children (indents lines) i n = children (indents lines) i lines.length)
    (hright : .number width < block) :
    Frame.settleStack? (.number width) (lineFrames sigil lines n block i ++
        outerFrames sigil lines i (ancestors (indents lines) i)) =
      Frame.settleStack? (.number width)
        (outerFrames sigil lines n (ancestors (indents lines) i)) := by
  obtain ⟨call, hitem, hchain⟩ := isChain_lineFrames_item hcalls.1 hdone block
  rw [ancestors_of_isParent hji]
  obtain ⟨top, below, houter, _⟩ :=
    outerFrames_eq_cons hcalls.2 i (ancestors (indents lines) j)
  rw [houter, hchain.settleStack?_append hright, outerFrames_push hji hi hcalls.2 houter, hitem]

/-- An indent that is in its place closes the calls around any line on the trail that is not
indented less, up to the parent of the new line. -/
theorem settleStack?_outerFrames {n : ℕ} (hn : n < lines.length)
    (hsound : ∀ i ≤ n, Sound sigil lines i) (hindent : 0 < indents lines n) :
    ∀ i ∈ trail (indents lines) n, indents lines n ≤ indents lines i →
      Frame.settleStack? (.number (indents lines n))
          (outerFrames sigil lines n (ancestors (indents lines) i)) =
        some (outerFrames sigil lines n (ancestors (indents lines) n)) := by
  intro i
  induction i using Nat.strong_induction_on with
  | _ i ih =>
    intro hi hle
    obtain ⟨hin, _⟩ := mem_trail_iff.mp hi
    obtain ⟨j, hji, hcall, hfirst⟩ := (hsound i (Nat.le_of_lt hin)).2 (by omega)
    rcases Nat.lt_or_ge (indents lines j) (indents lines n) with hless | hge
    · -- the parent of the new line is reached, and its block stands where it should
      have hjn := isParent_of_lt hi hji hle hless
      obtain ⟨k, hkn, _, hblock⟩ := (hsound n (Nat.le_refl n)).2 hindent
      rw [hkn.unique hjn] at hblock
      rw [ancestors_of_isParent hji, ancestors_of_isParent hjn]
      obtain ⟨top, below, houter, htop⟩ :=
        outerFrames_eq_cons hcall n (ancestors (indents lines) j)
      rw [hblock] at htop
      rw [houter, Frame.settleStack?]
      cases below with
      | nil => rw [Frame.settle?, if_pos htop]
      | cons next below =>
        rw [Frame.settle?, if_neg (by rw [htop]; simp), if_pos htop]
    · have hj := hji.mem_trail_of_mem hi
      obtain ⟨k, hkj, hkcall, _⟩ := (hsound j (by have := hji.1; omega)).2 (by omega)
      have hdone := children_of_le hn (mem_trail_iff.mp hj).1 hge
      have hright : Column.number (indents lines n) < .number (indents lines (j + 1)) := by
        have := hji.2.1
        rw [Column.number_lt_number, hfirst]
        omega
      rw [ancestors_of_isParent hji, outerFrames,
        settleStack?_lineFrames ⟨hcall, hkcall⟩ hj hkj hdone hright]
      exact ih j hji.1 hj hge

/-- Closing everything gives the item of the outermost line. -/
theorem closeStack_outerFrames {n : ℕ} (hsound : ∀ i < n, Sound sigil lines i)
    (hdone : ∀ i ∈ trail (indents lines) n,
      children (indents lines) i n = children (indents lines) i lines.length) :
    ∀ i ∈ trail (indents lines) n, calls sigil lines i = true → ∀ block,
      ∃ root ∈ trail (indents lines) n, indents lines root = 0 ∧
        (Frame.closeStack (lineFrames sigil lines n block i ++
          outerFrames sigil lines i (ancestors (indents lines) i))).map Call.toItem =
            [item sigil lines root] := by
  intro i
  induction i using Nat.strong_induction_on with
  | _ i ih =>
    intro hi hcall block
    obtain ⟨call, hitem, hchain⟩ := isChain_lineFrames_item hcall (hdone i hi) block
    rcases Nat.eq_zero_or_pos (indents lines i) with hzero | hpos
    · have hnone : ancestors (indents lines) i = [] := by simp [ancestors, hzero]
      refine ⟨i, hi, hzero, ?_⟩
      rw [hnone, outerFrames, List.append_nil, hchain.closeStack_eq, List.map_singleton, hitem]
    · obtain ⟨j, hji, hjcall, _⟩ := (hsound i (mem_trail_iff.mp hi).1).2 hpos
      obtain ⟨top, below, houter, _⟩ :=
        outerFrames_eq_cons hjcall i (ancestors (indents lines) j)
      obtain ⟨root, hroot, hzero, hclose⟩ := ih j hji.1 (hji.mem_trail_of_mem hi) hjcall
        (.number (indents lines (j + 1)))
      refine ⟨root, hroot, hzero, ?_⟩
      rw [ancestors_of_isParent hji, houter, hchain.closeStack_append, hitem,
        ← outerFrames_push hji hi hjcall houter]
      exact hclose

/-- Closing all that is open gives the item of an outermost line: the calls that are open are
those of the latest line, or those around it if it is a text. -/
theorem closeStack_openFrames {m : ℕ} (hsound : ∀ i < m + 1, Sound sigil lines i)
    (hdone : ∀ i ∈ trail (indents lines) (m + 1),
      children (indents lines) i (m + 1) = children (indents lines) i lines.length) :
    ∃ root ∈ trail (indents lines) (m + 1), indents lines root = 0 ∧
      (Frame.closeStack (openFrames sigil lines (m + 1))).map Call.toItem =
        [item sigil lines root] := by
  have hlatest : m ∈ trail (indents lines) (m + 1) := List.mem_cons_self
  rw [openFrames]
  by_cases hcall : calls sigil lines m = true
  · rw [if_pos hcall]
    exact closeStack_outerFrames hsound hdone m hlatest hcall .beyond
  · have hm := hsound m (Nat.lt_succ_self m)
    have hpos : 0 < indents lines m := by
      apply Nat.pos_of_ne_zero
      intro hzero
      exact hcall (hm.1 hzero)
    obtain ⟨j, hj, hjcall, _⟩ := hm.2 hpos
    rw [if_neg hcall, ancestors_of_isParent hj, outerFrames]
    exact closeStack_outerFrames hsound hdone j (hj.mem_trail_of_mem hlatest) hjcall _

end Outline

end Offside
