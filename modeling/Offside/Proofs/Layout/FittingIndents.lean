import Offside.Proofs.Layout.OpenLines

/-!
# Which indents fit

The blocks of the open calls stand where the first lines below those calls begin. So an
indent leads back to one of them just when the line behind it is in its place, and the block
it leads to is then that of the parent of the line.
-/

namespace Offside

namespace Outline

variable {sigil : Char} {lines : List SourceLine}

/-! ### Lines on the trail -/

/-- The lines around a line are calls, when every line so far is in its place. -/
theorem calls_of_mem_ancestors {n : ℕ} (hsound : ∀ i ≤ n, Sound sigil lines i) :
    ∀ j ∈ ancestors (indents lines) n, calls sigil lines j = true := by
  induction n using Nat.strong_induction_on with
  | _ n ih =>
    intro j hj
    have hless : indents lines j < indents lines n := by simpa using (List.mem_filter.mp hj).2
    obtain ⟨parent, hparent, hcall, _⟩ := (hsound n (Nat.le_refl n)).2 (by omega)
    rw [ancestors_of_isParent hparent] at hj
    rcases List.mem_cons.mp hj with rfl | hj
    · exact hcall
    · have hlt := hparent.1
      exact ih parent hlt (fun i hi => hsound i (by omega)) j hj

/-- In the chain of a line only the innermost call has a block. -/
theorem block_of_mem_lineFrames {j n : ℕ} (hcall : calls sigil lines j = true) {block : Column}
    {frame : Frame} (hframe : frame ∈ lineFrames sigil lines n block j) :
    frame.block = block ∨ frame.block = .beyond := by
  obtain ⟨_, _, last, middle, hframes, _, hlast, hmiddle, _⟩ := isChain_lineFrames hcall n block
  rw [hframes] at hframe
  rcases List.mem_cons.mp hframe with rfl | hframe
  · exact .inl hlast
  · exact .inr (hmiddle frame hframe)

/-- The blocks of the calls around a line begin where the first lines below them do. -/
theorem block_of_mem_outerFrames {frame : Frame} {rest : List ℕ}
    (hcalls : ∀ j ∈ rest, calls sigil lines j = true) {n : ℕ}
    (hframe : frame ∈ outerFrames sigil lines n rest) :
    frame.block = .beyond ∨ ∃ j ∈ rest, frame.block = .number (indents lines (j + 1)) := by
  induction rest generalizing n with
  | nil => cases hframe
  | cons j rest ih =>
    obtain ⟨hcall, hrest⟩ := List.forall_mem_cons.mp hcalls
    rw [outerFrames, List.mem_append] at hframe
    rcases hframe with hframe | hframe
    · rcases block_of_mem_lineFrames hcall hframe with hblock | hbeyond
      · exact .inr ⟨j, List.mem_cons_self, hblock⟩
      · exact .inl hbeyond
    · rcases ih hrest hframe with hbeyond | ⟨k, hk, hblock⟩
      · exact .inl hbeyond
      · exact .inr ⟨k, List.mem_cons_of_mem j hk, hblock⟩

/-- A line is in its place if the block of a call around the line before begins at its
indent. -/
theorem sound_of_mem_outerFrames {m k : ℕ} {frame : Frame}
    (hsound : ∀ i ≤ m, Sound sigil lines i) (hindent : 0 < indents lines (m + 1))
    (hframe : frame ∈ outerFrames sigil lines k (ancestors (indents lines) m))
    (hblock : frame.block = .number (indents lines (m + 1))) : Sound sigil lines (m + 1) := by
  have hcalls := calls_of_mem_ancestors hsound
  rcases block_of_mem_outerFrames hcalls hframe with hbeyond | ⟨j, hj, hnumber⟩
  · rw [hbeyond] at hblock
    cases hblock
  · have hfirst : indents lines (j + 1) = indents lines (m + 1) := by
      rw [hnumber] at hblock
      exact Column.number.inj hblock
    have htrail : j ∈ trail (indents lines) (m + 1) := List.mem_cons_of_mem m hj
    have hjm : j < m := (mem_trail_iff.mp (List.mem_filter.mp hj).1).1
    have hless : indents lines j < indents lines (j + 1) :=
      (mem_trail_iff.mp htrail).2 (j + 1) (by omega) (by omega)
    have hparent : IsParent (indents lines) j (m + 1) := by
      refine ⟨by omega, by omega, ?_⟩
      intro i hi hji
      rw [← hfirst]
      exact indent_succ_le (fun i hi => hsound i (by omega)) htrail i hi hji
    constructor
    · intro hzero
      omega
    · intro _
      exact ⟨j, hparent, hcalls j hj, hfirst⟩

/-- No open block stands where a line begins that is not in its place. -/
theorem settleStack?_openFrames_eq_none {n : ℕ} (hsound : ∀ i < n, Sound sigil lines i)
    (hindent : 0 < indents lines n) (hn : ¬ Sound sigil lines n) :
    Frame.settleStack? (.number (indents lines n)) (openFrames sigil lines n) = none := by
  refine Option.eq_none_iff_forall_ne_some.mpr ?_
  intro frames hsettle
  apply hn
  obtain ⟨frame, hframe, hblock⟩ := Frame.exists_block_of_settleStack? hsettle
  cases n with
  | zero => cases hframe
  | succ m =>
    have hbefore : ∀ i ≤ m, Sound sigil lines i := fun i hi => hsound i (by omega)
    rw [openFrames] at hframe
    split at hframe
    · next hcall =>
      rcases List.mem_append.mp hframe with hframe | hframe
      · -- the calls of the line itself have no block yet
        have hbeyond : frame.block = .beyond := by
          simpa using block_of_mem_lineFrames hcall hframe
        rw [hbeyond] at hblock
        cases hblock
      · exact sound_of_mem_outerFrames hbefore hindent hframe hblock
    · exact sound_of_mem_outerFrames hbefore hindent hframe hblock

/-- An indent that is in its place, and begins no block of the line before, closes the open
calls up to the parent of its line. -/
theorem settleStack?_openFrames {m : ℕ} (hm : m + 1 < lines.length)
    (hsound : ∀ i ≤ m + 1, Sound sigil lines i) (hindent : 0 < indents lines (m + 1))
    (hleft : calls sigil lines m = true → indents lines (m + 1) ≤ indents lines m) :
    Frame.settleStack? (.number (indents lines (m + 1))) (openFrames sigil lines (m + 1)) =
      some (outerFrames sigil lines (m + 1) (ancestors (indents lines) (m + 1))) := by
  have htrail : m ∈ trail (indents lines) (m + 1) := List.mem_cons_self
  have hle : indents lines (m + 1) ≤ indents lines m := by
    by_contra hgt
    -- a text that is indented less cannot be the parent of a line in its place
    obtain ⟨j, hj, hcall, _⟩ := (hsound (m + 1) (Nat.le_refl _)).2 hindent
    have hmj : IsParent (indents lines) m (m + 1) := isParent_succ (by omega)
    rw [hj.unique hmj] at hcall
    exact hgt (hleft hcall)
  rw [← settleStack?_outerFrames hm hsound hindent m htrail hle, openFrames]
  split
  · next hcall =>
    obtain ⟨j, hj, hjcall, _⟩ := (hsound m (by omega)).2 (by omega)
    exact settleStack?_lineFrames ⟨hcall, hjcall⟩ htrail hj
      (children_of_le hm (by omega) hle) (Column.number_lt_beyond _)
  · rfl

end Outline

end Offside
