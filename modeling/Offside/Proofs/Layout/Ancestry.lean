import Mathlib.Data.List.Basic
import Mathlib.Data.Nat.Basic

/-!
# Which line a line belongs to

By its indent a line belongs to the nearest earlier line that is indented less. The lines
that a later line can belong to form a trail from the latest line back to the left: each of
them is indented less than every line between it and the end.
-/

namespace Offside

variable {indent : ℕ → ℕ}

/-- Line `j` is the nearest line before line `i` that is indented less. -/
def IsParent (indent : ℕ → ℕ) (j i : ℕ) : Prop :=
  j < i ∧ indent j < indent i ∧ ∀ m < i, j < m → indent i ≤ indent m

/-- Whether a line belongs to another one can be decided, since only the lines between count. -/
instance (j i : ℕ) : Decidable (IsParent indent j i) :=
  inferInstanceAs (Decidable (_ ∧ _ ∧ _))

/-- There is only one nearest line that is indented less. -/
theorem IsParent.unique {j k i : ℕ} (hj : IsParent indent j i) (hk : IsParent indent k i) :
    j = k := by
  obtain ⟨hji, hjless, hjafter⟩ := hj
  obtain ⟨hki, hkless, hkafter⟩ := hk
  rcases Nat.lt_trichotomy j k with hlt | heq | hgt
  · have := hjafter k hki hlt
    omega
  · exact heq
  · have := hkafter j hji hgt
    omega

/-- The line before one that is indented more is its parent. -/
theorem isParent_succ {m : ℕ} (h : indent m < indent (m + 1)) : IsParent indent m (m + 1) := by
  refine ⟨by omega, h, ?_⟩
  intro i hi hmi
  omega

/-! ### Trails -/

/-- Of the first `n` lines the latest one, and every earlier one that is indented less than
all lines behind it; latest line first. -/
def trail (indent : ℕ → ℕ) : ℕ → List ℕ
  | 0 => []
  | n + 1 => n :: (trail indent n).filter fun j => indent j < indent n

/-- The lines around line `n`, nearest one first. -/
def ancestors (indent : ℕ → ℕ) (n : ℕ) : List ℕ :=
  (trail indent n).filter fun j => indent j < indent n

/-- Behind its latest line a trail goes on with the lines around that line. -/
theorem trail_succ (n : ℕ) : trail indent (n + 1) = n :: ancestors indent n := rfl

/-- A line lies on the trail when all lines behind it are indented more. -/
theorem mem_trail_iff {n j : ℕ} :
    j ∈ trail indent n ↔ j < n ∧ ∀ m < n, j < m → indent j < indent m := by
  induction n with
  | zero => simp [trail]
  | succ n ih =>
    simp only [trail, List.mem_cons, List.mem_filter, ih, decide_eq_true_eq]
    constructor
    · rintro (rfl | ⟨⟨hjn, hafter⟩, hless⟩)
      · exact ⟨by omega, fun m hm hjm => by omega⟩
      · refine ⟨by omega, fun m hm hjm => ?_⟩
        by_cases hmn : m = n
        · exact hmn ▸ hless
        · exact hafter m (by omega) hjm
    · rintro ⟨hjn, hafter⟩
      by_cases heq : j = n
      · exact Or.inl heq
      · exact Or.inr ⟨⟨by omega, fun m hm => hafter m (by omega)⟩,
          hafter n (by omega) (by omega)⟩

/-- The lines of a trail that are indented less than a given width begin with the nearest
such line, and behind it come the lines around that. -/
theorem filter_trail_eq_cons {n width j : ℕ} {rest : List ℕ}
    (h : (trail indent n).filter (fun i => indent i < width) = j :: rest) :
    j < n ∧ indent j < width ∧ (∀ m < n, j < m → width ≤ indent m) ∧
      rest = ancestors indent j := by
  induction n with
  | zero => cases h
  | succ n ih =>
    rw [trail, List.filter_cons] at h
    split at h
    · next hless =>
      obtain ⟨rfl, hrest⟩ := List.cons.inj h
      have hless : indent n < width := by simpa using hless
      refine ⟨by omega, hless, fun m hm hnm => by omega, ?_⟩
      rw [← hrest, List.filter_filter]
      refine List.filter_congr fun i _ => ?_
      by_cases hi : indent i < indent n
      · simp [hi, Nat.lt_trans hi hless]
      · simp [hi]
    · next hless =>
      have hless : width ≤ indent n := by simpa using hless
      rw [List.filter_filter] at h
      have hsame : (trail indent n).filter (fun i => decide (indent i < width) &&
          decide (indent i < indent n)) = (trail indent n).filter (fun i => indent i < width) := by
        refine List.filter_congr fun i _ => ?_
        by_cases hi : indent i < width
        · simp [hi, Nat.lt_of_lt_of_le hi hless]
        · simp [hi]
      obtain ⟨hjn, hjwidth, hafter, hrest⟩ := ih (hsame.symm.trans h)
      refine ⟨by omega, hjwidth, fun m hm hjm => ?_, hrest⟩
      by_cases hmn : m = n
      · exact hmn ▸ hless
      · exact hafter m (by omega) hjm

/-- The nearest of the lines around a line is its parent, with the same lines around it. -/
theorem isParent_of_ancestors {n j : ℕ} {rest : List ℕ} (h : ancestors indent n = j :: rest) :
    IsParent indent j n ∧ rest = ancestors indent j := by
  obtain ⟨hjn, hless, hafter, hrest⟩ := filter_trail_eq_cons h
  exact ⟨⟨hjn, hless, hafter⟩, hrest⟩

/-- A line with a parent has that and the lines around that around it. -/
theorem ancestors_of_isParent {n j : ℕ} (h : IsParent indent j n) :
    ancestors indent n = j :: ancestors indent j := by
  obtain ⟨hjn, hless, hafter⟩ := h
  have hmem : j ∈ ancestors indent n := by
    refine List.mem_filter.mpr ⟨mem_trail_iff.mpr ⟨hjn, fun m hm hjm => ?_⟩, by simpa using hless⟩
    exact Nat.lt_of_lt_of_le hless (hafter m hm hjm)
  cases hancestors : ancestors indent n with
  | nil => rw [hancestors] at hmem; cases hmem
  | cons k rest =>
    obtain ⟨hk, rfl⟩ := isParent_of_ancestors hancestors
    rw [IsParent.unique ⟨hjn, hless, hafter⟩ hk]

/-- The parent of a line on a trail lies on it too. -/
theorem IsParent.mem_trail_of_mem {j i n : ℕ} (h : IsParent indent j i)
    (hi : i ∈ trail indent n) : j ∈ trail indent n := by
  obtain ⟨hji, hless, hafter⟩ := h
  obtain ⟨hin, hiafter⟩ := mem_trail_iff.mp hi
  refine mem_trail_iff.mpr ⟨by omega, fun m hm hjm => ?_⟩
  rcases Nat.lt_trichotomy m i with hlt | rfl | hgt
  · exact Nat.lt_of_lt_of_le hless (hafter m hlt hjm)
  · exact hless
  · exact Nat.lt_trans hless (hiafter m hm hgt)

/-! ### Lines that belong to a line -/

/-- The lines before line `n` that belong to line `j`, in order. -/
def children (indent : ℕ → ℕ) (j n : ℕ) : List ℕ :=
  (List.range n).filter fun i => IsParent indent j i

/-- The lines that belong to line `j` are those whose nearest less indented line it is. -/
theorem mem_children {j n i : ℕ} : i ∈ children indent j n ↔ i < n ∧ IsParent indent j i := by
  simp [children]

/-- Picked numbers below two bounds are the same when none is picked between them. -/
theorem filter_range_eq {p : ℕ → Bool} {i n : ℕ} (hin : i ≤ n)
    (hafter : ∀ m < n, i ≤ m → p m = false) :
    (List.range n).filter p = (List.range i).filter p := by
  obtain ⟨d, rfl⟩ : ∃ d, n = i + d := ⟨n - i, by omega⟩
  have hnil : ((List.range d).map (i + ·)).filter p = [] := by
    simp only [List.filter_eq_nil_iff, List.mem_map, List.mem_range]
    rintro m ⟨k, hk, rfl⟩
    simp [hafter (i + k) (by omega) (by omega)]
  rw [List.range_add, List.filter_append, hnil, List.append_nil]

/-- Picked numbers end in the last one that is picked. -/
theorem filter_range_eq_append {p : ℕ → Bool} {i n : ℕ} (hin : i < n) (hi : p i = true)
    (hafter : ∀ m < n, i < m → p m = false) :
    (List.range n).filter p = (List.range i).filter p ++ [i] := by
  rw [filter_range_eq (i := i + 1) (by omega) (fun m hm him => hafter m hm (by omega)),
    List.range_succ, List.filter_append]
  simp [hi]

/-- A line on the trail is the latest line that belongs to its parent. -/
theorem children_eq_append {j i n : ℕ} (h : IsParent indent j i) (hi : i ∈ trail indent n) :
    children indent j n = children indent j i ++ [i] := by
  obtain ⟨hin, hafter⟩ := mem_trail_iff.mp hi
  refine filter_range_eq_append hin (by simpa using h) fun m hm him => ?_
  have hless := hafter m hm him
  refine decide_eq_false fun hparent => ?_
  have := hparent.2.2 i him h.1
  omega

/-- No line belongs to the latest line yet. -/
theorem children_succ_self (n : ℕ) : children indent n (n + 1) = [] := by
  simp only [children, List.filter_eq_nil_iff, List.mem_range, decide_eq_true_eq]
  intro i hi hparent
  have := hparent.1
  omega

/-! ### Lines in their places -/

/-- A line is in its place at the left edge if it is a call, and elsewhere if its parent is a
call and the first line below that has the same indent. -/
def InPlace (indent : ℕ → ℕ) (isCall : ℕ → Bool) (i : ℕ) : Prop :=
  (indent i = 0 → isCall i = true) ∧
    (0 < indent i → ∃ j, IsParent indent j i ∧ isCall j = true ∧ indent (j + 1) = indent i)

/-- As long as lines are in their places, no line below another one is indented less than the
first line below that. -/
theorem indent_succ_le {isCall : ℕ → Bool} {n j : ℕ} (hplace : ∀ i < n, InPlace indent isCall i)
    (hj : j ∈ trail indent n) : ∀ m < n, j < m → indent (j + 1) ≤ indent m := by
  intro m
  induction m using Nat.strong_induction_on with
  | _ m ih =>
    intro hm hjm
    by_contra hless
    have hjless := (mem_trail_iff.mp hj).2 m hm hjm
    have hparent : IsParent indent j m := by
      refine ⟨hjm, hjless, fun k hk hjk => ?_⟩
      have := ih k hk (by omega) hjk
      omega
    obtain ⟨k, hk, _, hfirst⟩ := (hplace m hm).2 (by omega)
    rw [hk.unique hparent] at hfirst
    omega

end Offside
