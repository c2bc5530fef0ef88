import Offside.Text.Numeral

/-!
# Columns

A column is where a line's content begins, counted in blanks before it. A call whose
block has not begun has no column for it yet; that stands for a column beyond all
others, so that no line reaches it. A width that is as large as counts go marks no
place of its own and lies beyond as well.
-/

namespace Offside

/-- The column of a block. -/
inductive Column where
  /-- The column behind so many blanks. -/
  | number (width : Nat)
  /-- A column to the right of every numbered one. -/
  | beyond
deriving DecidableEq

namespace Column

/-- The leftmost column, where the outermost calls stand. -/
def leftmost : Column := .number 0

/-- The column that an indent of the given width leads to. -/
def ofWidth (width : Nat) : Column :=
  if width < Text.greatestCount then .number width else .beyond

/-- One column lies left of another, or is the same. -/
def Le : Column → Column → Prop
  | .number a, .number b => a ≤ b
  | .number _, .beyond => True
  | .beyond, .number _ => False
  | .beyond, .beyond => True

/-- One column lies strictly left of another. -/
def Lt : Column → Column → Prop
  | .number a, .number b => a < b
  | .number _, .beyond => True
  | .beyond, .number _ => False
  | .beyond, .beyond => False

/-- Columns are ordered from left to right. -/
instance : LE Column := ⟨Le⟩

/-- The order is strict where one column lies left of the other. -/
instance : LT Column := ⟨Lt⟩

/-- Columns can be compared. -/
instance decidableLe : (a b : Column) → Decidable (a ≤ b)
  | .number a, .number b => inferInstanceAs (Decidable (a ≤ b))
  | .number _, .beyond => isTrue trivial
  | .beyond, .number _ => isFalse id
  | .beyond, .beyond => isTrue trivial

/-- They can be compared strictly as well. -/
instance decidableLt : (a b : Column) → Decidable (a < b)
  | .number a, .number b => inferInstanceAs (Decidable (a < b))
  | .number _, .beyond => isTrue trivial
  | .beyond, .number _ => isFalse id
  | .beyond, .beyond => isFalse id

/-- Numbered columns stand from left to right in the order of their numbers. -/
@[simp]
theorem number_le_number {a b : Nat} : Column.number a ≤ .number b ↔ a ≤ b := Iff.rfl

/-- A numbered column stands strictly left of another one if its number is less. -/
@[simp]
theorem number_lt_number {a b : Nat} : Column.number a < .number b ↔ a < b := Iff.rfl

/-- Every column is at most the one beyond all others. -/
@[simp]
theorem le_beyond (a : Column) : a ≤ .beyond := by
  cases a <;> exact trivial

/-- Nothing stands to the right of the column beyond all others. -/
@[simp]
theorem not_beyond_lt (a : Column) : ¬ Column.beyond < a := by
  cases a <;> exact id

/-- A numbered column stands left of the one beyond all others. -/
@[simp]
theorem number_lt_beyond (a : Nat) : Column.number a < .beyond := trivial

/-- The column beyond all others is at most no numbered one. -/
@[simp]
theorem not_beyond_le_number (a : Nat) : ¬ Column.beyond ≤ .number a := id

/-- Columns stand in one line: what is not strictly left of a column is right of it or
the same. -/
theorem not_lt {a b : Column} : ¬ a < b ↔ b ≤ a := by
  cases a <;> cases b <;> simp

/-- Equal columns are at most each other. -/
theorem le_of_eq {a b : Column} (h : a = b) : a ≤ b := by
  subst h
  cases a <;> simp

/-- A column that is strictly left of another one is at most it. -/
theorem le_of_lt {a b : Column} (h : a < b) : a ≤ b := by
  cases a <;> cases b <;> simp_all
  omega

/-- Columns are ordered transitively. -/
theorem le_trans {a b c : Column} (hab : a ≤ b) (hbc : b ≤ c) : a ≤ c := by
  cases a <;> cases b <;> cases c <;> simp_all
  omega

/-- What stands at most at a column stands strictly left of all that the column is left of. -/
theorem lt_of_le_of_lt {a b c : Column} (hab : a ≤ b) (hbc : b < c) : a < c := by
  cases a <;> cases b <;> cases c <;> simp_all
  omega

/-- An indent that can be counted leads to the column of its width. -/
theorem ofWidth_of_lt {width : Nat} (h : width < Text.greatestCount) :
    ofWidth width = .number width := if_pos h

/-- An indent leads to a numbered column if that is its width and can be counted. -/
theorem ofWidth_eq_number {width other : Nat} :
    ofWidth width = .number other ↔ width = other ∧ other < Text.greatestCount := by
  unfold ofWidth
  split
  · next hlt =>
    constructor
    · intro h
      obtain rfl := number.inj h
      exact ⟨rfl, hlt⟩
    · rintro ⟨rfl, -⟩
      rfl
  · next hge =>
    refine iff_of_false nofun ?_
    rintro ⟨rfl, hlt⟩
    exact hge hlt

/-- Nothing is left of where no indent leads. -/
theorem not_lt_ofWidth_zero (a : Column) : ¬ a < ofWidth 0 := by
  rw [ofWidth_of_lt (by decide)]
  cases a <;> simp

end Column

end Offside
