import Offside.Position

/-!
# The place behind a text

Walking over a text leads to a place that can also be read off the text at once: its line
is the number of line feeds, and its column the number of characters behind the last one.
-/

namespace Offside.Position

/-- The place that has the given characters before it, read off without walking. -/
def behind (before : List Char) : Position :=
  ⟨before.count '\n' + 1, (before.reverse.takeWhile (· ≠ '\n')).length + 1⟩

/-- One more character moves the place by one step. -/
theorem behind_append_singleton (before : List Char) (c : Char) :
    behind (before ++ [c]) = (behind before).step c := by
  by_cases hc : c = '\n'
  · simp [behind, step, hc]
  · simp [behind, step, hc]

/-- Walking on from behind a text leads behind the longer text. -/
theorem advance_behind (front back : List Char) :
    (behind front).advance back = behind (front ++ back) := by
  induction back generalizing front with
  | nil => rw [advance_nil, List.append_nil]
  | cons c back ih =>
    rw [advance_cons, ← behind_append_singleton, ih, List.append_assoc, List.singleton_append]

/-- Walking over a text from its first character leads behind it. -/
theorem first_advance (before : List Char) : first.advance before = behind before :=
  advance_behind [] before

/-- Without a line feed the walk stays on its line. -/
theorem advance_of_not_mem {chars : List Char} (h : '\n' ∉ chars) (place : Position) :
    place.advance chars = ⟨place.line, place.column + chars.length⟩ := by
  induction chars generalizing place with
  | nil => rfl
  | cons c rest ih =>
    have hc : c ≠ '\n' := fun heq => h (heq ▸ List.mem_cons_self)
    have hrest : '\n' ∉ rest := fun hmem => h (List.mem_cons_of_mem c hmem)
    rw [advance_cons, ih hrest, step, if_neg hc, List.length_cons,
      Nat.add_right_comm, Nat.add_assoc]

end Offside.Position
