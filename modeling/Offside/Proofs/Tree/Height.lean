import Offside.Tree.Nesting

/-!
# The height of a tree of calls

How deeply calls nest can also be said by recursion on items. The loop that counts levels
finds the same number. No turn of it changes what it will come to, and it ends after one turn
for each item.
-/

namespace Offside.Item

mutual

/-- The length of the longest chain of nested calls in an item. -/
def height : Item → Nat
  | .text _ => 0
  | .call _ _ arguments => 1 + heightAll arguments
  | .quoted items => heightAll items

/-- The length of the longest chain of nested calls in any of some items. -/
def heightAll : List Item → Nat
  | [] => 0
  | item :: rest => max item.height (heightAll rest)

end

/-- The deepest level of a call in an item, where a call has the given level. -/
def reach (level height : Nat) : Nat :=
  if height = 0 then 0 else level + height - 1

/-- The deepest level of a call in pending items. -/
def reachAll : List (Nat × Item) → Nat
  | [] => 0
  | entry :: rest => max (reach entry.1 entry.2.height) (reachAll rest)

/-- A deeper one of two items reaches deeper. -/
theorem reach_max (level a b : Nat) :
    reach level (max a b) = max (reach level a) (reach level b) := by
  unfold reach
  split <;> split <;> split <;> omega

/-- Items of one list reach as deep as their height tells. -/
theorem reachAll_pend (level : Nat) (items : List Item) (pending : List (Nat × Item)) :
    reachAll (pend level items pending) =
      max (reach level (heightAll items)) (reachAll pending) := by
  induction items with
  | nil => exact (Nat.zero_max _).symm
  | cons item rest ih =>
    change max (reach level item.height) (reachAll (pend level rest pending)) = _
    rw [ih, heightAll, reach_max, Nat.max_assoc]

/-! ### Heights of lists -/

/-- Two lists together are as high as the higher one of them. -/
theorem heightAll_append (front back : List Item) :
    heightAll (front ++ back) = max (heightAll front) (heightAll back) := by
  induction front with
  | nil => simp [heightAll]
  | cons item front ih => rw [List.cons_append, heightAll, heightAll, ih, Nat.max_assoc]

/-- The order of items makes no difference to their height. -/
theorem heightAll_reverse (items : List Item) : heightAll items.reverse = heightAll items := by
  induction items with
  | nil => rfl
  | cons item rest ih =>
    rw [List.reverse_cons, heightAll_append, ih, heightAll, heightAll, heightAll, Nat.max_zero,
      Nat.max_comm]

/-- Items are as low as each of them. -/
theorem heightAll_le_iff {items : List Item} {bound : Nat} :
    heightAll items ≤ bound ↔ ∀ item ∈ items, item.height ≤ bound := by
  induction items with
  | nil => simp [heightAll]
  | cons item rest ih => rw [heightAll, Nat.max_le, ih, List.forall_mem_cons]

/-- Some item is as high as all of them together, if there is any. -/
theorem exists_height_eq_heightAll {items : List Item} (h : items ≠ []) :
    ∃ item ∈ items, item.height = heightAll items := by
  induction items with
  | nil => exact absurd rfl h
  | cons item rest ih =>
    rw [heightAll]
    rcases Nat.le_total (heightAll rest) item.height with hle | hle
    · exact ⟨item, List.mem_cons_self, (Nat.max_eq_left hle).symm⟩
    · cases rest with
      | nil => exact ⟨item, List.mem_cons_self, (Nat.max_eq_left (Nat.zero_le _)).symm⟩
      | cons second others =>
        obtain ⟨highest, hmem, heq⟩ := ih (List.cons_ne_nil second others)
        rw [Nat.max_eq_right hle]
        exact ⟨highest, List.mem_cons_of_mem item hmem, heq⟩

/-! ### Measuring -/

namespace Sounding

/-- What a sounding will come to: the deepest level so far, or one in what is pending. -/
def depth (sounding : Sounding) : Nat :=
  max sounding.deepest (reachAll sounding.pending)

/-- No turn changes what a sounding will come to. -/
theorem depth_of_turn {sounding next : Sounding} (h : sounding.turn = some next) :
    next.depth = sounding.depth := by
  unfold turn at h
  split at h
  case h_1 => cases h
  case h_2 level content pending hpending =>
    cases h
    rw [depth, depth, hpending, reachAll, height, reach, if_pos rfl, Nat.zero_max]
  case h_3 level name position arguments pending hpending =>
    cases h
    -- the call reaches its own level, or a level below that if it holds calls
    have hreach : reach level (1 + heightAll arguments) =
        max level (reach (level + 1) (heightAll arguments)) := by
      unfold reach
      split <;> split <;> omega
    rw [depth, depth, hpending, reachAll_pend, heightAll_reverse, reachAll, height, hreach]
    simp only [Nat.max_assoc]
  case h_4 level items pending hpending =>
    cases h
    rw [depth, depth, hpending, reachAll_pend, heightAll_reverse, reachAll, height]

/-- There is always a turn, unless nothing is pending. -/
theorem pending_of_turn {sounding : Sounding} (h : sounding.turn = none) :
    sounding.pending = [] := by
  unfold turn at h
  split at h
  · assumption
  all_goals cases h

/-- Some turns, one after the other, if there are as many. -/
def turns : Nat → Sounding → Option Sounding
  | 0, sounding => some sounding
  | count + 1, sounding => sounding.turn.bind (turns count)

/-- A sounding takes as many turns as items are to be visited. Then nothing is pending, and
the deepest level is the one that was to be found. -/
theorem turns_remaining (sounding : Sounding) :
    sounding.turns sounding.remaining = some ⟨sounding.depth, []⟩ ∧
      sounding.finish = sounding.depth := by
  induction sounding using finish.induct with
  | case1 sounding hturn =>
    have hpending := pending_of_turn hturn
    obtain ⟨deepest, pending⟩ := sounding
    obtain rfl : pending = [] := hpending
    rw [finish]
    exact ⟨by simp [remaining, sizeAll, turns, depth, reachAll], by simp [turn, depth, reachAll]⟩
  | case2 sounding next hturn ih =>
    obtain ⟨hturns, hfinish⟩ := ih
    rw [depth_of_turn hturn] at hturns hfinish
    constructor
    · rw [remaining_of_turn hturn, turns, hturn, Option.bind_some, hturns]
    · rw [finish]
      split
      · next hnone => cases hturn.symm.trans hnone
      · next other hother =>
        obtain rfl : next = other := Option.some.inj (hturn.symm.trans hother)
        exact hfinish

/-- At the start there are all items to visit. -/
theorem remaining_start (items : List Item) : (start items).remaining = sizeAll items := by
  rw [remaining, start, map_snd_pend, List.map_nil, List.append_nil, sizeAll_reverse]

/-- At the start the height of the items is to be found. -/
theorem depth_start (items : List Item) : (start items).depth = heightAll items := by
  change max 0 (reachAll (pend 1 items.reverse [])) = _
  rw [reachAll_pend, heightAll_reverse, reach, reachAll]
  split <;> omega

end Sounding

/-- The nesting of items is their height. -/
theorem nesting_eq_heightAll (items : List Item) : nesting items = heightAll items := by
  obtain ⟨-, hfinish⟩ := (Sounding.start items).turns_remaining
  rw [nesting, hfinish, Sounding.depth_start]

/-- Measuring the nesting of items takes one turn for each item, at whatever level, and then
nothing is pending. What is found is the height of the items: no item is higher, and one is as
high, unless there are none and the nesting is zero. -/
theorem nesting_ends (items : List Item) :
    (Sounding.start items).turns (sizeAll items) = some ⟨nesting items, []⟩ ∧
      nesting items = heightAll items ∧
      (∀ item ∈ items, item.height ≤ nesting items) ∧
      (items = [] ∧ nesting items = 0 ∨ ∃ item ∈ items, item.height = nesting items) := by
  obtain ⟨hturns, -⟩ := (Sounding.start items).turns_remaining
  rw [Sounding.remaining_start, Sounding.depth_start] at hturns
  rw [nesting_eq_heightAll]
  refine ⟨hturns, rfl, heightAll_le_iff.mp (Nat.le_refl _), ?_⟩
  cases items with
  | nil => exact .inl ⟨rfl, rfl⟩
  | cons item rest => exact .inr (exists_height_eq_heightAll (List.cons_ne_nil item rest))

end Offside.Item

namespace Offside.Call

/-- A call nests as deeply as it is high. -/
theorem nesting_eq_height (call : Call) : call.nesting = call.toItem.height := by
  rw [nesting, Item.nesting_eq_heightAll, toItem, Item.height]

end Offside.Call
