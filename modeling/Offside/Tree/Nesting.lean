import Offside.Tree.Basic

/-!
# How deeply calls nest

The nesting of a list of items is the length of the longest chain of calls, each
an argument of the one before. Quoting adds no level. The items still to be visited
are kept in a stack of their own, so the depth of a tree costs no other stack. Each
turn of the loop takes one item off the stack, so there are as many turns as items.
-/

namespace Offside.Item

mutual

/-- How many items there are in an item, itself included. -/
def size : Item → Nat
  | .text _ => 1
  | .call _ _ arguments => 1 + sizeAll arguments
  | .quoted items => 1 + sizeAll items

/-- How many items there are in a list of items, at any level. -/
def sizeAll : List Item → Nat
  | [] => 0
  | item :: rest => item.size + sizeAll rest

end

/-- Two lists together have the items of both. -/
theorem sizeAll_append (front back : List Item) :
    sizeAll (front ++ back) = sizeAll front + sizeAll back := by
  induction front with
  | nil => exact (Nat.zero_add _).symm
  | cons item front ih => rw [List.cons_append, sizeAll, sizeAll, ih, Nat.add_assoc]

/-- The order of items makes no difference to their number. -/
theorem sizeAll_reverse (items : List Item) : sizeAll items.reverse = sizeAll items := by
  induction items with
  | nil => rfl
  | cons item rest ih =>
    rw [List.reverse_cons, sizeAll_append, ih, sizeAll, sizeAll, sizeAll, Nat.add_zero,
      Nat.add_comm]

/-- The items of one list, all at the same level, in front of what is pending already. -/
def pend (level : Nat) (items : List Item) (pending : List (Nat × Item)) : List (Nat × Item) :=
  items.map (fun item => (level, item)) ++ pending

/-- Items that are put in front of the pending ones stand there in their order. -/
theorem map_snd_pend (level : Nat) (items : List Item) (pending : List (Nat × Item)) :
    (pend level items pending).map Prod.snd = items ++ pending.map Prod.snd := by
  rw [pend, List.map_append, List.map_map]
  exact congrArg (· ++ _) items.map_id

/-- A measuring of depth that is part way through. -/
structure Sounding where
  /-- The deepest level of a call so far. -/
  deepest : Nat
  /-- The items to visit, each with the level that a call has there, the next one first. -/
  pending : List (Nat × Item)

namespace Sounding

/-- The start: the items of a list, where calls are on the first level. As they are put on
the stack one after the other, the last one is visited first. -/
def start (items : List Item) : Sounding :=
  ⟨0, pend 1 items.reverse []⟩

/-- One turn visits the uppermost item and puts what it holds in its place, the last item of
that uppermost. There is no turn when nothing is pending. -/
def turn (sounding : Sounding) : Option Sounding :=
  match sounding.pending with
  | [] => none
  | (_, .text _) :: pending => some { sounding with pending }
  | (level, .call _ _ arguments) :: pending =>
    some ⟨max sounding.deepest level, pend (level + 1) arguments.reverse pending⟩
  | (level, .quoted items) :: pending =>
    some { sounding with pending := pend level items.reverse pending }

/-- How many items are still to be visited, those inside other ones included. -/
def remaining (sounding : Sounding) : Nat :=
  sizeAll (sounding.pending.map Prod.snd)

/-- Each turn leaves one item less to be visited. -/
theorem remaining_of_turn {sounding next : Sounding} (h : sounding.turn = some next) :
    sounding.remaining = next.remaining + 1 := by
  unfold turn at h
  split at h
  · cases h
  all_goals
    next hpending =>
    cases h
    simp only [remaining, hpending, List.map_cons, sizeAll, size, map_snd_pend, sizeAll_append,
      sizeAll_reverse]
    omega

/-- Takes turns as long as something is pending. -/
def finish (sounding : Sounding) : Nat :=
  match _hturn : sounding.turn with
  | none => sounding.deepest
  | some next => next.finish
termination_by sounding.remaining
decreasing_by
  rw [remaining_of_turn _hturn]
  exact Nat.lt_succ_self next.remaining

end Sounding

/-- The length of the longest chain of nested calls in a list of items. -/
def nesting (items : List Item) : Nat :=
  (Sounding.start items).finish

end Offside.Item

namespace Offside.Call

/-- The length of the longest chain of nested calls that begins with this one. -/
def nesting (call : Call) : Nat :=
  1 + Item.nesting call.arguments

end Offside.Call
