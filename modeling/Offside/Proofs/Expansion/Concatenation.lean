import Mathlib.Control.Monad.Basic
import Offside.Expansion.Stock
import Offside.Proofs.Expansion.Stages

/-!
# One list behind another

To expand a list is to expand its front and then, unless that failed, its back, from the run that
the front has left. The budget is checked for the whole list at once, and it is the same for
both parts: whatever the calls in front do, they leave as many calls active as they find.
-/

namespace Offside

variable {ε : Type}

/-! ### Sequences of sequences -/

/-- It does not matter how three steps in a row are put in brackets. -/
theorem Step.andThen_assoc (step : Step ε) (next last : List Item → Step ε) :
    Step.andThen (Step.andThen step next) last =
      Step.andThen step fun items => Step.andThen (next items) last := by
  funext run
  simp only [andThen]
  rcases step run with ⟨_ | items, after⟩ <;> rfl

/-- What happens in three steps in a row happens in the first one and then in the other two. -/
theorem Course.andThen_assoc (step : Step ε) (next : List Item → Step ε) (course : Course ε)
    (later : List Item → Course ε) (last : Course ε) :
    Course.andThen (Step.andThen step next) (Course.andThen step course later) (fun _ => last) =
      Course.andThen step course fun items =>
        Course.andThen (next items) (later items) fun _ => last := by
  funext run
  simp only [andThen, Step.andThen]
  rcases step run with ⟨_ | items, after⟩
  · exact List.append_nil _
  · exact List.append_assoc _ _ _

/-- Takes a step and then another one, and puts the output of the second behind that of the
first. If one fails, its fault ends both. -/
def Step.append (step other : Step ε) : Step ε :=
  Step.andThen step fun front => Step.andThen other fun back run => (.ok (front ++ back), run)

namespace Expansion

variable {expandCall : Call → Step ε} {courseOfCall : Call → Course ε}

/-- The items behind others are expanded from what those leave. -/
theorem serveItems_append_andThen (output front back : List Item) :
    serveItems expandCall output (front ++ back) =
      Step.andThen (serveItems expandCall output front) fun items =>
        serveItems expandCall items.reverse back := by
  induction front generalizing output with
  | nil =>
    funext run
    have hnone : serveItems expandCall output [] run = (.ok output.reverse, run) := rfl
    rw [List.nil_append, Step.andThen_of_ok hnone, List.reverse_reverse]
  | cons item rest ih =>
    cases item with
    | text content => exact ih _
    | quoted items => exact ih _
    | call name position arguments =>
      let call : Call := ⟨name, position, arguments⟩
      calc serveItems expandCall output (call.toItem :: (rest ++ back))
        _ = Step.andThen (expandCall call) fun items =>
              serveItems expandCall (items.reverse ++ output) (rest ++ back) :=
            serveItems_call expandCall output (rest ++ back) call
        _ = Step.andThen (expandCall call) fun items =>
              Step.andThen (serveItems expandCall (items.reverse ++ output) rest) fun items =>
                serveItems expandCall items.reverse back := by
            simp only [ih]
        _ = Step.andThen (serveItems expandCall output (call.toItem :: rest)) fun items =>
              serveItems expandCall items.reverse back := by
            rw [serveItems_call, Step.andThen_assoc]

/-- The output of the items behind others comes behind that of the others. -/
theorem serveItems_append (front back : List Item) :
    serveItems expandCall [] (front ++ back) =
      Step.append (serveItems expandCall [] front) (serveItems expandCall [] back) := by
  rw [serveItems_append_andThen, Step.append]
  congr 1
  funext items run
  rw [serveItems_eq_map, List.reverse_reverse, Step.andThen]
  rcases serveItems expandCall [] back run with ⟨_ | more, after⟩ <;> rfl

/-- What happens with the items behind others begins where those end. -/
theorem courseOfItems_append (output front back : List Item) :
    courseOfItems expandCall courseOfCall (front ++ back) =
      Course.andThen (serveItems expandCall output front)
        (courseOfItems expandCall courseOfCall front) fun _ =>
          courseOfItems expandCall courseOfCall back := by
  induction front generalizing output with
  | nil =>
    funext run
    have hnone : serveItems expandCall output [] run = (.ok output.reverse, run) := rfl
    rw [Course.andThen_of_ok hnone]
    rfl
  | cons item rest ih =>
    cases item with
    | text content => exact ih _
    | quoted items => exact ih _
    | call name position arguments =>
      let call : Call := ⟨name, position, arguments⟩
      calc courseOfItems expandCall courseOfCall (call.toItem :: (rest ++ back))
        _ = Course.andThen (expandCall call) (courseOfCall call) fun _ =>
              courseOfItems expandCall courseOfCall (rest ++ back) := rfl
        _ = Course.andThen (expandCall call) (courseOfCall call) fun items =>
              Course.andThen (serveItems expandCall (items.reverse ++ output) rest)
                (courseOfItems expandCall courseOfCall rest) fun _ =>
                  courseOfItems expandCall courseOfCall back := by
            funext run
            simp only [← ih]
        _ = Course.andThen (serveItems expandCall output (call.toItem :: rest))
              (courseOfItems expandCall courseOfCall (call.toItem :: rest)) fun _ =>
                courseOfItems expandCall courseOfCall back := by
            rw [serveItems_call, ← Course.andThen_assoc]
            rfl

end Expansion

namespace Expander

/-- What happens in an expansion once the items are handed in. -/
def courseInside (expander : Expander ε) (items : List Item) : Course ε := fun run =>
  (expander.course (.items items) run).tail

/-- Expansion distributes over concatenation. Of two lists that do not nest too deeply for the
levels that are left, the first is expanded and then the second, from what the first has left,
and the output of the second comes behind that of the first. If the first fails, nothing is done
about the second; if the second fails, what the first has done stays done. If one of them nests
too deeply, both together are refused before anything happens. -/
theorem expand_append (expander : Expander ε) (front back : List Item) (run : Run ε) :
    let levels := expander.limit - run.depth
    let whole := Request.items (front ++ back)
    (Item.nesting front ≤ levels → Item.nesting back ≤ levels →
      expander.expand whole run =
          Step.append (expander.expand (.items front)) (expander.expand (.items back)) run ∧
        expander.course whole run = ⟨.handIn whole, run⟩ ::
          Course.andThen (expander.expand (.items front)) (expander.courseInside front)
            (fun _ => expander.courseInside back) run) ∧
    (levels < Item.nesting front ∨ levels < Item.nesting back →
      expander.expand whole run = (.error (.expandedTooDeep expander.limit), run) ∧
        expander.course whole run = [⟨.handIn whole, run⟩]) := by
  intro levels whole
  have hnesting : Item.nesting (front ++ back) = max (Item.nesting front) (Item.nesting back) := by
    simp only [Item.nesting_eq_heightAll, Item.heightAll_append]
  constructor
  · intro hfront hback
    have hwhole : Item.nesting (front ++ back) ≤ expander.limit - run.depth := by omega
    -- the second list finds as many levels left as the first one
    have hafter {items : List Item} {after : Run ε}
        (hresult : expander.expand (.items front) run = (.ok items, after)) :
        after.depth = run.depth ∧ Item.nesting back ≤ expander.limit - after.depth := by
      have hdepth := depth_of_expand hresult
      exact ⟨hdepth, hdepth ▸ hback⟩
    rw [expand_of_le hwhole, course_of_le hwhole, Expansion.serveItems_append,
      Expansion.courseOfItems_append []]
    constructor
    · refine (Step.andThen_congr (expand_of_le hfront) ?_).symm
      intro items after hresult
      obtain ⟨hdepth, hfits⟩ := hafter hresult
      rw [Step.andThen_congr ((expand_of_le hfits).trans (by rw [hdepth])) fun _ _ _ => rfl]
    · refine congrArg _ (Course.andThen_congr (expand_of_le hfront) ?_ ?_).symm
      · rw [courseInside, course_of_le hfront, List.tail_cons]
      · intro items after hresult
        obtain ⟨hdepth, hfits⟩ := hafter hresult
        rw [courseInside, course_of_le hfits, List.tail_cons, hdepth]
  · intro hdeep
    exact refused_of_lt (by omega)

/-- An expander of one level for a macro that counts its calls. -/
def ticking : Expander Tally where
  registry := Registry.empty.insert "$$tick" (Stock.compose "$$tick" .count (.const [.text "tick"]))
  limit := 1

/-- A list goes on counting where the one in front of it has stopped, also if it fails later. A
call inside a call is too deep for both. -/
theorem expand_append_ticking :
    let front : List Item := [.call "$$tick" ⟨1, 1⟩ [], .text "and"]
    let back : List Item := [.call "$$tick" ⟨2, 1⟩ [], .call "$$gone" ⟨3, 1⟩ []]
    let deep : List Item := [.call "$$tick" ⟨2, 1⟩ [.call "$$tick" ⟨2, 8⟩ []]]
    let start : Run Tally := .start .empty {}
    let result := ticking.expand (.items (front ++ back)) start
    Item.nesting front ≤ 1 ∧ Item.nesting back ≤ 1 ∧ 1 < Item.nesting deep ∧
      (ticking.expand (.items front) start).1 = .ok [.text "tick", .text "and"] ∧
      result.1 = .error (.unknownMacro "$$gone" ⟨3, 1⟩) ∧ result.2.environment.count = 2 ∧
      ticking.expand (.items (front ++ deep)) start = (.error (.expandedTooDeep 1), start) := by
  intro front back deep start result
  have hfront : Item.nesting front ≤ 1 := by
    rw [Item.nesting_eq_heightAll]
    decide
  have hback : Item.nesting back ≤ 1 := by
    rw [Item.nesting_eq_heightAll]
    decide
  have hdeep : 1 < Item.nesting deep := by
    rw [Item.nesting_eq_heightAll]
    decide
  obtain ⟨hjoined, -⟩ := (expand_append ticking front back start).1 hfront hback
  obtain ⟨hrefused, -⟩ := (expand_append ticking front deep start).2 (.inr hdeep)
  refine ⟨hfront, hback, hdeep, by decide +kernel, ?_, ?_, hrefused⟩
  · rw [show result = _ from hjoined]
    decide +kernel
  · rw [show result = _ from hjoined]
    decide +kernel

end Expander

end Offside
