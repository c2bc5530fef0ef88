import Offside.Expansion.Builtin
import Offside.Expansion.Stock
import Offside.Proofs.Expansion.Concatenation
import Offside.Proofs.Text.Count

/-!
# Repetition

The repeating macro expands its body as many times in a row as its first argument says, always
just the body and always one call further in, each time from the run that the last time has
left. If the first argument denotes no count the body is never expanded.
-/

namespace Offside

variable {ε : Type}

/-! ### Taking a step again and again -/

/-- Takes a step so many times, each time from the run that the time before has left, and puts
the outputs one behind the other. The first fault ends it. -/
def Step.times (step : Step ε) : Nat → Step ε
  | 0 => fun run => (.ok [], run)
  | count + 1 => Step.append step (step.times count)

/-- What happens when a step is taken so many times. -/
def Course.times (step : Step ε) (course : Course ε) : Nat → Course ε
  | 0 => fun _ => []
  | count + 1 => Course.andThen step course fun _ => Course.times step course count

/-- When a step fails after it was taken some times, all ends there: what was done before stays
done, and no more is done. -/
theorem Step.times_of_error {step : Step ε} {done count : Nat} (hdone : done < count)
    {run between after : Run ε} {output : List Item} {fault : Fault}
    (htimes : step.times done run = (.ok output, between))
    (hfault : step between = (.error fault, after)) :
    step.times count run = (.error fault, after) := by
  induction done generalizing count run output with
  | zero =>
    obtain ⟨count, rfl⟩ : ∃ fewer, count = fewer + 1 := ⟨count - 1, by omega⟩
    obtain ⟨-, rfl⟩ := Prod.mk.inj htimes
    exact Step.andThen_of_error hfault _
  | succ done ih =>
    obtain ⟨count, rfl⟩ : ∃ fewer, count = fewer + 1 := ⟨count - 1, by omega⟩
    rcases hfirst : step run with ⟨_ | first, next⟩
    · rw [times, append, andThen_of_error hfirst] at htimes
      cases htimes
    · rw [times, append, andThen_of_ok hfirst] at htimes
      rcases hrest : step.times done next with ⟨_ | rest, last⟩
      · rw [andThen_of_error hrest] at htimes
        cases htimes
      · rw [andThen_of_ok hrest] at htimes
        obtain ⟨-, rfl⟩ := Prod.mk.inj htimes
        have hfails := ih (Nat.lt_of_succ_lt_succ hdone) hrest
        rw [times, append, andThen_of_ok hfirst, andThen_of_error hfails]

/-- Taking a step again ends all calls that it begins. -/
theorem Step.keepsDepth_times {step : Step ε} (hstep : KeepsDepth step) (count : Nat) :
    KeepsDepth (step.times count) := by
  induction count with
  | zero => exact fun _ => rfl
  | succ count ih => exact hstep.andThen fun _ => ih.andThen fun _ _ => rfl

namespace Expansion

variable {expand : Request → Step ε} {name : String}

/-- Repeating items is expanding them so many times, behind the output so far. -/
theorem perform_repeatItems_behind (items output : List Item) (count : Nat) (run : Run ε) :
    perform expand name (.repeatItems items output count) run =
      Step.andThen ((expand (.items items)).times count)
        (fun more run => (.ok (output.reverse ++ more), run)) run := by
  induction count generalizing output run with
  | zero =>
    have hnone : (expand (.items items)).times 0 run = (.ok [], run) := rfl
    rw [Step.andThen_of_ok hnone, List.append_nil]
    rfl
  | succ count ih =>
    rw [Action.repeatItems, perform_expand, Step.times, Step.append, Step.andThen_assoc]
    rcases hfirst : expand (.items items) run with ⟨fault | first, between⟩
    · rw [Step.andThen_of_error hfirst]
      rfl
    · rw [Step.andThen_of_ok hfirst, Step.andThen_assoc]
      simp only [ih]
      rw [List.reverse_append, List.reverse_reverse]
      simp only [Step.andThen, List.append_assoc]

/-- A repetition expands its items so many times, each time from where it was left. -/
theorem perform_repeatItems (items : List Item) (count : Nat) :
    perform expand name (.repeatItems items [] count) = (expand (.items items)).times count := by
  funext run
  rw [perform_repeatItems_behind, Step.andThen]
  rcases (expand (.items items)).times count run with ⟨_ | more, after⟩ <;> rfl

/-- What happens is what happens so many times. -/
theorem courseOfAction_repeatItems (course : Request → Course ε) (items output : List Item)
    (count : Nat) :
    courseOfAction expand course name (.repeatItems items output count) =
      Course.times (expand (.items items)) (course (.items items)) count := by
  funext run
  induction count generalizing output run with
  | zero => rfl
  | succ count ih =>
    rw [Action.repeatItems, courseOfAction, Course.times]
    rcases hfirst : expand (.items items) run with ⟨fault | first, between⟩
    · rw [Course.andThen_of_error hfirst, courseOfAction, List.append_nil]
    · rw [Course.andThen_of_ok hfirst, ih]

end Expansion

/-! ### The stages of a repetition -/

namespace Macro

/-- A text that denotes a count is a count. -/
theorem countOf_of_denotes {content : String} {count : Nat} (h : Text.Denotes content count) :
    countOf (.text content) = .ok count := by
  have hread := Text.readCount?_trim_eq_some_iff.mpr h
  simp only [countOf, Item.text?, Option.bind_some, hread]

/-- Any other text is at fault, and the fault tells it as it is. -/
theorem countOf_of_not_denotes {content : String} (h : ∀ count, ¬ Text.Denotes content count) :
    countOf (.text content) = .error (.invalidRepeatCount content) := by
  have hread : Text.readCount? (Text.trim content) = none := by
    cases hread : Text.readCount? (Text.trim content) with
    | none => rfl
    | some count => exact absurd (Text.readCount?_trim_eq_some_iff.mp hread) (h count)
  simp only [countOf, Item.text?, Option.bind_some, hread, Item.display]

end Macro

namespace Expander

variable {expander : Expander ε} {run : Run ε}

/-- A text and quoted items are expanded to themselves. -/
theorem expand_quoteBody (content : String) {body : List Item}
    (hfits : Item.nesting body ≤ expander.limit - run.depth) :
    let prepared := Macro.quoteBody (.text content :: body)
    expander.expand (.items prepared) run = (.ok prepared, run) ∧
      expander.course (.items prepared) run = [⟨.handIn (.items prepared), run⟩] := by
  intro prepared
  have hprepared : Item.nesting prepared ≤ expander.limit - run.depth := by
    have hheight : Item.heightAll prepared = Item.heightAll body := by
      simp [prepared, Macro.quoteBody, Item.heightAll, Item.height]
    rwa [Item.nesting_eq_heightAll, hheight, ← Item.nesting_eq_heightAll]
  exact ⟨expand_of_le hprepared, course_of_le hprepared⟩

/-- Where the body fits, a repetition is evaluated on its count and the body as it stands. -/
theorem invoke_repetition (call : Call) {content : String} {body : List Item}
    (hcall : call.arguments = .text content :: body)
    (hfits : Item.nesting body ≤ expander.limit - run.depth) :
    let prepared := Macro.quoteBody call.arguments
    expander.invoke .repetition call run =
        expander.evaluate call.name .repetition prepared run ∧
      expander.courseOfInvocation .repetition call run =
        ⟨.transform call, run⟩ :: ⟨.handIn (.items prepared), run⟩ ::
          ⟨.evaluate call prepared, run⟩ ::
            expander.courseOfEvaluation call.name .repetition prepared run := by
  intro prepared
  have hprepare : Macro.prepare .repetition call.name call.arguments run = (.ok prepared, run) :=
    rfl
  obtain ⟨hexpand, hcourse⟩ := expand_quoteBody content hfits
  rw [← hcall] at hexpand hcourse
  constructor
  · rw [invoke, Step.andThen_of_ok hprepare, Step.andThen_of_ok hexpand]
  · rw [courseOfInvocation, Course.andThen_of_ok hprepare, Course.andThen_of_ok hexpand, hcourse]
    rfl

/-- A repetition is evaluated by expanding its body as many times as its count says. -/
theorem evaluate_repetition (expander : Expander ε) (name : String) {content : String}
    {count : Nat} (h : Text.Denotes content count) (body : List Item) :
    let prepared := Macro.quoteBody (.text content :: body)
    expander.evaluate name .repetition prepared = (expander.expand (.items body)).times count ∧
      expander.courseOfEvaluation name .repetition prepared =
        Course.times (expander.expand (.items body)) (expander.course (.items body)) count := by
  intro prepared
  have haction : Macro.repetition.evaluate prepared =
      (.repeatItems body [] count : Action ε) := by
    simp [prepared, Macro.quoteBody, Macro.repetition, Macro.countOf_of_denotes h, Item.unquoted]
  rw [evaluate, courseOfEvaluation, haction]
  exact ⟨Expansion.perform_repeatItems body count,
    Expansion.courseOfAction_repeatItems expander.course body [] count⟩

/-- Without a count it fails. -/
theorem evaluate_repetition_of_not_denotes (expander : Expander ε) (name : String)
    {content : String} (h : ∀ count, ¬ Text.Denotes content count) (body : List Item)
    (run : Run ε) :
    let prepared := Macro.quoteBody (.text content :: body)
    expander.evaluate name .repetition prepared run =
        (.error (.invalidRepeatCount content), run) ∧
      expander.courseOfEvaluation name .repetition prepared run = [] := by
  intro prepared
  have haction : Macro.repetition.evaluate prepared =
      (.fail (.invalidRepeatCount content) : Action ε) := by
    simp [prepared, Macro.quoteBody, Macro.repetition, Macro.countOf_of_not_denotes h]
  rw [evaluate, courseOfEvaluation, haction]
  exact ⟨rfl, rfl⟩

/-- A call of the repeating macro expands its body, item for item as it stands, as many times in
a row as its first argument says, all inside the call, and comes to all outputs in order. When
the body fails after some times, the call fails with the same fault and what was done before
stays done. Where the first argument denotes no count, the call fails and tells so, and the body
is not expanded. -/
theorem repetition_expands {name : String}
    (hfind : expander.registry.find? name = some .repetition) (run : Run ε)
    (position : Position) (content : String) (body : List Item)
    (hfits : Call.nesting ⟨name, position, .text content :: body⟩ ≤
      expander.limit - run.depth) :
    let call : Call := ⟨name, position, .text content :: body⟩
    let inside := Expansion.begin call run
    let expandBody := expander.expand (.items body)
    let opening : List (Moment ε) :=
      [⟨.lookUp call, run⟩, ⟨.announce (.expanding name position run.depth), run⟩,
        ⟨.transform call, inside⟩, ⟨.handIn (.items [.text content, .quoted body]), inside⟩,
        ⟨.evaluate call [.text content, .quoted body], inside⟩]
    (∀ request, request.toItems = [call.toItem] →
      expander.expand request run = expander.expandCall call run) ∧
    (∀ done, (expandBody.times done inside).2.depth = run.depth + 1) ∧
    (∀ count, Text.Denotes content count →
      expander.expandCall call run =
          ((expandBody.times count inside).1, (expandBody.times count inside).2.leave) ∧
        expander.courseOfCall call run =
          opening ++ Course.times expandBody (expander.course (.items body)) count inside ∧
        ∀ done < count, ∀ output between fault after,
          expandBody.times done inside = (.ok output, between) →
            expandBody between = (.error fault, after) →
              expander.expandCall call run = (.error fault, after.leave)) ∧
    ((∀ count, ¬ Text.Denotes content count) →
      expander.expandCall call run = (.error (.invalidRepeatCount content), inside.leave) ∧
        expander.courseOfCall call run = opening) := by
  intro call inside expandBody opening
  have hnesting : call.nesting = 1 + Item.nesting body := by
    simp [call, Call.nesting, Item.nesting_eq_heightAll, Item.heightAll, Item.height]
  have hroom : run.depth < expander.limit := lt_of_nesting_le hfits
  have hdepth : inside.depth = run.depth + 1 := rfl
  have hbody : Item.nesting body ≤ expander.limit - inside.depth := by
    have hle : call.nesting ≤ expander.limit - run.depth := hfits
    omega
  obtain ⟨hinvoke, hinvocation⟩ := invoke_repetition call rfl hbody
  -- all that is left of the call is its evaluation
  have hcall : expander.expandCall call run =
      let result := expander.evaluate name .repetition (Macro.quoteBody call.arguments) inside
      (result.1, result.2.leave) := by
    rw [expandCall_of_find hfind hroom, hinvoke]
  have hcourse : expander.courseOfCall call run = opening ++
      expander.courseOfEvaluation name .repetition (Macro.quoteBody call.arguments) inside := by
    rw [courseOfCall_of_find hfind hroom, hinvocation]
    simp only [opening, List.cons_append, List.nil_append]
    rfl
  refine ⟨fun request hrequest => expand_of_toItems_eq hrequest hfits, ?_, ?_, ?_⟩
  · intro done
    exact Step.keepsDepth_times (expander.keepsDepth_expand (.items body)) done inside
  · intro count hcount
    obtain ⟨hevaluate, hevaluation⟩ := evaluate_repetition expander name hcount body
    have hexpands : expander.expandCall call run =
        ((expandBody.times count inside).1, (expandBody.times count inside).2.leave) := by
      rw [hcall, hevaluate]
    refine ⟨hexpands, by rw [hcourse, hevaluation], ?_⟩
    intro done hdone output between fault after htimes hfault
    rw [hexpands, Step.times_of_error hdone htimes hfault]
  · intro hno
    obtain ⟨hevaluate, hevaluation⟩ :=
      evaluate_repetition_of_not_denotes expander name hno body inside
    exact ⟨by rw [hcall, hevaluate], by rw [hcourse, hevaluation, List.append_nil]⟩

/-- A macro that counts its calls and fails from the second one on. -/
def brittle : Macro Tally where
  evaluate _ := .update Tally.increment fun tally =>
    if tally.count ≤ 1 then .yield [.text "used"] else .fail (.custom "worn out")

/-- An expander of two levels for this macro and the repeating one. -/
def wearing : Expander Tally where
  registry := (Registry.empty.insert "$$use" brittle).insert "$$repeat" .repetition
  limit := 2

/-- A body that wears out is expanded once, but not two times. What was counted stays counted.
Less than no times cannot be counted, and the body is not used. -/
theorem repetition_expands_wearing :
    let body : List Item := [.call "$$use" ⟨1, 12⟩ [], .quoted [.call "$$gone" ⟨1, 18⟩ []]]
    let start : Run Tally := .start .empty {}
    let result (content : String) : Outcome × Run Tally :=
      wearing.expandCall ⟨"$$repeat", ⟨1, 1⟩, .text content :: body⟩ start
    wearing.registry.find? "$$repeat" = some .repetition ∧
      (∀ content, Call.nesting ⟨"$$repeat", ⟨1, 1⟩, .text content :: body⟩ ≤ 2) ∧
      Text.Denotes " +1 " 1 ∧ Text.Denotes "2" 2 ∧ (∀ count, ¬ Text.Denotes "-1" count) ∧
      (result " +1 ").1 = .ok [.text "used", .quoted [.call "$$gone" ⟨1, 18⟩ []]] ∧
      (result " +1 ").2.environment.count = 1 ∧
      (result "2").1 = .error (.custom "worn out") ∧ (result "2").2.environment.count = 2 ∧
      (result "-1").1 = .error (.invalidRepeatCount "-1") ∧
      (result "-1").2.environment.count = 0 := by
  intro body start result
  have hfind : wearing.registry.find? "$$repeat" = some .repetition := by
    rw [wearing, Registry.find?_insert, if_pos rfl]
  have hfits (content : String) :
      Call.nesting ⟨"$$repeat", ⟨1, 1⟩, .text content :: body⟩ ≤ 2 := by
    simp [Call.nesting, Item.nesting_eq_heightAll, Item.heightAll, Item.height, body]
  have hone : Text.Denotes " +1 " 1 := Text.readCount?_trim_eq_some_iff.mp (by decide +kernel)
  have htwo : Text.Denotes "2" 2 := Text.readCount?_trim_eq_some_iff.mp (by decide +kernel)
  have hless (count : Nat) : ¬ Text.Denotes "-1" count := by
    rw [← Text.readCount?_trim_eq_some_iff]
    have hnone : Text.readCount? (Text.trim "-1") = none := by decide +kernel
    rw [hnone]
    intro hsome
    cases hsome
  have hexpands (content : String) :=
    repetition_expands hfind start ⟨1, 1⟩ content body (hfits content)
  have honce := ((hexpands " +1 ").2.2.1 1 hone).1
  have htwice := ((hexpands "2").2.2.1 2 htwo).1
  have hinvalid := ((hexpands "-1").2.2.2 hless).1
  refine ⟨hfind, hfits, hone, htwo, hless, ?_, ?_, ?_, ?_, ?_, ?_⟩
  · rewrite [show result " +1 " = _ from honce]
    decide +kernel
  · rewrite [show result " +1 " = _ from honce]
    decide +kernel
  · rewrite [show result "2" = _ from htwice]
    decide +kernel
  · rewrite [show result "2" = _ from htwice]
    decide +kernel
  · rw [show result "-1" = _ from hinvalid]
  · rw [show result "-1" = _ from hinvalid]
    rfl

end Expander

end Offside
