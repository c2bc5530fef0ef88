import Offside.Proofs.Expansion.Course

/-!
# The stages of a call

How many levels of calls an expansion may still open is settled by the run that it begins in. The
expansions inside a call are therefore those of the same expander, one call further in: the raw
arguments are transformed, what comes of that is expanded, and the macro is evaluated.
-/

namespace Offside

variable {ε : Type}

/-! ### The same steps in the same runs -/

/-- Two sequences come to the same if their first steps do and, unless those fail, what follows
does from there. -/
theorem Step.andThen_congr {step other : Step ε} {next nextOther : List Item → Step ε}
    {run : Run ε} (hstep : step run = other run)
    (hnext : ∀ items after, step run = (.ok items, after) →
      next items after = nextOther items after) :
    Step.andThen step next run = Step.andThen other nextOther run := by
  simp only [andThen, ← hstep]
  rcases hresult : step run with ⟨_ | items, after⟩
  · rfl
  · exact hnext items after hresult

/-- The same things happen in two sequences under the same conditions. -/
theorem Course.andThen_congr {step other : Step ε} {course courseOther : Course ε}
    {next nextOther : List Item → Course ε} {run : Run ε} (hstep : step run = other run)
    (hcourse : course run = courseOther run)
    (hnext : ∀ items after, step run = (.ok items, after) →
      next items after = nextOther items after) :
    Course.andThen step course next run = Course.andThen other courseOther nextOther run := by
  simp only [andThen, ← hstep, ← hcourse]
  rcases hresult : step run with ⟨_ | items, after⟩
  · rfl
  · exact congrArg (course run ++ ·) (hnext items after hresult)

namespace Expansion

variable {expand other : Request → Step ε} {course courseOther : Request → Course ε} {depth : Nat}

/-- An evaluator comes to the same if what it asks for does wherever as many calls are active. -/
theorem perform_congr
    (hexpand : ∀ request run, run.depth = depth → expand request run = other request run)
    (hdepth : ∀ request, KeepsDepth (other request)) (name : String) (action : Action ε)
    (run : Run ε) (hrun : run.depth = depth) :
    perform expand name action run = perform other name action run := by
  induction action generalizing run with
  | yield output => rfl
  | fail fault => rfl
  | expand request next ih =>
    rw [perform_expand, perform_expand, hexpand request run hrun]
    exact ih _ _ ((hdepth request run).trans hrun)
  | «recall» next ih => exact ih _ run hrun
  | update change next ih => exact ih _ { run with environment := change run.environment } hrun
  | log value next ih => exact ih (run.announce (.logged value)) hrun

/-- The same things happen while it acts. -/
theorem courseOfAction_congr
    (hexpand : ∀ request run, run.depth = depth → expand request run = other request run)
    (hcourse : ∀ request run, run.depth = depth → course request run = courseOther request run)
    (hdepth : ∀ request, KeepsDepth (other request)) (name : String) (action : Action ε)
    (run : Run ε) (hrun : run.depth = depth) :
    courseOfAction expand course name action run =
      courseOfAction other courseOther name action run := by
  induction action generalizing run with
  | yield output => rfl
  | fail fault => rfl
  | expand request next ih =>
    simp only [courseOfAction, hexpand request run hrun, hcourse request run hrun]
    rw [ih _ _ ((hdepth request run).trans hrun)]
  | «recall» next ih => exact ih _ run hrun
  | update change next ih => exact ih _ { run with environment := change run.environment } hrun
  | log value next ih =>
    simp only [courseOfAction]
    rw [ih (run.announce (.logged value)) hrun]

end Expansion

namespace Expander

variable {expander : Expander ε} {call : Call} {run : Run ε}

/-! ### Lists -/

/-- Items that do not nest too deeply are expanded one by one. -/
theorem expand_of_le {items : List Item}
    (hfits : Item.nesting items ≤ expander.limit - run.depth) :
    expander.expand (.items items) run =
      Expansion.serveItems (Expansion.expandCall expander.registry expander.limit
        (expander.limit - run.depth + 1)) [] items run :=
  Expansion.expandItems_of_le (Item.nesting_eq_heightAll items ▸ hfits) _

/-- What happens then is what happens with one after the other. -/
theorem course_of_le {items : List Item}
    (hfits : Item.nesting items ≤ expander.limit - run.depth) :
    expander.course (.items items) run = ⟨.handIn (.items items), run⟩ ::
      Expansion.courseOfItems (Expansion.expandCall expander.registry expander.limit
        (expander.limit - run.depth + 1)) (Expansion.courseOfCall expander.registry
          expander.limit (expander.limit - run.depth + 1)) items run :=
  Expansion.courseOfRequest_of_le (Item.nesting_eq_heightAll items ▸ hfits) _ _

/-- Items that nest too deeply are refused before anything happens. -/
theorem refused_of_lt {items : List Item}
    (hdeep : expander.limit - run.depth < Item.nesting items) :
    expander.expand (.items items) run = (.error (.expandedTooDeep expander.limit), run) ∧
      expander.course (.items items) run = [⟨.handIn (.items items), run⟩] := by
  rw [Item.nesting_eq_heightAll] at hdeep
  exact ⟨Expansion.expandItems_of_lt hdeep _, Expansion.courseOfRequest_of_lt hdeep _ _⟩

/-- A level is left for a call that does not nest too deeply. -/
theorem lt_of_nesting_le {limit depth : Nat} (hfits : call.nesting ≤ limit - depth) :
    depth < limit := by
  have hnesting : call.nesting = 1 + Item.nesting call.arguments := rfl
  omega

/-- A list of one call nests as deeply as the call. -/
theorem heightAll_toItem_le {room : Nat} (hfits : call.nesting ≤ room) :
    Item.heightAll [call.toItem] ≤ room := by
  rw [Item.heightAll, Item.heightAll, Nat.max_zero, ← Call.nesting_eq_height]
  exact hfits

/-- A list of one call comes to what the call comes to. -/
theorem expand_of_toItems_eq {request : Request} (hrequest : request.toItems = [call.toItem])
    (hfits : call.nesting ≤ expander.limit - run.depth) :
    expander.expand request run = expander.expandCall call run := by
  rw [expand, Expansion.expandRequest_eq, hrequest,
    Expansion.expandItems_of_le (heightAll_toItem_le hfits), Expansion.serveItems_call, expandCall,
    Step.andThen]
  rcases Expansion.expandCall _ _ _ call run with ⟨_ | items, after⟩
  · rfl
  · simp [Expansion.serveItems]

/-! ### Calls -/

/-- What happens while an expander expands a call. -/
def courseOfCall (expander : Expander ε) (call : Call) : Course ε := fun run =>
  Expansion.courseOfCall expander.registry expander.limit (expander.limit - run.depth + 1) call run

/-- What happens with a list of one call is what happens with the call. -/
theorem course_of_toItems_eq {request : Request} (hrequest : request.toItems = [call.toItem])
    (hfits : call.nesting ≤ expander.limit - run.depth) :
    expander.course request run = ⟨.handIn request, run⟩ :: expander.courseOfCall call run := by
  rw [course, Expansion.courseOfRequest_of_le (hrequest ▸ heightAll_toItem_le hfits), hrequest,
    courseOfCall]
  apply congrArg (List.cons _)
  obtain ⟨name, position, arguments⟩ := call
  rw [Call.toItem, Expansion.courseOfItems, Course.andThen]
  rcases Expansion.expandCall _ _ _ _ run with ⟨_ | items, after⟩
  · exact List.append_nil _
  · exact List.append_nil _

/-- What happens while a macro, registered under the given name, evaluates arguments. -/
def courseOfEvaluation (expander : Expander ε) (name : String) (entry : Macro ε)
    (arguments : List Item) : Course ε :=
  Expansion.courseOfAction expander.expand expander.course name (entry.evaluate arguments)

/-- Inside a call: transforms its raw arguments, expands what comes of that, and evaluates the
macro on what comes of that. -/
def invoke (expander : Expander ε) (entry : Macro ε) (call : Call) : Step ε :=
  Step.andThen (entry.prepare call.name call.arguments) fun prepared =>
    Step.andThen (expander.expand (.items prepared)) fun arguments =>
      expander.evaluate call.name entry arguments

/-- What happens inside a call. -/
def courseOfInvocation (expander : Expander ε) (entry : Macro ε) (call : Call) : Course ε :=
  fun run => ⟨.transform call, run⟩ ::
    Course.andThen (entry.prepare call.name call.arguments) (fun _ => []) (fun prepared =>
      Course.andThen (expander.expand (.items prepared)) (expander.course (.items prepared))
        fun arguments run => ⟨.evaluate call arguments, run⟩ ::
          expander.courseOfEvaluation call.name entry arguments run) run

section Levels

variable {levels : Nat}

/-- With as many levels as the limit leaves, an expansion is one of the expander. -/
theorem expandRequest_eq (hlevels : levels = expander.limit - run.depth + 1) (request : Request) :
    Expansion.expandRequest expander.limit
      (Expansion.expandCall expander.registry expander.limit levels) request run =
        expander.expand request run := by
  rw [hlevels, expand]

/-- What happens meanwhile is the course of the expander. -/
theorem courseOfRequest_eq (hlevels : levels = expander.limit - run.depth + 1)
    (request : Request) :
    Expansion.courseOfRequest expander.limit
      (Expansion.expandCall expander.registry expander.limit levels)
      (Expansion.courseOfCall expander.registry expander.limit levels) request run =
        expander.course request run := by
  rw [hlevels, course]

/-- Preparing arguments is no call. -/
theorem depth_of_prepare {entry : Macro ε} {name : String} {arguments prepared : List Item}
    {ready : Run ε} (h : entry.prepare name arguments run = (.ok prepared, ready)) :
    ready.depth = run.depth :=
  congrArg (Run.depth ∘ Prod.snd) h.symm

/-- Expanding ends the calls that it begins. -/
theorem depth_of_expand {request : Request} {outcome : Outcome} {after : Run ε}
    (h : expander.expand request run = (outcome, after)) : after.depth = run.depth := by
  have hdepth := expander.keepsDepth_expand request run
  rwa [h] at hdepth

/-- So an invocation is one of the expander as well. -/
theorem invoke_eq (hlevels : levels = expander.limit - run.depth + 1) (entry : Macro ε)
    (call : Call) :
    Expansion.invoke expander.limit (Expansion.expandCall expander.registry expander.limit levels)
      entry call run = expander.invoke entry call run := by
  rw [Expansion.invoke_eq, invoke]
  apply Step.andThen_congr rfl
  intro prepared ready hready
  have hdepth := depth_of_prepare hready
  have hinner : levels = expander.limit - ready.depth + 1 := hdepth.symm ▸ hlevels
  have hexpand := expandRequest_eq hinner (.items prepared)
  apply Step.andThen_congr hexpand
  intro arguments expanded hexpanded
  have hinside := (depth_of_expand (hexpand.symm.trans hexpanded)).trans hdepth
  apply Expansion.perform_congr _ expander.keepsDepth_expand _ _ _ hinside
  intro request inner hinner
  exact expandRequest_eq (hinner.symm ▸ hlevels) request

/-- What happens inside a call is told as the expander tells it. -/
theorem courseOfInvocation_eq (hlevels : levels = expander.limit - run.depth + 1)
    (entry : Macro ε) (call : Call) :
    Expansion.courseOfInvocation expander.limit
      (Expansion.expandCall expander.registry expander.limit levels)
      (Expansion.courseOfCall expander.registry expander.limit levels) entry call run =
        expander.courseOfInvocation entry call run := by
  apply congrArg (List.cons _)
  apply Course.andThen_congr rfl rfl
  intro prepared ready hready
  have hdepth := depth_of_prepare hready
  have hinner : levels = expander.limit - ready.depth + 1 := hdepth.symm ▸ hlevels
  have hexpand := expandRequest_eq hinner (.items prepared)
  apply Course.andThen_congr hexpand (courseOfRequest_eq hinner (.items prepared))
  intro arguments expanded hexpanded
  have hinside := (depth_of_expand (hexpand.symm.trans hexpanded)).trans hdepth
  apply congrArg (List.cons _)
  apply Expansion.courseOfAction_congr _ _ expander.keepsDepth_expand _ _ _ hinside
  · intro request inner hinner
    exact expandRequest_eq (hinner.symm ▸ hlevels) request
  · intro request inner hinner
    exact courseOfRequest_eq (hinner.symm ▸ hlevels) request

end Levels

/-- A call of a known macro is announced, and then the macro is invoked one level further in. -/
theorem expandCall_of_find {entry : Macro ε}
    (hfind : expander.registry.find? call.name = some entry) (hroom : run.depth < expander.limit) :
    expander.expandCall call run =
      let result := expander.invoke entry call (Expansion.begin call run)
      (result.1, result.2.leave) := by
  have hlevels : expander.limit - run.depth =
      expander.limit - (Expansion.begin call run).depth + 1 := by
    have hinside : (Expansion.begin call run).depth = run.depth + 1 := rfl
    omega
  rw [expandCall, Expansion.expandCall_of_lt hfind hroom, invoke_eq hlevels]

/-- What happens while a call of a known macro is expanded. -/
theorem courseOfCall_of_find {entry : Macro ε}
    (hfind : expander.registry.find? call.name = some entry) (hroom : run.depth < expander.limit) :
    expander.courseOfCall call run =
      ⟨.lookUp call, run⟩ :: ⟨.announce (.expanding call.name call.position run.depth), run⟩ ::
        expander.courseOfInvocation entry call (Expansion.begin call run) := by
  have hlevels : expander.limit - run.depth =
      expander.limit - (Expansion.begin call run).depth + 1 := by
    have hinside : (Expansion.begin call run).depth = run.depth + 1 := rfl
    omega
  rw [courseOfCall, Expansion.courseOfCall_of_lt hfind hroom, courseOfInvocation_eq hlevels]

end Expander

end Offside
