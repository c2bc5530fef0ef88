import Offside.Proofs.Expansion.Depth

/-!
# The course of an expansion

What happens while something is expanded is written down here in order: what is handed in
to be expanded, which macros are looked up, which events are announced, and when a macro
transforms its arguments and is evaluated. A course follows expansion on its way and asks it
what each step comes to. The events of a run are those of its course.
-/

namespace Offside

variable {ε : Type}

/-- What can happen in the course of an expansion. -/
inductive Deed where
  /-- Something is handed in to be expanded. -/
  | handIn (request : Request)
  /-- The macro of a call is looked up. -/
  | lookUp (call : Call)
  /-- An event is announced. -/
  | announce (event : Event)
  /-- The macro of a call transforms its raw arguments. -/
  | transform (call : Call)
  /-- The macro of a call is evaluated on its expanded arguments. -/
  | evaluate (call : Call) (arguments : List Item)

/-- Something that happens in the course of an expansion. -/
structure Moment (ε : Type) where
  /-- What happens. -/
  deed : Deed
  /-- The run in which it happens. -/
  run : Run ε

/-- What happens from a run on, in order. -/
abbrev Course (ε : Type) := Run ε → List (Moment ε)

/-- What happens in a step, and then in the next one unless the step fails. -/
def Course.andThen (step : Step ε) (course : Course ε) (next : List Item → Course ε) :
    Course ε := fun run =>
  course run ++
    match step run with
    | (.error _, _) => []
    | (.ok items, after) => next items after

/-- Behind a step that fails nothing more happens. -/
theorem Course.andThen_of_error {step : Step ε} {run after : Run ε} {fault : Fault}
    (h : step run = (.error fault, after)) (course : Course ε) (next : List Item → Course ε) :
    Course.andThen step course next run = course run := by
  rw [andThen, h, List.append_nil]

/-- Behind a step that comes to something, what comes next happens. -/
theorem Course.andThen_of_ok {step : Step ε} {run after : Run ε} {items : List Item}
    (h : step run = (.ok items, after)) (course : Course ε) (next : List Item → Course ε) :
    Course.andThen step course next run = course run ++ next items after := by
  rw [andThen, h]

namespace Expansion

/-- What happens while items are expanded one after the other. -/
def courseOfItems (expandCall : Call → Step ε) (courseOfCall : Call → Course ε) :
    List Item → Course ε
  | [] => fun _ => []
  | .call name position arguments :: rest =>
    Course.andThen (expandCall ⟨name, position, arguments⟩)
      (courseOfCall ⟨name, position, arguments⟩) fun _ =>
        courseOfItems expandCall courseOfCall rest
  | .text _ :: rest => courseOfItems expandCall courseOfCall rest
  | .quoted _ :: rest => courseOfItems expandCall courseOfCall rest

/-- What happens once something is handed in: nothing more if it nests too deeply. -/
def courseOfRequest (limit : Nat) (expandCall : Call → Step ε) (courseOfCall : Call → Course ε)
    (request : Request) : Course ε := fun run =>
  ⟨.handIn request, run⟩ ::
    if limit - run.depth < Item.heightAll request.toItems then []
    else courseOfItems expandCall courseOfCall request.toItems run

/-- What nests too deeply for the levels left is handed in, and nothing happens to it. -/
theorem courseOfRequest_of_lt {limit : Nat} {request : Request} {run : Run ε}
    (hdeep : limit - run.depth < Item.heightAll request.toItems) (expandCall : Call → Step ε)
    (courseOfCall : Call → Course ε) :
    courseOfRequest limit expandCall courseOfCall request run = [⟨.handIn request, run⟩] := by
  rw [courseOfRequest, if_pos hdeep]

/-- What fits into the levels left is handed in and expanded item by item. -/
theorem courseOfRequest_of_le {limit : Nat} {request : Request} {run : Run ε}
    (hfits : Item.heightAll request.toItems ≤ limit - run.depth) (expandCall : Call → Step ε)
    (courseOfCall : Call → Course ε) :
    courseOfRequest limit expandCall courseOfCall request run =
      ⟨.handIn request, run⟩ :: courseOfItems expandCall courseOfCall request.toItems run := by
  rw [courseOfRequest, if_neg (Nat.not_lt_of_le hfits)]

/-- What happens while an evaluator acts. -/
def courseOfAction (expand : Request → Step ε) (course : Request → Course ε) (name : String) :
    Action ε → Course ε
  | .yield _, _ => []
  | .fail _, _ => []
  | .expand request next, run =>
    course request run ++
      courseOfAction expand course name (next (expand request run).1) (expand request run).2
  | .recall next, run => courseOfAction expand course name (next (run.memory.get name)) run
  | .update change next, run =>
    courseOfAction expand course name (next (change run.environment))
      { run with environment := change run.environment }
  | .log value next, run =>
    ⟨.announce (.logged value), run⟩ ::
      courseOfAction expand course name next (run.announce (.logged value))

/-- What happens while a macro is invoked. -/
def courseOfInvocation (limit : Nat) (expandCall : Call → Step ε)
    (courseOfCall : Call → Course ε) (entry : Macro ε) (call : Call) : Course ε := fun run =>
  ⟨.transform call, run⟩ ::
    Course.andThen (entry.prepare call.name call.arguments) (fun _ => []) (fun prepared =>
      Course.andThen (expandItems limit expandCall prepared)
        (courseOfRequest limit expandCall courseOfCall (.items prepared)) fun arguments run =>
          ⟨.evaluate call arguments, run⟩ ::
            courseOfAction (expandRequest limit expandCall)
              (courseOfRequest limit expandCall courseOfCall) call.name
              (entry.evaluate arguments) run) run

/-- What happens while a call is expanded with at most so many further levels below it. -/
def courseOfCall (registry : Registry ε) (limit : Nat) : Nat → Call → Course ε
  | 0, call, run => [⟨.lookUp call, run⟩]
  | levels + 1, call, run =>
    ⟨.lookUp call, run⟩ ::
      match registry.find? call.name with
      | none => []
      | some entry =>
        if limit ≤ run.depth then []
        else
          ⟨.announce (.expanding call.name call.position run.depth), run⟩ ::
            courseOfInvocation limit (expandCall registry limit levels)
              (courseOfCall registry limit levels) entry call (begin call run)

section OneCall

variable {registry : Registry ε} {call : Call} {run : Run ε}

/-- A call of an unknown macro is looked up, and that is all. -/
theorem courseOfCall_of_unknown (hfind : registry.find? call.name = none) (limit levels : Nat) :
    courseOfCall registry limit (levels + 1) call run = [⟨.lookUp call, run⟩] := by
  simp only [courseOfCall, hfind]

/-- A call of a known macro is looked up and nothing more when no further call may be active. -/
theorem courseOfCall_of_le {entry : Macro ε} (hfind : registry.find? call.name = some entry)
    {limit : Nat} (hfull : limit ≤ run.depth) (levels : Nat) :
    courseOfCall registry limit (levels + 1) call run = [⟨.lookUp call, run⟩] := by
  simp only [courseOfCall, hfind, if_pos hfull]

/-- Where there is room for one more active call, it is looked up, announced and invoked. -/
theorem courseOfCall_of_lt {entry : Macro ε} (hfind : registry.find? call.name = some entry)
    {limit : Nat} (hroom : run.depth < limit) (levels : Nat) :
    courseOfCall registry limit (levels + 1) call run =
      ⟨.lookUp call, run⟩ ::
        ⟨.announce (.expanding call.name call.position run.depth), run⟩ ::
          courseOfInvocation limit (expandCall registry limit levels)
            (courseOfCall registry limit levels) entry call (begin call run) := by
  simp only [courseOfCall, hfind, if_neg (Nat.not_le_of_lt hroom)]

end OneCall

end Expansion

/-- What happens while an expander expands something. -/
def Expander.course (expander : Expander ε) (request : Request) : Course ε := fun run =>
  Expansion.courseOfRequest expander.limit
    (Expansion.expandCall expander.registry expander.limit (expander.limit - run.depth + 1))
    (Expansion.courseOfCall expander.registry expander.limit (expander.limit - run.depth + 1))
    request run

/-! ### The events of a course -/

/-- The event that is announced. -/
def Moment.event? (moment : Moment ε) : Option Event :=
  match moment.deed with
  | .announce event => some event
  | _ => none

/-- The events of a course, latest first. -/
def Moment.events (moments : List (Moment ε)) : List Event :=
  (moments.filterMap Moment.event?).reverse

/-- The event of the first moment comes before all others. -/
theorem Moment.events_cons (moment : Moment ε) (rest : List (Moment ε)) :
    events (moment :: rest) = events rest ++ moment.event?.toList := by
  cases h : moment.event? <;> simp [events, h]

/-- The events of the later moments stand in front, since the latest event comes first. -/
theorem Moment.events_append (front back : List (Moment ε)) :
    events (front ++ back) = events back ++ events front := by
  simp [events]

/-- A course that has the events of a step. -/
def Tells (course : Course ε) (step : Step ε) : Prop :=
  ∀ run, (step run).2.events = Moment.events (course run) ++ run.events

/-- Two courses in a row tell of two steps in a row. -/
theorem Tells.andThen {step : Step ε} {course : Course ε} {next : List Item → Step ε}
    {nextCourse : List Item → Course ε} (hstep : Tells course step)
    (hnext : ∀ items, Tells (nextCourse items) (next items)) :
    Tells (Course.andThen step course nextCourse) (Step.andThen step next) := by
  intro run
  have hevents := hstep run
  cases hresult : step run with
  | mk outcome after =>
    rw [hresult] at hevents
    cases outcome with
    | error fault =>
      rw [Step.andThen_of_error hresult, Course.andThen_of_error hresult]
      exact hevents
    | ok items =>
      rw [Step.andThen_of_ok hresult, Course.andThen_of_ok hresult, hnext items after, hevents,
        Moment.events_append, List.append_assoc]

namespace Expansion

section OneLevel

variable {limit : Nat} {expandCall : Call → Step ε} {courseOfCall : Call → Course ε}

/-- What happens while items are expanded has the events of their expansion, if that holds of the
calls among them. -/
theorem tells_courseOfItems (hcall : ∀ call, Tells (courseOfCall call) (expandCall call))
    (output items : List Item) :
    Tells (courseOfItems expandCall courseOfCall items) (serveItems expandCall output items) := by
  induction items generalizing output with
  | nil => exact fun _ => rfl
  | cons item rest ih =>
    cases item with
    | text content => exact ih _
    | quoted items => exact ih _
    | call name position arguments =>
      exact (hcall ⟨name, position, arguments⟩).andThen fun items => ih _

/-- What is handed in causes the events of its expansion, which are none if it is refused. -/
theorem tells_courseOfRequest (hcall : ∀ call, Tells (courseOfCall call) (expandCall call))
    (request : Request) :
    Tells (courseOfRequest limit expandCall courseOfCall request)
      (expandRequest limit expandCall request) := by
  intro run
  rw [expandRequest_eq]
  rcases Nat.lt_or_ge (limit - run.depth) (Item.heightAll request.toItems) with hdeep | hfits
  · rw [expandItems_of_lt hdeep, courseOfRequest_of_lt hdeep]
    rfl
  · rw [expandItems_of_le hfits, courseOfRequest_of_le hfits]
    exact tells_courseOfItems hcall [] request.toItems run

/-- An evaluator causes the events of what it asks for and those of its own log entries, and no
others. -/
theorem tells_courseOfAction {expand : Request → Step ε} {course : Request → Course ε}
    (hexpand : ∀ request, Tells (course request) (expand request)) (name : String)
    (action : Action ε) :
    Tells (courseOfAction expand course name action) (perform expand name action) := by
  intro run
  induction action generalizing run with
  | yield output => rfl
  | fail fault => rfl
  | expand request next ih =>
    rw [courseOfAction, Moment.events_append, List.append_assoc, ← hexpand request run]
    exact ih _ _
  | «recall» next ih => exact ih _ _
  | update change next ih => exact ih _ _
  | log value next ih =>
    refine (ih (run.announce (.logged value))).trans ?_
    simp [courseOfAction, Moment.events_cons, Moment.event?, Run.announce]

/-- An invocation causes those of its expansion and its evaluation, since transforming arguments
causes none. -/
theorem tells_courseOfInvocation (hcall : ∀ call, Tells (courseOfCall call) (expandCall call))
    (entry : Macro ε) (call : Call) :
    Tells (courseOfInvocation limit expandCall courseOfCall entry call)
      (invoke limit expandCall entry call) := by
  have hprepare : Tells (fun _ => []) (entry.prepare call.name call.arguments) := fun _ => rfl
  exact hprepare.andThen fun prepared =>
    (tells_courseOfRequest hcall (.items prepared)).andThen fun arguments =>
      tells_courseOfAction (tells_courseOfRequest hcall) call.name (entry.evaluate arguments)

/-- On every level the course of a call has the events of its expansion. -/
theorem tells_courseOfCall (registry : Registry ε) (limit levels : Nat) (call : Call) :
    Tells (Expansion.courseOfCall registry limit levels call)
      (Expansion.expandCall registry limit levels call) := by
  induction levels generalizing call with
  | zero => exact fun _ => rfl
  | succ levels ih =>
    intro run
    cases hfind : registry.find? call.name with
    | none =>
      rw [expandCall_of_unknown hfind, courseOfCall_of_unknown hfind]
      rfl
    | some entry =>
      rcases Nat.lt_or_ge run.depth limit with hroom | hfull
      · rw [expandCall_of_lt hfind hroom, courseOfCall_of_lt hfind hroom]
        refine (tells_courseOfInvocation ih entry call (begin call run)).trans ?_
        simp [Moment.events_cons, Moment.event?, begin, Run.announce, Run.enter]
      · rw [expandCall_of_le hfind hfull, courseOfCall_of_le hfind hfull]
        rfl

end OneLevel

end Expansion

/-- The events that an expansion adds to a run are those of its course. -/
theorem Expander.tells_course (expander : Expander ε) (request : Request) :
    Tells (expander.course request) (expander.expand request) :=
  fun run => Expansion.tells_courseOfRequest
    (Expansion.tells_courseOfCall expander.registry expander.limit _) request run

end Offside
