import Mathlib.Control.Monad.Basic
import Offside.Expansion.Builtin
import Offside.Expansion.Stock
import Offside.Proofs.Expansion.Agreement
import Offside.Proofs.Expansion.Course

/-!
# An expander stays within its limit

At no moment of an expansion are more calls active than the limit allows, and whenever a
call's turn comes there is room for it: the budget check that lets its list pass has seen to
that. Since every call that is begun is ended, an expander is after any use as it was at
first, and each expansion is one that a new expander would make.
-/

namespace Offside

variable {ε : Type}

/-! ### Moments within a limit -/

/-- A moment at which no more calls are active than are allowed, and fewer if a call is about
to be expanded. -/
structure Moment.Within (limit : Nat) (moment : Moment ε) : Prop where
  /-- No more calls are active than the limit allows. -/
  depth_le : moment.run.depth ≤ limit
  /-- When a macro is looked up there is room for one more call. -/
  lookUp_lt : ∀ call, moment.deed = .lookUp call → moment.run.depth < limit
  /-- When a call is announced there is room for it, and the announcement tells how many
  calls are active. -/
  expanding_lt : ∀ name position depth,
    moment.deed = .announce (.expanding name position depth) →
      depth = moment.run.depth ∧ depth < limit

/-- A course that stays within a limit when it begins with so many active calls. -/
def Course.Within (limit depth : Nat) (course : Course ε) : Prop :=
  ∀ run, run.depth = depth → ∀ moment ∈ course run, moment.Within limit

variable {limit depth : Nat}

/-- A course without moments stays within every limit. -/
theorem Course.Within.nil : Course.Within limit depth fun _ : Run ε => [] :=
  fun _ _ _ hmoment => (List.not_mem_nil hmoment).elim

/-- A moment within the limit may come first. -/
theorem Course.Within.cons {course : Course ε} {first : Run ε → Moment ε}
    (hfirst : ∀ run, run.depth = depth → (first run).Within limit)
    (hcourse : Course.Within limit depth course) :
    Course.Within limit depth fun run => first run :: course run := by
  intro run hrun moment hmoment
  rcases List.mem_cons.mp hmoment with rfl | hmoment
  · exact hfirst run hrun
  · exact hcourse run hrun moment hmoment

/-- Two courses in a row stay within the limit if the step between them leaves as many calls
active as it finds. -/
theorem Course.Within.andThen {step : Step ε} {course : Course ε}
    {next : List Item → Course ε} (hdepth : KeepsDepth step)
    (hcourse : Course.Within limit depth course)
    (hnext : ∀ items, Course.Within limit depth (next items)) :
    Course.Within limit depth (Course.andThen step course next) := by
  intro run hrun moment hmoment
  have hafter := hdepth run
  cases hresult : step run with
  | mk outcome after =>
    rw [hresult] at hafter
    cases outcome with
    | error fault =>
      rw [Course.andThen_of_error hresult] at hmoment
      exact hcourse run hrun moment hmoment
    | ok items =>
      rw [Course.andThen_of_ok hresult] at hmoment
      rcases List.mem_append.mp hmoment with hmoment | hmoment
      · exact hcourse run hrun moment hmoment
      · exact hnext items after (hafter.trans hrun) moment hmoment

/-- A macro may be looked up when there is room for one more call. -/
theorem Moment.within_lookUp {run : Run ε} (hroom : run.depth < limit) (call : Call) :
    (⟨.lookUp call, run⟩ : Moment ε).Within limit :=
  ⟨Nat.le_of_lt hroom, fun _ _ => hroom, nofun⟩

/-- A deed that begins no call needs no room. -/
theorem Moment.within_of_le {moment : Moment ε} (hdepth : moment.run.depth ≤ limit)
    (hlookUp : ∀ call, moment.deed ≠ .lookUp call)
    (hexpanding : ∀ name position depth,
      moment.deed ≠ .announce (.expanding name position depth)) : moment.Within limit :=
  ⟨hdepth, fun call h => (hlookUp call h).elim,
    fun name position depth h => (hexpanding name position depth h).elim⟩

namespace Expansion

section OneLevel

variable {expandCall : Call → Step ε} {courseOfCall : Call → Course ε}

/-- Calls among items that are not too high find room. -/
theorem within_courseOfItems (hdepth : ∀ call, KeepsDepth (expandCall call))
    (hcall : depth < limit → ∀ call, Course.Within limit depth (courseOfCall call))
    {items : List Item} (hitems : Item.heightAll items ≤ limit - depth) :
    Course.Within limit depth (courseOfItems expandCall courseOfCall items) := by
  induction items with
  | nil => exact .nil
  | cons item rest ih =>
    rw [Item.heightAll] at hitems
    have hrest := ih (by omega)
    cases item with
    | text content => exact hrest
    | quoted items => exact hrest
    | call name position arguments =>
      rw [Item.height] at hitems
      exact (hcall (by omega) ⟨name, position, arguments⟩).andThen (hdepth _) fun _ => hrest

/-- What is handed in runs only if its calls find room. -/
theorem within_courseOfRequest (hle : depth ≤ limit)
    (hdepth : ∀ call, KeepsDepth (expandCall call))
    (hcall : depth < limit → ∀ call, Course.Within limit depth (courseOfCall call))
    (request : Request) :
    Course.Within limit depth (courseOfRequest limit expandCall courseOfCall request) := by
  intro run hrun
  have hhandIn : (⟨.handIn request, run⟩ : Moment ε).Within limit :=
    Moment.within_of_le (Nat.le_trans (Nat.le_of_eq hrun) hle) nofun nofun
  rcases Nat.lt_or_ge (limit - run.depth) (Item.heightAll request.toItems) with hdeep | hfits
  · rw [courseOfRequest_of_lt hdeep]
    exact List.forall_mem_singleton.mpr hhandIn
  · rw [courseOfRequest_of_le hfits]
    exact List.forall_mem_cons.mpr ⟨hhandIn,
      within_courseOfItems hdepth hcall (by omega) run hrun⟩

/-- What an evaluator does happens with as many active calls as it begins with, apart from what it
asks for. -/
theorem within_courseOfAction (hle : depth ≤ limit) {expand : Request → Step ε}
    {course : Request → Course ε} (hdepth : ∀ request, KeepsDepth (expand request))
    (hcourse : ∀ request, Course.Within limit depth (course request)) (name : String)
    (action : Action ε) : Course.Within limit depth (courseOfAction expand course name action) := by
  intro run hrun
  induction action generalizing run with
  | yield output => exact Course.Within.nil run hrun
  | fail fault => exact Course.Within.nil run hrun
  | expand request next ih =>
    intro moment hmoment
    rcases List.mem_append.mp hmoment with hmoment | hmoment
    · exact hcourse request run hrun moment hmoment
    · exact ih _ (expand request run).2 ((hdepth request run).trans hrun) moment hmoment
  | «recall» next ih => exact ih _ run hrun
  | update change next ih => exact ih _ { run with environment := change run.environment } hrun
  | log value next ih =>
    intro moment hmoment
    rcases List.mem_cons.mp hmoment with rfl | hmoment
    · exact Moment.within_of_le (Nat.le_trans (Nat.le_of_eq hrun) hle) nofun nofun
    · exact ih (run.announce (.logged value)) hrun moment hmoment

/-- An invocation stays within the limit if the calls inside it do. They are expanded only where
there is room for them. -/
theorem within_courseOfInvocation (hle : depth ≤ limit)
    (hdepth : ∀ call, KeepsDepth (expandCall call))
    (hcall : depth < limit → ∀ call, Course.Within limit depth (courseOfCall call))
    (entry : Macro ε) (call : Call) :
    Course.Within limit depth
      (courseOfInvocation limit expandCall courseOfCall entry call) := by
  have hrequest := within_courseOfRequest hle hdepth hcall
  have hevaluate : ∀ arguments, Course.Within limit depth fun run : Run ε =>
      ⟨.evaluate call arguments, run⟩ ::
        courseOfAction (expandRequest limit expandCall)
          (courseOfRequest limit expandCall courseOfCall) call.name
          (entry.evaluate arguments) run := fun arguments =>
    .cons (fun run hrun => Moment.within_of_le (Nat.le_trans (Nat.le_of_eq hrun) hle) nofun nofun)
      (within_courseOfAction hle (keepsDepth_expandRequest hdepth) hrequest call.name _)
  refine .cons (fun run hrun => Moment.within_of_le (Nat.le_trans (Nat.le_of_eq hrun) hle)
    nofun nofun) ?_
  exact Course.Within.andThen (fun _ => rfl) .nil fun prepared =>
    (hrequest (.items prepared)).andThen (keepsDepth_expandItems hdepth prepared) hevaluate

end OneLevel

/-- Where there is room for a call, all that happens in it stays within the limit. -/
theorem within_courseOfCall (registry : Registry ε) (hroom : depth < limit) (levels : Nat)
    (call : Call) : Course.Within limit depth (courseOfCall registry limit levels call) := by
  induction levels generalizing depth call with
  | zero => exact .cons (fun run hrun => Moment.within_lookUp (by omega) call) .nil
  | succ levels ih =>
    intro run hrun moment hmoment
    have hlookUp : (⟨.lookUp call, run⟩ : Moment ε).Within limit :=
      Moment.within_lookUp (by omega) call
    cases hfind : registry.find? call.name with
    | none =>
      rw [courseOfCall_of_unknown hfind] at hmoment
      exact List.mem_singleton.mp hmoment ▸ hlookUp
    | some entry =>
      rw [courseOfCall_of_lt hfind (by omega)] at hmoment
      have hinvocation := within_courseOfInvocation (by omega : depth + 1 ≤ limit)
        (keepsDepth_expandCall registry limit levels)
        (fun hinner inner => ih hinner inner) entry call (begin call run)
        (congrArg (· + 1) hrun)
      rcases List.mem_cons.mp hmoment with rfl | hmoment
      · exact hlookUp
      rcases List.mem_cons.mp hmoment with rfl | hmoment
      · refine ⟨hlookUp.depth_le, nofun, ?_⟩
        rintro name position depth ⟨⟩
        exact ⟨rfl, hlookUp.lookUp_lt call rfl⟩
      · exact hinvocation moment hmoment

end Expansion

namespace Expander

/-- An expansion that does not begin beyond the limit stays within it. -/
theorem within_course (expander : Expander ε) {run : Run ε} (hrun : run.depth ≤ expander.limit)
    (request : Request) : ∀ moment ∈ expander.course request run, moment.Within expander.limit :=
  Expansion.within_courseOfRequest hrun
    (Expansion.keepsDepth_expandCall expander.registry expander.limit _)
    (fun hroom call => Expansion.within_courseOfCall expander.registry hroom _ call)
    request run rfl

/-- Every event that announces a call tells of a depth below the limit. -/
theorem lt_of_expanding_mem (expander : Expander ε) {run : Run ε}
    (hrun : run.depth ≤ expander.limit) (hevents : run.events = []) {request : Request}
    {name : String} {position : Position} {depth : Nat}
    (h : .expanding name position depth ∈ (expander.expand request run).2.events) :
    depth < expander.limit := by
  rw [expander.tells_course request run, hevents, List.append_nil, Moment.events,
    List.mem_reverse, List.mem_filterMap] at h
  obtain ⟨⟨deed, at_⟩, hmoment, hevent⟩ := h
  have hwithin := expander.within_course hrun request _ hmoment
  cases deed with
  | announce event =>
    obtain rfl : event = _ := Option.some.inj hevent
    exact (hwithin.expanding_lt name position depth rfl).2
  | handIn request => cases hevent
  | lookUp call => cases hevent
  | transform call => cases hevent
  | evaluate call arguments => cases hevent

/-! ### One expander, used again and again -/

/-- Events from before make no difference to an expansion. -/
theorem expand_behind (expander : Expander ε) (request : Request) (run : Run ε)
    (earlier : List Event) :
    expander.expand request (run.behind earlier) =
      ((expander.expand request run).1, (expander.expand request run).2.behind earlier) := by
  have hpass : expander.registry.PassesOn fun _ => False :=
    fun _ _ _ _ => Action.passesOn_none _
  have hsame : Agrees (fun _ => False) earlier run.depth (expander.expand request)
      (expander.expand request) := agrees_expand hpass (Nat.le_refl _) (.inr rfl) request
  exact (hsame run rfl).resolve_left fun ⟨_, hfalse, _⟩ => hfalse

/-- The runs in which an expander can be while it expands nothing: at first, after an
expansion, whatever that came to, and after the environment and what macros keep were
changed from outside. -/
inductive Resting (expander : Expander ε) : Run ε → Prop where
  | start (memory : Memory) (environment : ε) :
    Resting expander (.start memory environment)
  | expanded {run : Run ε} (request : Request) (h : Resting expander run) :
    Resting expander (expander.expand request run).2
  | changed {run : Run ε} (memory : Memory) (environment : ε) (h : Resting expander run) :
    Resting expander { run with memory, environment }

/-- No call is active in an expander that expands nothing. -/
theorem Resting.depth_eq {expander : Expander ε} {run : Run ε} (h : expander.Resting run) :
    run.depth = 0 := by
  induction h with
  | start memory environment => rfl
  | expanded request h ih => exact (expander.keepsDepth_expand request _).trans ih
  | changed memory environment h ih => exact ih

/-- An expander keeps its depth and its limit, however often it is used. Every expansion,
whatever it comes to, leaves as many calls active as it found, and so does every expansion
that an evaluator asks for, at whatever level that acts. Never are more calls active than the
limit allows, and fewer are whenever a macro is looked up or invoked, so that the limit is not
what stops it there. Therefore an expansion comes to what it would come to in a new expander,
with the same effects. -/
theorem expand_within_limit {expander : Expander ε} {run : Run ε} (hrun : expander.Resting run)
    (request : Request) :
    let fresh := expander.expand request (.start run.memory run.environment)
    (∀ request, KeepsDepth (expander.expand request)) ∧
      (∀ levels request, KeepsDepth (Expansion.expandRequest expander.limit
        (Expansion.expandCall expander.registry expander.limit levels) request)) ∧
      (∀ moment ∈ expander.course request run, moment.Within expander.limit) ∧
      (∀ name position depth, .expanding name position depth ∈ fresh.2.events →
        depth < expander.limit) ∧
      expander.expand request run = (fresh.1, fresh.2.behind run.events) := by
  intro fresh
  have hdepth := hrun.depth_eq
  have hinside := Expansion.keepsDepth_expandCall expander.registry expander.limit
  refine ⟨expander.keepsDepth_expand,
    fun levels => Expansion.keepsDepth_expandRequest (hinside levels),
    expander.within_course (by omega) request, fun name position depth hevent => ?_, ?_⟩
  · exact expander.lt_of_expanding_mem (Nat.zero_le _) rfl hevent
  · have hstart : run = (Run.start run.memory run.environment).behind run.events := by
      obtain ⟨_, _, _, _⟩ := run
      cases hdepth
      rfl
    exact (congrArg (expander.expand request) hstart).trans
      (expander.expand_behind request _ run.events)

/-- An expander of three levels for a macro that calls itself and one that goes on when this
has failed. -/
def looping : Expander Tally where
  registry := (Registry.empty.insert "$$loop"
    (Stock.compose "$$loop" .identity (.expandItems [.call "$$loop" .nowhere []]))).insert
    "$$try" { evaluate := fun _ => .expand (.items [.call "$$loop" .nowhere []]) fun
      | .ok items => .yield items
      | .error _ => .yield [.text "failed"] }
  limit := 3

/-- What comes of a call that uses up all levels. -/
def exhausted : Outcome × Run Tally :=
  looping.expand (.items [.call "$$loop" ⟨1, 1⟩ []]) (.start .empty {})

/-- After a failed expansion all levels are there again, to be used up by the next one. -/
theorem expand_within_limit_exhausted :
    exhausted.1 = .error (.expandedTooDeep 3) ∧ looping.Resting exhausted.2 ∧
      (∀ moment ∈ looping.course (.calls [⟨"$$try", ⟨2, 1⟩, []⟩]) exhausted.2, moment.Within 3) ∧
      (looping.expand (.calls [⟨"$$try", ⟨2, 1⟩, []⟩]) exhausted.2).1 =
        .ok [.text "failed"] := by
  have hresting : looping.Resting exhausted.2 := .expanded _ (.start _ _)
  obtain ⟨-, -, hwithin, -, hfresh⟩ :=
    expand_within_limit hresting (.calls [⟨"$$try", ⟨2, 1⟩, []⟩])
  refine ⟨by decide +kernel, hresting, hwithin, ?_⟩
  rw [hfresh]
  decide +kernel

end Expander

end Offside
