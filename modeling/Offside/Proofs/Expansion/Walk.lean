import Mathlib.Data.List.TakeWhile
import Offside.Expansion.Stock
import Offside.Proofs.Expansion.Course

/-!
# The order of effects

Where macros only look at their arguments and never expand anything themselves, expansion is
one walk over the items from left to right: each call is announced and transformed before
anything inside it, and evaluated after all of that. A call of an unknown macro ends the walk
where it stands. What is quoted is not walked over.
-/

namespace Offside

variable {ε : Type}

/-! ### The walk -/

/-- What an expansion does with a call. -/
inductive Visit where
  /-- It announces the call, with the number of calls around it. -/
  | announced (name : String) (position : Position) (level : Nat)
  /-- It lets the macro transform the raw arguments of the call. -/
  | transformed (call : Call)
  /-- It lets the macro evaluate the expanded arguments of the call. -/
  | evaluated (call : Call)
deriving DecidableEq

namespace Visit

/-- The name of the macro. -/
def name : Visit → String
  | announced name _ _ => name
  | transformed call => call.name
  | evaluated call => call.name

/-- A call is announced under the name of its macro. -/
@[simp]
theorem name_announced (name : String) (position : Position) (level : Nat) :
    (announced name position level).name = name := rfl

/-- The arguments of a call are transformed by the macro that it names. -/
@[simp]
theorem name_transformed (call : Call) : (transformed call).name = call.name := rfl

/-- They are evaluated by the same macro. -/
@[simp]
theorem name_evaluated (call : Call) : (evaluated call).name = call.name := rfl

/-- The event of an announcement. -/
def event? : Visit → Option Event
  | announced name position level => some (.expanding name position level)
  | _ => none

/-- The call that is transformed. -/
def transformed? : Visit → Option Call
  | transformed call => some call
  | _ => none

/-- The call that is evaluated. -/
def evaluated? : Visit → Option Call
  | evaluated call => some call
  | _ => none

end Visit

namespace Item

mutual

/-- The calls in an item that are not quoted, each before the calls in its arguments. -/
def calls : Item → List Call
  | .text _ => []
  | .call name position arguments => ⟨name, position, arguments⟩ :: callsAll arguments
  | .quoted _ => []

/-- The calls in a list of items that are not quoted, in the same order. -/
def callsAll : List Item → List Call
  | [] => []
  | item :: rest => item.calls ++ callsAll rest

end

mutual

/-- The walk over an item that stands inside so many calls. -/
def walk (level : Nat) : Item → List Visit
  | .text _ => []
  | .call name position arguments =>
    .announced name position level :: .transformed ⟨name, position, arguments⟩ ::
      (walkAll (level + 1) arguments ++ [.evaluated ⟨name, position, arguments⟩])
  | .quoted _ => []

/-- The walk over a list of items that stands inside so many calls. -/
def walkAll (level : Nat) : List Item → List Visit
  | [] => []
  | item :: rest => item.walk level ++ walkAll level rest

end

mutual

/-- A walk transforms each call once, from the outside in. -/
theorem transformed_walk (level : Nat) :
    ∀ item : Item, (item.walk level).filterMap Visit.transformed? = item.calls
  | .text _ => rfl
  | .quoted _ => rfl
  | .call name position arguments => by
    have hinner := transformed_walkAll (level + 1) arguments
    simp [walk, calls, List.filterMap_cons, Visit.transformed?, hinner]

/-- A walk over a list transforms each of its calls once, in the same order. -/
theorem transformed_walkAll (level : Nat) :
    ∀ items : List Item, (walkAll level items).filterMap Visit.transformed? = callsAll items
  | [] => rfl
  | item :: rest => by
    simp [walkAll, callsAll, transformed_walk level item, transformed_walkAll level rest]

end

mutual

/-- A walk evaluates the same calls, in some order. -/
theorem evaluated_walk (level : Nat) :
    ∀ item : Item, ((item.walk level).filterMap Visit.evaluated?).Perm item.calls
  | .text _ => .refl _
  | .quoted _ => .refl _
  | .call name position arguments => by
    have hinner := evaluated_walkAll (level + 1) arguments
    simp only [walk, calls, Visit.evaluated?, List.filterMap_cons, List.filterMap_append,
      List.filterMap_nil]
    exact List.perm_append_singleton _ _ |>.trans (hinner.cons _)

/-- A walk over a list evaluates each of its calls once. -/
theorem evaluated_walkAll (level : Nat) :
    ∀ items : List Item,
      ((walkAll level items).filterMap Visit.evaluated?).Perm (callsAll items)
  | [] => .refl _
  | item :: rest => by
    rw [walkAll, callsAll, List.filterMap_append]
    exact (evaluated_walk level item).append (evaluated_walkAll level rest)

end

mutual

/-- A walk visits just the macros of the calls. -/
theorem forall_name_walk (level : Nat) (p : String → Prop) :
    ∀ item : Item, (∀ visit ∈ item.walk level, p visit.name) ↔ ∀ call ∈ item.calls, p call.name
  | .text _ => by simp [walk, calls]
  | .quoted _ => by simp [walk, calls]
  | .call name position arguments => by
    have hinner := forall_name_walkAll (level + 1) p arguments
    simp only [walk, calls, List.forall_mem_cons, List.forall_mem_append, hinner,
      Visit.name_announced, Visit.name_transformed, Visit.name_evaluated, List.not_mem_nil,
      false_implies, implies_true, and_true]
    constructor
    · rintro ⟨hname, -, hcalls, -⟩
      exact ⟨hname, hcalls⟩
    · rintro ⟨hname, hcalls⟩
      exact ⟨hname, hname, hcalls, hname⟩

/-- A walk over a list visits just the macros of its calls. -/
theorem forall_name_walkAll (level : Nat) (p : String → Prop) :
    ∀ items : List Item,
      (∀ visit ∈ walkAll level items, p visit.name) ↔ ∀ call ∈ callsAll items, p call.name
  | [] => by simp [walkAll, callsAll]
  | item :: rest => by
    simp only [walkAll, callsAll, List.forall_mem_append, forall_name_walk level p item,
      forall_name_walkAll level p rest]

end

end Item

/-! ### Visits in the course of an expansion -/

/-- The visit that a moment is. -/
def Moment.visit? (moment : Moment ε) : Option Visit :=
  match moment.deed with
  | .announce (.expanding name position level) => some (.announced name position level)
  | .transform call => some (.transformed call)
  | .evaluate call _ => some (.evaluated call)
  | _ => none

/-- The visits among some moments. -/
def Moment.visits (moments : List (Moment ε)) : List Visit :=
  moments.filterMap Moment.visit?

/-- A moment comes first among the visits if it is one. -/
theorem Moment.visits_cons (moment : Moment ε) (rest : List (Moment ε)) :
    visits (moment :: rest) = moment.visit?.toList ++ visits rest := by
  cases h : moment.visit? <;> simp [visits, h]

/-- The visits of two stretches of moments follow each other. -/
theorem Moment.visits_append (front back : List (Moment ε)) :
    visits (front ++ back) = visits front ++ visits back :=
  List.filterMap_append

/-- Whether an event announces a call. -/
def Event.isExpanding : Event → Bool
  | .expanding .. => true
  | _ => false

/-- The calls that are announced are those that are visited. -/
theorem Moment.filter_isExpanding (moments : List (Moment ε)) :
    (moments.filterMap Moment.event?).filter Event.isExpanding =
      (visits moments).filterMap Visit.event? := by
  induction moments with
  | nil => rfl
  | cons moment rest ih =>
    rw [visits_cons, List.filterMap_append, ← ih]
    obtain ⟨deed, _⟩ := moment
    cases deed with
    | announce event => cases event <;> rfl
    | handIn request => rfl
    | lookUp call => rfl
    | transform call => rfl
    | evaluate call arguments => rfl

/-! ### Plain macros -/

/-- The action asks for no expansion and does not fail. -/
def Action.IsPlain : Action ε → Prop
  | .yield _ => True
  | .fail _ => False
  | .expand _ _ => False
  | .recall next => ∀ kept, (next kept).IsPlain
  | .update _ next => ∀ environment, (next environment).IsPlain
  | .log _ next => next.IsPlain

/-- A macro that leaves its raw arguments as they are and evaluates them by itself. -/
structure Macro.IsPlain (entry : Macro ε) : Prop where
  /-- The raw arguments do not change. The environment may. -/
  transform_eq : ∀ arguments environment,
    (entry.transform arguments environment).1 = .ok arguments
  /-- The evaluator asks for no expansion and does not fail. -/
  evaluate_isPlain : ∀ arguments, (entry.evaluate arguments).IsPlain

/-- A registry of plain macros. -/
def Registry.IsPlain (registry : Registry ε) : Prop :=
  ∀ name entry, registry.find? name = some entry → entry.IsPlain

/-- A plain macro prepares its arguments by keeping them as they are. -/
theorem Macro.IsPlain.prepare_eq {entry : Macro ε} (h : entry.IsPlain) (name : String)
    (arguments : List Item) (run : Run ε) :
    entry.prepare name arguments run = (.ok arguments, (entry.prepare name arguments run).2) :=
  Prod.ext (h.transform_eq arguments run.environment) rfl

namespace Expansion

/-- A plain action yields something. -/
theorem exists_perform_of_isPlain {action : Action ε} (h : action.IsPlain)
    (expand : Request → Step ε) (name : String) (run : Run ε) :
    ∃ output, (perform expand name action run).1 = .ok output := by
  induction action generalizing run with
  | yield output => exact ⟨output, rfl⟩
  | fail fault => exact h.elim
  | expand request next => exact h.elim
  | «recall» next ih => exact ih _ (h _) run
  | update change next ih => exact ih _ (h _) _
  | log value next ih => exact ih h _

/-- A plain action visits no call. -/
theorem visits_courseOfAction_of_isPlain {action : Action ε} (h : action.IsPlain)
    (expand : Request → Step ε) (course : Request → Course ε) (name : String) (run : Run ε) :
    Moment.visits (courseOfAction expand course name action run) = [] := by
  induction action generalizing run with
  | yield output => rfl
  | fail fault => rfl
  | expand request next => exact h.elim
  | «recall» next ih => exact ih _ (h _) run
  | update change next ih => exact ih _ (h _) _
  | log value next ih =>
    rw [courseOfAction, Moment.visits_cons, ih h]
    rfl

end Expansion

/-! ### What visits leave behind -/

/-- Acts where nothing is expanded. -/
def Action.act (name : String) (action : Action ε) (run : Run ε) : Run ε :=
  (Expansion.perform (fun _ run => (.ok [], run)) name action run).2

/-- What a deed does to a run when nothing is expanded on the way: a call is announced, or
its macro is called. What an evaluator logs is part of what the evaluator does. -/
def Deed.apply (registry : Registry ε) (run : Run ε) : Deed → Run ε
  | .announce (.expanding name position level) => run.announce (.expanding name position level)
  | .transform call =>
    match registry.find? call.name with
    | some entry => (entry.prepare call.name call.arguments run).2
    | none => run
  | .evaluate call arguments =>
    match registry.find? call.name with
    | some entry => (entry.evaluate arguments).act call.name run
    | none => run
  | _ => run

/-- What is left of a run when everything is done once more that was done at some moments. -/
def Registry.replay (registry : Registry ε) (run : Run ε) (moments : List (Moment ε)) : Run ε :=
  moments.foldl (fun run moment => moment.deed.apply registry run) run

/-- Two stretches of moments are done once more one after the other. -/
theorem Registry.replay_append (registry : Registry ε) (run : Run ε)
    (front back : List (Moment ε)) :
    registry.replay run (front ++ back) = registry.replay (registry.replay run front) back :=
  List.foldl_append

/-- The same run with another number of active calls. -/
def Run.atDepth (run : Run ε) (depth : Nat) : Run ε :=
  { run with depth }

/-- How many calls are active does not matter to an evaluator. -/
theorem Action.act_atDepth (name : String) (action : Action ε) (run : Run ε) (depth : Nat) :
    action.act name (run.atDepth depth) = (action.act name run).atDepth depth := by
  induction action generalizing run with
  | yield output => rfl
  | fail fault => rfl
  | expand request next ih => exact ih _ run
  | «recall» next ih => exact ih _ run
  | update change next ih => exact ih _ { run with environment := change run.environment }
  | log value next ih => exact ih (run.announce (.logged value))

/-- Nor does it matter to what is done once more. -/
theorem Registry.replay_atDepth (registry : Registry ε) (run : Run ε)
    (moments : List (Moment ε)) (depth : Nat) :
    registry.replay (run.atDepth depth) moments = (registry.replay run moments).atDepth depth := by
  have hdeed : ∀ (deed : Deed) (run : Run ε),
      deed.apply registry (run.atDepth depth) = (deed.apply registry run).atDepth depth := by
    intro deed run
    cases deed with
    | handIn request => rfl
    | lookUp call => rfl
    | announce event => cases event <;> rfl
    | transform call =>
      simp only [Deed.apply]
      split <;> rfl
    | evaluate call arguments =>
      simp only [Deed.apply]
      split
      · exact Action.act_atDepth _ _ _ _
      · rfl
  induction moments generalizing run with
  | nil => rfl
  | cons moment rest ih => exact (congrArg (registry.replay · rest) (hdeed _ _)).trans (ih _)

namespace Expansion

/-- A plain action does the same wherever it acts. -/
theorem perform_of_isPlain {action : Action ε} (h : action.IsPlain) (expand : Request → Step ε)
    (name : String) (run : Run ε) : (perform expand name action run).2 = action.act name run := by
  induction action generalizing run with
  | yield output => rfl
  | fail fault => rfl
  | expand request next => exact h.elim
  | «recall» next ih => exact ih _ (h _) run
  | update change next ih => exact ih _ (h _) _
  | log value next ih => exact ih h _

/-- Nothing is left to do once more of what a plain action does on its way. -/
theorem replay_courseOfAction_of_isPlain (registry : Registry ε) {action : Action ε}
    (h : action.IsPlain) (expand : Request → Step ε) (course : Request → Course ε)
    (name : String) (run after : Run ε) :
    registry.replay after (courseOfAction expand course name action run) = after := by
  induction action generalizing run with
  | yield output => rfl
  | fail fault => rfl
  | expand request next => exact h.elim
  | «recall» next ih => exact ih _ (h _) run
  | update change next ih => exact ih _ (h _) _
  | log value next ih => exact ih h _

/-- Leaving a call gives back the run from before it, with what was done inside. -/
theorem leave_replay_begin (registry : Registry ε) (call : Call) (run : Run ε)
    (moments : List (Moment ε)) :
    (registry.replay (begin call run) moments).leave =
      registry.replay (run.announce (.expanding call.name call.position run.depth)) moments := by
  have hinside := registry.replay_atDepth
    (run.announce (.expanding call.name call.position run.depth)) moments (run.depth + 1)
  have houtside := registry.replay_atDepth
    (run.announce (.expanding call.name call.position run.depth)) moments run.depth
  exact (congrArg Run.leave hinside).trans houtside.symm

end Expansion

/-! ### Following the walk -/

/-- The first of some calls whose macro is not known. -/
def Registry.missing? (registry : Registry ε) (calls : List Call) : Option Call :=
  calls.find? fun call => !registry.contains call.name

/-- A macro that is found is known. -/
theorem Registry.contains_of_find? {registry : Registry ε} {name : String} {entry : Macro ε}
    (h : registry.find? name = some entry) : registry.contains name = true := by
  rw [registry.contains_eq_isSome, h]
  rfl

/-- No call is missing a macro if all macros are known. -/
theorem Registry.missing?_eq_none_iff (registry : Registry ε) (calls : List Call) :
    registry.missing? calls = none ↔ ∀ call ∈ calls, registry.contains call.name = true := by
  simp [missing?]

/-- The first unknown macro of two lists is that of the first list, if it has one. -/
theorem Registry.missing?_append (registry : Registry ε) (front back : List Call) :
    registry.missing? (front ++ back) = (registry.missing? front).or (registry.missing? back) :=
  List.find?_append

/-- What is left of a walk when it ends at the first unknown macro. -/
def Registry.knownVisits (registry : Registry ε) (walk : List Visit) : List Visit :=
  walk.takeWhile fun visit => registry.contains visit.name

/-- A walk on which all macros are known goes on into the next one. -/
theorem Registry.knownVisits_append_of_known {registry : Registry ε} {front : List Visit}
    (h : ∀ visit ∈ front, registry.contains visit.name = true) (back : List Visit) :
    registry.knownVisits (front ++ back) = front ++ registry.knownVisits back :=
  List.takeWhile_append_of_pos h

/-- A walk on which one is not known never comes to the next one. -/
theorem Registry.knownVisits_append_of_unknown {registry : Registry ε} {front : List Visit}
    (h : ¬ ∀ visit ∈ front, registry.contains visit.name = true) (back : List Visit) :
    registry.knownVisits (front ++ back) = registry.knownVisits front := by
  have hshort : (registry.knownVisits front).length ≠ front.length := fun hlength =>
    h (List.takeWhile_eq_self_iff.mp ((List.takeWhile_prefix _).eq_of_length hlength))
  exact List.takeWhile_append.trans (if_neg hshort)

/-- A step follows the walk over some calls if it makes the visits up to the first call of an
unknown macro, and fails there, or yields something if there is no such call. It does
nothing but what it does on its visits. -/
def Follows (registry : Registry ε) (level : Nat) (calls : List Call) (walk : List Visit)
    (step : Step ε) (course : Course ε) : Prop :=
  ∀ run, run.depth = level →
    Moment.visits (course run) = registry.knownVisits walk ∧
      (step run).2 = registry.replay run (course run) ∧
      match registry.missing? calls with
      | none => ∃ items, (step run).1 = .ok items
      | some missing => (step run).1 = .error (.unknownMacro missing.name missing.position)

variable {registry : Registry ε} {level : Nat}

/-- Two walks are followed one after the other. -/
theorem Follows.andThen {calls others : List Call} {walk onward : List Visit} {step : Step ε}
    {course : Course ε} {next : List Item → Step ε} {nextCourse : List Item → Course ε}
    (hstep : Follows registry level calls walk step course) (hdepth : KeepsDepth step)
    (hwalk : (∀ visit ∈ walk, registry.contains visit.name = true) ↔
      ∀ call ∈ calls, registry.contains call.name = true)
    (hnext : ∀ items, Follows registry level others onward (next items) (nextCourse items)) :
    Follows registry level (calls ++ others) (walk ++ onward) (Step.andThen step next)
      (Course.andThen step course nextCourse) := by
  intro run hrun
  have hafter := hdepth run
  obtain ⟨hvisits, hreplay, hends⟩ := hstep run hrun
  rw [registry.missing?_append]
  cases hmissing : registry.missing? calls with
  | none =>
    rw [hmissing] at hends
    obtain ⟨items, hitems⟩ := hends
    have hresult : step run = (.ok items, (step run).2) := Prod.ext hitems rfl
    have hknown := hwalk.mpr ((registry.missing?_eq_none_iff calls).mp hmissing)
    obtain ⟨honward, hlater, hothers⟩ := hnext items (step run).2 (hafter.trans hrun)
    rw [Step.andThen_of_ok hresult, Course.andThen_of_ok hresult, Moment.visits_append, hvisits,
      honward, registry.knownVisits_append_of_known hknown, registry.replay_append, ← hreplay]
    refine ⟨congrArg (· ++ _) ?_, hlater, hothers⟩
    exact List.takeWhile_eq_self_iff.mpr hknown
  | some missing =>
    rw [hmissing] at hends
    have hresult : step run = (.error (.unknownMacro missing.name missing.position),
      (step run).2) := Prod.ext hends rfl
    have hstop : ¬ ∀ visit ∈ walk, registry.contains visit.name = true := fun hall => by
      have hnone := (registry.missing?_eq_none_iff calls).mpr (hwalk.mp hall)
      rw [hmissing] at hnone
      cases hnone
    rw [Step.andThen_of_error hresult, Course.andThen_of_error hresult, hvisits,
      Registry.knownVisits_append_of_unknown hstop]
    exact ⟨rfl, hreplay, rfl⟩

namespace Expansion

section OneLevel

variable {limit : Nat} {expandCall : Call → Step ε} {courseOfCall : Call → Course ε}

/-- Expanding items one after the other follows the walk over them, if expanding a call that fits
into the levels left follows the walk over that call. -/
theorem follows_items (hdepth : ∀ call, KeepsDepth (expandCall call))
    (hcall : ∀ call : Call, call.toItem.height ≤ limit - level →
      Follows registry level call.toItem.calls (call.toItem.walk level) (expandCall call)
        (courseOfCall call))
    {items : List Item} (hitems : Item.heightAll items ≤ limit - level) (output : List Item) :
    Follows registry level (Item.callsAll items) (Item.walkAll level items)
      (serveItems expandCall output items) (courseOfItems expandCall courseOfCall items) := by
  induction items generalizing output with
  | nil => exact fun _ _ => ⟨rfl, rfl, _, rfl⟩
  | cons item rest ih =>
    rw [Item.heightAll] at hitems
    have hrest := ih (by omega)
    cases item with
    | text content => exact hrest _
    | quoted items => exact hrest _
    | call name position arguments =>
      have hheight : (Item.call name position arguments).height ≤ limit - level := by omega
      exact (hcall ⟨name, position, arguments⟩ hheight).andThen (hdepth _)
        (Item.forall_name_walk level (registry.contains · = true) _) fun items => hrest _

/-- What is handed in follows its walk if it nests no more deeply than levels are left. -/
theorem follows_expandItems (hdepth : ∀ call, KeepsDepth (expandCall call))
    (hcall : ∀ call : Call, call.toItem.height ≤ limit - level →
      Follows registry level call.toItem.calls (call.toItem.walk level) (expandCall call)
        (courseOfCall call))
    {items : List Item} (hitems : Item.heightAll items ≤ limit - level) :
    Follows registry level (Item.callsAll items) (Item.walkAll level items)
      (expandItems limit expandCall items)
      (courseOfRequest limit expandCall courseOfCall (.items items)) := by
  intro run hrun
  have hfits : Item.heightAll items ≤ limit - run.depth := hrun ▸ hitems
  rw [expandItems_of_le hfits, courseOfRequest_of_le hfits]
  exact follows_items hdepth hcall hitems [] run hrun

/-- The invocation of a plain macro visits the arguments between its own two visits. -/
theorem follows_invocation (hdepth : ∀ call, KeepsDepth (expandCall call))
    (hcall : ∀ call : Call, call.toItem.height ≤ limit - level →
      Follows registry level call.toItem.calls (call.toItem.walk level) (expandCall call)
        (courseOfCall call))
    {entry : Macro ε} (hentry : entry.IsPlain) {call : Call}
    (hfind : registry.find? call.name = some entry)
    (harguments : Item.heightAll call.arguments ≤ limit - level) :
    Follows registry level (Item.callsAll call.arguments)
      (.transformed call :: (Item.walkAll level call.arguments ++ [.evaluated call]))
      (invoke limit expandCall entry call)
      (courseOfInvocation limit expandCall courseOfCall entry call) := by
  have hknown := Registry.contains_of_find? hfind
  have hevaluate : ∀ arguments, Follows registry level [] [.evaluated call]
      (perform (expandRequest limit expandCall) call.name (entry.evaluate arguments))
      fun run => ⟨.evaluate call arguments, run⟩ ::
        courseOfAction (expandRequest limit expandCall)
          (courseOfRequest limit expandCall courseOfCall) call.name
          (entry.evaluate arguments) run := by
    intro arguments run _
    have hplain := hentry.evaluate_isPlain arguments
    refine ⟨?_, ?_, exists_perform_of_isPlain hplain _ _ run⟩
    · rw [Moment.visits_cons, visits_courseOfAction_of_isPlain hplain]
      simp [Moment.visit?, Registry.knownVisits, hknown]
    · refine (perform_of_isPlain hplain _ _ run).trans ?_
      refine Eq.trans ?_ (replay_courseOfAction_of_isPlain registry hplain _ _ _ run _).symm
      simp only [Deed.apply, hfind]
  have hinner := (follows_expandItems hdepth hcall harguments).andThen
    (keepsDepth_expandItems hdepth call.arguments)
    (Item.forall_name_walkAll level (registry.contains · = true) call.arguments) hevaluate
  intro run hrun
  have hprepare := hentry.prepare_eq call.name call.arguments run
  obtain ⟨hvisits, hreplay, hends⟩ := hinner (entry.prepare call.name call.arguments run).2 hrun
  rw [invoke_eq, Step.andThen_of_ok hprepare, courseOfInvocation,
    Course.andThen_of_ok hprepare, List.nil_append, Moment.visits_cons, hvisits]
  rw [List.append_nil] at hends
  refine ⟨?_, hreplay.trans ?_, hends⟩
  · simp [Moment.visit?, Registry.knownVisits, hknown]
  · simp only [Registry.replay, List.foldl_cons, Deed.apply, hfind]

end OneLevel

/-- A call follows its walk if it nests no more deeply than levels are left. -/
theorem follows_expandCall (hplain : registry.IsPlain) {limit levels : Nat}
    (henough : limit - level < levels) {call : Call}
    (hcall : call.toItem.height ≤ limit - level) :
    Follows registry level call.toItem.calls (call.toItem.walk level)
      (expandCall registry limit levels call) (courseOfCall registry limit levels call) := by
  induction levels generalizing level call with
  | zero => omega
  | succ levels ih =>
    intro run hrun
    rw [Call.toItem, Item.height] at hcall
    cases hfind : registry.find? call.name with
    | none =>
      have hunknown : registry.contains call.name = false := by
        rw [registry.contains_eq_isSome, hfind]
        rfl
      rw [expandCall_of_unknown hfind, courseOfCall_of_unknown hfind]
      simp [Call.toItem, Item.calls, Item.walk, Registry.missing?, Registry.knownVisits,
        Registry.replay, Deed.apply, Moment.visits, Moment.visit?, hunknown]
    | some entry =>
      have hknown := Registry.contains_of_find? hfind
      have hinvocation := follows_invocation (keepsDepth_expandCall registry limit levels)
        (fun inner hinner => ih (by omega) hinner) (hplain _ entry hfind) hfind
        (by omega : Item.heightAll call.arguments ≤ limit - (level + 1))
      obtain ⟨hvisits, hreplay, hends⟩ :=
        hinvocation (begin call run) (congrArg (· + 1) hrun)
      rw [expandCall_of_lt hfind (by omega), courseOfCall_of_lt hfind (by omega),
        Moment.visits_cons, Moment.visits_cons, hvisits]
      refine ⟨?_, (congrArg Run.leave hreplay).trans (leave_replay_begin registry call run _), ?_⟩
      · simp [Call.toItem, Item.walk, Moment.visit?, Registry.knownVisits, hknown, hrun]
      · simpa [Call.toItem, Item.calls, Registry.missing?, hknown] using hends

end Expansion

namespace Expander

/-- Expansion with plain macros is one walk. A list that nests too deeply is refused, and
nothing happens. Otherwise, if all macros are known, expansion succeeds and makes the visits
of the walk: each call is transformed and evaluated once. If some macro is not known,
expansion fails at the first call of such a macro and makes the visits up to there. The
events that announce calls are those of the visits, and nothing is done to the run besides
what the announcements and macros do, in the order of the visits. -/
theorem expand_walks {registry : Registry ε} (hplain : registry.IsPlain) (limit : Nat)
    (memory : Memory) (environment : ε) (items : List Item) :
    let expander : Expander ε := ⟨registry, limit⟩
    let start := Run.start memory environment
    let result := expander.expand (.items items) start
    let visits := Moment.visits (expander.course (.items items) start)
    (limit < Item.nesting items →
      result = (.error (.expandedTooDeep limit), start) ∧ visits = []) ∧
    (Item.nesting items ≤ limit →
      (∀ call ∈ Item.callsAll items, registry.contains call.name = true) →
        (∃ output, result.1 = .ok output) ∧ visits = Item.walkAll 0 items ∧
          visits.filterMap Visit.transformed? = Item.callsAll items ∧
          (visits.filterMap Visit.evaluated?).Perm (Item.callsAll items)) ∧
    (Item.nesting items ≤ limit →
      ∀ missing, registry.missing? (Item.callsAll items) = some missing →
        result.1 = .error (.unknownMacro missing.name missing.position) ∧
          visits = registry.knownVisits (Item.walkAll 0 items)) ∧
    result.2.events.reverse.filter Event.isExpanding = visits.filterMap Visit.event? ∧
    result.2 = registry.replay start (expander.course (.items items) start) := by
  intro expander start result visits
  have hrefused (hdeep : limit < Item.nesting items) :
      result = (.error (.expandedTooDeep limit), start) ∧
        expander.course (.items items) start = [⟨.handIn (.items items), start⟩] := by
    rw [Item.nesting_eq_heightAll] at hdeep
    exact ⟨Expansion.expandItems_of_lt hdeep _, Expansion.courseOfRequest_of_lt hdeep _ _⟩
  have hfollows (hfits : Item.nesting items ≤ limit) :
      visits = registry.knownVisits (Item.walkAll 0 items) ∧
        result.2 = registry.replay start (expander.course (.items items) start) ∧
        match registry.missing? (Item.callsAll items) with
        | none => ∃ output, result.1 = .ok output
        | some missing => result.1 = .error (.unknownMacro missing.name missing.position) := by
    rw [Item.nesting_eq_heightAll] at hfits
    exact Expansion.follows_expandItems (Expansion.keepsDepth_expandCall registry limit _)
      (fun call hcall => Expansion.follows_expandCall hplain (Nat.lt_succ_self _) hcall)
      hfits start rfl
  refine ⟨fun hdeep => ?_, fun hfits hknown => ?_, fun hfits missing hmissing => ?_, ?_, ?_⟩
  · obtain ⟨hresult, hcourse⟩ := hrefused hdeep
    exact ⟨hresult, congrArg Moment.visits hcourse⟩
  · obtain ⟨hvisits, -, hends⟩ := hfollows hfits
    rw [(registry.missing?_eq_none_iff _).mpr hknown] at hends
    have hall : visits = Item.walkAll 0 items := hvisits.trans (List.takeWhile_eq_self_iff.mpr
      ((Item.forall_name_walkAll 0 (registry.contains · = true) items).mpr hknown))
    refine ⟨hends, hall, ?_, ?_⟩
    · rw [hall, Item.transformed_walkAll]
    · rw [hall]
      exact Item.evaluated_walkAll 0 items
  · obtain ⟨hvisits, -, hends⟩ := hfollows hfits
    rw [hmissing] at hends
    exact ⟨hends, hvisits⟩
  · have hevents := expander.tells_course (.items items) start
    rw [← Moment.filter_isExpanding]
    change ((expander.expand (.items items) start).2.events.reverse).filter _ = _
    rw [hevents]
    simp [Moment.events, start, Run.start]
  · rcases Nat.lt_or_ge limit (Item.nesting items) with hdeep | hfits
    · obtain ⟨hresult, hcourse⟩ := hrefused hdeep
      rw [hresult, hcourse]
      rfl
    · exact (hfollows hfits).2.1

/-- A registry with a macro that notes when it is called. -/
def noting : Registry Tally :=
  Registry.empty.insert "$$note" (Stock.compose "$$note" .identity .identity)

/-- The walk ends at the macro that is not known, and passes over the quoted call of it. -/
theorem expand_walks_noting :
    let inner : Call := ⟨"$$note", ⟨1, 8⟩, []⟩
    let outer : Call := ⟨"$$note", ⟨1, 1⟩, [inner.toItem, .quoted [.call "$$gone" ⟨2, 1⟩ []]]⟩
    let items : List Item := [outer.toItem, .call "$$gone" ⟨3, 1⟩ [], .call "$$note" ⟨4, 1⟩ []]
    noting.IsPlain ∧ Item.nesting items ≤ 2 ∧
      (Expander.expand ⟨noting, 2⟩ (.items items) (.start .empty {})).1 =
        .error (.unknownMacro "$$gone" ⟨3, 1⟩) ∧
      Moment.visits (Expander.course ⟨noting, 2⟩ (.items items) (.start .empty {})) =
        [.announced "$$note" ⟨1, 1⟩ 0, .transformed outer, .announced "$$note" ⟨1, 8⟩ 1,
          .transformed inner, .evaluated inner, .evaluated outer] := by
  intro inner outer items
  have hplain : noting.IsPlain := by
    intro name entry hfind
    rw [noting, Registry.find?_insert, Registry.find?_empty] at hfind
    split at hfind
    · cases hfind
      exact ⟨fun _ _ => rfl, fun _ _ => trivial⟩
    · cases hfind
  have hfits : Item.nesting items ≤ 2 := by
    rw [Item.nesting_eq_heightAll]
    decide
  obtain ⟨-, -, hmissing, -⟩ := expand_walks hplain 2 .empty {} items
  have hgone : noting.missing? (Item.callsAll items) = some ⟨"$$gone", ⟨3, 1⟩, []⟩ := by
    decide
  obtain ⟨houtcome, hvisits⟩ := hmissing hfits _ hgone
  exact ⟨hplain, hfits, houtcome, hvisits.trans (by decide)⟩

end Expander

end Offside
