import Mathlib.Data.List.Basic
import Mathlib.Data.List.Induction
import Offside.Expansion.Builtin
import Offside.Expansion.Stock
import Offside.Proofs.Expansion.Stages

/-!
# What macros keep

A macro that keeps its raw arguments keeps those of each call that it transforms, and nothing else
changes what is kept: no evaluation, no other macro, and no failure. At every moment of whatever
was done with the macros of a registry, each of them keeps the arguments of its latest call. The
lazy macro hands these on, so that a call of it comes to its own arguments as they stand.
-/

namespace Offside

variable {ε : Type} {registry : Registry ε} {memory : Memory}

/-! ### The memory told by the deeds -/

/-- What is kept after a deed: if a macro that keeps its raw arguments transforms those of a call,
it keeps them. -/
def Deed.kept (registry : Registry ε) (memory : Memory) : Deed → Memory
  | .transform call =>
    match registry.find? call.name with
    | some entry => if entry.keeps then memory.keep call.name call.arguments else memory
    | none => memory
  | _ => memory

namespace Registry

/-- What is kept after some moments. -/
def kept (registry : Registry ε) (memory : Memory) (moments : List (Moment ε)) : Memory :=
  moments.foldl (fun memory moment => moment.deed.kept registry memory) memory

/-- What is kept after two stretches of moments is kept after the first, and then after the
second. -/
theorem kept_append (front back : List (Moment ε)) :
    registry.kept memory (front ++ back) = registry.kept (registry.kept memory front) back :=
  List.foldl_append

/-- At each of some moments that is kept which the moments before leave. -/
def Accounts (registry : Registry ε) (memory : Memory) : List (Moment ε) → Prop
  | [] => True
  | moment :: rest =>
    moment.run.memory = memory ∧ registry.Accounts (moment.deed.kept registry memory) rest

/-- Two stretches of moments account for what is kept if each does, the second one from what the
first one leaves. -/
theorem accounts_append {front back : List (Moment ε)} :
    registry.Accounts memory (front ++ back) ↔
      registry.Accounts memory front ∧ registry.Accounts (registry.kept memory front) back := by
  induction front generalizing memory with
  | nil => simp [Accounts, kept]
  | cons moment front ih =>
    rw [List.cons_append, Accounts, Accounts, ih, and_assoc]
    rfl

/-- A course tells what is kept at each of its moments and what its step leaves. -/
def Remembers (registry : Registry ε) (course : Course ε) (step : Step ε) : Prop :=
  ∀ run, registry.Accounts run.memory (course run) ∧
    (step run).2.memory = registry.kept run.memory (course run)

/-- Courses in a row tell what is kept by steps in a row. -/
theorem Remembers.andThen {step : Step ε} {course : Course ε} {next : List Item → Step ε}
    {nextCourse : List Item → Course ε} (hstep : registry.Remembers course step)
    (hnext : ∀ items, registry.Remembers (nextCourse items) (next items)) :
    registry.Remembers (Course.andThen step course nextCourse) (Step.andThen step next) := by
  intro run
  obtain ⟨haccounts, hkept⟩ := hstep run
  rcases hresult : step run with ⟨fault | items, after⟩
  · rw [hresult] at hkept
    rw [Step.andThen_of_error hresult, Course.andThen_of_error hresult]
    exact ⟨haccounts, hkept⟩
  · rw [hresult] at hkept
    obtain ⟨hlater, hlast⟩ := hnext items after
    rw [hkept] at hlater hlast
    rw [Step.andThen_of_ok hresult, Course.andThen_of_ok hresult, accounts_append, kept_append]
    exact ⟨⟨haccounts, hlater⟩, hlast⟩

/-- A moment at which nothing is kept may come first. -/
theorem Remembers.cons (deed : Deed) (hdeed : ∀ memory, deed.kept registry memory = memory)
    {course : Course ε} {step : Step ε} (h : registry.Remembers course step) :
    registry.Remembers (fun run => ⟨deed, run⟩ :: course run) step := by
  intro run
  obtain ⟨haccounts, hkept⟩ := h run
  exact ⟨⟨rfl, (hdeed run.memory).symm ▸ haccounts⟩,
    hkept.trans (congrArg (registry.kept · (course run)) (hdeed run.memory).symm)⟩

end Registry

namespace Expansion

section OneLevel

variable {limit : Nat} {expandCall : Call → Step ε} {courseOfCall : Call → Course ε}

/-- What items keep is told by their course if that holds of the calls among them. -/
theorem remembers_items (hcall : ∀ call, registry.Remembers (courseOfCall call) (expandCall call))
    (output items : List Item) :
    registry.Remembers (courseOfItems expandCall courseOfCall items)
      (serveItems expandCall output items) := by
  induction items generalizing output with
  | nil => exact fun _ => ⟨trivial, rfl⟩
  | cons item rest ih =>
    cases item with
    | text content => exact ih _
    | quoted items => exact ih _
    | call name position arguments =>
      exact (hcall ⟨name, position, arguments⟩).andThen fun items => ih _

/-- Handing something in keeps nothing, and neither does refusing it. -/
theorem remembers_request
    (hcall : ∀ call, registry.Remembers (courseOfCall call) (expandCall call))
    (request : Request) :
    registry.Remembers (courseOfRequest limit expandCall courseOfCall request)
      (expandRequest limit expandCall request) := by
  intro run
  rw [expandRequest_eq]
  rcases Nat.lt_or_ge (limit - run.depth) (Item.heightAll request.toItems) with hdeep | hfits
  · rw [expandItems_of_lt hdeep, courseOfRequest_of_lt hdeep]
    exact ⟨⟨rfl, trivial⟩, rfl⟩
  · rw [expandItems_of_le hfits, courseOfRequest_of_le hfits]
    exact (remembers_items hcall [] request.toItems).cons (.handIn request)
      (fun _ => rfl) run

/-- An evaluator looks at what is kept and leaves it as it is, apart from what it expands. -/
theorem remembers_action {expand : Request → Step ε} {course : Request → Course ε}
    (hexpand : ∀ request, registry.Remembers (course request) (expand request)) (name : String)
    (action : Action ε) :
    registry.Remembers (courseOfAction expand course name action) (perform expand name action) := by
  intro run
  induction action generalizing run with
  | yield output => exact ⟨trivial, rfl⟩
  | fail fault => exact ⟨trivial, rfl⟩
  | expand request next ih =>
    obtain ⟨haccounts, hkept⟩ := hexpand request run
    obtain ⟨hlater, hlast⟩ := ih (expand request run).1 (expand request run).2
    rw [hkept] at hlater hlast
    rw [courseOfAction, Registry.accounts_append, Registry.kept_append]
    exact ⟨⟨haccounts, hlater⟩, hlast⟩
  | «recall» next ih => exact ih _ _
  | update change next ih => exact ih _ { run with environment := change run.environment }
  | log value next ih =>
    obtain ⟨hlater, hlast⟩ := ih (run.announce (.logged value))
    exact ⟨⟨rfl, hlater⟩, hlast⟩

/-- Preparing the arguments of a call keeps them if the macro asks for that. -/
theorem remembers_prepare {entry : Macro ε} {call : Call}
    (hfind : registry.find? call.name = some entry) :
    registry.Remembers (fun run => [⟨.transform call, run⟩])
      (entry.prepare call.name call.arguments) := by
  intro run
  refine ⟨⟨rfl, trivial⟩, ?_⟩
  simp only [Macro.prepare, Registry.kept, List.foldl_cons, List.foldl_nil, Deed.kept, hfind]

/-- An invocation keeps what the preparation of its arguments keeps and what is kept inside it. -/
theorem remembers_invocation
    (hcall : ∀ call, registry.Remembers (courseOfCall call) (expandCall call)) {entry : Macro ε}
    {call : Call} (hfind : registry.find? call.name = some entry) :
    registry.Remembers (courseOfInvocation limit expandCall courseOfCall entry call)
      (invoke limit expandCall entry call) :=
  (remembers_prepare hfind).andThen fun prepared =>
    (remembers_request hcall (.items prepared)).andThen fun arguments =>
      (remembers_action (remembers_request hcall) call.name (entry.evaluate arguments)).cons
        (.evaluate call arguments) fun _ => rfl

end OneLevel

/-- On every level the course of a call tells what is kept. -/
theorem remembers_call (registry : Registry ε) (limit levels : Nat) (call : Call) :
    registry.Remembers (courseOfCall registry limit levels call)
      (expandCall registry limit levels call) := by
  induction levels generalizing call with
  | zero => exact fun _ => ⟨⟨rfl, trivial⟩, rfl⟩
  | succ levels ih =>
    intro run
    cases hfind : registry.find? call.name with
    | none =>
      rw [expandCall_of_unknown hfind, courseOfCall_of_unknown hfind]
      exact ⟨⟨rfl, trivial⟩, rfl⟩
    | some entry =>
      rcases Nat.lt_or_ge run.depth limit with hroom | hfull
      · rw [expandCall_of_lt hfind hroom, courseOfCall_of_lt hfind hroom]
        have hinvocation : registry.Remembers
            (courseOfInvocation limit (expandCall registry limit levels)
              (courseOfCall registry limit levels) entry call)
            (invoke limit (expandCall registry limit levels) entry call) :=
          remembers_invocation ih hfind
        obtain ⟨haccounts, hkept⟩ := hinvocation (begin call run)
        exact ⟨⟨rfl, rfl, haccounts⟩, hkept⟩
      · rw [expandCall_of_le hfind hfull, courseOfCall_of_le hfind hfull]
        exact ⟨⟨rfl, trivial⟩, rfl⟩

end Expansion

namespace Expander

/-- The course of whatever an expander is given tells what is kept. -/
theorem remembers_course (expander : Expander ε) (request : Request) :
    expander.registry.Remembers (expander.course request) (expander.expand request) :=
  fun run => Expansion.remembers_request
    (Expansion.remembers_call expander.registry expander.limit _) request run

/-- The course of an evaluation does so as well. -/
theorem remembers_evaluation (expander : Expander ε) (name : String) (entry : Macro ε)
    (arguments : List Item) :
    expander.registry.Remembers (expander.courseOfEvaluation name entry arguments)
      (expander.evaluate name entry arguments) :=
  Expansion.remembers_action expander.remembers_course name (entry.evaluate arguments)

end Expander

/-! ### Histories -/

namespace Registry

/-- Whatever can be done with the macros of a registry, with all that happened on the way: at first
nothing is kept, and then expanders of any limits expand anything, and macros are called directly,
whatever comes of it. Between these the environment and all else may change but what is kept. -/
inductive History (registry : Registry ε) : List (Moment ε) → Run ε → Prop where
  /-- At first nothing is kept. -/
  | start (environment : ε) : History registry [] (.start .empty environment)
  /-- Something is expanded. -/
  | expanded {past : List (Moment ε)} {run : Run ε} (limit : Nat) (request : Request)
      (h : History registry past run) :
      History registry (past ++ Expander.course ⟨registry, limit⟩ request run)
        (Expander.expand ⟨registry, limit⟩ request run).2
  /-- A macro transforms raw arguments. -/
  | transformed {past : List (Moment ε)} {run : Run ε} {call : Call} {entry : Macro ε}
      (hfind : registry.find? call.name = some entry) (h : History registry past run) :
      History registry (past ++ [⟨.transform call, run⟩])
        (entry.prepare call.name call.arguments run).2
  /-- A macro evaluates arguments. -/
  | evaluated {past : List (Moment ε)} {run : Run ε} {call : Call} {entry : Macro ε} (limit : Nat)
      (arguments : List Item) (hfind : registry.find? call.name = some entry)
      (h : History registry past run) :
      History registry
        (past ++ ⟨.evaluate call arguments, run⟩ ::
          Expander.courseOfEvaluation ⟨registry, limit⟩ call.name entry arguments run)
        (Expander.evaluate ⟨registry, limit⟩ call.name entry arguments run).2
  /-- All else changes. -/
  | resumed {past : List (Moment ε)} {run : Run ε} (other : Run ε)
      (hmemory : other.memory = run.memory) (h : History registry past run) :
      History registry past other

/-- What is kept goes on from what was kept before. -/
theorem Remembers.continue {course : Course ε} {step : Step ε}
    (h : registry.Remembers course step) {past : List (Moment ε)} {run : Run ε}
    (hpast : registry.Accounts memory past ∧ run.memory = registry.kept memory past) :
    registry.Accounts memory (past ++ course run) ∧
      (step run).2.memory = registry.kept memory (past ++ course run) := by
  obtain ⟨haccounts, hkept⟩ := h run
  rw [hpast.2] at haccounts hkept
  rw [accounts_append, kept_append]
  exact ⟨⟨hpast.1, haccounts⟩, hkept⟩

/-- A history tells what is kept at each of its moments, and at its end. -/
theorem History.accounts {past : List (Moment ε)} {run : Run ε} (h : registry.History past run) :
    registry.Accounts .empty past ∧ run.memory = registry.kept .empty past := by
  induction h with
  | start environment => exact ⟨trivial, rfl⟩
  | expanded limit request h ih =>
    exact (Expander.remembers_course ⟨registry, limit⟩ request).continue ih
  | transformed hfind h ih => exact (Expansion.remembers_prepare hfind).continue ih
  | @evaluated past run call entry limit arguments hfind h ih =>
    exact ((Expander.remembers_evaluation ⟨registry, limit⟩ call.name entry arguments).cons
      (.evaluate call arguments) fun _ => rfl).continue ih
  | resumed other hmemory h ih => exact ⟨ih.1, hmemory.trans ih.2⟩

end Registry

/-! ### The latest call -/

/-- The raw arguments that are transformed, if they are those of a call of the given name. -/
def Moment.transformed? (name : String) (moment : Moment ε) : Option (List Item) :=
  match moment.deed with
  | .transform call => if call.name = name then some call.arguments else none
  | _ => none

/-- The raw arguments of the latest call of the given name that was transformed at some moments,
none if there was no such call. -/
def Moment.latest (name : String) (moments : List (Moment ε)) : List Item :=
  (moments.filterMap (Moment.transformed? name)).getLast?.getD []

/-- A macro that keeps raw arguments keeps those that it transforms, and no others. -/
theorem Moment.get_kept {name : String} {entry : Macro ε}
    (hfind : registry.find? name = some entry) (hkeeps : entry.keeps = true) (moment : Moment ε) :
    (moment.deed.kept registry memory).get name =
      (moment.transformed? name).getD (memory.get name) := by
  obtain ⟨deed, run⟩ := moment
  cases deed with
  | handIn request => rfl
  | lookUp call => rfl
  | announce event => rfl
  | evaluate call arguments => rfl
  | transform call =>
    simp only [transformed?, Deed.kept]
    by_cases hname : call.name = name
    · subst hname
      simp only [hfind, if_pos hkeeps, if_true, Memory.get_keep, Option.getD_some]
    · rw [if_neg hname, Option.getD_none]
      split
      · split
        · rw [Memory.get_keep, if_neg hname]
        · rfl
      · rfl

/-- After some moments it keeps the arguments of its latest call. -/
theorem Registry.get_kept {name : String} {entry : Macro ε}
    (hfind : registry.find? name = some entry) (hkeeps : entry.keeps = true)
    (moments : List (Moment ε)) :
    (registry.kept .empty moments).get name = Moment.latest name moments := by
  induction moments using List.reverseRecOn with
  | nil => exact Memory.get_empty name
  | append_singleton moments moment ih =>
    have hlast : registry.kept .empty (moments ++ [moment]) =
        moment.deed.kept registry (registry.kept .empty moments) := registry.kept_append _ _
    rw [hlast, Moment.get_kept hfind hkeeps, ih, Moment.latest, Moment.latest,
      List.filterMap_append]
    cases htransformed : moment.transformed? name with
    | none => simp [htransformed]
    | some arguments => simp [htransformed]

/-- So it does at every moment of a history, and at its end. -/
theorem Registry.History.get_eq_latest {past : List (Moment ε)} {run : Run ε}
    (h : registry.History past run) {name : String} {entry : Macro ε}
    (hfind : registry.find? name = some entry) (hkeeps : entry.keeps = true) :
    (∀ front moment back, past = front ++ moment :: back →
      moment.run.memory.get name = Moment.latest name front) ∧
    run.memory.get name = Moment.latest name past := by
  obtain ⟨haccounts, hmemory⟩ := h.accounts
  refine ⟨?_, by rw [hmemory, get_kept hfind hkeeps]⟩
  rintro front moment back rfl
  obtain ⟨-, hmoment, -⟩ := accounts_append.mp haccounts
  rw [hmoment, get_kept hfind hkeeps]

/-! ### The lazy macro -/

namespace Expander

/-- The lazy macro keeps the raw arguments and lets nothing be expanded. -/
theorem prepare_lazy (name : String) (arguments : List Item) (run : Run ε) :
    Macro.lazy.prepare name arguments run =
      (.ok [], { run with memory := run.memory.keep name arguments }) := rfl

/-- It is evaluated to what is kept for it, and changes nothing. -/
theorem evaluate_lazy (expander : Expander ε) (name : String) (arguments : List Item)
    (run : Run ε) :
    expander.evaluate name .lazy arguments run = (.ok (run.memory.get name), run) ∧
      expander.courseOfEvaluation name .lazy arguments run = [] := ⟨rfl, rfl⟩

/-- A call of the lazy macro comes to its own raw arguments. Inside it nothing is handed in but
an empty list. -/
theorem expandCall_lazy (expander : Expander ε) (call : Call) {run : Run ε}
    (hfind : expander.registry.find? call.name = some .lazy) (hroom : run.depth < expander.limit) :
    let inside := Expansion.begin call run
    let ready := { inside with memory := run.memory.keep call.name call.arguments }
    expander.expandCall call run = (.ok call.arguments, ready.leave) ∧
      expander.courseOfCall call run =
        [⟨.lookUp call, run⟩, ⟨.announce (.expanding call.name call.position run.depth), run⟩,
          ⟨.transform call, inside⟩, ⟨.handIn (.items []), ready⟩, ⟨.evaluate call [], ready⟩] := by
  intro inside ready
  have hnone : Item.nesting [] ≤ expander.limit - ready.depth := by
    rw [Item.nesting_eq_heightAll, Item.heightAll]
    exact Nat.zero_le _
  have hdone : expander.expand (.items []) ready = (.ok [], ready) := by
    rw [expand_of_le hnone]
    rfl
  have hcourse : expander.course (.items []) ready = [⟨.handIn (.items []), ready⟩] := by
    rw [course_of_le hnone]
    rfl
  have hready : Macro.lazy.prepare call.name call.arguments inside = (.ok [], ready) :=
    prepare_lazy call.name call.arguments inside
  obtain ⟨hyield, hquiet⟩ := evaluate_lazy expander call.name [] ready
  have hinvoke : expander.invoke .lazy call inside = (.ok call.arguments, ready) := by
    rw [invoke, Step.andThen_of_ok hready, Step.andThen_of_ok hdone, hyield, Memory.get_keep,
      if_pos rfl]
  have hinvocation : expander.courseOfInvocation .lazy call inside =
      [⟨.transform call, inside⟩, ⟨.handIn (.items []), ready⟩, ⟨.evaluate call [], ready⟩] := by
    rw [courseOfInvocation, Course.andThen_of_ok hready, Course.andThen_of_ok hdone, hcourse,
      hquiet]
    rfl
  rw [expandCall_of_find hfind hroom, courseOfCall_of_find hfind hroom, hinvoke, hinvocation]
  exact ⟨rfl, rfl⟩

/-- At every moment of a history the lazy macro keeps the arguments of its latest call. Whatever
it keeps, a call of it comes to its own arguments as they stand, and keeps these: nothing in them
is looked up, transformed or evaluated. Transforming arguments touches what is kept under no other
name. Evaluating the macro, however often, yields what it keeps and changes nothing. -/
theorem lazy_keeps_latest {registry : Registry ε} {name : String}
    (hfind : registry.find? name = some .lazy) {past : List (Moment ε)} {run : Run ε}
    (hpast : registry.History past run) :
    (∀ front moment back, past = front ++ moment :: back →
      moment.run.memory.get name = Moment.latest name front) ∧
    run.memory.get name = Moment.latest name past ∧
    (∀ limit position arguments,
      let expander : Expander ε := ⟨registry, limit⟩
      let call : Call := ⟨name, position, arguments⟩
      let inside := Expansion.begin call run
      let ready := { inside with memory := run.memory.keep name arguments }
      call.nesting ≤ limit - run.depth →
        expander.expandCall call run = (.ok arguments, ready.leave) ∧
        expander.courseOfCall call run =
          [⟨.lookUp call, run⟩, ⟨.announce (.expanding name position run.depth), run⟩,
            ⟨.transform call, inside⟩, ⟨.handIn (.items []), ready⟩,
            ⟨.evaluate call [], ready⟩] ∧
        (∀ request, request.toItems = [call.toItem] →
          expander.expand request run = expander.expandCall call run ∧
          expander.course request run =
            ⟨.handIn request, run⟩ :: expander.courseOfCall call run) ∧
        ∀ other, ready.leave.memory.get other =
          if name = other then arguments else run.memory.get other) ∧
    (∀ arguments,
      Macro.lazy.prepare name arguments run =
        (.ok [], { run with memory := run.memory.keep name arguments }) ∧
      ∀ other, (run.memory.keep name arguments).get other =
        if name = other then arguments else run.memory.get other) ∧
    ∀ limit,
      let expander : Expander ε := ⟨registry, limit⟩
      (∀ arguments, expander.evaluate name .lazy arguments run =
        (.ok (Moment.latest name past), run)) ∧
      ∀ lists : List (List Item),
        lists.foldl (fun run arguments => (expander.evaluate name .lazy arguments run).2) run =
          run := by
  obtain ⟨hmoments, hlast⟩ := hpast.get_eq_latest hfind rfl
  refine ⟨hmoments, hlast, ?_, ?_, ?_⟩
  · intro limit position arguments expander call inside ready hfits
    have hroom : run.depth < limit := lt_of_nesting_le hfits
    obtain ⟨hresult, hcourse⟩ := expandCall_lazy expander call hfind hroom
    refine ⟨hresult, hcourse, ?_, ?_⟩
    · intro request hrequest
      exact ⟨expand_of_toItems_eq hrequest hfits, course_of_toItems_eq hrequest hfits⟩
    · exact fun other => Memory.get_keep run.memory name other arguments
  · intro arguments
    exact ⟨prepare_lazy name arguments run,
      fun other => Memory.get_keep run.memory name other arguments⟩
  · intro limit expander
    refine ⟨fun arguments => ?_, List.foldl_fixed' fun arguments => ?_⟩
    · rw [(evaluate_lazy expander name arguments run).1, hlast]
    · rw [(evaluate_lazy expander name arguments run).1]

/-- An expander for the lazy macro alone. -/
def idling : Expander Unit where
  registry := Registry.empty.insert "$$lazy" .lazy
  limit := 2

/-- What is kept outlives the failure of another call. A later call then comes to its own
arguments, an unknown macro and the lazy macro itself among them. -/
theorem lazy_keeps_latest_idling :
    let start : Run Unit := .start .empty ()
    let request : Request := .items [.call "$$lazy" ⟨1, 1⟩ [.text "kept"], .call "$$gone" ⟨2, 1⟩ []]
    let run := (idling.expand request start).2
    let arguments : List Item := [.call "$$gone" ⟨3, 8⟩ [], .call "$$lazy" ⟨3, 15⟩ []]
    let result := idling.expandCall ⟨"$$lazy", ⟨3, 1⟩, arguments⟩ run
    idling.registry.find? "$$lazy" = some .lazy ∧
      idling.registry.History (idling.course request start) run ∧
      Call.nesting ⟨"$$lazy", ⟨3, 1⟩, arguments⟩ ≤ 2 - run.depth ∧
      (idling.expand request start).1 = .error (.unknownMacro "$$gone" ⟨2, 1⟩) ∧
      run.memory.get "$$lazy" = [.text "kept"] ∧
      (idling.evaluate "$$lazy" .lazy arguments run).1 = .ok [.text "kept"] ∧
      result.1 = .ok arguments ∧ result.2.memory.get "$$lazy" = arguments := by
  intro start request run arguments result
  have hfind : idling.registry.find? "$$lazy" = some .lazy := by
    rw [idling, Registry.find?_insert, if_pos rfl]
  have hpast : idling.registry.History (idling.course request start) run :=
    .expanded idling.limit request (.start ())
  have hfits : Call.nesting ⟨"$$lazy", ⟨3, 1⟩, arguments⟩ ≤ 2 - run.depth := by
    have hdepth : run.depth = 0 := idling.keepsDepth_expand request start
    rw [hdepth]
    simp [Call.nesting, Item.nesting_eq_heightAll, Item.heightAll, Item.height, arguments]
  have hlatest : Moment.latest "$$lazy" (idling.course request start) = [.text "kept"] := by
    decide +kernel
  obtain ⟨-, hkept, hcall, -, hevaluate⟩ := lazy_keeps_latest hfind hpast
  obtain ⟨hexpands, -, -, hafter⟩ := hcall 2 ⟨3, 1⟩ arguments hfits
  have hresult : result = (.ok arguments, _) := hexpands
  have hyield : idling.evaluate "$$lazy" .lazy arguments run = (.ok _, run) :=
    (hevaluate 2).1 arguments
  refine ⟨hfind, hpast, hfits, ?_, hkept.trans hlatest, ?_, ?_, ?_⟩
  · dsimp only [start, request]
    decide +kernel
  · rw [hyield, hlatest]
  · rw [hresult]
  · rw [hresult]
    exact hafter "$$lazy"

end Expander

end Offside
