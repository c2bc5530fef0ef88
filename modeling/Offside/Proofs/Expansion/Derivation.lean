import Offside.Proofs.Expansion.Depth

/-!
# Expansion said by rules

What an expansion comes to can be said by rules alone, without any bound on how long they may
be applied: macros may ask for further expansions as often as they like, and call each other
in circles. Each rule also says how many calls are active inside one another at the most. For
everything there is to do the rules lead to one result, and it is the one that is computed.
-/

namespace Offside

variable {ε : Type}

namespace Expansion

/-- Something there is to do in the course of an expansion. -/
inductive Task (ε : Type) where
  /-- To expand what is handed in, if it does not nest too deeply. -/
  | answer (request : Request)
  /-- To expand items one after the other. -/
  | serve (items : List Item)
  /-- To expand a call. -/
  | expand (call : Call)
  /-- To invoke the macro of a call. -/
  | invoke (entry : Macro ε) (call : Call)
  /-- To do what an evaluator does, for the macro of the given name. -/
  | act (name : String) (action : Action ε)

/-- A task ends, with so many calls active inside one another at the most that were not active
before. The task begins in the first run, comes to an outcome and leaves the second run. -/
inductive Ends (registry : Registry ε) (limit : Nat) :
    Nat → Task ε → Run ε → Outcome → Run ε → Prop where
  /-- What nests more deeply than levels are left is refused. -/
  | refused {request : Request} {run : Run ε}
      (hdeep : limit - run.depth < Item.heightAll request.toItems) :
      Ends registry limit 0 (.answer request) run (.error (.expandedTooDeep limit)) run
  /-- Anything else is expanded item by item. -/
  | granted {active : Nat} {request : Request} {run after : Run ε} {outcome : Outcome}
      (hfits : Item.heightAll request.toItems ≤ limit - run.depth)
      (hitems : Ends registry limit active (.serve request.toItems) run outcome after) :
      Ends registry limit active (.answer request) run outcome after
  /-- Without items there is nothing to do. -/
  | nil {run : Run ε} : Ends registry limit 0 (.serve []) run (.ok []) run
  /-- An item that is no call stays as it is. -/
  | kept {active : Nat} {item : Item} {rest : List Item} {run after : Run ε} {outcome : Outcome}
      (hitem : item.call? = none)
      (hrest : Ends registry limit active (.serve rest) run outcome after) :
      Ends registry limit active (.serve (item :: rest)) run (outcome.map (item :: ·)) after
  /-- A call that fails ends the list. -/
  | stopped {active : Nat} {call : Call} {rest : List Item} {run after : Run ε} {fault : Fault}
      (hcall : Ends registry limit active (.expand call) run (.error fault) after) :
      Ends registry limit active (.serve (call.toItem :: rest)) run (.error fault) after
  /-- A call is replaced by what it comes to. -/
  | replaced {first later : Nat} {call : Call} {output rest : List Item}
      {run between after : Run ε} {outcome : Outcome}
      (hcall : Ends registry limit first (.expand call) run (.ok output) between)
      (hrest : Ends registry limit later (.serve rest) between outcome after) :
      Ends registry limit (max first later) (.serve (call.toItem :: rest)) run
        (outcome.map (output ++ ·)) after
  /-- A call of an unknown macro fails. -/
  | unknown {call : Call} {run : Run ε} (hfind : registry.find? call.name = none) :
      Ends registry limit 0 (.expand call) run (.error (.unknownMacro call.name call.position)) run
  /-- A call fails when as many calls are active as are allowed. -/
  | crowded {entry : Macro ε} {call : Call} {run : Run ε}
      (hfind : registry.find? call.name = some entry) (hfull : limit ≤ run.depth) :
      Ends registry limit 0 (.expand call) run (.error (.expandedTooDeep limit)) run
  /-- A call is active while its macro is invoked. -/
  | invoked {active : Nat} {entry : Macro ε} {call : Call} {run after : Run ε} {outcome : Outcome}
      (hfind : registry.find? call.name = some entry) (hroom : run.depth < limit)
      (hinvocation : Ends registry limit active (.invoke entry call) (begin call run) outcome
        after) :
      Ends registry limit (active + 1) (.expand call) run outcome after.leave
  /-- An invocation fails when the raw arguments cannot be transformed. -/
  | unprepared {entry : Macro ε} {call : Call} {run after : Run ε} {fault : Fault}
      (hprepare : entry.prepare call.name call.arguments run = (.error fault, after)) :
      Ends registry limit 0 (.invoke entry call) run (.error fault) after
  /-- It fails when what they are transformed into cannot be expanded. -/
  | unexpanded {active : Nat} {entry : Macro ε} {call : Call} {prepared : List Item}
      {run between after : Run ε} {fault : Fault}
      (hprepare : entry.prepare call.name call.arguments run = (.ok prepared, between))
      (hexpand : Ends registry limit active (.answer (.items prepared)) between (.error fault)
        after) :
      Ends registry limit active (.invoke entry call) run (.error fault) after
  /-- Otherwise the evaluator acts on what that comes to. -/
  | evaluated {first later : Nat} {entry : Macro ε} {call : Call} {prepared arguments : List Item}
      {run ready expanded after : Run ε} {outcome : Outcome}
      (hprepare : entry.prepare call.name call.arguments run = (.ok prepared, ready))
      (hexpand : Ends registry limit first (.answer (.items prepared)) ready (.ok arguments)
        expanded)
      (hevaluate : Ends registry limit later (.act call.name (entry.evaluate arguments))
        expanded outcome after) :
      Ends registry limit (max first later) (.invoke entry call) run outcome after
  /-- An evaluator yields items. -/
  | yielded {name : String} {output : List Item} {run : Run ε} :
      Ends registry limit 0 (.act name (.yield output)) run (.ok output) run
  /-- An evaluator fails. -/
  | failed {name : String} {fault : Fault} {run : Run ε} :
      Ends registry limit 0 (.act name (.fail fault)) run (.error fault) run
  /-- An evaluator asks for an expansion and goes on with what that comes to. -/
  | asked {first later : Nat} {name : String} {request : Request}
      {next : Except Fault (List Item) → Action ε} {run between after : Run ε}
      {answer outcome : Outcome}
      (hrequest : Ends registry limit first (.answer request) run answer between)
      (hnext : Ends registry limit later (.act name (next answer)) between outcome after) :
      Ends registry limit (max first later) (.act name (.expand request next)) run outcome after
  /-- An evaluator looks at what was kept for its macro. -/
  | recalled {active : Nat} {name : String} {next : List Item → Action ε} {run after : Run ε}
      {outcome : Outcome}
      (hnext : Ends registry limit active (.act name (next (run.memory.get name))) run outcome
        after) :
      Ends registry limit active (.act name (.recall next)) run outcome after
  /-- An evaluator changes the environment. -/
  | updated {active : Nat} {name : String} {change : ε → ε} {next : ε → Action ε}
      {run after : Run ε} {outcome : Outcome}
      (hnext : Ends registry limit active (.act name (next (change run.environment)))
        { run with environment := change run.environment } outcome after) :
      Ends registry limit active (.act name (.update change next)) run outcome after
  /-- An evaluator logs a value. -/
  | logged {active : Nat} {name : String} {value : String} {next : Action ε} {run after : Run ε}
      {outcome : Outcome}
      (hnext : Ends registry limit active (.act name next) (run.announce (.logged value)) outcome
        after) :
      Ends registry limit active (.act name (.log value next)) run outcome after

/-- How a task is computed with at most so many levels of calls below it. -/
def Task.step (registry : Registry ε) (limit levels : Nat) : Task ε → Step ε
  | .answer request => expandRequest limit (expandCall registry limit levels) request
  | .serve items => serveItems (expandCall registry limit levels) [] items
  | .expand call => expandCall registry limit levels call
  | .invoke entry call => Expansion.invoke limit (expandCall registry limit levels) entry call
  | .act name action =>
    perform (expandRequest limit (expandCall registry limit levels)) name action

variable {registry : Registry ε} {limit : Nat}

/-! ### One equation for each rule -/

/-- What is handed in is refused if it nests too deeply. -/
theorem expandRequest_of_lt {request : Request} {run : Run ε}
    (hdeep : limit - run.depth < Item.heightAll request.toItems) (expandCall : Call → Step ε) :
    expandRequest limit expandCall request run = (.error (.expandedTooDeep limit), run) := by
  rw [expandRequest_eq, expandItems_of_lt hdeep]

/-- Otherwise it is expanded item by item. -/
theorem expandRequest_of_le {request : Request} {run : Run ε}
    (hfits : Item.heightAll request.toItems ≤ limit - run.depth) (expandCall : Call → Step ε) :
    expandRequest limit expandCall request run =
      serveItems expandCall [] request.toItems run := by
  rw [expandRequest_eq, expandItems_of_le hfits]

/-! ### The rules lead to what is computed -/

/-- A task that ends leaves as many calls active as it finds, never has more active than the
limit allows, and comes to what is computed with levels enough. -/
theorem Ends.step_eq {active : Nat} {task : Task ε} {run after : Run ε} {outcome : Outcome}
    (h : Ends registry limit active task run outcome after) :
    active ≤ limit - run.depth ∧ after.depth = run.depth ∧
      ∀ levels, limit - run.depth < levels →
        task.step registry limit levels run = (outcome, after) := by
  induction h with
  | refused hdeep =>
    exact ⟨by omega, rfl, fun levels _ => expandRequest_of_lt hdeep _⟩
  | granted hfits hitems ih =>
    obtain ⟨hactive, hafter, hstep⟩ := ih
    exact ⟨hactive, hafter, fun levels hlevels =>
      (expandRequest_of_le hfits _).trans (hstep levels hlevels)⟩
  | nil => exact ⟨by omega, rfl, fun _ _ => rfl⟩
  | kept hitem hrest ih =>
    obtain ⟨hactive, hafter, hstep⟩ := ih
    refine ⟨hactive, hafter, fun levels hlevels => ?_⟩
    have hserved := hstep levels hlevels
    simp only [Task.step] at hserved ⊢
    rw [serveItems_kept _ hitem, hserved]
  | stopped hcall ih =>
    obtain ⟨hactive, hafter, hstep⟩ := ih
    exact ⟨hactive, hafter, fun levels hlevels => serveItems_stopped (hstep levels hlevels) _⟩
  | @replaced first later call output rest run between after outcome hcall hrest ihcall ihrest =>
    obtain ⟨hfirst, hbetween, hcallStep⟩ := ihcall
    obtain ⟨hlater, hafter, hrestStep⟩ := ihrest
    refine ⟨by omega, hafter.trans hbetween, fun levels hlevels => ?_⟩
    have hserved := hrestStep levels (by omega)
    simp only [Task.step] at hserved ⊢
    rw [serveItems_replaced (hcallStep levels hlevels), hserved]
  | unknown hfind =>
    refine ⟨by omega, rfl, fun levels hlevels => ?_⟩
    obtain ⟨fewer, rfl⟩ : ∃ fewer, levels = fewer + 1 := ⟨levels - 1, by omega⟩
    exact expandCall_of_unknown hfind limit fewer
  | crowded hfind hfull =>
    refine ⟨by omega, rfl, fun levels hlevels => ?_⟩
    obtain ⟨fewer, rfl⟩ : ∃ fewer, levels = fewer + 1 := ⟨levels - 1, by omega⟩
    exact expandCall_of_le hfind hfull fewer
  | @invoked active entry call run after outcome hfind hroom hinvocation ih =>
    obtain ⟨hactive, hafter, hstep⟩ := ih
    have hbegin : (begin call run).depth = run.depth + 1 := rfl
    have hleave : after.leave.depth = after.depth - 1 := rfl
    refine ⟨by omega, by omega, fun levels hlevels => ?_⟩
    obtain ⟨fewer, rfl⟩ : ∃ fewer, levels = fewer + 1 := ⟨levels - 1, by omega⟩
    have hinvoke := hstep fewer (by omega)
    simp only [Task.step] at hinvoke ⊢
    rw [expandCall_of_lt hfind hroom, hinvoke]
  | unprepared hprepare =>
    exact ⟨by omega, congrArg (Run.depth ∘ Prod.snd) hprepare.symm,
      fun levels _ => Step.andThen_of_error hprepare _⟩
  | @unexpanded active entry call prepared run between after fault hprepare hexpand ih =>
    obtain ⟨hactive, hafter, hstep⟩ := ih
    have hbetween : between.depth = run.depth := congrArg (Run.depth ∘ Prod.snd) hprepare.symm
    refine ⟨by omega, by omega, fun levels hlevels => ?_⟩
    have hexpanded := hstep levels (by omega)
    simp only [Task.step, expandRequest] at hexpanded ⊢
    rw [invoke_eq, Step.andThen_of_ok hprepare, Step.andThen_of_error hexpanded]
  | @evaluated first later entry call prepared arguments run ready expanded after outcome hprepare
      hexpand hevaluate ihexpand ihevaluate =>
    obtain ⟨hfirst, hexpanded, hexpandStep⟩ := ihexpand
    obtain ⟨hlater, hafter, hevaluateStep⟩ := ihevaluate
    have hready : ready.depth = run.depth := congrArg (Run.depth ∘ Prod.snd) hprepare.symm
    refine ⟨by omega, by omega, fun levels hlevels => ?_⟩
    have harguments := hexpandStep levels (by omega)
    have hacted := hevaluateStep levels (by omega)
    simp only [Task.step, expandRequest] at harguments hacted ⊢
    rw [invoke_eq, Step.andThen_of_ok hprepare, Step.andThen_of_ok harguments]
    exact hacted
  | yielded => exact ⟨by omega, rfl, fun _ _ => rfl⟩
  | failed => exact ⟨by omega, rfl, fun _ _ => rfl⟩
  | @asked first later name request next run between after answer outcome hrequest hnext ihrequest
      ihnext =>
    obtain ⟨hfirst, hbetween, hrequestStep⟩ := ihrequest
    obtain ⟨hlater, hafter, hnextStep⟩ := ihnext
    refine ⟨by omega, by omega, fun levels hlevels => ?_⟩
    have hanswer := hrequestStep levels hlevels
    have hacted := hnextStep levels (by omega)
    simp only [Task.step] at hanswer hacted ⊢
    rw [perform_expand, hanswer]
    exact hacted
  | recalled hnext ih => exact ih
  | updated hnext ih => exact ih
  | logged hnext ih => exact ih

/-! ### What is computed follows the rules -/

section Computed

variable {levels : Nat}

/-- What calls come to follows the rules wherever there are levels enough. -/
def CallsEnd (registry : Registry ε) (limit levels : Nat) : Prop :=
  ∀ (call : Call) (run : Run ε), limit - run.depth < levels →
    let result := expandCall registry limit levels call run
    ∃ active, Ends registry limit active (.expand call) run result.1 result.2

/-- A list is expanded by the rules if its calls are. The run between two items has as many active
calls as before, so there are levels enough for all of them. -/
theorem exists_ends_serve (hcalls : CallsEnd registry limit levels) (items : List Item)
    (run : Run ε) (hlevels : limit - run.depth < levels) :
    let result := serveItems (expandCall registry limit levels) [] items run
    ∃ active, Ends registry limit active (.serve items) run result.1 result.2 := by
  induction items generalizing run with
  | nil => exact ⟨0, .nil⟩
  | cons item rest ih =>
    intro result
    have hkept (hitem : item.call? = none) :
        ∃ active, Ends registry limit active (.serve (item :: rest)) run result.1 result.2 := by
      obtain ⟨active, hrest⟩ := ih run hlevels
      refine ⟨active, ?_⟩
      simp only [result, serveItems_kept _ hitem]
      exact .kept hitem hrest
    cases item with
    | text content => exact hkept rfl
    | quoted items => exact hkept rfl
    | call name position arguments =>
      obtain ⟨first, hcall⟩ := hcalls ⟨name, position, arguments⟩ run hlevels
      obtain ⟨-, hdepth, -⟩ := hcall.step_eq
      rcases hresult : expandCall registry limit levels ⟨name, position, arguments⟩ run with
        ⟨outcome, between⟩
      rw [hresult] at hcall hdepth
      cases outcome with
      | error fault =>
        have hstopped : result = (.error fault, between) := serveItems_stopped hresult rest
        rw [hstopped]
        exact ⟨first, .stopped hcall⟩
      | ok output =>
        obtain ⟨later, hrest⟩ := ih between (by rw [hdepth]; exact hlevels)
        refine ⟨max first later, ?_⟩
        have hreplaced : result = _ := serveItems_replaced hresult rest
        rw [hreplaced]
        exact .replaced hcall hrest

/-- What an evaluator asks for is refused or expanded by the rules. -/
theorem exists_ends_answer (hcalls : CallsEnd registry limit levels) (request : Request)
    (run : Run ε) (hlevels : limit - run.depth < levels) :
    let result := expandRequest limit (expandCall registry limit levels) request run
    ∃ active, Ends registry limit active (.answer request) run result.1 result.2 := by
  intro result
  rcases Nat.lt_or_ge (limit - run.depth) (Item.heightAll request.toItems) with hdeep | hfits
  · have hrefused : result = (.error (.expandedTooDeep limit), run) := expandRequest_of_lt hdeep _
    rw [hrefused]
    exact ⟨0, .refused hdeep⟩
  · obtain ⟨active, hitems⟩ := exists_ends_serve hcalls request.toItems run hlevels
    have hgranted : result = _ := expandRequest_of_le hfits _
    rw [hgranted]
    exact ⟨active, .granted hfits hitems⟩

/-- An evaluator acts by the rules, one action after the other. -/
theorem exists_ends_act (hcalls : CallsEnd registry limit levels) (name : String)
    (action : Action ε) (run : Run ε) (hlevels : limit - run.depth < levels) :
    let result := perform (expandRequest limit (expandCall registry limit levels)) name action run
    ∃ active, Ends registry limit active (.act name action) run result.1 result.2 := by
  induction action generalizing run with
  | yield output => exact ⟨0, .yielded⟩
  | fail fault => exact ⟨0, .failed⟩
  | expand request next ih =>
    obtain ⟨first, hrequest⟩ := exists_ends_answer hcalls request run hlevels
    obtain ⟨-, hdepth, -⟩ := hrequest.step_eq
    obtain ⟨later, hnext⟩ := ih _ _ (by rw [hdepth]; exact hlevels)
    exact ⟨max first later, .asked hrequest hnext⟩
  | «recall» next ih =>
    obtain ⟨active, hnext⟩ := ih _ run hlevels
    exact ⟨active, .recalled hnext⟩
  | update change next ih =>
    obtain ⟨active, hnext⟩ := ih _ { run with environment := change run.environment } hlevels
    exact ⟨active, .updated hnext⟩
  | log value next ih =>
    obtain ⟨active, hnext⟩ := ih (run.announce (.logged value)) hlevels
    exact ⟨active, .logged hnext⟩

/-- An invocation follows the rules: its arguments are expanded and evaluated with as many active
calls as it begins with. -/
theorem exists_ends_invoke (hcalls : CallsEnd registry limit levels) (entry : Macro ε)
    (call : Call) (run : Run ε) (hlevels : limit - run.depth < levels) :
    let result := invoke limit (expandCall registry limit levels) entry call run
    ∃ active, Ends registry limit active (.invoke entry call) run result.1 result.2 := by
  intro result
  rcases hprepare : entry.prepare call.name call.arguments run with ⟨_ | prepared, ready⟩
  · have hunprepared : result = _ := Step.andThen_of_error hprepare _
    rw [hunprepared]
    exact ⟨0, .unprepared hprepare⟩
  · have hready : ready.depth = run.depth := congrArg (Run.depth ∘ Prod.snd) hprepare.symm
    obtain ⟨first, hexpand⟩ := exists_ends_answer hcalls (.items prepared) ready (by omega)
    rcases hresult : expandRequest limit (expandCall registry limit levels) (.items prepared) ready
      with ⟨_ | arguments, expanded⟩
    · rw [hresult] at hexpand
      have hunexpanded : result = _ :=
        (Step.andThen_of_ok hprepare _).trans (Step.andThen_of_error hresult _)
      rw [hunexpanded]
      exact ⟨first, .unexpanded hprepare hexpand⟩
    · rw [hresult] at hexpand
      have hexpanded : expanded.depth = ready.depth := hexpand.step_eq.2.1
      obtain ⟨later, hevaluate⟩ := exists_ends_act hcalls call.name (entry.evaluate arguments)
        expanded (by omega)
      have hevaluated : result = _ :=
        (Step.andThen_of_ok hprepare _).trans (Step.andThen_of_ok hresult _)
      rw [hevaluated]
      exact ⟨max first later, .evaluated hprepare hexpand hevaluate⟩

/-- Wherever there are levels enough, what calls come to follows the rules: each invocation
takes one level, and one more call is active in it. -/
theorem callsEnd (registry : Registry ε) (limit levels : Nat) :
    CallsEnd registry limit levels := by
  induction levels with
  | zero => exact fun _ _ hlevels => absurd hlevels (Nat.not_lt_zero _)
  | succ levels ih =>
    intro call run hlevels result
    cases hfind : registry.find? call.name with
    | none =>
      have hunknown : result = _ := expandCall_of_unknown hfind limit levels
      rw [hunknown]
      exact ⟨0, .unknown hfind⟩
    | some entry =>
      rcases Nat.lt_or_ge run.depth limit with hroom | hfull
      · have hbegin : (begin call run).depth = run.depth + 1 := rfl
        obtain ⟨active, hinvocation⟩ := exists_ends_invoke ih entry call (begin call run) (by omega)
        have hinvoked : result = _ := expandCall_of_lt hfind hroom levels
        rw [hinvoked]
        exact ⟨active + 1, .invoked hfind hroom hinvocation⟩
      · have hcrowded : result = _ := expandCall_of_le hfind hfull levels
        rw [hcrowded]
        exact ⟨0, .crowded hfind hfull⟩

end Computed

end Expansion

end Offside
