import Offside.Proofs.Expansion.Depth

/-!
# Two runs of one expansion

The same request may be expanded in two runs, under two limits, with different levels in
store, and behind different events. The two come to the same for as long as the first is not
cut off. What has to be known of the macros is what their evaluators do when an expansion
fails: whether they fail with the same fault.
-/

namespace Offside

variable {ε : Type}

/-- The run with some events before its own. -/
def Run.behind (run : Run ε) (earlier : List Event) : Run ε :=
  { run with events := run.events ++ earlier }

/-- A run behind no events is the run itself. -/
@[simp]
theorem Run.behind_nil (run : Run ε) : run.behind [] = run := by
  simp [behind]

/-! ### What evaluators do with faults -/

/-- Whatever the answers are, the action fails in the end, and with the given fault. -/
def Action.FailsWith (fault : Fault) : Action ε → Prop
  | .yield _ => False
  | .fail other => other = fault
  | .expand _ next => ∀ outcome, (next outcome).FailsWith fault
  | .recall next => ∀ kept, (next kept).FailsWith fault
  | .update _ next => ∀ environment, (next environment).FailsWith fault
  | .log _ next => next.FailsWith fault

/-- When an expansion that the action asks for fails with one of the given faults, the
action fails with that fault too. -/
def Action.PassesOn (faults : Fault → Prop) : Action ε → Prop
  | .yield _ => True
  | .fail _ => True
  | .expand _ next =>
    (∀ fault, faults fault → (next (.error fault)).FailsWith fault) ∧
      ∀ outcome, (next outcome).PassesOn faults
  | .recall next => ∀ kept, (next kept).PassesOn faults
  | .update _ next => ∀ environment, (next environment).PassesOn faults
  | .log _ next => next.PassesOn faults

/-- A macro whose evaluator passes the given faults on. -/
def Macro.PassesOn (faults : Fault → Prop) (entry : Macro ε) : Prop :=
  ∀ arguments, (entry.evaluate arguments).PassesOn faults

/-- A registry whose macros pass the given faults on. -/
def Registry.PassesOn (faults : Fault → Prop) (registry : Registry ε) : Prop :=
  ∀ name entry, registry.find? name = some entry → entry.PassesOn faults

/-- What passes faults on passes fewer faults on. -/
theorem Action.PassesOn.anti {faults fewer : Fault → Prop}
    (hfewer : ∀ fault, fewer fault → faults fault) {action : Action ε}
    (h : action.PassesOn faults) : action.PassesOn fewer := by
  induction action with
  | yield output => trivial
  | fail fault => trivial
  | expand request next ih =>
    exact ⟨fun fault hfault => h.1 fault (hfewer fault hfault),
      fun outcome => ih outcome (h.2 outcome)⟩
  | «recall» next ih => exact fun kept => ih kept (h kept)
  | update change next ih => exact fun environment => ih environment (h environment)
  | log value next ih => exact ih h

/-- Every action passes no faults on. -/
theorem Action.passesOn_none (action : Action ε) : action.PassesOn fun _ => False := by
  induction action with
  | yield output => trivial
  | fail fault => trivial
  | expand request next ih => exact ⟨fun _ hfault => hfault.elim, ih⟩
  | «recall» next ih => exact ih
  | update change next ih => exact ih
  | log value next ih => exact ih

/-- An action that is bound to fail fails. -/
theorem Expansion.perform_of_failsWith {action : Action ε} {fault : Fault}
    (h : action.FailsWith fault) (expand : Request → Step ε) (name : String) (run : Run ε) :
    (perform expand name action run).1 = .error fault := by
  induction action generalizing run with
  | yield output => exact h.elim
  | fail other => exact congrArg Except.error h
  | expand request next ih => exact ih _ (h _) _
  | «recall» next ih => exact ih _ (h _) _
  | update change next ih => exact ih _ (h _) _
  | log value next ih => exact ih h _

/-! ### Steps that agree -/

/-- In runs with so many active calls two steps come to the same, the second one behind some
earlier events, unless the first one fails with a fault that cuts it off. -/
def Agrees (cut : Fault → Prop) (earlier : List Event) (depth : Nat) (step other : Step ε) :
    Prop :=
  ∀ run, run.depth = depth →
    (∃ fault, cut fault ∧ (step run).1 = .error fault) ∨
      other (run.behind earlier) = ((step run).1, (step run).2.behind earlier)

variable {cut : Fault → Prop} {earlier : List Event} {depth : Nat}

/-- Steps that agree go on alike if what comes next agrees whatever they came to. -/
theorem Agrees.andThen {step other : Step ε} {next nextOther : List Item → Step ε}
    (hstep : Agrees cut earlier depth step other) (hdepth : KeepsDepth step)
    (hnext : ∀ items, Agrees cut earlier depth (next items) (nextOther items)) :
    Agrees cut earlier depth (Step.andThen step next) (Step.andThen other nextOther) := by
  intro run hrun
  have hafter := hdepth run
  have hsame := hstep run hrun
  cases hresult : step run with
  | mk outcome after =>
    rw [hresult] at hafter hsame
    cases outcome with
    | error fault =>
      rw [Step.andThen_of_error hresult]
      exact hsame.imp id fun h => Step.andThen_of_error h nextOther
    | ok items =>
      obtain ⟨fault, -, hfault⟩ | hother := hsame
      · cases hfault
      · rw [Step.andThen_of_ok hresult, Step.andThen_of_ok hother]
        exact hnext items after (hafter.trans hrun)

namespace Expansion

section OneLevel

variable {limit otherLimit : Nat} {expandCall otherCall : Call → Step ε}

/-- Items are expanded alike, one after the other, if calls are. -/
theorem agrees_serveItems
    (hcall : ∀ call, Agrees cut earlier depth (expandCall call) (otherCall call))
    (hdepth : ∀ call, KeepsDepth (expandCall call)) (output items : List Item) :
    Agrees cut earlier depth (serveItems expandCall output items)
      (serveItems otherCall output items) := by
  induction items generalizing output with
  | nil => exact fun _ _ => .inr rfl
  | cons item rest ih =>
    cases item with
    | text content => exact ih _
    | quoted items => exact ih _
    | call name position arguments =>
      exact (hcall ⟨name, position, arguments⟩).andThen (hdepth _) fun items => ih _

/-- What the lower limit allows the higher one allows as well. -/
theorem agrees_withinBudget (hlimit : limit ≤ otherLimit)
    (hcut : cut (.expandedTooDeep limit) ∨ limit = otherLimit) {step other : Step ε}
    (hstep : Agrees cut earlier depth step other) (nesting : Nat) :
    Agrees cut earlier depth (withinBudget limit nesting step)
      (withinBudget otherLimit nesting other) := by
  intro run hrun
  have hbehind : (run.behind earlier).depth = depth := hrun
  unfold withinBudget
  by_cases hdeep : limit - depth < nesting
  · rw [hrun, if_pos hdeep]
    rcases hcut with hcut | rfl
    · exact .inl ⟨_, hcut, rfl⟩
    · rw [hbehind, if_pos hdeep]
      exact .inr rfl
  · rw [hrun, hbehind, if_neg hdeep, if_neg (by omega)]
    exact hstep run hrun

/-- A list is expanded alike under both limits, unless the first limit refuses it with a fault
that cuts off. -/
theorem agrees_expandItems (hlimit : limit ≤ otherLimit)
    (hcut : cut (.expandedTooDeep limit) ∨ limit = otherLimit)
    (hcall : ∀ call, Agrees cut earlier depth (expandCall call) (otherCall call))
    (hdepth : ∀ call, KeepsDepth (expandCall call)) (items : List Item) :
    Agrees cut earlier depth (expandItems limit expandCall items)
      (expandItems otherLimit otherCall items) :=
  agrees_withinBudget hlimit hcut (agrees_serveItems hcall hdepth [] items) _

/-- Whatever an evaluator asks for is expanded alike under both limits. -/
theorem agrees_expandRequest (hlimit : limit ≤ otherLimit)
    (hcut : cut (.expandedTooDeep limit) ∨ limit = otherLimit)
    (hcall : ∀ call, Agrees cut earlier depth (expandCall call) (otherCall call))
    (hdepth : ∀ call, KeepsDepth (expandCall call)) (request : Request) :
    Agrees cut earlier depth (expandRequest limit expandCall request)
      (expandRequest otherLimit otherCall request) := by
  rw [expandRequest_eq, expandRequest_eq]
  exact agrees_expandItems hlimit hcut hcall hdepth request.toItems

/-- An evaluator that passes the cutting faults on either does the same in both runs or is
cut off itself. -/
theorem agrees_perform {expand other : Request → Step ε}
    (hexpand : ∀ request, Agrees cut earlier depth (expand request) (other request))
    (hdepth : ∀ request, KeepsDepth (expand request)) (name : String) {action : Action ε}
    (hpass : action.PassesOn cut) :
    Agrees cut earlier depth (perform expand name action) (perform other name action) := by
  intro run hrun
  induction action generalizing run with
  | yield output => exact .inr rfl
  | fail fault => exact .inr rfl
  | expand request next ih =>
    rcases hexpand request run hrun with ⟨fault, hfault, houtcome⟩ | hsame
    · refine .inl ⟨fault, hfault, ?_⟩
      rw [perform_expand, houtcome]
      exact perform_of_failsWith (hpass.1 fault hfault) expand name _
    · have hafter := (hdepth request run).trans hrun
      have hrest := ih _ (hpass.2 (expand request run).1) (expand request run).2 hafter
      rw [perform_expand, perform_expand, hsame]
      exact hrest
  | «recall» next ih => exact ih _ (hpass _) run hrun
  | update change next ih => exact ih _ (hpass _) { run with environment := _ } hrun
  | log value next ih => exact ih hpass (run.announce (.logged value)) hrun

/-- An invocation agrees with another if all that may be asked for on the way does. -/
theorem agrees_invoke
    (hexpand : ∀ request, Agrees cut earlier depth (expandRequest limit expandCall request)
      (expandRequest otherLimit otherCall request))
    (hdepth : ∀ call, KeepsDepth (expandCall call)) {entry : Macro ε}
    (hpass : entry.PassesOn cut) (call : Call) :
    Agrees cut earlier depth (invoke limit expandCall entry call)
      (invoke otherLimit otherCall entry call) := by
  have hprepare : Agrees cut earlier depth (entry.prepare call.name call.arguments)
      (entry.prepare call.name call.arguments) := fun _ _ => .inr rfl
  exact hprepare.andThen (fun _ => rfl) fun prepared =>
    Agrees.andThen (hexpand (.items prepared)) (keepsDepth_expandItems hdepth prepared)
      fun arguments => agrees_perform hexpand (keepsDepth_expandRequest hdepth) call.name
        (hpass arguments)

end OneLevel

/-- Calls come to the same under two limits. The first run has to be cut off by the lower
limit, or else the limits are the same and there are levels enough. The second run has to
have levels enough in any case. -/
theorem agrees_expandCall {registry : Registry ε} (hpass : registry.PassesOn cut)
    {limit otherLimit levels otherLevels : Nat} (hlimit : limit ≤ otherLimit)
    (hcut : cut (.expandedTooDeep limit) ∨ limit = otherLimit ∧ limit - depth < levels)
    (henough : otherLimit - depth < otherLevels) (call : Call) :
    Agrees cut earlier depth (expandCall registry limit levels call)
      (expandCall registry otherLimit otherLevels call) := by
  induction levels generalizing otherLevels depth call with
  | zero =>
    obtain hcut | ⟨-, hlevels⟩ := hcut
    · exact fun _ _ => .inl ⟨_, hcut, rfl⟩
    · omega
  | succ levels ih =>
    obtain ⟨otherLevels, rfl⟩ : ∃ fewer, otherLevels = fewer + 1 := ⟨otherLevels - 1, by omega⟩
    intro run hrun
    have hbehind : (run.behind earlier).depth = depth := hrun
    cases hfind : registry.find? call.name with
    | none =>
      rw [expandCall_of_unknown hfind, expandCall_of_unknown hfind]
      exact .inr rfl
    | some entry =>
      rcases Nat.lt_or_ge depth limit with hroom | hfull
      · rw [expandCall_of_lt hfind (by omega), expandCall_of_lt hfind (by omega)]
        have hcalls : ∀ inner, Agrees cut earlier (depth + 1)
            (expandCall registry limit levels inner)
            (expandCall registry otherLimit otherLevels inner) := fun inner =>
          ih (hcut.imp id fun h => ⟨h.1, by omega⟩) (by omega) inner
        have hdepth := keepsDepth_expandCall registry limit levels
        have hinvoke := agrees_invoke
          (agrees_expandRequest hlimit (hcut.imp id And.left) hcalls hdepth) hdepth
          (hpass _ entry hfind) call (begin call run) (congrArg (· + 1) hrun)
        rcases hinvoke with hfault | hsame
        · exact .inl hfault
        · have hbegin : begin call (run.behind earlier) = (begin call run).behind earlier := rfl
          simp only [hbegin, hsame]
          exact .inr rfl
      · rw [expandCall_of_le hfind (by omega)]
        rcases hcut with hcut | ⟨rfl, -⟩
        · exact .inl ⟨_, hcut, rfl⟩
        · rw [expandCall_of_le hfind (by omega)]
          exact .inr rfl

end Expansion

/-- Expansions under two limits come to the same unless the lower limit cuts the first off. -/
theorem Expander.agrees_expand {registry : Registry ε} (hpass : registry.PassesOn cut)
    {limit otherLimit : Nat} (hlimit : limit ≤ otherLimit)
    (hcut : cut (.expandedTooDeep limit) ∨ limit = otherLimit) (request : Request) :
    Agrees cut earlier depth (Expander.expand ⟨registry, limit⟩ request)
      (Expander.expand ⟨registry, otherLimit⟩ request) := by
  intro run hrun
  have hcall : ∀ call, Agrees cut earlier depth
      (Expansion.expandCall registry limit (limit - run.depth + 1) call)
      (Expansion.expandCall registry otherLimit (otherLimit - run.depth + 1) call) :=
    Expansion.agrees_expandCall hpass hlimit (hcut.imp id fun h => ⟨h, by omega⟩) (by omega)
  exact Expansion.agrees_expandRequest hlimit hcut hcall
    (Expansion.keepsDepth_expandCall registry limit _) request run hrun

end Offside
