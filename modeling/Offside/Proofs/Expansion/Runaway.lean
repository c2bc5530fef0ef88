import Offside.Proofs.Expansion.Agreement
import Offside.Proofs.Expansion.Derivation
import Offside.Proofs.Expansion.Walk

/-!
# Expansion always ends

Expansion ends however macros call each other, because each invocation takes one of the levels
that the limit leaves. Macros that always ask for one more call use all of them up. The limit
is then what ends the expansion, and nothing else can.
-/

namespace Offside

variable {ε : Type}

/-! ### Macros that never stop -/

/-- All macros that some items call, outside what is quoted, have an entry. -/
def Registry.Knows (registry : Registry ε) (items : List Item) : Prop :=
  ∀ call ∈ Item.callsAll items, registry.contains call.name = true

/-- The action, begun with what was kept for its macro and with the given environment, asks for
expansions of items that mention known macros only, and does not end before it has asked for
one that holds a call. When what it asks for fails, it fails in the same way, and it does not
fail otherwise. What it does with calls that are expanded without a fault is left open. -/
def Action.RunsAway (registry : Registry ε) (kept : List Item) : Action ε → ε → Prop
  | .yield _, _ => False
  | .fail _, _ => False
  | .expand request next, environment =>
    registry.Knows request.toItems ∧ (∀ fault, (next (.error fault)).FailsWith fault) ∧
      (Item.callsAll request.toItems = [] →
        (next (.ok request.toItems)).RunsAway registry kept environment)
  | .recall next, environment => (next kept).RunsAway registry kept environment
  | .update change next, environment =>
    (next (change environment)).RunsAway registry kept (change environment)
  | .log _ next, environment => next.RunsAway registry kept environment

/-- A macro that leaves its raw arguments alone, and whose evaluator always runs away. -/
structure Macro.RunsAway (registry : Registry ε) (entry : Macro ε) : Prop where
  /-- The raw arguments and the environment do not change. -/
  transform_eq : ∀ arguments environment,
    entry.transform arguments environment = (.ok arguments, environment)
  /-- The evaluator runs away whenever it is called. -/
  evaluate_runsAway : ∀ arguments kept environment,
    (entry.evaluate arguments).RunsAway registry kept environment

/-- Such a macro prepares its arguments by leaving them as they are. -/
theorem Macro.RunsAway.prepare_eq {registry : Registry ε} {entry : Macro ε}
    (h : entry.RunsAway registry) (name : String) (arguments : List Item) (run : Run ε) :
    entry.prepare name arguments run = (.ok arguments, (entry.prepare name arguments run).2) := by
  have houtcome : (entry.transform arguments run.environment).1 = .ok arguments := by
    rw [h.transform_eq]
  exact Prod.ext houtcome rfl

/-- A registry of macros that run away. -/
def Registry.RunsAway (registry : Registry ε) : Prop :=
  ∀ name entry, registry.find? name = some entry → entry.RunsAway registry

/-- A step that always fails for want of levels. -/
def Exhausts (limit : Nat) (step : Step ε) : Prop :=
  ∀ run, (step run).1 = .error (.expandedTooDeep limit)

/-- What begins with a step that always fails for want of levels does so too. -/
theorem Exhausts.andThen {limit : Nat} {step : Step ε} (h : Exhausts limit step)
    (next : List Item → Step ε) : Exhausts limit (Step.andThen step next) := by
  intro run
  have hresult : step run = (.error (.expandedTooDeep limit), (step run).2) := Prod.ext (h run) rfl
  rw [Step.andThen_of_error hresult]

namespace Expansion

variable {registry : Registry ε} {limit : Nat}

/-- Items without calls stay as they are. -/
theorem serveItems_of_callsAll_eq_nil (expandCall : Call → Step ε) {items : List Item}
    (hcalls : Item.callsAll items = []) (output : List Item) (run : Run ε) :
    serveItems expandCall output items run = (.ok (output.reverse ++ items), run) := by
  induction items generalizing output with
  | nil => rw [serveItems, List.append_nil]
  | cons item rest ih =>
    have hkept (hitem : item.call? = none) (hrest : Item.callsAll rest = []) :
        serveItems expandCall output (item :: rest) run =
          (.ok (output.reverse ++ item :: rest), run) := by
      have hserved := ih hrest (item :: output)
      rw [List.reverse_cons, List.append_assoc, List.singleton_append] at hserved
      cases item with
      | text content => exact hserved
      | quoted items => exact hserved
      | call name position arguments => cases hitem
    cases item with
    | text content => exact hkept rfl hcalls
    | quoted items => exact hkept rfl hcalls
    | call name position arguments => cases hcalls

/-- What holds no call is refused for what is quoted in it, or stays as it is. -/
theorem expandRequest_of_callsAll_eq_nil (expandCall : Call → Step ε) {request : Request}
    (hcalls : Item.callsAll request.toItems = []) (run : Run ε) :
    expandRequest limit expandCall request run = (.error (.expandedTooDeep limit), run) ∨
      expandRequest limit expandCall request run = (.ok request.toItems, run) := by
  rcases Nat.lt_or_ge (limit - run.depth) (Item.heightAll request.toItems) with hdeep | hfits
  · exact .inl (expandRequest_of_lt hdeep expandCall)
  · rw [expandRequest_of_le hfits]
    exact .inr (serveItems_of_callsAll_eq_nil expandCall hcalls [] run)

section OneLevel

variable {expandCall : Call → Step ε}

/-- The first call among some items uses up all levels, if every call does. -/
theorem exhausts_serveItems
    (hcall : ∀ call : Call, registry.Knows [call.toItem] → Exhausts limit (expandCall call))
    {items : List Item} (hknown : registry.Knows items) (hcalls : Item.callsAll items ≠ [])
    (output : List Item) : Exhausts limit (serveItems expandCall output items) := by
  induction items generalizing output with
  | nil => exact absurd rfl hcalls
  | cons item rest ih =>
    cases item with
    | text content => exact ih hknown hcalls _
    | quoted items => exact ih hknown hcalls _
    | call name position arguments =>
      have hfirst : registry.Knows [Item.call name position arguments] := by
        intro inner hinner
        apply hknown
        rw [Item.callsAll, Item.callsAll, List.append_nil] at hinner
        exact List.mem_append_left _ hinner
      exact (hcall ⟨name, position, arguments⟩ hfirst).andThen _

/-- Whatever holds a call uses up all levels, or is refused because it needs even more. -/
theorem exhausts_expandRequest
    (hcall : ∀ call : Call, registry.Knows [call.toItem] → Exhausts limit (expandCall call))
    {request : Request} (hknown : registry.Knows request.toItems)
    (hcalls : Item.callsAll request.toItems ≠ []) :
    Exhausts limit (expandRequest limit expandCall request) := by
  intro run
  rcases Nat.lt_or_ge (limit - run.depth) (Item.heightAll request.toItems) with hdeep | hfits
  · rw [expandRequest_of_lt hdeep]
  · rw [expandRequest_of_le hfits]
    exact exhausts_serveItems hcall hknown hcalls [] run

/-- An action that runs away ends when what it asks for fails. -/
theorem perform_of_runsAway
    (hcall : ∀ call : Call, registry.Knows [call.toItem] → Exhausts limit (expandCall call))
    (name : String) {action : Action ε} {run : Run ε}
    (h : action.RunsAway registry (run.memory.get name) run.environment) :
    (perform (expandRequest limit expandCall) name action run).1 =
      .error (.expandedTooDeep limit) := by
  induction action generalizing run with
  | yield output => exact h.elim
  | fail fault => exact h.elim
  | expand request next ih =>
    obtain ⟨hknown, hpasses, hgoes⟩ := h
    have hfailed (hrequest : (expandRequest limit expandCall request run).1 =
        .error (.expandedTooDeep limit)) :
        (perform (expandRequest limit expandCall) name (.expand request next) run).1 =
          .error (.expandedTooDeep limit) := by
      rw [perform_expand, hrequest]
      exact perform_of_failsWith (hpasses _) _ name _
    by_cases hcalls : Item.callsAll request.toItems = []
    · have hcases := @expandRequest_of_callsAll_eq_nil _ limit expandCall _ hcalls run
      rcases hcases with hrefused | hsame
      · exact hfailed (by rw [hrefused])
      · rw [perform_expand, hsame]
        exact ih _ (hgoes hcalls)
    · exact hfailed (exhausts_expandRequest hcall hknown hcalls run)
  | «recall» next ih => exact ih _ h
  | update change next ih => exact @ih _ { run with environment := change _ } h
  | log value next ih => exact @ih (run.announce (.logged value)) h

/-- An invocation uses up all levels for its arguments, or else in its evaluator. -/
theorem exhausts_invoke
    (hcall : ∀ call : Call, registry.Knows [call.toItem] → Exhausts limit (expandCall call))
    {entry : Macro ε} (hentry : entry.RunsAway registry) {call : Call}
    (hknown : registry.Knows call.arguments) :
    Exhausts limit (invoke limit expandCall entry call) := by
  intro run
  have hprepare := hentry.prepare_eq call.name call.arguments run
  generalize (entry.prepare call.name call.arguments run).2 = ready at hprepare
  rw [invoke_eq, Step.andThen_of_ok hprepare]
  have harguments : expandItems limit expandCall call.arguments =
      expandRequest limit expandCall (.items call.arguments) := rfl
  rw [harguments]
  by_cases hcalls : Item.callsAll call.arguments = []
  · have hcases := @expandRequest_of_callsAll_eq_nil _ limit expandCall (.items call.arguments)
      hcalls ready
    rcases hcases with hrefused | hsame
    · rw [Step.andThen_of_error hrefused]
    · rw [Step.andThen_of_ok hsame]
      exact perform_of_runsAway hcall call.name
        (hentry.evaluate_runsAway call.arguments _ ready.environment)
  · have hexhausts : Exhausts limit (expandRequest limit expandCall (.items call.arguments)) :=
      exhausts_expandRequest hcall hknown hcalls
    exact hexhausts.andThen _ ready

end OneLevel

/-- However many levels there are, a call of macros that run away uses them up. -/
theorem exhausts_expandCall (hruns : registry.RunsAway) (limit levels : Nat) {call : Call}
    (hknown : registry.Knows [call.toItem]) :
    Exhausts limit (expandCall registry limit levels call) := by
  induction levels generalizing call with
  | zero => exact fun _ => rfl
  | succ levels ih =>
    intro run
    have hcalls : Item.callsAll [call.toItem] = call :: Item.callsAll call.arguments := by
      rw [Item.callsAll, Item.callsAll, List.append_nil, Call.toItem, Item.calls]
    have hboth : registry.contains call.name = true ∧ registry.Knows call.arguments := by
      unfold Registry.Knows at hknown
      rw [hcalls] at hknown
      exact List.forall_mem_cons.mp hknown
    obtain ⟨hfirst, harguments⟩ := hboth
    rw [registry.contains_eq_isSome] at hfirst
    obtain ⟨entry, hfind⟩ := Option.isSome_iff_exists.mp hfirst
    rcases Nat.lt_or_ge run.depth limit with hroom | hfull
    · rw [expandCall_of_lt hfind hroom]
      exact exhausts_invoke (fun inner hinner => ih hinner) (hruns _ entry hfind) harguments _
    · rw [expandCall_of_le hfind hfull]

end Expansion

namespace Expander

/-- Expansion always ends. Whatever the macros are, the rules of expansion lead from every
request to one result and to no other, and it is the one that is computed. On the way there are
never more calls active than the limit allows. If all macros run away, and what is asked for
holds a call but none of an unknown macro, then that result is the fault that the limit was
reached. -/
theorem expand_ends (expander : Expander ε) (request : Request) (run : Run ε) :
    let result := expander.expand request run
    (∃ active, Expansion.Ends expander.registry expander.limit active (.answer request) run
      result.1 result.2) ∧
    (∀ active outcome after, Expansion.Ends expander.registry expander.limit active
      (.answer request) run outcome after →
        active ≤ expander.limit - run.depth ∧ result = (outcome, after)) ∧
    (expander.registry.RunsAway → expander.registry.Knows request.toItems →
      Item.callsAll request.toItems ≠ [] →
        result.1 = .error (.expandedTooDeep expander.limit)) := by
  intro result
  refine ⟨?_, ?_, ?_⟩
  · exact Expansion.exists_ends_answer (Expansion.callsEnd _ _ _) request run (by omega)
  · intro active outcome after hends
    obtain ⟨hactive, -, hstep⟩ := hends.step_eq
    exact ⟨hactive, hstep _ (by omega)⟩
  · intro hruns hknown hcalls
    exact Expansion.exhausts_expandRequest
      (fun call hcall => Expansion.exhausts_expandCall hruns _ _ hcall) hknown hcalls run

/-- A macro that expands a text, and then a call of another macro. -/
def ping : Macro Tally where
  evaluate _ := .expand (.items [.text "ping"]) fun
    | .error fault => .fail fault
    | .ok _ => .expand (.calls [⟨"$$pong", .nowhere, []⟩]) Stock.finish

/-- A registry of two macros that call each other. -/
def circling : Registry Tally :=
  (Registry.empty.insert "$$ping" ping).insert "$$pong"
    (Stock.compose "$$pong" .silent (.expandItems [.quoted [], .call "$$ping" .nowhere []]))

/-- Macros that call each other come to the limit, here behind a text and inside a call. -/
theorem expand_ends_circling :
    let items : List Item := [.text "x", .call "$$ping" ⟨1, 1⟩ [.call "$$pong" ⟨1, 8⟩ []]]
    circling.RunsAway ∧ circling.Knows items ∧ Item.callsAll items ≠ [] ∧
      (Expander.expand ⟨circling, 5⟩ (.items items) (.start .empty {})).1 =
        .error (.expandedTooDeep 5) := by
  intro items
  have hping : circling.contains "$$ping" = true := by decide +kernel
  have hpong : circling.contains "$$pong" = true := by decide +kernel
  have hruns : circling.RunsAway := by
    intro name entry hfind
    rw [circling, Registry.find?_insert, Registry.find?_insert, Registry.find?_empty] at hfind
    split at hfind
    · cases hfind
      refine ⟨fun _ _ => rfl, fun arguments kept environment => ⟨?_, fun _ => rfl, ?_⟩⟩
      · exact List.forall_mem_singleton.mpr hping
      · exact fun hnone => absurd hnone (List.cons_ne_nil _ _)
    · split at hfind
      · cases hfind
        refine ⟨fun _ _ => rfl, fun arguments kept environment => ⟨?_, fun _ => rfl, fun _ => ?_⟩⟩
        · exact List.forall_mem_nil _
        · refine ⟨List.forall_mem_singleton.mpr hpong, fun _ => rfl, ?_⟩
          exact fun hnone => absurd hnone (List.cons_ne_nil _ _)
      · cases hfind
  have hknown : circling.Knows items :=
    List.forall_mem_cons.mpr ⟨hping, List.forall_mem_singleton.mpr hpong⟩
  have hcalls : Item.callsAll items ≠ [] := List.cons_ne_nil _ _
  obtain ⟨-, -, hexhausted⟩ := expand_ends ⟨circling, 5⟩ (.items items) (.start .empty {})
  exact ⟨hruns, hknown, hcalls, hexhausted hruns hknown hcalls⟩

end Expander

end Offside
