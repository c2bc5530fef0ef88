import Offside.Proofs.Expansion.Agreement

/-!
# The budget check is the one that counts

A list is refused before anything in it runs if its calls nest more deeply than levels are
left. Each call also looks how many calls are active before it begins. Without that second
look nothing would come out differently: a call's turn only comes where a list has passed the
first check, and then there is room for it. Nor do the levels of an expansion ever run out.
-/

namespace Offside

variable {ε : Type}

namespace Expansion

/-- Expands a call without looking how many calls are active. If the levels run out, something
else is done in its place. -/
def expandCallUnchecked (registry : Registry ε) (limit : Nat) (outOfLevels : Call → Step ε) :
    Nat → Call → Step ε
  | 0, call, run => outOfLevels call run
  | levels + 1, call, run =>
    match registry.find? call.name with
    | none => (.error (.unknownMacro call.name call.position), run)
    | some entry =>
      let event := .expanding call.name call.position run.depth
      let (outcome, run) :=
        invoke limit (expandCallUnchecked registry limit outOfLevels levels) entry call
          (run.announce event).enter
      (outcome, run.leave)

variable {cut : Fault → Prop} {earlier : List Event} {limit depth : Nat}

/-- Items without calls come out as they are, and nothing happens. -/
theorem serveItems_of_heightAll_eq_zero {items : List Item} (h : Item.heightAll items = 0)
    (expandCall : Call → Step ε) (output : List Item) (run : Run ε) :
    serveItems expandCall output items run = (.ok (output.reverse ++ items), run) := by
  induction items generalizing output with
  | nil => rw [serveItems, List.append_nil]
  | cons item rest ih =>
    rw [Item.heightAll] at h
    have hrest := ih (by omega)
    cases item with
    | text content => simp [serveItems, hrest]
    | quoted items => simp [serveItems, hrest]
    | call name position arguments =>
      rw [Item.height] at h
      omega

/-- What is handed in comes to the same if calls do wherever there is room for one. -/
theorem agrees_expandRequest_of_room {expandCall otherCall : Call → Step ε}
    (hdepth : ∀ call, KeepsDepth (expandCall call))
    (hcall : depth < limit → ∀ call, Agrees cut earlier depth (expandCall call) (otherCall call))
    (request : Request) :
    Agrees cut earlier depth (expandRequest limit expandCall request)
      (expandRequest limit otherCall request) := by
  rcases Nat.lt_or_ge depth limit with hroom | hfull
  · exact agrees_expandRequest (Nat.le_refl _) (.inr rfl) (hcall hroom) hdepth request
  · -- without room only items without calls pass
    intro run hrun
    right
    have hbehind : (run.behind earlier).depth = depth := hrun
    rw [expandRequest_eq, expandRequest_eq]
    rcases Nat.eq_zero_or_pos (Item.heightAll request.toItems) with hflat | hhigh
    · have hfits : Item.heightAll request.toItems ≤ limit - run.depth := by omega
      have hfitsBehind : Item.heightAll request.toItems ≤ limit - (run.behind earlier).depth := by
        omega
      rw [expandItems_of_le hfits, expandItems_of_le hfitsBehind,
        serveItems_of_heightAll_eq_zero hflat, serveItems_of_heightAll_eq_zero hflat]
    · rw [expandItems_of_lt (by omega), expandItems_of_lt (by omega)]

/-- Where there is room for a call it comes to the same without looking. The levels need only
be as many as are left. -/
theorem agrees_expandCallUnchecked {registry : Registry ε} (hpass : registry.PassesOn cut)
    (outOfLevels : Call → Step ε) {levels uncheckedLevels : Nat} (hroom : depth < limit)
    (hlevels : limit - depth < levels) (hunchecked : limit - depth ≤ uncheckedLevels)
    (call : Call) :
    Agrees cut earlier depth (expandCall registry limit levels call)
      (expandCallUnchecked registry limit outOfLevels uncheckedLevels call) := by
  -- the induction is on the levels of the calls that do not look; the others have one more
  induction uncheckedLevels generalizing levels depth call with
  | zero => omega
  | succ uncheckedLevels ih =>
    obtain ⟨levels, rfl⟩ : ∃ fewer, levels = fewer + 1 := ⟨levels - 1, by omega⟩
    intro run hrun
    cases hfind : registry.find? call.name with
    | none =>
      right
      rw [expandCall_of_unknown hfind]
      simp only [expandCallUnchecked, hfind]
    | some entry =>
      rw [expandCall_of_lt hfind (by omega)]
      simp only [expandCallUnchecked, hfind]
      have hdepth := keepsDepth_expandCall registry limit levels
      have hexpand : ∀ request, Agrees cut earlier (depth + 1)
          (expandRequest limit (expandCall registry limit levels) request)
          (expandRequest limit
            (expandCallUnchecked registry limit outOfLevels uncheckedLevels) request) :=
        agrees_expandRequest_of_room hdepth fun hinner inner =>
          ih hinner (by omega) (by omega) inner
      have hinvoke := agrees_invoke hexpand hdepth (hpass _ entry hfind) call (begin call run)
        (congrArg (· + 1) hrun)
      rcases hinvoke with hfault | hsame
      · exact .inl hfault
      · right
        have hbegin : (run.behind earlier |>.announce
            (.expanding call.name call.position (run.behind earlier).depth)).enter =
              (begin call run).behind earlier := rfl
        rw [hbegin, hsame]
        rfl

end Expansion

/-- Expansion comes to the same, outcome and whole run, if calls do not look how many are
active, whatever is done where the levels run out. -/
theorem Expander.expand_eq_unchecked (expander : Expander ε) (outOfLevels : Call → Step ε)
    (request : Request) (run : Run ε) {levels : Nat}
    (hlevels : expander.limit - run.depth ≤ levels) :
    expander.expand request run =
      Expansion.expandRequest expander.limit
        (Expansion.expandCallUnchecked expander.registry expander.limit outOfLevels levels)
        request run := by
  have hpass : expander.registry.PassesOn fun _ => False :=
    fun _ _ _ _ => Action.passesOn_none _
  have hsame : Agrees (fun _ => False) [] run.depth _ _ :=
    Expansion.agrees_expandRequest_of_room
      (Expansion.keepsDepth_expandCall expander.registry expander.limit _)
      (fun hroom call => Expansion.agrees_expandCallUnchecked hpass outOfLevels hroom
        (Nat.lt_succ_self _) hlevels call) request
  obtain ⟨_, hfalse, _⟩ | hsame := hsame run rfl
  · exact hfalse.elim
  · rw [Run.behind_nil, Run.behind_nil] at hsame
    exact hsame.symm

end Offside
