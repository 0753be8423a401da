import FluentPlan.Proofs.Rebuilding.Kept

/-!
What decides whether a thread group runs for a time or a number of times. The forms that ramp up and
those that do not look at different properties for it: the former also want a duration that is not
zero. So the ramp-up time decides for groups that are scheduled for no time, and only for them.
-/

namespace FluentPlan

open Catalog.Plan

namespace Catalog.Plan

/-- Whether a form of thread groups runs for a time. -/
def isTimed (s : Signature) : Bool := s = rampHoldThreadGroup || s = durationThreadGroup

/-- The ramp-up times that count as none. -/
def noRamp : List String := ["", "0", "1"]

/-- The durations that count as none where a group ramps up. -/
def noTime : List String := ["", "0"]

/-- The form of a thread group that has all properties that forms require. -/
def formFor (scheduled : Bool) (time ramp : String) : Signature :=
  if ramp ∈ noRamp then if scheduled then durationThreadGroup else threadGroup
  else if scheduled = true ∧ time ∉ noTime then rampHoldThreadGroup
  else rampThreadGroup

theorem isTimed_formFor (scheduled : Bool) (time ramp : String) :
    isTimed (formFor scheduled time ramp) = true ↔
      scheduled = true ∧ (ramp ∈ noRamp ∨ time ∉ noTime) := by
  have hrampHold : isTimed rampHoldThreadGroup = true := by decide
  have hduration : isTimed durationThreadGroup = true := by decide
  have hramp : isTimed rampThreadGroup = false := by decide
  have hplain : isTimed threadGroup = false := by decide
  unfold formFor
  split_ifs <;> simp_all

end Catalog.Plan

namespace Element

/-- The element with another ramp-up time. -/
def withRamp (e : Element) (ramp : String) : Element :=
  { e with properties := e.properties.put rampTime ramp }

/-- Whether the scheduler of a thread group is on. -/
def isScheduled (e : Element) : Bool := e.properties.get? "ThreadGroup.scheduler" = some "true"

/-- The properties of a thread group that one form or another requires, the ramp-up time apart. -/
structure IsFullGroup (e : Element) (time : String) : Prop where
  kind : e.kind = groupKind
  count : e.properties.contains "ThreadGroup.num_threads" = true
  loops : e.properties.contains loopCount = true
  time : e.properties.get? "ThreadGroup.duration" = some time

theorem IsFullGroup.withRamp {e : Element} {time : String} (h : e.IsFullGroup time)
    (ramp : String) : (e.withRamp ramp).IsFullGroup time where
  kind := h.kind
  count := by
    rw [Properties.contains, Element.withRamp, Properties.get?_put_of_ne _ _ (by decide)]
    exact h.count
  loops := by
    rw [Properties.contains, Element.withRamp, Properties.get?_put_of_ne _ _ (by decide)]
    exact h.loops
  time := by
    rw [Element.withRamp, Properties.get?_put_of_ne _ _ (by decide)]
    exact h.time

theorem isScheduled_withRamp (e : Element) (ramp : String) :
    (e.withRamp ramp).isScheduled = e.isScheduled := by
  rw [isScheduled, withRamp, Properties.get?_put_of_ne _ _ (by decide)]
  rfl

end Element

namespace Registry

open Element

/-- All that forms of thread groups require is there. -/
theorem hasRequired_of_isFullGroup {e : Element} {time ramp : String} (h : e.IsFullGroup time)
    (hr : e.properties.get? rampTime = some ramp) {s : Signature} (hs : s ∈ threadGroupForms) :
    s.hasRequired e.properties = true := by
  have hkeys : ∀ s ∈ threadGroupForms, ∀ p ∈ s.allParams, p.required = true → ∀ k ∈ p.prop,
      k = "ThreadGroup.num_threads" ∨ k = loopCount ∨ k = "ThreadGroup.duration" ∨
        k = rampTime := by
    decide
  refine List.all_eq_true.mpr fun p hp => ?_
  cases hreq : p.required with
  | false => rfl
  | true =>
    simp only [Bool.not_true, Bool.false_or, Option.all_eq_true_iff_get, Bool.or_eq_true]
    intro hk
    rcases hkeys s hs p hp hreq _ (Option.get_mem hk) with hk | hk | hk | hk <;> rw [hk]
    · exact .inr h.count
    · exact .inr h.loops
    · exact .inr (by simp [Properties.contains, h.time])
    · exact .inr (by simp [Properties.contains, hr])

/-- A thread group with all properties resolves to the first form whose guard accepts it. -/
theorem resolve?_of_isFullGroup {e : Element} {time ramp : String} (h : e.IsFullGroup time)
    (hr : e.properties.get? rampTime = some ramp) :
    standard.resolve? e = .ok (formFor e.isScheduled time ramp) := by
  have hforms (before : List Signature) {behind : List Signature} {s : Signature}
      (hf : threadGroupForms = before ++ s :: behind)
      (hb : ∀ t ∈ before, t.guard.all (·.accepts e.properties) = false)
      (hs : s.guard.all (·.accepts e.properties) = true) : standard.resolve? e = .ok s := by
    refine resolve?_of_forms hf h.kind (fun t ht => ?_) ?_
    · rw [hb t ht, Bool.and_false]
    · rw [hasRequired_of_isFullGroup h hr (hf ▸ List.mem_append_right _ List.mem_cons_self), hs,
        Bool.and_true]
  have hhold : rampHoldThreadGroup.guard.all (·.accepts e.properties) =
      decide (ramp ∉ noRamp ∧ e.isScheduled = true ∧ time ∉ noTime) := by
    simp [rampHoldThreadGroup, hasRamp, Guard.accepts, Guard.acceptsAll, hr, h.time, noRamp, noTime,
      isScheduled]
  have hramp : rampThreadGroup.guard.all (·.accepts e.properties) = decide (ramp ∉ noRamp) := by
    simp [rampThreadGroup, hasRamp, Guard.accepts, hr, noRamp]
  have hduration : durationThreadGroup.guard.all (·.accepts e.properties) = e.isScheduled := rfl
  unfold formFor
  split_ifs with hn hs hrun
  · exact hforms [rampHoldThreadGroup, rampThreadGroup] rfl
      (by simp [hhold, hramp, hn]) hs
  · exact hforms [rampHoldThreadGroup, rampThreadGroup, durationThreadGroup] rfl
      (by simp [hhold, hramp, hduration, hn, hs]) rfl
  · exact hforms [] rfl (List.forall_mem_nil _) (by simp [hhold, hn, hrun])
  · refine hforms [rampHoldThreadGroup] rfl ?_ (by simp [hramp, hn])
    simpa [hhold, hn] using hrun

end Registry

/-- The ramp-up time does not matter to whether a thread group with all its properties runs for a
time, unless it is scheduled for no time at all: then the forms that ramp up run a number of times,
and the others for that time. -/
theorem isTimed_withRamp_iff {e : Element} {time : String} (h : e.IsFullGroup time)
    (ramp₁ ramp₂ : String) :
    ∃ s₁ s₂, Registry.standard.resolve? (e.withRamp ramp₁) = .ok s₁ ∧
      Registry.standard.resolve? (e.withRamp ramp₂) = .ok s₂ ∧
      ((isTimed s₁ = true ↔ isTimed s₂ = true) ↔
        (e.isScheduled = true → time ∈ noTime → (ramp₁ ∈ noRamp ↔ ramp₂ ∈ noRamp))) := by
  have hform (ramp : String) : Registry.standard.resolve? (e.withRamp ramp) =
      .ok (formFor e.isScheduled time ramp) := by
    rw [← Element.isScheduled_withRamp e ramp]
    exact Registry.resolve?_of_isFullGroup (h.withRamp ramp) (Properties.get?_put_self _ _ _)
  refine ⟨_, _, hform ramp₁, hform ramp₂, ?_⟩
  rw [isTimed_formFor, isTimed_formFor]
  tauto

/-- A thread group that is scheduled for a time, with all its properties but the ramp-up time. -/
def scheduledGroup (time : String) : Element :=
  ⟨"ThreadGroup", none, true, .ofList
    [("ThreadGroup.num_threads", "10"), (loopCount, "5"), ("ThreadGroup.scheduler", "true"),
      ("ThreadGroup.duration", time)], []⟩

theorem isFullGroup_scheduledGroup (time : String) : (scheduledGroup time).IsFullGroup time :=
  ⟨rfl, rfl, rfl, rfl⟩

/-- A group that is scheduled for a minute and a half runs for it with any ramp-up time. -/
theorem isTimed_withRamp_scheduledGroup :
    (scheduledGroup "90").IsFullGroup "90" ∧
      ∃ s₁ s₂, Registry.standard.resolve? ((scheduledGroup "90").withRamp "30") = .ok s₁ ∧
        Registry.standard.resolve? ((scheduledGroup "90").withRamp "0") = .ok s₂ ∧
        (isTimed s₁ = true ↔ isTimed s₂ = true) := by
  have hfull := isFullGroup_scheduledGroup "90"
  obtain ⟨s₁, s₂, h₁, h₂, h⟩ := isTimed_withRamp_iff hfull "30" "0"
  exact ⟨hfull, s₁, s₂, h₁, h₂, h.mpr fun _ htime => absurd htime (by decide)⟩

/-- A group that is scheduled for no time iterates if it ramps up, and runs for no time if not. -/
theorem exists_rampTime_decides :
    Registry.standard.resolve? ((scheduledGroup "0").withRamp "30") = .ok rampThreadGroup ∧
      isTimed rampThreadGroup = false ∧
      Registry.standard.resolve? ((scheduledGroup "0").withRamp "0") = .ok durationThreadGroup ∧
      isTimed durationThreadGroup = true := by
  have hform (ramp : String) : Registry.standard.resolve? ((scheduledGroup "0").withRamp ramp) =
      .ok (formFor ((scheduledGroup "0").withRamp ramp).isScheduled "0" ramp) :=
    Registry.resolve?_of_isFullGroup ((isFullGroup_scheduledGroup "0").withRamp ramp)
      (Properties.get?_put_self _ _ _)
  exact ⟨hform "30", by decide, hform "0", by decide⟩

end FluentPlan
