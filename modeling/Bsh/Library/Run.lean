import Mathlib.Data.List.Basic

/-!
# Runs and their invariants

A system is a step function on states and events.  A run is a list of events; `Meets` says that
every step of a run meets a condition on the state before the step and the event.  A property that
such steps preserve holds in every state a run of such steps reaches, and a relation between two
systems that matched steps preserve holds after matched runs.
-/

namespace Bsh.Library

open List

variable {State Event : Type*}

/-- The state after a run. -/
def run (step : State → Event → State) (start : State) (events : List Event) : State :=
  events.foldl step start

/-- Every step of the run meets the condition. -/
def Meets (step : State → Event → State) (condition : State → Event → Prop) :
    State → List Event → Prop
  | _, [] => True
  | state, event :: events =>
    condition state event ∧ Meets step condition (step state event) events

instance Meets.decidable (step : State → Event → State) (condition : State → Event → Prop)
    [∀ state event, Decidable (condition state event)] :
    ∀ state events, Decidable (Meets step condition state events)
  | _, [] => inferInstanceAs (Decidable True)
  | state, event :: events =>
    have := decidable step condition (step state event) events
    inferInstanceAs (Decidable (_ ∧ _))

@[simp]
theorem run_nil (step : State → Event → State) (start : State) : run step start [] = start := rfl

@[simp]
theorem run_cons (step : State → Event → State) (start : State) (event : Event)
    (events : List Event) :
    run step start (event :: events) = run step (step start event) events := rfl

theorem run_append (step : State → Event → State) (start : State) (before after : List Event) :
    run step start (before ++ after) = run step (run step start before) after :=
  foldl_append

variable {start : State}

theorem meets_append {step : State → Event → State} {condition : State → Event → Prop} {before after : List Event} : Meets step condition start (before ++ after) ↔
      Meets step condition start before ∧ Meets step condition (run step start before) after := by
  induction before generalizing start with
  | nil => simp [Meets]
  | cons event before ih =>
    simp only [cons_append, Meets, run_cons, ih, and_assoc]

theorem meets_iff_forall_front {step : State → Event → State}
    {condition : State → Event → Prop} {events : List Event} :
    Meets step condition start events ↔ ∀ before event, before ++ [event] <+: events →
      condition (run step start before) event := by
  induction events generalizing start with
  | nil => simp [Meets]
  | cons first events ih =>
    rw [Meets, ih]
    constructor
    · rintro ⟨hfirst, hrest⟩ before event hbefore
      cases before with
      | nil =>
        obtain ⟨rfl, _⟩ := List.cons_prefix_cons.mp hbefore
        exact hfirst
      | cons other before =>
        obtain ⟨rfl, htail⟩ := List.cons_prefix_cons.mp hbefore
        exact hrest before event htail
    · intro h
      refine ⟨h [] first (by simp), fun before event hbefore ↦ ?_⟩
      exact h (first :: before) event (List.cons_prefix_cons.mpr ⟨rfl, hbefore⟩)

theorem Meets.and {step : State → Event → State} {first second : State → Event → Prop} {events : List Event} (hfirst : Meets step first start events)
    (hsecond : Meets step second start events) :
    Meets step (fun state event ↦ first state event ∧ second state event) start events := by
  induction events generalizing start with
  | nil => trivial
  | cons event events ih => exact ⟨⟨hfirst.1, hsecond.1⟩, ih hfirst.2 hsecond.2⟩

/-- What every conditioned step preserves holds after a conditioned run. -/
theorem Meets.invariant {step : State → Event → State} {condition : State → Event → Prop}
    (Inv : State → Prop) (hstep : ∀ state event, Inv state → condition state event →
      Inv (step state event)) (hstart : Inv start) {events : List Event}
    (h : Meets step condition start events) : Inv (run step start events) := by
  induction events generalizing start with
  | nil => exact hstart
  | cons event events ih => exact ih (hstep start event hstart h.1) h.2

/-- What every step preserves holds after every run. -/
theorem run_invariant {step : State → Event → State} (Inv : State → Prop)
    (hstep : ∀ state event, Inv state → Inv (step state event))
    (hstart : Inv start) (events : List Event) : Inv (run step start events) := by
  induction events generalizing start with
  | nil => exact hstart
  | cons event events ih => exact ih (hstep start event hstart)

/-- Where every step keeps an auxiliary invariant and decides by its condition whether a property
stays true, the property holds throughout a run exactly if the steps meet the condition. -/
theorem meets_iff {step : State → Event → State} {condition : State → Event → Prop}
    (Aux P : State → Prop) (haux : ∀ state event, Aux state → P state → Aux (step state event))
    (hstep : ∀ state event, Aux state → P state → (P (step state event) ↔ condition state event)) (hstart : Aux start) (hP : P start) (events : List Event) :
    (∀ before, before <+: events → P (run step start before)) ↔
      Meets step condition start events := by
  induction events generalizing start with
  | nil =>
    refine ⟨fun _ ↦ trivial, fun _ before hbefore ↦ ?_⟩
    rw [List.prefix_nil.mp hbefore]
    exact hP
  | cons event events ih =>
    constructor
    · intro h
      have hnext : P (step start event) := h [event] (prefix_append [event] events)
      refine ⟨(hstep start event hstart hP).mp hnext, ?_⟩
      apply (ih (haux start event hstart hP) hnext).mp
      exact fun before hbefore ↦ h (event :: before) ((prefix_cons_inj event).mpr hbefore)
    · rintro ⟨hcondition, hrest⟩ before hbefore
      have hnext : P (step start event) := (hstep start event hstart hP).mpr hcondition
      cases before with
      | nil => exact hP
      | cons first before =>
        obtain ⟨rfl, htail⟩ := List.cons_prefix_cons.mp hbefore
        exact (ih (haux _ _ hstart hP) hnext).mpr hrest before htail

/-! ## What a run emits -/

/-- What the steps of a run emit. -/
def emissions {Emission : Type*} (step : State → Event → State)
    (emitted : State → Event → Option Emission) : State → List Event → List Emission
  | _, [] => []
  | state, event :: events =>
    (emitted state event).toList ++ emissions step emitted (step state event) events

/-- The emissions lead from one place to the next and never stay. -/
def Trail {Emission Place : Type*} (source target : Emission → Place) :
    Place → List Emission → Prop
  | _, [] => True
  | place, e :: es => source e = place ∧ target e ≠ source e ∧ Trail source target (target e) es

/-- Where a state keeps the place and a step emits exactly its changes, a run leaves a trail. -/
theorem trail_emissions {Emission Place : Type*} {source target : Emission → Place}
    {step : State → Event → State} {emitted : State → Event → Option Emission}
    (place : State → Place)
    (hnone : ∀ state event, emitted state event = none → place (step state event) = place state)
    (hsome : ∀ state event e, emitted state event = some e →
      source e = place state ∧ target e ≠ source e ∧ place (step state event) = target e)
    (start : State) (events : List Event) :
    Trail source target (place start) (emissions step emitted start events) := by
  induction events generalizing start with
  | nil => trivial
  | cons event events ih =>
    rw [emissions]
    have hnext := ih (step start event)
    cases h : emitted start event with
    | none =>
      rw [hnone start event h] at hnext
      exact hnext
    | some e =>
      obtain ⟨hsource, hmoves, htarget⟩ := hsome start event e h
      rw [htarget] at hnext
      exact ⟨hsource, hmoves, hnext⟩

end Bsh.Library
