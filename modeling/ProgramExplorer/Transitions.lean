import Mathlib.Tactic

/-!
# Runs of a transition system

A step takes a state and an event and gives the next state, or nothing where
the event cannot happen. A run is a list of events, each possible where it
comes; it is the monadic fold of the step. What holds after every part of a run
is proved event by event.
-/

set_option autoImplicit false

namespace ProgramExplorer.Transitions

variable {σ ε : Type} {step : σ → ε → Option σ}

theorem foldlM_concat {events : List ε} {event : ε} {s t : σ} :
    (events ++ [event]).foldlM step s = some t ↔
      ∃ u, events.foldlM step s = some u ∧ step u event = some t := by
  rw [List.foldlM_append, Option.bind_eq_bind, Option.bind_eq_some_iff]
  refine exists_congr fun u => and_congr_right fun _ => ?_
  rw [List.foldlM_cons, Option.bind_eq_bind, Option.bind_eq_some_iff]
  simp

theorem foldlM_of_append {front back : List ε} {s t : σ} (h : (front ++ back).foldlM step s = some t) :
    ∃ u, front.foldlM step s = some u ∧ back.foldlM step u = some t := by
  rw [List.foldlM_append, Option.bind_eq_bind, Option.bind_eq_some_iff] at h
  exact h

theorem step_of_run {front back : List ε} {event : ε} {s t u : σ}
    (hrun : (front ++ event :: back).foldlM step s = some t) (hu : front.foldlM step s = some u) :
    ∃ v, step u event = some v ∧ back.foldlM step v = some t := by
  obtain ⟨u', hu', hback⟩ := foldlM_of_append hrun
  cases hu.symm.trans hu'
  rw [List.foldlM_cons, Option.bind_eq_bind, Option.bind_eq_some_iff] at hback
  exact hback

def Throughout (step : σ → ε → Option σ) (s : σ) (events : List ε) (P : σ → Prop) : Prop :=
  ∀ front back t, events = front ++ back → front.foldlM step s = some t → P t

def AtEvents (step : σ → ε → Option σ) (s : σ) (events : List ε) (P : σ → ε → Prop) : Prop :=
  ∀ front event back t, events = front ++ event :: back → front.foldlM step s = some t → P t event

theorem atEvents_cons {P : σ → ε → Prop} {s : σ} {event : ε} {events : List ε} :
    AtEvents step s (event :: events) P ↔
      P s event ∧ ∀ t, step s event = some t → AtEvents step t events P := by
  constructor
  · intro h
    refine ⟨h [] event events s rfl rfl, fun t ht front e back u heq hu => ?_⟩
    refine h (event :: front) e back u (by rw [heq]; rfl) ?_
    rw [List.foldlM_cons, ht]
    exact hu
  · rintro ⟨hfirst, hrest⟩ front e back u heq hu
    cases front with
    | nil =>
      obtain ⟨rfl, -⟩ := List.cons.inj heq
      cases hu
      exact hfirst
    | cons e' front =>
      obtain ⟨rfl, htail⟩ := List.cons.inj heq
      rw [List.foldlM_cons, Option.bind_eq_bind, Option.bind_eq_some_iff] at hu
      obtain ⟨t, ht, hu⟩ := hu
      exact hrest t ht front e back u htail hu

instance decidableAtEvents {P : σ → ε → Prop} [∀ s e, Decidable (P s e)] :
    (events : List ε) → (s : σ) → Decidable (AtEvents step s events P)
  | [], _ => isTrue fun front _ _ _ heq => by cases front <;> cases heq
  | event :: events, s =>
    match h : step s event with
    | none => decidable_of_iff (P s event) (by simp [atEvents_cons, h])
    | some t =>
      have : Decidable (AtEvents step t events P) := decidableAtEvents events t
      decidable_of_iff (P s event ∧ AtEvents step t events P) (by simp [atEvents_cons, h])

/-- What every event keeps, if it is one of those that a run is made of. -/
theorem throughout_of_atEvents {P : σ → Prop} {Q : σ → ε → Prop} {s : σ} {events : List ε} (hs : P s)
    (hstep : ∀ s e t, P s → Q s e → step s e = some t → P t) (h : AtEvents step s events Q) :
    Throughout step s events P := by
  intro front back t heq hrun
  induction front using List.reverseRecOn generalizing back t with
  | nil =>
    cases hrun
    exact hs
  | append_singleton front event ih =>
    obtain ⟨u, hu, hlast⟩ := foldlM_concat.mp hrun
    have hsplit : events = front ++ event :: back := by simpa using heq
    exact hstep u event t (ih (event :: back) u hsplit hu) (h front event back u hsplit hu) hlast

/-- An event that breaks the property is missing from a run that has it
throughout. -/
theorem atEvents_of_throughout {P : σ → Prop} {Q : σ → ε → Prop} {s t : σ} {events : List ε}
    (hrun : events.foldlM step s = some t)
    (hstep : ∀ s e t, P s → step s e = some t → P t → Q s e) (h : Throughout step s events P) :
    AtEvents step s events Q := by
  intro front event back u heq hu
  have hwhole : ((front ++ [event]) ++ back).foldlM step s = some t := by
    rw [List.append_assoc, List.singleton_append, ← heq]
    exact hrun
  obtain ⟨v, hv, -⟩ := foldlM_of_append hwhole
  obtain ⟨u', hu', hlast⟩ := foldlM_concat.mp hv
  cases hu.symm.trans hu'
  exact hstep u event v (h front (event :: back) u heq hu) hlast
    (h (front ++ [event]) back v (by simpa using heq) hv)

/-- What holds after a run and not before it was brought about by some event of
the run, the last that could, and the events after it left it alone. -/
theorem last_cause_of_invariant {I P : σ → Prop} {K : ε → Prop} {C : σ → ε → Prop}
    (hinv : ∀ s e t, I s → step s e = some t → I t)
    (hstep : ∀ s e t, I s → step s e = some t → P t → P s ∧ K e ∨ C s e) {s t : σ} {events : List ε}
    (hI : I s) (hs : ¬ P s) (hrun : events.foldlM step s = some t) (ht : P t) :
    ∃ front event back u, events = front ++ event :: back ∧ front.foldlM step s = some u ∧
      C u event ∧ ∀ e ∈ back, K e := by
  induction events using List.reverseRecOn generalizing t with
  | nil =>
    cases hrun
    exact absurd ht hs
  | append_singleton events last ih =>
    obtain ⟨u, hu, hlast⟩ := foldlM_concat.mp hrun
    have hIu : Throughout step s events I :=
      throughout_of_atEvents (Q := fun _ _ => True) hI (fun s e t hs _ => hinv s e t hs)
        fun _ _ _ _ _ _ => trivial
    rcases hstep u last t (hIu events [] u (by simp) hu) hlast ht with ⟨hpu, hk⟩ | hc
    · obtain ⟨front, event, back, w, rfl, hw, hc, hback⟩ := ih hu hpu
      refine ⟨front, event, back ++ [last], w, by simp, hw, hc, ?_⟩
      intro e he
      rcases List.mem_append.mp he with he | he
      · exact hback e he
      · rw [List.mem_singleton.mp he]
        exact hk
    · exact ⟨events, last, [], u, rfl, hu, hc, by simp⟩

theorem last_cause {P : σ → Prop} {K : ε → Prop} {C : σ → ε → Prop}
    (hstep : ∀ s e t, step s e = some t → P t → P s ∧ K e ∨ C s e) {s t : σ} {events : List ε}
    (hs : ¬ P s) (hrun : events.foldlM step s = some t) (ht : P t) :
    ∃ front event back u, events = front ++ event :: back ∧ front.foldlM step s = some u ∧
      C u event ∧ ∀ e ∈ back, K e :=
  last_cause_of_invariant (I := fun _ => True) (fun _ _ _ _ _ => trivial) (fun s e t _ => hstep s e t)
    trivial hs hrun ht

theorem keeps_of_run {P : σ → Prop} {Q : ε → Prop}
    (hstep : ∀ s e t, Q e → P s → step s e = some t → P t) {s t : σ} {events : List ε}
    (hevents : ∀ e ∈ events, Q e) (hs : P s) (hrun : events.foldlM step s = some t) : P t := by
  induction events using List.reverseRecOn generalizing t with
  | nil =>
    cases hrun
    exact hs
  | append_singleton events last ih =>
    obtain ⟨u, hu, hlast⟩ := foldlM_concat.mp hrun
    exact hstep u last t (hevents last (by simp))
      (ih (fun e he => hevents e (List.mem_append_left _ he)) hu) hlast

theorem first_of_two {a b c d : List ε} {x y : ε} (hne : x ≠ y) (h : a ++ x :: b = c ++ y :: d) :
    (∃ z, c = a ++ x :: z ∧ b = z ++ y :: d) ∨ ∃ z, a = c ++ y :: z ∧ d = z ++ x :: b := by
  rcases List.append_eq_append_iff.mp h with ⟨z, rfl, hz⟩ | ⟨z, rfl, hz⟩
  · cases z with
    | nil => exact absurd (List.cons.inj hz).1 hne
    | cons w z =>
      obtain ⟨rfl, rfl⟩ := List.cons.inj hz
      exact .inl ⟨z, rfl, rfl⟩
  · cases z with
    | nil => exact absurd (List.cons.inj hz).1.symm hne
    | cons w z =>
      obtain ⟨rfl, rfl⟩ := List.cons.inj hz
      exact .inr ⟨z, rfl, rfl⟩

end ProgramExplorer.Transitions
