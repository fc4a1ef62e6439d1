import ProgramExplorer.Transitions

/-!
# Rate limits of the clients

The registry client keeps the end of a rate limit for each registry, the client
of GitHub a single one. Before a request a task looks for a limit that is still
in force; when it finds one that is over it takes the lock again and removes
what is there by then. A response that says that a limit has been hit is
followed by the insertion of its end. Each access of the lock is one step, and
time may pass between any two.
-/

set_option autoImplicit false

namespace ProgramExplorer.Ratelimits
open Transitions

section Times

def second : ℕ := 1000000000

def defaultRatelimitReset : ℕ := 60

def fromTimestamp (latest : ℕ) (reset : UInt64) : Option ℕ :=
  if reset.toNat ≤ latest then some (reset.toNat * second) else none

/-- The end of the limit in the client of registries: a reset in the past is
taken for a duration. -/
def registryEnd (latest now : ℕ) : Option UInt64 → ℕ
  | some reset =>
    let time := (fromTimestamp latest reset).getD (now + defaultRatelimitReset * second)
    if now > time then now + reset.toNat * second else time
  | none => now + defaultRatelimitReset * second

def githubEnd (latest now : ℕ) : Option UInt64 → ℕ
  | some reset => (fromTimestamp latest reset).getD (now + defaultRatelimitReset * second)
  | none => now + defaultRatelimitReset * second

end Times

section Ends

def Stale (latest now : ℕ) (reset : UInt64) : Prop := reset.toNat ≤ latest ∧ reset.toNat * second < now

def Ahead (latest now : ℕ) (reset : UInt64) : Prop := reset.toNat ≤ latest ∧ now ≤ reset.toNat * second

def Undated (latest : ℕ) (reset : UInt64) : Prop := latest < reset.toNat

variable {latest now : ℕ} {reset : UInt64}

theorem registryEnd_stale (h : Stale latest now reset) :
    registryEnd latest now (some reset) = now + reset.toNat * second := by
  simp only [registryEnd, fromTimestamp, if_pos h.1, Option.getD_some, if_pos h.2]

theorem registryEnd_ahead (h : Ahead latest now reset) :
    registryEnd latest now (some reset) = reset.toNat * second := by
  simp only [registryEnd, fromTimestamp, if_pos h.1, Option.getD_some, if_neg (Nat.not_lt.mpr h.2)]

theorem registryEnd_undated (h : Undated latest reset) :
    registryEnd latest now (some reset) = now + defaultRatelimitReset * second := by
  simp only [registryEnd, fromTimestamp, if_neg (Nat.not_le.mpr h), Option.getD_none]
  exact if_neg (Nat.not_lt.mpr (Nat.le_add_right _ _))

theorem reset_cases (latest now : ℕ) (reset : UInt64) :
    Stale latest now reset ∨ Ahead latest now reset ∨ Undated latest reset := by
  unfold Stale Ahead Undated
  omega

def Inverted (latest now : ℕ) (r₁ r₂ : UInt64) : Prop :=
  (Stale latest now r₁ ∧ Ahead latest now r₂ ∧ r₂.toNat * second < now + r₁.toNat * second) ∨
  (Stale latest now r₁ ∧ Undated latest r₂ ∧ defaultRatelimitReset < r₁.toNat) ∨
  (Ahead latest now r₁ ∧ Undated latest r₂ ∧ now + defaultRatelimitReset * second < r₁.toNat * second)

/-- The end grows with the reset except from a date that is over to one that
is not, and to what is no date. -/
theorem end_monotone_iff (latest now : ℕ) (r₁ r₂ : UInt64) (h : r₁ ≤ r₂) :
    registryEnd latest now (some r₁) ≤ registryEnd latest now (some r₂) ↔
      ¬ Inverted latest now r₁ r₂ := by
  have hle : r₁.toNat ≤ r₂.toNat := UInt64.le_iff_toNat_le.mp h
  unfold Inverted
  rcases reset_cases latest now r₁ with h₁ | h₁ | h₁
  · rcases reset_cases latest now r₂ with h₂ | h₂ | h₂
    · rw [registryEnd_stale h₁, registryEnd_stale h₂]
      unfold Stale Ahead Undated second at *
      omega
    · rw [registryEnd_stale h₁, registryEnd_ahead h₂]
      unfold Stale Ahead Undated second at *
      omega
    · rw [registryEnd_stale h₁, registryEnd_undated h₂]
      unfold Stale Ahead Undated second defaultRatelimitReset at *
      omega
  · rcases reset_cases latest now r₂ with h₂ | h₂ | h₂
    · unfold Stale Ahead second at *
      omega
    · rw [registryEnd_ahead h₁, registryEnd_ahead h₂]
      unfold Stale Ahead Undated second at *
      omega
    · rw [registryEnd_ahead h₁, registryEnd_undated h₂]
      unfold Stale Ahead Undated second defaultRatelimitReset at *
      omega
  · have h₂ : Undated latest r₂ := Nat.lt_of_lt_of_le h₁ hle
    rw [registryEnd_undated h₁, registryEnd_undated h₂]
    unfold Stale Ahead Undated at *
    omega

/-- Durations of one and of two minutes. -/
theorem end_monotone_durations :
    registryEnd 8000000000000 (1700000000 * second) (some 60) ≤
      registryEnd 8000000000000 (1700000000 * second) (some 120) :=
  (end_monotone_iff 8000000000000 (1700000000 * second) 60 120 (by decide)).mpr (by
    unfold Inverted Stale Ahead Undated second defaultRatelimitReset
    decide)

/-- A date that was over a second ago ends a limit decades after one that is
over in a second. -/
theorem stale_end_later :
    (1699999999 : UInt64) ≤ 1700000001 ∧
      registryEnd 8000000000000 (1700000000 * second) (some 1700000001) <
        registryEnd 8000000000000 (1700000000 * second) (some 1699999999) := by
  decide

end Ends

section Steps

inductive Check where
  | free
  | exceeded
  | expired
  deriving DecidableEq

def readAndCompare (now : ℕ) : Option ℕ → Check
  | none => .free
  | some ratelimitEnd => if now < ratelimitEnd then .exceeded else .expired

inductive Phase (Registry : Type) where
  | idle
  | removing (registry : Registry)
  | inserting (registry : Registry) (ratelimitEnd : ℕ)
  deriving DecidableEq

structure State (Task Registry : Type) where
  now : ℕ
  ratelimit : Registry → Option ℕ
  phase : Task → Phase Registry

inductive Event (Task Registry : Type) where
  | elapse (time : ℕ)
  | check (task : Task) (registry : Registry)
  | remove (task : Task) (registry : Registry)
  | respond (task : Task) (registry : Registry) (status : ℕ) (reset : Option UInt64)
  | insert (task : Task) (registry : Registry) (ratelimitEnd : ℕ)
  deriving DecidableEq

variable {Task Registry : Type} [DecidableEq Task] [DecidableEq Registry]

def State.goto (s : State Task Registry) (task : Task) (phase : Phase Registry) : State Task Registry :=
  { s with phase := Function.update s.phase task phase }

def State.put (s : State Task Registry) (registry : Registry) (value : Option ℕ) : State Task Registry :=
  { s with ratelimit := Function.update s.ratelimit registry value }

def Limited (status : ℕ) : Prop := status = 403 ∨ status = 429

instance (status : ℕ) : Decidable (Limited status) := inferInstanceAs (Decidable (_ ∨ _))

/-- The end of a limit is computed before the lock is taken for the insertion. -/
def step (endTime : ℕ → Option UInt64 → ℕ) (s : State Task Registry) :
    Event Task Registry → Option (State Task Registry)
  | .elapse time => some { s with now := s.now + time }
  | .check task registry =>
    if s.phase task = .idle then
      match readAndCompare s.now (s.ratelimit registry) with
      | .expired => some (s.goto task (.removing registry))
      | .free | .exceeded => some s
    else none
  | .remove task registry =>
    if s.phase task = .removing registry then some ((s.put registry none).goto task .idle) else none
  | .respond task registry status reset =>
    if s.phase task = .idle then
      if Limited status then some (s.goto task (.inserting registry (endTime s.now reset))) else some s
    else none
  | .insert task registry ratelimitEnd =>
    if s.phase task = .inserting registry ratelimitEnd then
      some ((s.put registry (some ratelimitEnd)).goto task .idle)
    else none

def initial (start : ℕ) : State Task Registry := ⟨start, fun _ => none, fun _ => .idle⟩

def Event.By (task : Task) : Event Task Registry → Prop
  | .elapse _ => False
  | .check t _ | .remove t _ | .respond t _ _ _ | .insert t _ _ => t = task

def Event.Removes (registry : Registry) : Event Task Registry → Prop
  | .remove _ r => r = registry
  | .elapse _ | .check _ _ | .respond _ _ _ _ | .insert _ _ _ => False

def Event.Inserts (registry : Registry) : Event Task Registry → Prop
  | .insert _ r _ => r = registry
  | .elapse _ | .check _ _ | .respond _ _ _ _ | .remove _ _ => False

end Steps

section Inversion

variable {Task Registry : Type} [DecidableEq Task] [DecidableEq Registry]
variable {endTime : ℕ → Option UInt64 → ℕ} {s s' : State Task Registry} {event : Event Task Registry}

theorem readAndCompare_expired {now : ℕ} {entry : Option ℕ} (h : readAndCompare now entry = .expired) :
    ∃ e, entry = some e ∧ e ≤ now := by
  cases entry with
  | none => cases h
  | some e =>
    rw [readAndCompare] at h
    split_ifs at h with hlt
    exact ⟨e, rfl, Nat.not_lt.mp hlt⟩

theorem readAndCompare_exceeded {now : ℕ} {entry : Option ℕ} (h : readAndCompare now entry = .exceeded) :
    ∃ e, entry = some e ∧ now < e := by
  cases entry with
  | none => cases h
  | some e =>
    rw [readAndCompare] at h
    split_ifs at h with hlt
    exact ⟨e, rfl, hlt⟩

theorem step_cases (h : step endTime s event = some s') :
    (∃ time, event = .elapse time ∧ s' = { s with now := s.now + time }) ∨
    (∃ task registry, event = .check task registry ∧ s.phase task = .idle ∧ s' = s) ∨
    (∃ task registry e, event = .check task registry ∧ s.phase task = .idle ∧
      s.ratelimit registry = some e ∧ e ≤ s.now ∧ s' = s.goto task (.removing registry)) ∨
    (∃ task registry, event = .remove task registry ∧ s.phase task = .removing registry ∧
      s' = (s.put registry none).goto task .idle) ∨
    (∃ task registry status reset, event = .respond task registry status reset ∧ s.phase task = .idle ∧
      (s' = s ∨ s' = s.goto task (.inserting registry (endTime s.now reset)))) ∨
    (∃ task registry e, event = .insert task registry e ∧ s.phase task = .inserting registry e ∧
      s' = (s.put registry (some e)).goto task .idle) := by
  cases event with
  | elapse time => exact .inl ⟨time, rfl, (Option.some.inj h).symm⟩
  | check task registry =>
    simp only [step] at h
    split_ifs at h with hidle
    cases hread : readAndCompare s.now (s.ratelimit registry) with
    | expired =>
      rw [hread] at h
      obtain ⟨e, he, hle⟩ := readAndCompare_expired hread
      exact .inr (.inr (.inl ⟨task, registry, e, rfl, hidle, he, hle, (Option.some.inj h).symm⟩))
    | free | exceeded =>
      rw [hread] at h
      exact .inr (.inl ⟨task, registry, rfl, hidle, (Option.some.inj h).symm⟩)
  | remove task registry =>
    simp only [step] at h
    split_ifs at h with hphase
    exact .inr (.inr (.inr (.inl ⟨task, registry, rfl, hphase, (Option.some.inj h).symm⟩)))
  | respond task registry status reset =>
    simp only [step] at h
    split_ifs at h with hidle hlimited <;> cases h
    · exact .inr (.inr (.inr (.inr (.inl ⟨task, registry, status, reset, rfl, hidle, .inr rfl⟩))))
    · exact .inr (.inr (.inr (.inr (.inl ⟨task, registry, status, reset, rfl, hidle, .inl rfl⟩))))
  | insert task registry e =>
    simp only [step] at h
    split_ifs at h with hphase
    exact .inr (.inr (.inr (.inr (.inr ⟨task, registry, e, rfl, hphase, (Option.some.inj h).symm⟩))))

theorem now_le_of_step (h : step endTime s event = some s') : s.now ≤ s'.now := by
  rcases step_cases h with ⟨time, -, rfl⟩ | ⟨_, _, -, -, rfl⟩ | ⟨_, _, _, -, -, -, -, rfl⟩ |
    ⟨_, _, -, -, rfl⟩ | ⟨_, _, _, _, -, -, rfl | rfl⟩ | ⟨_, _, _, -, -, rfl⟩
  · exact Nat.le_add_right _ _
  all_goals exact le_rfl

theorem ratelimit_of_step (registry : Registry) (h : step endTime s event = some s') :
    s'.ratelimit registry = s.ratelimit registry ∧ ¬ event.Removes registry ∧ ¬ event.Inserts registry ∨
    event.Removes registry ∧ s'.ratelimit registry = none ∨
    ∃ task e, event = .insert task registry e ∧ s'.ratelimit registry = some e := by
  rcases step_cases h with ⟨_, rfl, rfl⟩ | ⟨_, _, rfl, -, rfl⟩ | ⟨_, _, _, rfl, -, -, -, rfl⟩ |
    ⟨task, r, rfl, -, rfl⟩ | ⟨_, _, _, _, rfl, -, rfl | rfl⟩ | ⟨task, r, e, rfl, -, rfl⟩
  case inr.inr.inr.inl =>
    by_cases hr : registry = r
    · subst hr
      exact .inr (.inl ⟨rfl, Function.update_self ..⟩)
    · exact .inl ⟨Function.update_of_ne hr .., fun h => hr h.symm, id⟩
  case inr.inr.inr.inr.inr =>
    by_cases hr : registry = r
    · subst hr
      exact .inr (.inr ⟨task, e, rfl, Function.update_self ..⟩)
    · exact .inl ⟨Function.update_of_ne hr .., id, fun h => hr h.symm⟩
  all_goals exact .inl ⟨rfl, id, id⟩

theorem ratelimit_of_insert {task : Task} {registry : Registry} {e : ℕ}
    (h : step endTime s (.insert task registry e) = some s') : s'.ratelimit registry = some e := by
  rcases ratelimit_of_step registry h with ⟨-, -, hno⟩ | ⟨hno, -⟩ | ⟨_, _, heq, hsome⟩
  · exact absurd rfl hno
  · exact absurd hno id
  · cases heq
    exact hsome

theorem ratelimit_of_remove {task : Task} {registry : Registry}
    (h : step endTime s (.remove task registry) = some s') :
    s.phase task = .removing registry ∧ s'.ratelimit registry = none := by
  rw [step] at h
  split_ifs at h with hphase
  cases h
  exact ⟨hphase, Function.update_self ..⟩

omit [DecidableEq Registry] in
/-- An event of a task leaves it in the phase that the event leads to, and the
other tasks where they are. -/
theorem phase_of_goto {u : State Task Registry} {t task : Task} {phase p : Phase Registry}
    (h : (u.goto t phase).phase task = p) :
    t = task ∧ phase = p ∨ u.phase task = p ∧ ¬ t = task := by
  by_cases ht : task = t
  · subst ht
    exact .inl ⟨rfl, by simpa [State.goto] using h⟩
  · simp only [State.goto, Function.update_of_ne ht] at h
    exact .inr ⟨h, fun heq => ht heq.symm⟩

omit [DecidableEq Registry] in
theorem phase_of_goto_ne {u : State Task Registry} {t task : Task} {phase p : Phase Registry}
    (h : (u.goto t phase).phase task = p) (hne : phase ≠ p) : u.phase task = p ∧ ¬ t = task :=
  (phase_of_goto h).resolve_left fun heq => hne heq.2

/-- A task comes to a removal through a check that has found the limit over,
and does nothing else until then. -/
theorem removing_of_step {task : Task} {registry : Registry} (h : step endTime s event = some s')
    (hphase : s'.phase task = .removing registry) :
    s.phase task = .removing registry ∧ ¬ event.By task ∨
      event = .check task registry ∧ ∃ e, s.ratelimit registry = some e ∧ e ≤ s.now := by
  have hidle {t : Task} (ht : s.phase t = .idle) (hs : s.phase task = .removing registry) : ¬ t = task := by
    rintro rfl
    rw [ht] at hs
    cases hs
  rcases step_cases h with ⟨_, rfl, rfl⟩ | ⟨_, _, rfl, hi, rfl⟩ | ⟨t, r, e, rfl, -, he, hle, rfl⟩ |
    ⟨t, r, rfl, -, rfl⟩ | ⟨_, _, _, _, rfl, hi, rfl | rfl⟩ | ⟨t, r, e, rfl, -, rfl⟩
  · exact .inl ⟨hphase, id⟩
  · exact .inl ⟨hphase, hidle hi hphase⟩
  · -- the check of a limit that is over is the one event that leads there
    rcases phase_of_goto hphase with ⟨rfl, hr⟩ | hother
    · cases hr
      exact .inr ⟨rfl, e, he, hle⟩
    · exact .inl hother
  · exact .inl (phase_of_goto_ne hphase (by simp))
  · exact .inl ⟨hphase, hidle hi hphase⟩
  · exact .inl (phase_of_goto_ne hphase (by simp))
  · exact .inl (phase_of_goto_ne hphase (by simp))

end Inversion

section Limits

variable {Task Registry : Type} [DecidableEq Task] [DecidableEq Registry]

/-- An end that has been inserted is there at every moment before it, until
another is inserted for the registry. -/
def Kept (endTime : ℕ → Option UInt64 → ℕ) (start : ℕ) (events : List (Event Task Registry)) : Prop :=
  ∀ front task registry e since rest s, events = front ++ .insert task registry e :: (since ++ rest) →
    (front ++ .insert task registry e :: since).foldlM (step endTime) (initial start) = some s →
    (∀ event ∈ since, ¬ event.Inserts registry) → s.now < e → s.ratelimit registry = some e

/-- Between a check that has found a limit over and the removal that follows
it, another task inserts an end that is still to come at the removal. -/
def Overtaken (endTime : ℕ → Option UInt64 → ℕ) (start : ℕ) (events : List (Event Task Registry)) : Prop :=
  ∃ front task registry before other e since rest s,
    events = front ++ .check task registry :: (before ++ .insert other registry e ::
      (since ++ .remove task registry :: rest)) ∧
    (∀ event ∈ before ++ .insert other registry e :: since, ¬ event.By task) ∧
    (∀ event ∈ since, ¬ event.Removes registry ∧ ¬ event.Inserts registry) ∧
    (front ++ .check task registry :: (before ++ .insert other registry e ::
      (since ++ [.remove task registry]))).foldlM (step endTime) (initial start) = some s ∧
    s.now < e

variable {endTime : ℕ → Option UInt64 → ℕ} {start : ℕ}

theorem now_le_of_run {events : List (Event Task Registry)} {s t : State Task Registry}
    (h : events.foldlM (step endTime) s = some t) : s.now ≤ t.now :=
  keeps_of_run (P := fun u => s.now ≤ u.now) (Q := fun _ => True)
    (fun _ _ _ _ hle hstep => hle.trans (now_le_of_step hstep)) (fun _ _ => trivial) le_rfl h

/-- A limit that is known has been inserted, and nothing has touched it since. -/
theorem inserted_of_known {events : List (Event Task Registry)} {s : State Task Registry}
    {registry : Registry} {e : ℕ} (hrun : events.foldlM (step endTime) (initial start) = some s)
    (hknown : s.ratelimit registry = some e) :
    ∃ front task since, events = front ++ .insert task registry e :: since ∧
      ∀ event ∈ since, ¬ event.Removes registry ∧ ¬ event.Inserts registry := by
  have hcause : ∀ (u : State Task Registry) event v, step endTime u event = some v →
      v.ratelimit registry = some e →
      u.ratelimit registry = some e ∧ (¬ event.Removes registry ∧ ¬ event.Inserts registry) ∨
        ∃ task, event = .insert task registry e := by
    intro u event v hstep hv
    rcases ratelimit_of_step registry hstep with ⟨hsame, hquiet⟩ | ⟨-, hnone⟩ | ⟨task, e', rfl, hsome⟩
    · exact .inl ⟨hsame ▸ hv, hquiet⟩
    · rw [hnone] at hv
      cases hv
    · cases hsome.symm.trans hv
      exact .inr ⟨task, rfl⟩
  obtain ⟨front, event, since, -, heq, -, ⟨task, rfl⟩, hsince⟩ :=
    last_cause hcause (by simp [initial]) hrun hknown
  exact ⟨front, task, since, heq, hsince⟩

theorem checked_of_removing {events : List (Event Task Registry)} {s : State Task Registry}
    {task : Task} {registry : Registry} (hrun : events.foldlM (step endTime) (initial start) = some s)
    (hphase : s.phase task = .removing registry) :
    ∃ front since u e, events = front ++ .check task registry :: since ∧
      front.foldlM (step endTime) (initial start) = some u ∧ u.ratelimit registry = some e ∧ e ≤ u.now ∧
      ∀ event ∈ since, ¬ event.By task := by
  obtain ⟨front, event, since, u, heq, hu, ⟨rfl, e, he, hle⟩, hsince⟩ :=
    last_cause (P := fun u : State Task Registry => u.phase task = .removing registry)
      (K := fun event => ¬ event.By task)
      (C := fun u event => event = .check task registry ∧ ∃ e, u.ratelimit registry = some e ∧ e ≤ u.now)
      (fun _ _ _ hstep => removing_of_step hstep) (by simp [initial]) hrun hphase
  exact ⟨front, since, u, e, heq, hu, he, hle, hsince⟩

theorem ratelimit_of_quiet {registry : Registry} {events : List (Event Task Registry)}
    {s t : State Task Registry} (hrun : events.foldlM (step endTime) s = some t)
    (hquiet : ∀ event ∈ events, ¬ event.Removes registry ∧ ¬ event.Inserts registry) :
    t.ratelimit registry = s.ratelimit registry := by
  refine keeps_of_run (P := fun u => u.ratelimit registry = s.ratelimit registry) ?_ hquiet rfl hrun
  rintro u event v ⟨hremoves, hinserts⟩ hu hstep
  rcases ratelimit_of_step registry hstep with ⟨hsame, -⟩ | ⟨hr, -⟩ | ⟨task, e, rfl, -⟩
  · exact hsame.trans hu
  · exact absurd hr hremoves
  · exact absurd rfl hinserts

/-- A removal that takes away a limit in force has been overtaken: the end was
inserted after the check, since the check had found the limit over. -/
theorem overtaken_of_remove (rest : List (Event Task Registry))
    {front : List (Event Task Registry)} {s t : State Task Registry}
    {task : Task} {registry : Registry} {e : ℕ}
    (hrun : front.foldlM (step endTime) (initial start) = some s)
    (hstep : step endTime s (.remove task registry) = some t)
    (hknown : s.ratelimit registry = some e) (hlt : t.now < e) :
    Overtaken endTime start (front ++ .remove task registry :: rest) := by
  have hphase := (ratelimit_of_remove hstep).1
  have hnow := now_le_of_step hstep
  obtain ⟨a, since, u, old, hcheck, hu, hold, hle, hby⟩ := checked_of_removing hrun hphase
  obtain ⟨b, other, quiet, hinsert, hquiet⟩ := inserted_of_known hrun hknown
  rcases first_of_two (by simp) (hcheck.symm.trans hinsert) with ⟨before, rfl, rfl⟩ | ⟨between, rfl, rfl⟩
  · refine ⟨a, task, registry, before, other, e, quiet, rest, t, ?_, hby, hquiet, ?_, hlt⟩
    · rw [hcheck]
      simp
    · have hwhole := foldlM_concat.mpr ⟨s, hrun, hstep⟩
      rw [hcheck] at hwhole
      simpa using hwhole
  · -- the check would have met the same end, which was still to come
    obtain ⟨v, hv, hbetween⟩ := foldlM_of_append (show
      ((b ++ [Event.insert other registry e]) ++ between).foldlM (step endTime) (initial start) = some u by
        simpa using hu)
    obtain ⟨w, -, hinserted⟩ := foldlM_concat.mp hv
    have hsame := ratelimit_of_quiet hbetween fun event he => hquiet event (List.mem_append_left _ he)
    obtain ⟨u', hu', hlater⟩ := foldlM_of_append (hcheck ▸ hrun)
    cases hu.symm.trans hu'
    have hmono := now_le_of_run hlater
    rw [hsame, ratelimit_of_insert hinserted] at hold
    cases hold
    omega

theorem kept_iff (endTime : ℕ → Option UInt64 → ℕ) (start : ℕ) (events : List (Event Task Registry)) :
    Kept endTime start events ↔ ¬ Overtaken endTime start events := by
  constructor
  · rintro hkept ⟨front, task, registry, before, other, e, since, rest, s, heq, -, hquiet, hrun, hlt⟩
    have hknown := hkept (front ++ .check task registry :: before) other registry e
      (since ++ [.remove task registry]) rest s (by simp [heq]) (by simpa using hrun) ?_ hlt
    · obtain ⟨u, -, hstep⟩ := foldlM_concat.mp (show
        ((front ++ Event.check task registry :: (before ++ Event.insert other registry e :: since)) ++
          [Event.remove task registry]).foldlM (step endTime) (initial start) = some s by simpa using hrun)
      rw [(ratelimit_of_remove hstep).2] at hknown
      cases hknown
    · intro event hevent
      rcases List.mem_append.mp hevent with hevent | hevent
      · exact (hquiet event hevent).2
      · rw [List.mem_singleton.mp hevent]
        exact id
  · intro hnot front task registry e since rest s heq hrun hsince hlt
    -- the end is there after every part of what has happened since
    induction since using List.reverseRecOn generalizing rest s with
    | nil =>
      obtain ⟨u, -, hstep⟩ := foldlM_concat.mp hrun
      exact ratelimit_of_insert hstep
    | append_singleton since last ih =>
      rw [← List.cons_append, ← List.append_assoc] at hrun
      obtain ⟨u, hu, hstep⟩ := foldlM_concat.mp hrun
      have hnow := now_le_of_step hstep
      have hknown := ih (last :: rest) u (by simpa using heq) hu
        (fun event he => hsince event (List.mem_append_left _ he)) (by omega)
      rcases ratelimit_of_step registry hstep with ⟨hsame, -⟩ | ⟨hremoves, -⟩ | ⟨other, e', rfl, -⟩
      · rw [hsame, hknown]
      · cases last with
        | remove other r =>
          cases hremoves
          refine absurd ?_ hnot
          rw [heq]
          simpa using overtaken_of_remove rest hu hstep hknown hlt
        | elapse | check | respond | insert => cases hremoves
      · exact (hsince _ (List.mem_append_right _ List.mem_cons_self) rfl).elim

/-- In both clients a limit is dropped before its end exactly where a removal
has been overtaken. -/
theorem active_limit_kept_iff (latest start : ℕ) :
    (∀ events : List (Event Task (List Char)),
      Kept (registryEnd latest) start events ↔ ¬ Overtaken (registryEnd latest) start events) ∧
    ∀ events : List (Event Task Unit),
      Kept (githubEnd latest) start events ↔ ¬ Overtaken (githubEnd latest) start events :=
  ⟨kept_iff _ _, kept_iff _ _⟩

/-- Two tasks find a limit over. One removes it, is told of a new limit and
inserts its end; then the other removes that. -/
def race (registry : Registry) : List (Event Bool Registry) :=
  [.respond false registry 429 none, .insert false registry (60 * second), .elapse (61 * second),
    .check false registry, .check true registry, .remove true registry,
    .respond true registry 429 none, .insert true registry (121 * second), .remove false registry]

theorem race_run (registry : Registry) (h₁ : endTime 0 none = 60 * second)
    (h₂ : endTime (61 * second) none = 121 * second) :
    ∃ s, (race registry).foldlM (step endTime) (initial 0) = some s ∧ s.now < 121 * second ∧
      s.ratelimit registry = none := by
  have h₂' : endTime 61000000000 none = 121000000000 := h₂
  simp [race, step, initial, State.goto, State.put, Limited, readAndCompare, h₁, h₂', second]

theorem race_not_kept (registry : Registry) (h₁ : endTime 0 none = 60 * second)
    (h₂ : endTime (61 * second) none = 121 * second) : ¬ Kept endTime 0 (race registry) := by
  intro hkept
  obtain ⟨s, hrun, hnow, hnone⟩ := race_run registry h₁ h₂
  have hknown := hkept ((race registry).take 7) true registry (121 * second) [.remove false registry] [] s
    rfl hrun (by simp [Event.Inserts]) hnow
  rw [hnone] at hknown
  cases hknown

theorem active_limit_dropped :
    ¬ Kept (registryEnd 8000000000000) 0 (race "ghcr.io".toList) ∧
      ¬ Kept (githubEnd 8000000000000) 0 (race ()) :=
  ⟨race_not_kept _ rfl rfl, race_not_kept _ rfl rfl⟩

end Limits

end ProgramExplorer.Ratelimits
