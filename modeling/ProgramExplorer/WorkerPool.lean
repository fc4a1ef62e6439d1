import ProgramExplorer.Transitions

/-!
# The pool of worker threads

The threads share one bounded queue. A job comes with the sending half of a
one-shot channel, whose receiver the requester may drop at any time. A thread
that cannot hand over a result leaves its loop and is not replaced, so every
job that finishes after its requester has gone costs the pool one thread.
-/

set_option autoImplicit false

namespace ProgramExplorer.WorkerPool
open Transitions

inductive Worker where
  | idle
  | running (job : ℕ)
  | exited
  deriving DecidableEq

structure Pool where
  capacity : ℕ
  queue : List ℕ
  workers : List Worker
  accepted : ℕ
  finished : List ℕ
  dropped : List ℕ
  deriving DecidableEq

def new (cores : ℕ) : Pool where
  capacity := cores * 2
  queue := []
  workers := List.replicate cores .idle
  accepted := 0
  finished := []
  dropped := []

def Worker.serves : Worker → Bool
  | .exited => false
  | .idle | .running _ => true

def serving (workers : List Worker) : ℕ := workers.countP Worker.serves

def Pool.live (p : Pool) : ℕ := serving p.workers

inductive Event where
  | submit
  | take (worker : ℕ)
  | complete (worker : ℕ)
  | dropReceiver (job : ℕ)
  deriving DecidableEq

/-- `try_send`: refused when the queue is full, and when no thread holds the
receiving half any more. -/
def Pool.trySend (p : Pool) : Pool :=
  if p.queue.length < p.capacity ∧ 0 < p.live then
    { p with queue := p.queue ++ [p.accepted], accepted := p.accepted + 1 }
  else p

/-- The pool holds the sending half of the queue, so what is queued stays there
even when the last thread has gone. -/
def Pool.exit (p : Pool) (worker : ℕ) : Pool := { p with workers := p.workers.set worker .exited }

def Pool.sendOutput (p : Pool) (worker job : ℕ) : Pool :=
  let p := { p with finished := job :: p.finished }
  if job ∈ p.dropped then p.exit worker else { p with workers := p.workers.set worker .idle }

def step (p : Pool) : Event → Option Pool
  | .submit => some p.trySend
  | .take worker =>
    match p.workers[worker]?, p.queue with
    | some .idle, job :: rest => some { p with queue := rest, workers := p.workers.set worker (.running job) }
    | _, _ => none
  | .complete worker =>
    match p.workers[worker]? with
    | some (.running job) => some (p.sendOutput worker job)
    | _ => none
  | .dropReceiver job => if job < p.accepted then some { p with dropped := job :: p.dropped } else none

inductive Moves (p : Pool) : Event → Pool → Prop where
  | submits : Moves p .submit p.trySend
  | takes {worker job : ℕ} {rest : List ℕ} (hworker : p.workers[worker]? = some .idle)
      (hqueue : p.queue = job :: rest) :
    Moves p (.take worker) { p with queue := rest, workers := p.workers.set worker (.running job) }
  | completes {worker job : ℕ} (hworker : p.workers[worker]? = some (.running job)) :
    Moves p (.complete worker) (p.sendOutput worker job)
  | drops {job : ℕ} (hjob : job < p.accepted) :
    Moves p (.dropReceiver job) { p with dropped := job :: p.dropped }

theorem moves_of_step {p p' : Pool} {event : Event} (h : step p event = some p') : Moves p event p' := by
  cases event with
  | submit =>
    cases h
    exact .submits
  | take worker =>
    simp only [step] at h
    split at h
    · next hworker hqueue =>
      cases h
      exact .takes hworker hqueue
    · cases h
  | complete worker =>
    simp only [step] at h
    split at h
    · next hworker =>
      cases h
      exact .completes hworker
    · cases h
  | dropReceiver job =>
    obtain ⟨hjob, h⟩ := Option.ite_none_right_eq_some.mp h
    cases h
    exact .drops hjob

theorem sendOutput_frame (p : Pool) (worker job : ℕ) :
    (p.sendOutput worker job).capacity = p.capacity ∧ (p.sendOutput worker job).accepted = p.accepted ∧
      (p.sendOutput worker job).dropped = p.dropped ∧ (p.sendOutput worker job).queue = p.queue := by
  unfold Pool.sendOutput Pool.exit
  simp only
  split_ifs <;> exact ⟨rfl, rfl, rfl, rfl⟩

def Abandoned (p : Pool) (event : Event) : Prop :=
  ∃ worker job, event = .complete worker ∧ p.workers[worker]? = some (.running job) ∧ job ∈ p.dropped

def abandons (p : Pool) : Event → Bool
  | .complete worker =>
    match p.workers[worker]? with
    | some (.running job) => job ∈ p.dropped
    | _ => false
  | _ => false

theorem abandons_iff (p : Pool) (event : Event) : abandons p event = true ↔ Abandoned p event := by
  constructor
  · intro h
    cases event with
    | complete worker =>
      simp only [abandons] at h
      split at h
      · next job hworker => exact ⟨worker, job, rfl, hworker, by simpa using h⟩
      · cases h
    | submit | take _ | dropReceiver _ => cases h
  · rintro ⟨worker, job, rfl, hworker, hdropped⟩
    simp [abandons, hworker, hdropped]

instance (p : Pool) (event : Event) : Decidable (Abandoned p event) :=
  decidable_of_iff _ (abandons_iff p event)

section Counting

variable {workers : List Worker} {i : ℕ} {w : Worker}

theorem serving_pos (hw : workers[i]? = some w) (hserves : w.serves) : 0 < serving workers :=
  List.countP_pos_iff.mpr ⟨w, List.mem_of_getElem? hw, hserves⟩

theorem serving_set (hw : workers[i]? = some w) (hserves : w.serves) (w' : Worker) :
    serving (workers.set i w') + 1 = serving workers + if w'.serves then 1 else 0 := by
  obtain ⟨hlt, hget⟩ := List.getElem?_eq_some_iff.mp hw
  have hpos := serving_pos hw hserves
  unfold serving at hpos ⊢
  rw [List.countP_set hlt, hget, if_pos hserves]
  omega

theorem live_exit {p : Pool} {worker job : ℕ} (hw : p.workers[worker]? = some (.running job)) :
    (p.exit worker).live + 1 = p.live := serving_set hw rfl .exited

theorem live_step {p p' : Pool} {event : Event} (h : step p event = some p') :
    (Abandoned p event ∧ p'.live + 1 = p.live) ∨ (¬ Abandoned p event ∧ p'.live = p.live) := by
  cases moves_of_step h with
  | submits =>
    refine Or.inr ⟨fun ⟨_, _, he, _⟩ => (nomatch he), ?_⟩
    unfold Pool.trySend
    split_ifs <;> rfl
  | takes hworker _ =>
    refine Or.inr ⟨fun ⟨_, _, he, _⟩ => (nomatch he), ?_⟩
    exact Nat.succ.inj (serving_set hworker rfl _)
  | @completes worker job hworker =>
    by_cases hdropped : job ∈ p.dropped
    · refine Or.inl ⟨⟨worker, job, rfl, hworker, hdropped⟩, ?_⟩
      rw [Pool.sendOutput, if_pos hdropped]
      exact live_exit hworker
    · refine Or.inr ⟨?_, ?_⟩
      · rintro ⟨worker', job', he, hworker', hjob'⟩
        cases he
        cases hworker.symm.trans hworker'
        exact hdropped hjob'
      · rw [Pool.sendOutput, if_neg hdropped]
        exact Nat.succ.inj (serving_set hworker rfl _)
  | drops _ => exact Or.inr ⟨fun ⟨_, _, he, _⟩ => (nomatch he), rfl⟩

theorem accepted_step {p p' : Pool} {event : Event} (h : step p event = some p') :
    p'.accepted = p.accepted ∨ 0 < p.live := by
  cases moves_of_step h with
  | submits =>
    unfold Pool.trySend
    split_ifs with hroom
    · exact Or.inr hroom.2
    · exact Or.inl rfl
  | takes _ _ => exact Or.inl rfl
  | completes _ => exact Or.inl (sendOutput_frame _ _ _).2.1
  | drops _ => exact Or.inl rfl

@[simp] theorem live_new (cores : ℕ) : (new cores).live = cores := by
  simp [Pool.live, serving, new, List.countP_replicate, Worker.serves]

end Counting

section Runs

/-- Every thread is there, and no job waits for one that will never come. -/
def Full (cores : ℕ) (p : Pool) : Prop :=
  p.live = cores ∧ ∀ job < p.accepted, job ∉ p.finished → 0 < p.live

/-- The pool stays full in exactly those runs in which no job is finished for
a requester that has gone. -/
theorem pool_keeps_workers_iff (cores : ℕ) (events : List Event) (p : Pool)
    (hrun : events.foldlM step (new cores) = some p) :
    Throughout step (new cores) events (Full cores) ↔
      AtEvents step (new cores) events fun q event => ¬ Abandoned q event := by
  constructor
  · refine atEvents_of_throughout hrun ?_
    intro q event q' hq hstep hq' habandoned
    rcases live_step hstep with ⟨-, hlive⟩ | ⟨hnot, -⟩
    · rw [hq.1, hq'.1] at hlive
      omega
    · exact hnot habandoned
  · intro hkept
    have hinv : Throughout step (new cores) events fun q => q.live = cores ∧
        (0 < q.accepted → 0 < cores) := by
      refine throughout_of_atEvents ⟨live_new cores, fun h => absurd h (by simp [new])⟩ ?_ hkept
      rintro q event q' ⟨hlive, haccepted⟩ hnot hstep
      have hlive' : q'.live = q.live := ((live_step hstep).resolve_left fun h => hnot h.1).2
      refine ⟨hlive'.trans hlive, fun hpos => ?_⟩
      rcases accepted_step hstep with hsame | hthere
      · exact haccepted (hsame ▸ hpos)
      · exact hlive ▸ hthere
    intro front back q heq hq
    obtain ⟨hlive, haccepted⟩ := hinv front back q heq hq
    refine ⟨hlive, fun job hjob _ => ?_⟩
    rw [hlive]
    exact haccepted (by omega)

/-- Two jobs on one thread; the requester of the first leaves when it has been answered. -/
theorem pool_keeps_workers_two_jobs :
    Throughout step (new 1) [.submit, .submit, .take 0, .complete 0, .dropReceiver 0, .take 0] (Full 1) := by
  refine (pool_keeps_workers_iff 1 _ ⟨2, [], [.running 1], 2, [0], [0]⟩ (by decide)).mpr ?_
  decide

/-- The requester of the first job leaves, and the second job is accepted and
never run. -/
theorem pool_loses_its_thread :
    ∃ p, [Event.submit, .submit, .take 0, .dropReceiver 0, .complete 0].foldlM step (new 1) = some p ∧
      p.live = 0 ∧ 1 < p.accepted ∧ 1 ∉ p.finished :=
  ⟨⟨2, [1], [.exited], 2, [0], [0]⟩, by decide⟩

end Runs

section Jobs

open scoped List

def Worker.job? : Worker → Option ℕ
  | .running job => some job
  | .idle | .exited => none

def running (workers : List Worker) : List ℕ := workers.filterMap Worker.job?

theorem running_set {workers : List Worker} {i : ℕ} {w : Worker} (hw : workers[i]? = some w) (w' : Worker) :
    (w.job?.toList ++ running (workers.set i w')).Perm (w'.job?.toList ++ running workers) := by
  induction workers generalizing i with
  | nil => simp at hw
  | cons head tail ih =>
    have hcons : ∀ (v : Worker) (vs : List Worker), running (v :: vs) = v.job?.toList ++ running vs := by
      intro v vs
      cases v <;> rfl
    cases i with
    | zero =>
      cases hw
      rw [List.set_cons_zero, hcons, hcons]
      exact List.perm_append_comm_assoc _ _ _
    | succ i =>
      rw [List.set_cons_succ, hcons, hcons]
      calc w.job?.toList ++ (head.job?.toList ++ running (tail.set i w'))
          ~ head.job?.toList ++ (w.job?.toList ++ running (tail.set i w')) :=
            List.perm_append_comm_assoc _ _ _
        _ ~ head.job?.toList ++ (w'.job?.toList ++ running tail) := (ih hw).append_left _
        _ ~ w'.job?.toList ++ (head.job?.toList ++ running tail) := List.perm_append_comm_assoc _ _ _

/-- The jobs in the order in which they were accepted: those a thread has
taken, then those still queued. -/
def Placed (p : Pool) : Prop :=
  ∃ taken, taken ++ p.queue = List.range p.accepted ∧ taken.Perm (running p.workers ++ p.finished)

theorem placed_new (cores : ℕ) : Placed (new cores) := by
  refine ⟨[], rfl, ?_⟩
  have hidle : running (List.replicate cores .idle) = [] := by
    simp [running, Worker.job?]
  simp [new, hidle]

theorem placed_trySend {p : Pool} (h : Placed p) : Placed p.trySend := by
  unfold Pool.trySend
  split_ifs
  · obtain ⟨taken, horder, htaken⟩ := h
    refine ⟨taken, ?_, htaken⟩
    rw [List.range_succ, ← horder]
    simp
  · exact h

theorem placed_take {p : Pool} {worker job : ℕ} {rest : List ℕ} (hworker : p.workers[worker]? = some .idle)
    (hqueue : p.queue = job :: rest) (h : Placed p) :
    Placed { p with queue := rest, workers := p.workers.set worker (.running job) } := by
  obtain ⟨taken, horder, htaken⟩ := h
  refine ⟨taken ++ [job], ?_, ?_⟩
  · rw [← horder, hqueue]
    simp
  · have hrunning : (running (p.workers.set worker (.running job))).Perm (job :: running p.workers) :=
      running_set hworker (.running job)
    calc taken ++ [job] ~ job :: taken := List.perm_append_singleton job taken
      _ ~ job :: running p.workers ++ p.finished := htaken.cons job
      _ ~ running (p.workers.set worker (.running job)) ++ p.finished := hrunning.symm.append_right _

/-- The job goes from the thread to the finished ones, whether the thread stays or
leaves. -/
theorem placed_sendOutput {p : Pool} {worker job : ℕ} (hworker : p.workers[worker]? = some (.running job))
    (h : Placed p) : Placed (p.sendOutput worker job) := by
  obtain ⟨taken, horder, htaken⟩ := h
  have hkept : ∀ w : Worker, w.job? = none →
      taken.Perm (running (p.workers.set worker w) ++ job :: p.finished) := by
    intro w hw
    have hrunning := running_set hworker w
    rw [hw] at hrunning
    calc taken ~ running p.workers ++ p.finished := htaken
      _ ~ job :: running (p.workers.set worker w) ++ p.finished := hrunning.symm.append_right _
      _ ~ running (p.workers.set worker w) ++ job :: p.finished := List.perm_middle.symm
  unfold Pool.sendOutput Pool.exit
  simp only
  split_ifs
  · exact ⟨taken, horder, hkept .exited rfl⟩
  · exact ⟨taken, horder, hkept .idle rfl⟩

theorem placed_step {p p' : Pool} {event : Event} (h : Placed p) (hstep : step p event = some p') :
    Placed p' := by
  cases moves_of_step hstep with
  | submits => exact placed_trySend h
  | takes hworker hqueue => exact placed_take hworker hqueue h
  | completes hworker => exact placed_sendOutput hworker h
  | drops _ => exact h

/-- Accepted jobs are taken in the order in which they came, each by one thread
and once, and none is lost. -/
theorem jobs_run_once (cores : ℕ) (events : List Event) (p : Pool)
    (hrun : events.foldlM step (new cores) = some p) : Placed p :=
  keeps_of_run (Q := fun _ => True) (fun _ _ _ _ h hstep => placed_step h hstep) (fun _ _ => trivial)
    (placed_new cores) hrun

/-- The second job's requester leaves while it runs, and the third waits for the other thread. -/
theorem three_jobs_run_once : Placed ⟨4, [2], [.running 0, .exited], 3, [1], [1]⟩ :=
  jobs_run_once 2 [.submit, .submit, .submit, .take 0, .take 1, .dropReceiver 1, .complete 1]
    ⟨4, [2], [.running 0, .exited], 3, [1], [1]⟩ (by decide)

end Jobs

end ProgramExplorer.WorkerPool
