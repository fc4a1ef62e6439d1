import ProgramExplorer.Transitions

/-!
# Jobs and the processes of their virtual machines

A job starts a hypervisor process, waits for it on a pidfd with a time limit,
kills it if it is late, and sends one more signal by pid before it returns. The
standard library does not know that the process has been waited for behind its
back, so that last signal goes to whatever process has the pid by then. Jobs,
processes of other programs and the kernel, which hands out free pids, take
their steps in any order.
-/

set_option autoImplicit false

namespace ProgramExplorer.VmProcesses
open Transitions

section Model

structure SiginfoT where
  siCode : ℤ
  siStatus : ℤ
  deriving DecidableEq

inductive Siginfo where
  | exited (status : ℤ)
  | killed (status : ℤ)
  | dumped (status : ℤ)
  | trapped (status : ℤ)
  | stopped (status : ℤ)
  | continued (status : ℤ)
  | unk
  deriving DecidableEq

def Siginfo.ofRaw (x : SiginfoT) : Siginfo :=
  if x.siCode = 1 then .exited x.siStatus
  else if x.siCode = 2 then .killed x.siStatus
  else if x.siCode = 3 then .dumped x.siStatus
  else if x.siCode = 4 then .trapped x.siStatus
  else if x.siCode = 5 then .stopped x.siStatus
  else if x.siCode = 6 then .continued x.siStatus
  else .unk

/-- A process runs, perhaps with a `SIGKILL` on its way, and stays in the table
after its end until its parent has waited for it. -/
inductive Status where
  | running (sigkill : Bool)
  | zombie (info : SiginfoT)
  deriving DecidableEq

/-- Processes are numbered in the order in which they start; `parent` is the
job that started it, if one did. -/
structure Process where
  number : ℕ
  parent : Option ℕ
  status : Status
  deriving DecidableEq

/-- A process by its pid and its number. A `Child` has the pid only, a pidfd
stands for the process itself. -/
structure Handle where
  pid : ℕ
  number : ℕ
  deriving DecidableEq

inductive Error where
  | spawn
  | wait
  | badExit
  | overtime
  deriving DecidableEq

inductive Result where
  | ok
  | error (e : Error)
  deriving DecidableEq

/-- In `wait_timeout_or_kill`: before the poll, between a poll with an event
and `waitid` with `WNOHANG`, before the kill, and in the last `waitid`. -/
inductive Stage where
  | polling
  | ready
  | late
  | killed
  deriving DecidableEq

/-- Where `run` is: the process is there and has no pidfd yet; it is waited
for; the signal of `postmortem` or `into_logs` is next; `run` has returned. -/
inductive Phase where
  | idle
  | spawned (child : Handle)
  | waiting (child pidfd : Handle) (stage : Stage)
  | closing (child : Handle) (result : Result)
  | ended (child : Option Handle) (result : Result)
  deriving DecidableEq

inductive Event where
  | spawn (job pid : ℕ)
  | spawnFails (job : ℕ)
  | openPidfd (job : ℕ)
  | ready (job : ℕ)
  | timeout (job : ℕ)
  | waitNohang (job : ℕ)
  | kill (job : ℕ)
  | waitHang (job : ℕ)
  | callFails (job : ℕ)
  | childKill (job : ℕ)
  | fork (pid : ℕ)
  | die (pid : ℕ) (info : SiginfoT)
  | reap (pid : ℕ)
  deriving DecidableEq

structure State where
  next : ℕ
  table : ℕ → Option Process
  reaped : ℕ → Option SiginfoT
  jobs : ℕ → Phase

def init : State where
  next := 0
  table _ := none
  reaped _ := none
  jobs _ := .idle

def State.setJob (s : State) (job : ℕ) (phase : Phase) : State :=
  { s with jobs := Function.update s.jobs job phase }

def State.setProcess (s : State) (pid : ℕ) (p : Option Process) : State :=
  { s with table := Function.update s.table pid p }

def State.startProcess (s : State) (pid : ℕ) (parent : Option ℕ) : State :=
  { s.setProcess pid (some ⟨s.next, parent, .running false⟩) with next := s.next + 1 }

def State.process? (s : State) (pidfd : Handle) : Option Process :=
  (s.table pidfd.pid).filter fun p => p.number = pidfd.number

def Status.signalled : Status → Status
  | .running _ => .running true
  | .zombie info => .zombie info

def State.signal (s : State) (pid : ℕ) : State :=
  s.setProcess pid ((s.table pid).map fun p => { p with status := p.status.signalled })

/-- A process that has been waited for leaves the table and its pid is free. -/
def State.reapProcess (s : State) (pidfd : Handle) (info : SiginfoT) : State :=
  { s.setProcess pidfd.pid none with reaped := Function.update s.reaped pidfd.number (some info) }

def inTime (info : SiginfoT) : Result :=
  if Siginfo.ofRaw info = .exited 0 then .ok else .error .badExit

/-- An event that a job takes in its phase. `callFails` stands for every system
call that may fail although its arguments are good: a pidfd or a poll that
cannot be set up, a poll or a `waitid` that is interrupted. -/
def jobStep (s : State) (job : ℕ) (event : Event) : Phase → Option State
  | .idle =>
    match event with
    | .spawn _ pid =>
      if s.table pid = none then
        some ((s.startProcess pid (some job)).setJob job (.spawned ⟨pid, s.next⟩))
      else none
    | .spawnFails _ => some (s.setJob job (.ended none (.error .spawn)))
    | _ => none
  | .spawned child =>
    match event with
    | .openPidfd _ =>
      match s.table child.pid with
      | some p => some (s.setJob job (.waiting child ⟨child.pid, p.number⟩ .polling))
      | none => some (s.setJob job (.closing child (.error .wait)))
    | .callFails _ => some (s.setJob job (.closing child (.error .wait)))
    | _ => none
  | .waiting child pidfd .polling =>
    match event with
    | .ready _ =>
      match s.process? pidfd with
      | some ⟨_, _, .running _⟩ => none
      | some ⟨_, _, .zombie _⟩ | none => some (s.setJob job (.waiting child pidfd .ready))
    | .timeout _ => some (s.setJob job (.waiting child pidfd .late))
    | .callFails _ => some (s.setJob job (.closing child (.error .wait)))
    | _ => none
  | .waiting child pidfd .ready =>
    match event with
    | .waitNohang _ =>
      match s.process? pidfd with
      | some ⟨_, _, .zombie info⟩ =>
        some ((s.reapProcess pidfd info).setJob job (.closing child (inTime info)))
      | some ⟨_, _, .running _⟩ => some (s.setJob job (.waiting child pidfd .late))
      | none => some (s.setJob job (.closing child (.error .wait)))
    | .callFails _ => some (s.setJob job (.closing child (.error .wait)))
    | _ => none
  | .waiting child pidfd .late =>
    match event with
    | .kill _ =>
      match s.process? pidfd with
      | some _ => some ((s.signal pidfd.pid).setJob job (.waiting child pidfd .killed))
      | none => some (s.setJob job (.closing child (.error .wait)))
    | _ => none
  | .waiting child pidfd .killed =>
    match event with
    | .waitHang _ =>
      match s.process? pidfd with
      | some ⟨_, _, .zombie info⟩ =>
        some ((s.reapProcess pidfd info).setJob job (.closing child (.error .overtime)))
      | some ⟨_, _, .running _⟩ => none
      | none => some (s.setJob job (.closing child (.error .wait)))
    | .callFails _ => some (s.setJob job (.closing child (.error .wait)))
    | _ => none
  | .closing child result =>
    match event with
    | .childKill _ => some ((s.signal child.pid).setJob job (.ended (some child) result))
    | _ => none
  | .ended _ _ => none

def Event.job? : Event → Option ℕ
  | .spawn job _ | .spawnFails job | .openPidfd job | .ready job | .timeout job | .waitNohang job
  | .kill job | .waitHang job | .callFails job | .childKill job => some job
  | .fork _ | .die _ _ | .reap _ => none

/-- What happens outside the jobs: another program starts a process, a process
ends, another program waits for one of its own. -/
def outsideStep (s : State) : Event → Option State
  | .fork pid => if s.table pid = none then some (s.startProcess pid none) else none
  | .die pid info =>
    match s.table pid with
    | some ⟨number, parent, .running _⟩ => some (s.setProcess pid (some ⟨number, parent, .zombie info⟩))
    | some ⟨_, _, .zombie _⟩ | none => none
  | .reap pid =>
    match s.table pid with
    | some ⟨number, none, .zombie info⟩ => some (s.reapProcess ⟨pid, number⟩ info)
    | _ => none
  | _ => none

def step (s : State) (event : Event) : Option State :=
  match event.job? with
  | some job => jobStep s job event (s.jobs job)
  | none => outsideStep s event

end Model

section Moves

def Phase.pending? : Phase → Option Handle
  | .spawned child | .waiting child _ _ => some child
  | .idle | .closing _ _ | .ended _ _ => none

inductive Moves (s : State) : Event → State → Prop where
  | spawns {job pid : ℕ} (hjob : s.jobs job = .idle) (hfree : s.table pid = none) :
    Moves s (.spawn job pid) ((s.startProcess pid (some job)).setJob job (.spawned ⟨pid, s.next⟩))
  | spawnFails {job : ℕ} (hjob : s.jobs job = .idle) :
    Moves s (.spawnFails job) (s.setJob job (.ended none (.error .spawn)))
  | opens {job : ℕ} {child : Handle} {p : Process} (hjob : s.jobs job = .spawned child)
      (hp : s.table child.pid = some p) :
    Moves s (.openPidfd job) (s.setJob job (.waiting child ⟨child.pid, p.number⟩ .polling))
  | readies {job : ℕ} {child pidfd : Handle} (hjob : s.jobs job = .waiting child pidfd .polling)
      (hp : ∀ p, s.process? pidfd = some p → ∃ info, p.status = .zombie info) :
    Moves s (.ready job) (s.setJob job (.waiting child pidfd .ready))
  | expires {job : ℕ} {child pidfd : Handle} (hjob : s.jobs job = .waiting child pidfd .polling) :
    Moves s (.timeout job) (s.setJob job (.waiting child pidfd .late))
  | reapsInTime {job : ℕ} {child pidfd : Handle} {p : Process} {info : SiginfoT}
      (hjob : s.jobs job = .waiting child pidfd .ready) (hp : s.process? pidfd = some p)
      (hinfo : p.status = .zombie info) :
    Moves s (.waitNohang job) ((s.reapProcess pidfd info).setJob job (.closing child (inTime info)))
  | notExited {job : ℕ} {child pidfd : Handle} {p : Process} {b : Bool}
      (hjob : s.jobs job = .waiting child pidfd .ready) (hp : s.process? pidfd = some p)
      (hrunning : p.status = .running b) :
    Moves s (.waitNohang job) (s.setJob job (.waiting child pidfd .late))
  | kills {job : ℕ} {child pidfd : Handle} {p : Process} (hjob : s.jobs job = .waiting child pidfd .late)
      (hp : s.process? pidfd = some p) :
    Moves s (.kill job) ((s.signal pidfd.pid).setJob job (.waiting child pidfd .killed))
  | reapsLate {job : ℕ} {child pidfd : Handle} {p : Process} {info : SiginfoT}
      (hjob : s.jobs job = .waiting child pidfd .killed) (hp : s.process? pidfd = some p)
      (hinfo : p.status = .zombie info) :
    Moves s (.waitHang job) ((s.reapProcess pidfd info).setJob job (.closing child (.error .overtime)))
  | givesUp {event : Event} {job : ℕ} {child : Handle} (hevent : event.job? = some job)
      (htimeout : event ≠ .timeout job) (hjob : (s.jobs job).pending? = some child) :
    Moves s event (s.setJob job (.closing child (.error .wait)))
  | closes {job : ℕ} {child : Handle} {result : Result} (hjob : s.jobs job = .closing child result) :
    Moves s (.childKill job) ((s.signal child.pid).setJob job (.ended (some child) result))
  | forks {pid : ℕ} (hfree : s.table pid = none) : Moves s (.fork pid) (s.startProcess pid none)
  | dies {pid : ℕ} {p : Process} {b : Bool} {info : SiginfoT} (hp : s.table pid = some p)
      (hrunning : p.status = .running b) :
    Moves s (.die pid info) (s.setProcess pid (some { p with status := .zombie info }))
  | reapsOther {pid : ℕ} {p : Process} {info : SiginfoT} (hp : s.table pid = some p)
      (hparent : p.parent = none)
      (hinfo : p.status = .zombie info) : Moves s (.reap pid) (s.reapProcess ⟨pid, p.number⟩ info)

variable {s t : State} {event : Event} {job : ℕ}

theorem moves_of_jobStep (hevent : event.job? = some job) (h : jobStep s job event (s.jobs job) = some t) :
    Moves s event t := by
  cases hjob : s.jobs job with
  | idle =>
    rw [hjob] at h
    cases event <;> cases hevent <;> simp only [jobStep, reduceCtorEq] at h
    · obtain ⟨hfree, h⟩ := Option.ite_none_right_eq_some.mp h
      cases h
      exact .spawns hjob hfree
    · cases h
      exact .spawnFails hjob
  | spawned child =>
    have hpending : (s.jobs job).pending? = some child := by rw [hjob]; rfl
    rw [hjob] at h
    cases event <;> cases hevent <;> simp only [jobStep, reduceCtorEq] at h
    · split at h
      · next hp =>
        cases h
        exact .opens hjob hp
      · cases h
        exact .givesUp rfl (by simp) hpending
    · cases h
      exact .givesUp rfl (by simp) hpending
  | waiting child pidfd stage =>
    have hpending : (s.jobs job).pending? = some child := by rw [hjob]; rfl
    rw [hjob] at h
    cases stage with
    | polling =>
      cases event <;> cases hevent <;> simp only [jobStep, reduceCtorEq] at h
      · split at h
        · cases h
        · next hp =>
          cases h
          refine .readies hjob fun p hp' => ?_
          rw [hp] at hp'
          cases hp'
          exact ⟨_, rfl⟩
        · next hp =>
          cases h
          refine .readies hjob fun p hp' => ?_
          rw [hp] at hp'
          cases hp'
      · cases h
        exact .expires hjob
      · cases h
        exact .givesUp rfl (by simp) hpending
    | ready =>
      cases event <;> cases hevent <;> simp only [jobStep, reduceCtorEq] at h
      · split at h
        · next hp =>
          cases h
          exact .reapsInTime hjob hp rfl
        · next hp =>
          cases h
          exact .notExited hjob hp rfl
        · cases h
          exact .givesUp rfl (by simp) hpending
      · cases h
        exact .givesUp rfl (by simp) hpending
    | late =>
      cases event <;> cases hevent <;> simp only [jobStep, reduceCtorEq] at h
      split at h
      · next hp =>
        cases h
        exact .kills hjob hp
      · cases h
        exact .givesUp rfl (by simp) hpending
    | killed =>
      cases event <;> cases hevent <;> simp only [jobStep, reduceCtorEq] at h
      · split at h
        · next hp =>
          cases h
          exact .reapsLate hjob hp rfl
        · cases h
        · cases h
          exact .givesUp rfl (by simp) hpending
      · cases h
        exact .givesUp rfl (by simp) hpending
  | closing child result =>
    rw [hjob] at h
    cases event <;> cases hevent <;> simp only [jobStep, reduceCtorEq] at h
    cases h
    exact .closes hjob
  | ended child result =>
    rw [hjob] at h
    cases h

theorem moves_of_step (h : step s event = some t) : Moves s event t := by
  unfold step at h
  split at h
  · next job hevent => exact moves_of_jobStep hevent h
  · next hevent =>
    cases event with
    | fork pid =>
      obtain ⟨hfree, h⟩ := Option.ite_none_right_eq_some.mp h
      cases h
      exact .forks hfree
    | die pid info =>
      simp only [outsideStep] at h
      split at h
      · next hp =>
        cases h
        exact .dies hp rfl
      · cases h
      · cases h
    | reap pid =>
      simp only [outsideStep] at h
      split at h
      · next hp =>
        cases h
        exact .reapsOther hp rfl rfl
      · cases h
    | _ => cases hevent

end Moves

section Table

variable {s : State} {pid : ℕ} {p q : Process} {info : SiginfoT}

theorem process?_eq_some {pidfd : Handle} :
    s.process? pidfd = some p ↔ s.table pidfd.pid = some p ∧ p.number = pidfd.number := by
  simp [State.process?, Option.filter_eq_some_iff]

/-- A number belongs to one process, which is in the table or has been waited
for or has not started. -/
structure Numbered (s : State) : Prop where
  lt : ∀ {pid p}, s.table pid = some p → p.number < s.next
  one : ∀ {pid pid' p p'}, s.table pid = some p → s.table pid' = some p' → p.number = p'.number → pid = pid'
  unreaped : ∀ {pid p}, s.table pid = some p → s.reaped p.number = none
  reaped_lt : ∀ {n info}, s.reaped n = some info → n < s.next

theorem numbered_init : Numbered init where
  lt h := by cases h
  one h := by cases h
  unreaped h := by cases h
  reaped_lt h := by cases h

theorem Numbered.setJob (h : Numbered s) (job : ℕ) (phase : Phase) : Numbered (s.setJob job phase) :=
  ⟨h.lt, h.one, h.unreaped, h.reaped_lt⟩

theorem setProcess_table (s : State) (pid : ℕ) (q : Option Process) (k : ℕ) :
    (s.setProcess pid q).table k = if k = pid then q else s.table k := Function.update_apply ..

theorem setJob_table (s : State) (job : ℕ) (phase : Phase) : (s.setJob job phase).table = s.table := rfl

theorem startProcess_table (s : State) (pid : ℕ) (parent : Option ℕ) (k : ℕ) :
    (s.startProcess pid parent).table k =
      if k = pid then some ⟨s.next, parent, .running false⟩ else s.table k := setProcess_table ..

theorem reapProcess_table (s : State) (pidfd : Handle) (info : SiginfoT) (k : ℕ) :
    (s.reapProcess pidfd info).table k = if k = pidfd.pid then none else s.table k := setProcess_table ..

theorem signal_table (s : State) (pid k : ℕ) : (s.signal pid).table k =
    if k = pid then (s.table pid).map (fun p => { p with status := p.status.signalled }) else s.table k :=
  setProcess_table ..

/-- Every entry after a change of status stands for a process that was there. -/
theorem Numbered.replace (h : Numbered s) (hp : s.table pid = some p) (hq : q.number = p.number) :
    Numbered (s.setProcess pid (some q)) := by
  have hback : ∀ {k r}, (s.setProcess pid (some q)).table k = some r →
      ∃ r', s.table k = some r' ∧ r'.number = r.number := by
    intro k r hr
    rw [setProcess_table] at hr
    split_ifs at hr with hk
    · cases hr
      exact ⟨p, hk ▸ hp, hq.symm⟩
    · exact ⟨r, hr, rfl⟩
  refine ⟨fun hr => ?_, fun hr hr' heq => ?_, fun hr => ?_, h.reaped_lt⟩
  · obtain ⟨r', hr', hn⟩ := hback hr
    exact hn ▸ h.lt hr'
  · obtain ⟨a, ha, hna⟩ := hback hr
    obtain ⟨b, hb, hnb⟩ := hback hr'
    exact h.one ha hb (hna.trans (heq.trans hnb.symm))
  · obtain ⟨r', hr', hn⟩ := hback hr
    exact hn ▸ h.unreaped hr'

theorem Numbered.signal (h : Numbered s) (pid : ℕ) : Numbered (s.signal pid) := by
  unfold State.signal
  cases hp : s.table pid with
  | some p => exact h.replace hp rfl
  | none =>
    rw [Option.map_none, ← hp, State.setProcess, Function.update_eq_self]
    exact h

theorem Numbered.startProcess (h : Numbered s) (pid : ℕ) (parent : Option ℕ) :
    Numbered (s.startProcess pid parent) := by
  have hcases : ∀ {k r}, (s.startProcess pid parent).table k = some r →
      (k = pid ∧ r.number = s.next) ∨ s.table k = some r := by
    intro k r hr
    rw [startProcess_table] at hr
    split_ifs at hr with hk
    · cases hr
      exact .inl ⟨hk, rfl⟩
    · exact .inr hr
  refine ⟨fun hr => ?_, fun hr hr' heq => ?_, fun hr => ?_, fun hr => Nat.lt_succ_of_lt (h.reaped_lt hr)⟩
  · rcases hcases hr with ⟨-, hn⟩ | hr
    · exact hn ▸ Nat.lt_succ_self _
    · exact Nat.lt_succ_of_lt (h.lt hr)
  · rcases hcases hr with ⟨hk, hn⟩ | hold <;> rcases hcases hr' with ⟨hk', hn'⟩ | hold'
    · rw [hk, hk']
    · have := h.lt hold'
      omega
    · have := h.lt hold
      omega
    · exact h.one hold hold' heq
  · rcases hcases hr with ⟨-, hn⟩ | hr
    · rw [hn, Option.eq_none_iff_forall_ne_some]
      intro info hinfo
      exact absurd (h.reaped_lt hinfo) (lt_irrefl _)
    · exact h.unreaped hr

theorem Numbered.reapProcess (h : Numbered s) {pidfd : Handle} (hp : s.process? pidfd = some p)
    (info : SiginfoT) : Numbered (s.reapProcess pidfd info) := by
  obtain ⟨hp, hnumber⟩ := process?_eq_some.mp hp
  have hcases : ∀ {k r}, (s.reapProcess pidfd info).table k = some r → s.table k = some r ∧
      r.number ≠ pidfd.number := by
    intro k r hr
    rw [reapProcess_table] at hr
    obtain ⟨hk, hr⟩ := Option.ite_none_left_eq_some.mp hr
    exact ⟨hr, fun hn => hk (h.one hr hp (hn.trans hnumber.symm))⟩
  refine ⟨fun hr => h.lt (hcases hr).1, fun hr hr' => h.one (hcases hr).1 (hcases hr').1, fun hr => ?_, fun hr => ?_⟩
  · exact (Function.update_of_ne (hcases hr).2 ..).trans (h.unreaped (hcases hr).1)
  · rw [show (s.reapProcess pidfd info).reaped _ = _ from Function.update_apply ..] at hr
    split_ifs at hr with hn
    · exact hn ▸ hnumber ▸ h.lt hp
    · exact h.reaped_lt hr

theorem numbered_step {t : State} {event : Event} (h : Numbered s)
    (hstep : step s event = some t) : Numbered t := by
  cases moves_of_step hstep with
  | spawns _ _ => exact (h.startProcess _ _).setJob _ _
  | spawnFails _ | opens _ _ | readies _ _ | expires _ | notExited _ _ _ | givesUp _ _ _ => exact h.setJob _ _
  | reapsInTime _ hp _ | reapsLate _ hp _ => exact (h.reapProcess hp _).setJob _ _
  | kills _ _ | closes _ => exact (h.signal _).setJob _ _
  | forks _ => exact h.startProcess _ _
  | dies hp _ => exact h.replace hp rfl
  | reapsOther hp _ _ => exact h.reapProcess (process?_eq_some.mpr ⟨hp, rfl⟩) _

end Table

section Jobs

/-- How the status of a process may change while nobody waits for it. -/
def Later (a b : Status) : Prop :=
  b = a ∨ b = a.signalled ∨ ∃ sigkill info, a = .running sigkill ∧ b = .zombie info

def Lasting (P : Status → Prop) : Prop := ∀ a b, Later a b → P a → P b

def Over (status : Status) : Prop := status ≠ .running false

def Stage.Allows : Stage → Status → Prop
  | .polling, _ | .late, _ => True
  | .ready, status => ∃ info, status = .zombie info
  | .killed, status => Over status

theorem lasting_true : Lasting fun _ => True := fun _ _ _ _ => trivial

theorem lasting_over : Lasting Over := by
  rintro (_ | _) b (rfl | rfl | ⟨_, _, _, rfl⟩) h <;> simp_all [Over, Status.signalled]

theorem lasting_allows (stage : Stage) : Lasting stage.Allows := by
  cases stage with
  | polling | late => exact lasting_true
  | killed => exact lasting_over
  | ready =>
    rintro a b (rfl | rfl | ⟨_, _, rfl, rfl⟩) ⟨info, h⟩
    · exact ⟨info, h⟩
    · exact ⟨info, by rw [h]; rfl⟩
    · cases h

def Holds (s : State) (job : ℕ) (child : Handle) (P : Status → Prop) : Prop :=
  ∃ status, s.table child.pid = some ⟨child.number, some job, status⟩ ∧ P status

def Reported (s : State) (job : ℕ) (child : Handle) (P : Status → Prop) : Result → Prop
  | .ok => ∃ info, s.reaped child.number = some info ∧ Siginfo.ofRaw info = .exited 0
  | .error .badExit => ∃ info, s.reaped child.number = some info ∧ Siginfo.ofRaw info ≠ .exited 0
  | .error .overtime => ∃ info, s.reaped child.number = some info
  | .error .wait => Holds s job child P
  | .error .spawn => False

def Fits (s : State) (job : ℕ) : Phase → Prop
  | .idle => True
  | .spawned child => Holds s job child fun _ => True
  | .waiting child pidfd stage => pidfd = child ∧ Holds s job child stage.Allows
  | .closing child result => Reported s job child (fun _ => True) result
  | .ended none result => result = .error .spawn
  | .ended (some child) result => Reported s job child Over result

/-- Seen from a job, nothing has happened but to the status of its processes. -/
structure Spares (job : ℕ) (s t : State) : Prop where
  table : ∀ pid number status, s.table pid = some ⟨number, some job, status⟩ →
    ∃ status', t.table pid = some ⟨number, some job, status'⟩ ∧ Later status status'
  reaped : ∀ number info, s.reaped number = some info → t.reaped number = some info

variable {s t : State} {job : ℕ} {child : Handle} {P : Status → Prop}

theorem Holds.spared (h : Holds s job child P) (hst : Spares job s t) (hP : Lasting P) :
    Holds t job child P := by
  obtain ⟨status, hp, hstatus⟩ := h
  obtain ⟨status', hp', hlater⟩ := hst.table _ _ _ hp
  exact ⟨status', hp', hP _ _ hlater hstatus⟩

theorem Reported.spared {result : Result} (h : Reported s job child P result) (hst : Spares job s t)
    (hP : Lasting P) : Reported t job child P result := by
  match result, h with
  | .ok, ⟨info, hr, hinfo⟩ => exact ⟨info, hst.reaped _ _ hr, hinfo⟩
  | .error .badExit, ⟨info, hr, hinfo⟩ => exact ⟨info, hst.reaped _ _ hr, hinfo⟩
  | .error .overtime, ⟨info, hr⟩ => exact ⟨info, hst.reaped _ _ hr⟩
  | .error .wait, h => exact Holds.spared h hst hP

theorem Fits.spared {phase : Phase} (h : Fits s job phase) (hst : Spares job s t) : Fits t job phase := by
  match phase, h with
  | .idle, _ => trivial
  | .spawned child, h => exact Holds.spared h hst lasting_true
  | .waiting child pidfd stage, ⟨hfd, h⟩ => exact ⟨hfd, h.spared hst (lasting_allows stage)⟩
  | .closing child result, h => exact Reported.spared h hst lasting_true
  | .ended none result, h => exact h
  | .ended (some child) result, h => exact Reported.spared h hst lasting_over

theorem Spares.refl (job : ℕ) (s : State) : Spares job s s :=
  ⟨fun _ _ status h => ⟨status, h, .inl rfl⟩, fun _ _ h => h⟩

theorem Spares.setJob (h : Spares job s t) (j : ℕ) (phase : Phase) : Spares job s (t.setJob j phase) :=
  ⟨h.table, h.reaped⟩

theorem spares_startProcess {pid : ℕ} (hfree : s.table pid = none) (parent : Option ℕ) :
    Spares job s (s.startProcess pid parent) := by
  refine ⟨fun k number status h => ⟨status, ?_, .inl rfl⟩, fun _ _ h => h⟩
  have hk : k ≠ pid := by
    rintro rfl
    rw [hfree] at h
    cases h
  exact (startProcess_table ..).trans ((if_neg hk).trans h)

theorem spares_signal (s : State) (job pid : ℕ) : Spares job s (s.signal pid) := by
  refine ⟨fun k number status h => ?_, fun _ _ h => h⟩
  by_cases hk : k = pid
  · subst hk
    refine ⟨status.signalled, ?_, .inr (.inl rfl)⟩
    rw [signal_table, if_pos rfl, h]
    rfl
  · exact ⟨status, (signal_table ..).trans ((if_neg hk).trans h), .inl rfl⟩

theorem spares_die {pid : ℕ} {p : Process} {b : Bool} (hp : s.table pid = some p) (hb : p.status = .running b)
    (info : SiginfoT) : Spares job s (s.setProcess pid (some { p with status := .zombie info })) := by
  refine ⟨fun k number status h => ?_, fun _ _ h => h⟩
  by_cases hk : k = pid
  · subst hk
    cases hp.symm.trans h
    exact ⟨_, (setProcess_table ..).trans (if_pos rfl), .inr (.inr ⟨b, info, hb, rfl⟩)⟩
  · exact ⟨status, (setProcess_table ..).trans ((if_neg hk).trans h), .inl rfl⟩

theorem spares_reapProcess (hs : Numbered s) {pidfd : Handle} {p : Process} (hp : s.process? pidfd = some p)
    (hparent : p.parent ≠ some job) (info : SiginfoT) : Spares job s (s.reapProcess pidfd info) := by
  obtain ⟨hp, hnumber⟩ := process?_eq_some.mp hp
  constructor
  · intro k number status h
    have hk : k ≠ pidfd.pid := by
      rintro rfl
      cases hp.symm.trans h
      exact hparent rfl
    exact ⟨status, (reapProcess_table ..).trans ((if_neg hk).trans h), .inl rfl⟩
  · intro number info' h
    have hn : number ≠ pidfd.number := by
      rintro rfl
      rw [← hnumber, hs.unreaped hp] at h
      cases h
    exact (Function.update_of_ne hn ..).trans h

theorem fits_setJob {u : State} {phase : Phase} (hs : ∀ j, Fits s j (s.jobs j)) (hjobs : u.jobs = s.jobs)
    (hothers : ∀ j, j ≠ job → Spares j s u) (hown : Fits u job phase) (j : ℕ) :
    Fits (u.setJob job phase) j ((u.setJob job phase).jobs j) := by
  rw [show (u.setJob job phase).jobs j = _ from Function.update_apply .., hjobs]
  split_ifs with hj
  · subst hj
    exact hown.spared ((Spares.refl j u).setJob j phase)
  · exact (hs j).spared ((hothers j hj).setJob job phase)

theorem holds_of_pending (h : Fits s job (s.jobs job)) (hjob : (s.jobs job).pending? = some child) :
    Holds s job child fun _ => True := by
  cases hphase : s.jobs job with
  | spawned c =>
    rw [hphase] at h hjob
    cases hjob
    exact h
  | waiting c pidfd stage =>
    rw [hphase] at h hjob
    cases hjob
    obtain ⟨status, hp, -⟩ := h.2
    exact ⟨status, hp, trivial⟩
  | _ =>
    rw [hphase] at hjob
    cases hjob

theorem reported_inTime {info : SiginfoT} (h : s.reaped child.number = some info) :
    Reported s job child P (inTime info) := by
  unfold inTime
  split_ifs with hinfo
  · exact ⟨info, h, hinfo⟩
  · exact ⟨info, h, hinfo⟩

theorem reapProcess_reaped (s : State) (pidfd : Handle) (info : SiginfoT) :
    (s.reapProcess pidfd info).reaped pidfd.number = some info := Function.update_self ..

theorem own_process {pidfd : Handle} {stage : Stage} {p : Process}
    (h : Fits s job (.waiting child pidfd stage)) (hp : s.process? pidfd = some p) :
    pidfd = child ∧ p.parent = some job ∧ stage.Allows p.status := by
  obtain ⟨rfl, status, htable, hallows⟩ := h
  cases htable.symm.trans (process?_eq_some.mp hp).1
  exact ⟨rfl, rfl, hallows⟩

/-- Whatever a child was doing, a signal sent to its pid puts an end to it. -/
theorem holds_signal (h : Holds s job child P) : Holds (s.signal child.pid) job child Over := by
  obtain ⟨status, htable, -⟩ := h
  refine ⟨status.signalled, ?_, ?_⟩
  · rw [signal_table, if_pos rfl, htable]
    rfl
  · cases status <;> simp [Over, Status.signalled]

/-- Reaping its own child is nothing to the other jobs. -/
theorem spares_reapOwn (hn : Numbered s) {pidfd : Handle} {p : Process} (hp : s.process? pidfd = some p)
    (hparent : p.parent = some job) (info : SiginfoT) (j : ℕ) (hj : j ≠ job) :
    Spares j s (s.reapProcess pidfd info) := by
  refine spares_reapProcess hn hp ?_ info
  rw [hparent]
  exact fun h => hj (Option.some.inj h).symm

theorem fits_step {event : Event} (hn : Numbered s) (hs : ∀ j, Fits s j (s.jobs j))
    (hstep : step s event = some t) : ∀ j, Fits t j (t.jobs j) := by
  have hrefl : ∀ {job} j, j ≠ job → Spares j s s := fun j _ => Spares.refl j s
  have hown : ∀ {job phase}, s.jobs job = phase → Fits s job phase := fun hjob => hjob ▸ hs _
  cases moves_of_step hstep with
  | @spawns job pid hjob hfree =>
    refine fits_setJob hs rfl (fun j _ => spares_startProcess hfree _) ?_
    exact ⟨.running false, (startProcess_table ..).trans (if_pos rfl), trivial⟩
  | spawnFails hjob => exact fits_setJob hs rfl hrefl rfl
  | @opens job child p hjob hp =>
    obtain ⟨status, htable, -⟩ := hown hjob
    cases hp.symm.trans htable
    exact fits_setJob hs rfl hrefl ⟨rfl, status, htable, trivial⟩
  | @readies job child pidfd hjob hp =>
    obtain ⟨rfl, status, htable, -⟩ := hown hjob
    refine fits_setJob hs rfl hrefl ⟨rfl, status, htable, ?_⟩
    exact hp _ (process?_eq_some.mpr ⟨htable, rfl⟩)
  | @expires job child pidfd hjob =>
    obtain ⟨rfl, status, htable, -⟩ := hown hjob
    exact fits_setJob hs rfl hrefl ⟨rfl, status, htable, trivial⟩
  | @reapsInTime job child pidfd p info hjob hp hinfo =>
    obtain ⟨rfl, hparent, -⟩ := own_process (hown hjob) hp
    refine fits_setJob hs rfl (spares_reapOwn hn hp hparent info) ?_
    exact reported_inTime (reapProcess_reaped ..)
  | @notExited job child pidfd p b hjob hp hrunning =>
    obtain ⟨rfl, -, info, hinfo⟩ := own_process (hown hjob) hp
    rw [hrunning] at hinfo
    cases hinfo
  | @kills job child pidfd p hjob hp =>
    obtain ⟨rfl, hchild⟩ := hown hjob
    exact fits_setJob hs rfl (fun j _ => spares_signal s j _) ⟨rfl, holds_signal hchild⟩
  | @reapsLate job child pidfd p info hjob hp hinfo =>
    obtain ⟨rfl, hparent, -⟩ := own_process (hown hjob) hp
    exact fits_setJob hs rfl (spares_reapOwn hn hp hparent info) ⟨info, reapProcess_reaped ..⟩
  | @givesUp _ job child _ _ hjob => exact fits_setJob hs rfl hrefl (holds_of_pending (hs job) hjob)
  | @closes job child result hjob =>
    refine fits_setJob hs rfl (fun j _ => spares_signal s j _) ?_
    match result, hown hjob with
    | .ok, h => exact h
    | .error .badExit, h => exact h
    | .error .overtime, h => exact h
    | .error .wait, h => exact holds_signal h
  | forks hfree => exact fun j => (hs j).spared (spares_startProcess hfree none)
  | dies hp hrunning => exact fun j => (hs j).spared (spares_die hp hrunning _)
  | reapsOther hp hparent _ =>
    refine fun j => (hs j).spared (spares_reapProcess hn (process?_eq_some.mpr ⟨hp, rfl⟩) ?_ _)
    rw [hparent]
    simp

end Jobs

section Runs

structure Inv (s : State) : Prop where
  numbered : Numbered s
  fits : ∀ job, Fits s job (s.jobs job)

theorem inv_init : Inv init := ⟨numbered_init, fun _ => trivial⟩

theorem inv_step (s : State) (event : Event) (t : State) (h : Inv s)
    (hstep : step s event = some t) : Inv t :=
  ⟨numbered_step h.numbered hstep, fits_step h.numbered h.fits hstep⟩

variable {s t : State} {event : Event} {events : List Event} {job : ℕ}

theorem inv_of_run (hrun : events.foldlM step init = some s) : Inv s :=
  keeps_of_run (Q := fun _ => True) (fun s e t _ => inv_step s e t) (by simp) inv_init hrun

theorem jobs_step (hstep : step s event = some t) (hjob : event.job? ≠ some job) :
    t.jobs job = s.jobs job := by
  have hne : ∀ {other} (u : State) (phase : Phase), event.job? = some other →
      (u.setJob other phase).jobs job = u.jobs job := by
    rintro other u phase hother
    refine Function.update_of_ne ?_ ..
    rintro rfl
    exact hjob hother
  cases moves_of_step hstep with
  | givesUp hevent _ _ => exact hne _ _ hevent
  | forks _ | dies _ _ | reapsOther _ _ _ => rfl
  | _ => exact hne _ _ rfl

def Result.late : Result → Bool
  | .error .overtime => true
  | .ok | .error .spawn | .error .wait | .error .badExit => false

def Phase.expired : Phase → Bool
  | .waiting _ _ .late | .waiting _ _ .killed => true
  | .closing _ result | .ended _ result => result.late
  | .idle | .spawned _ | .waiting _ _ .polling | .waiting _ _ .ready => false

def Phase.overdue : Phase → Prop
  | .waiting _ _ .late | .waiting _ _ .killed => True
  | .closing _ result | .ended _ result => result = .error .overtime ∨ result = .error .wait
  | .idle | .spawned _ | .waiting _ _ .polling | .waiting _ _ .ready => False

theorem inTime_late (info : SiginfoT) : (inTime info).late = false := by
  unfold inTime
  split_ifs <;> rfl

theorem setJob_jobs (s : State) (job : ℕ) (phase : Phase) : (s.setJob job phase).jobs job = phase :=
  Function.update_self ..

theorem expired_step (hI : Inv s) (hstep : step s event = some t) (ht : (t.jobs job).expired) :
    (s.jobs job).expired ∨ event = .timeout job := by
  by_cases hj : event.job? = some job
  swap
  · rw [jobs_step hstep hj] at ht
    exact .inl ht
  cases moves_of_step hstep with
  | expires hjob =>
    cases hj
    exact .inr rfl
  | reapsInTime hjob hp hinfo =>
    cases hj
    rw [setJob_jobs, Phase.expired, inTime_late] at ht
    cases ht
  | notExited hjob hp hrunning =>
    cases hj
    have hfits := hI.fits job
    rw [hjob] at hfits
    obtain ⟨-, -, info, hinfo⟩ := own_process hfits hp
    rw [hrunning] at hinfo
    cases hinfo
  | kills hjob _ | reapsLate hjob _ _ =>
    cases hj
    rw [hjob]
    exact .inl rfl
  | closes hjob =>
    cases hj
    rw [setJob_jobs] at ht
    rw [hjob]
    exact .inl ht
  | spawns hjob _ | spawnFails hjob | opens hjob _ | readies hjob _ =>
    cases hj
    rw [setJob_jobs] at ht
    cases ht
  | givesUp hevent _ _ =>
    cases hevent.symm.trans hj
    rw [setJob_jobs] at ht
    cases ht
  | forks _ | dies _ _ | reapsOther _ _ _ => cases hj

theorem overdue_step (hstep : step s event = some t) (hs : (s.jobs job).overdue) : (t.jobs job).overdue := by
  by_cases hj : event.job? = some job
  swap
  · rw [jobs_step hstep hj]
    exact hs
  cases moves_of_step hstep with
  | kills _ _ =>
    cases hj
    rw [setJob_jobs]
    trivial
  | reapsLate _ _ _ =>
    cases hj
    rw [setJob_jobs]
    exact .inl rfl
  | givesUp hevent _ _ =>
    cases hevent.symm.trans hj
    rw [setJob_jobs]
    exact .inr rfl
  | closes hjob =>
    cases hj
    rw [hjob] at hs
    rw [setJob_jobs]
    exact hs
  | spawns hjob _ | spawnFails hjob | opens hjob _ | readies hjob _ | expires hjob | reapsInTime hjob _ _
  | notExited hjob _ _ =>
    cases hj
    rw [hjob] at hs
    cases hs
  | forks _ | dies _ _ | reapsOther _ _ _ => cases hj

theorem timeout_of_expired (hrun : events.foldlM step init = some s) (h : (s.jobs job).expired) :
    .timeout job ∈ events := by
  obtain ⟨front, event, back, u, rfl, -, rfl, -⟩ :=
    last_cause_of_invariant (I := Inv) (P := fun s => (s.jobs job).expired = true) (K := fun _ => True)
      (C := fun _ e => e = .timeout job) inv_step
      (fun s e t hI hstep ht => (expired_step hI hstep ht).imp (fun h => ⟨h, trivial⟩) id)
      inv_init Bool.false_ne_true hrun h
  simp

theorem overdue_of_timeout (hrun : events.foldlM step init = some s) (h : .timeout job ∈ events) :
    (s.jobs job).overdue := by
  obtain ⟨front, back, rfl⟩ := List.append_of_mem h
  obtain ⟨u, hu, -⟩ := foldlM_of_append hrun
  obtain ⟨v, hv, hback⟩ := step_of_run hrun hu
  have hlate : (v.jobs job).overdue := by
    cases moves_of_step hv with
    | expires hjob =>
      rw [setJob_jobs]
      trivial
    | givesUp hevent htimeout _ =>
      cases hevent
      exact absurd rfl htimeout
  exact keeps_of_run (P := fun s => (s.jobs job).overdue) (Q := fun _ => True)
    (fun s e t _ hs hstep => overdue_step hstep hs) (by simp) hlate hback

/-- A job blocks only on a process that has ended or is about to. -/
theorem waits_for_killed {child pidfd : Handle} (hrun : events.foldlM step init = some s)
    (h : s.jobs job = .waiting child pidfd .killed) : pidfd = child ∧ Holds s job child Over := by
  have hfits := (inv_of_run hrun).fits job
  rw [h] at hfits
  exact hfits

/-- The process runs on when its job goes to wait for it, with the signal on its way. -/
theorem waits_for_signalled_child :
    ∃ s, [Event.spawn 0 7, .openPidfd 0, .timeout 0, .kill 0].foldlM step init = some s ∧
      s.table 7 = some ⟨0, some 0, .running true⟩ ∧ Holds s 0 ⟨7, 0⟩ Over := by
  have hrun : [Event.spawn 0 7, .openPidfd 0, .timeout 0, .kill 0].foldlM step init = some _ := rfl
  exact ⟨_, hrun, rfl, (waits_for_killed hrun rfl).2⟩

theorem over_of_reported {child : Handle} {result : Result} (hn : Numbered s)
    (h : Reported s job child Over result) {pid : ℕ} {p : Process} (hp : s.table pid = some p)
    (hnumber : p.number = child.number) : Over p.status := by
  have hunreaped := hn.unreaped hp
  rw [hnumber] at hunreaped
  match result, h with
  | .ok, ⟨info, hr, _⟩ | .error .badExit, ⟨info, hr, _⟩ | .error .overtime, ⟨info, hr⟩ =>
    rw [hunreaped] at hr
    cases hr
  | .error .wait, ⟨status, htable, hover⟩ =>
    cases hn.one hp htable hnumber
    cases hp.symm.trans htable
    exact hover

/-- When `run` has returned, in whatever order the jobs, the other programs and
the kernel have gone on, its virtual machine has ended or has a `SIGKILL` on its
way, and the result is about that machine: `Ok` that it has exited with status
0, `BadExit` that it has ended otherwise, `Overtime` that it was waited for
after the time limit. Only a run whose poll timed out reports `Overtime`, and
such a run reports nothing else unless a system call fails. -/
theorem vm_over_when_job_returns (events : List Event) (s : State) (hrun : events.foldlM step init = some s)
    (job : ℕ) (child : Handle) (result : Result) (h : s.jobs job = .ended (some child) result) :
    (∀ pid p, s.table pid = some p → p.number = child.number → Over p.status) ∧
      Reported s job child Over result ∧
      (result = .error .overtime → .timeout job ∈ events) ∧
      (.timeout job ∈ events → result = .error .overtime ∨ result = .error .wait) := by
  have hinv := inv_of_run hrun
  have hreported : Reported s job child Over result := by
    have hfits := hinv.fits job
    rw [h] at hfits
    exact hfits
  refine ⟨fun pid p => over_of_reported hinv.numbered hreported, hreported, ?_, ?_⟩
  · rintro rfl
    refine timeout_of_expired hrun ?_
    rw [h]
    rfl
  · intro htimeout
    have hoverdue := overdue_of_timeout hrun htimeout
    rw [h] at hoverdue
    exact hoverdue

/-- A process that is late, and exits all the same before the signal gets to it. -/
def lateExit : List Event :=
  [.spawn 0 7, .openPidfd 0, .timeout 0, .kill 0, .die 7 ⟨1, 0⟩, .waitHang 0, .fork 7, .childKill 0]

theorem vm_over_after_late_exit :
    ∃ s, lateExit.foldlM step init = some s ∧ s.jobs 0 = .ended (some ⟨7, 0⟩) (.error .overtime) ∧
      s.reaped 0 = some ⟨1, 0⟩ ∧ Reported s 0 ⟨7, 0⟩ Over (.error .overtime) :=
  ⟨_, rfl, rfl, rfl, (vm_over_when_job_returns lateExit _ rfl 0 ⟨7, 0⟩ _ rfl).2.1⟩

end Runs

section Signals

variable {s t : State} {event : Event} {events : List Event} {job pid number : ℕ} {parent : Option ℕ} {status : Status}

/-- A process in the table was there before, or has just started on a pid that
was free. -/
theorem table_back (hstep : step s event = some t) (ht : t.table pid = some ⟨number, parent, status⟩) :
    (∃ status', s.table pid = some ⟨number, parent, status'⟩) ∨
      s.table pid = none ∧ s.next = number ∧ (event = .fork pid ∨ ∃ k, event = .spawn k pid) := by
  have hstart : ∀ {k par}, s.table k = none →
      (s.startProcess k par).table pid = some ⟨number, parent, status⟩ →
      (∃ status', s.table pid = some ⟨number, parent, status'⟩) ∨
        s.table pid = none ∧ s.next = number ∧ k = pid := by
    intro k par hfree ht
    rw [startProcess_table] at ht
    split_ifs at ht with hk
    · cases ht
      exact .inr ⟨hk ▸ hfree, rfl, hk.symm⟩
    · exact .inl ⟨status, ht⟩
  have hsignal : ∀ {k}, (s.signal k).table pid = some ⟨number, parent, status⟩ →
      ∃ status', s.table pid = some ⟨number, parent, status'⟩ := by
    intro k ht
    rw [signal_table] at ht
    split_ifs at ht with hk
    · obtain ⟨p, hp, heq⟩ := Option.map_eq_some_iff.mp ht
      obtain ⟨rfl, rfl, -⟩ := Process.mk.inj heq
      exact ⟨p.status, hk ▸ hp⟩
    · exact ⟨status, ht⟩
  cases moves_of_step hstep with
  | @spawns j k _ hfree =>
    refine (hstart hfree ht).imp id fun h => ⟨h.1, h.2.1, .inr ⟨j, ?_⟩⟩
    rw [h.2.2]
  | forks hfree =>
    refine (hstart hfree ht).imp id fun h => ⟨h.1, h.2.1, .inl ?_⟩
    rw [h.2.2]
  | spawnFails _ | opens _ _ | readies _ _ | expires _ | notExited _ _ _ | givesUp _ _ _ =>
    exact .inl ⟨status, ht⟩
  | reapsInTime _ _ _ | reapsLate _ _ _ =>
    rw [setJob_table, reapProcess_table] at ht
    exact .inl ⟨status, (Option.ite_none_left_eq_some.mp ht).2⟩
  | reapsOther _ _ _ =>
    rw [reapProcess_table] at ht
    exact .inl ⟨status, (Option.ite_none_left_eq_some.mp ht).2⟩
  | kills _ _ | closes _ => exact .inl (hsignal ht)
  | @dies k p _ _ hp _ =>
    rw [setProcess_table] at ht
    split_ifs at ht with hk
    · cases ht
      exact .inl ⟨p.status, hk ▸ hp⟩
    · exact .inl ⟨status, ht⟩

/-- A job that is about to send its last signal, and knows how its process
ended, has just taken it out of the table or was there before. -/
theorem closing_back {child : Handle} {result : Result} (hI : Inv s) (hstep : step s event = some t)
    (ht : t.jobs job = .closing child result) (hresult : result ≠ .error .wait) :
    s.jobs job = .closing child result ∨ t.table child.pid = none := by
  by_cases hj : event.job? = some job
  swap
  · rw [jobs_step hstep hj] at ht
    exact .inl ht
  have hreap : ∀ {child' pidfd stage p info result'}, s.jobs job = .waiting child' pidfd stage →
      s.process? pidfd = some p → ((s.reapProcess pidfd info).setJob job (.closing child' result')).jobs job =
        .closing child result → ((s.reapProcess pidfd info).setJob job (.closing child' result')).table child.pid = none := by
    intro child' pidfd stage p info result' hjob hp ht
    have hfits := hI.fits job
    rw [hjob] at hfits
    rw [setJob_jobs] at ht
    cases ht
    cases (own_process hfits hp).1
    rw [setJob_table, reapProcess_table, if_pos rfl]
  cases moves_of_step hstep with
  | reapsInTime hjob hp _ | reapsLate hjob hp _ =>
    cases hj
    exact .inr (hreap hjob hp ht)
  | givesUp hevent _ _ =>
    cases hevent.symm.trans hj
    rw [setJob_jobs] at ht
    cases ht
    exact absurd rfl hresult
  | spawns _ _ | spawnFails _ | opens _ _ | readies _ _ | expires _ | notExited _ _ _ | kills _ _ | closes _ =>
    cases hj
    rw [setJob_jobs] at ht
    cases ht
  | forks _ | dies _ _ | reapsOther _ _ _ => cases hj

def Sends (s : State) (event : Event) (pid number : ℕ) (parent : Option ℕ) : Prop :=
  (∃ status, s.table pid = some ⟨number, parent, status⟩) ∧
    ((∃ job child, event = .kill job ∧ s.jobs job = .waiting child ⟨pid, number⟩ .late) ∨
      ∃ job child result, event = .childKill job ∧ s.jobs job = .closing child result ∧ child.pid = pid)

theorem sigkill_back (hstep : step s event = some t)
    (ht : t.table pid = some ⟨number, parent, .running true⟩) :
    s.table pid = some ⟨number, parent, .running true⟩ ∨ Sends s event pid number parent := by
  have hsignal : ∀ {k}, (s.signal k).table pid = some ⟨number, parent, .running true⟩ →
      s.table pid = some ⟨number, parent, .running true⟩ ∨
        k = pid ∧ ∃ status, s.table pid = some ⟨number, parent, status⟩ := by
    intro k ht
    rw [signal_table] at ht
    split_ifs at ht with hk
    · obtain ⟨p, hp, heq⟩ := Option.map_eq_some_iff.mp ht
      obtain ⟨rfl, rfl, -⟩ := Process.mk.inj heq
      exact .inr ⟨hk.symm, p.status, hk ▸ hp⟩
    · exact .inl ht
  have hstart : ∀ {k par}, (s.startProcess k par).table pid = some ⟨number, parent, .running true⟩ →
      s.table pid = some ⟨number, parent, .running true⟩ := by
    intro k par ht
    rw [startProcess_table] at ht
    split_ifs at ht with hk
    · cases ht
    · exact ht
  cases moves_of_step hstep with
  | spawns _ _ | forks _ => exact .inl (hstart ht)
  | spawnFails _ | opens _ _ | readies _ _ | expires _ | notExited _ _ _ | givesUp _ _ _ => exact .inl ht
  | reapsInTime _ _ _ | reapsLate _ _ _ =>
    rw [setJob_table, reapProcess_table] at ht
    exact .inl (Option.ite_none_left_eq_some.mp ht).2
  | reapsOther _ _ _ =>
    rw [reapProcess_table] at ht
    exact .inl (Option.ite_none_left_eq_some.mp ht).2
  | @kills j child pidfd p hjob hp =>
    refine (hsignal ht).imp id fun ⟨hk, status, hpid⟩ => ⟨⟨status, hpid⟩, .inl ⟨j, child, rfl, ?_⟩⟩
    obtain ⟨hp, hnumber⟩ := process?_eq_some.mp hp
    subst hk
    cases hp.symm.trans hpid
    rw [hjob]
    exact congrArg (Phase.waiting child · .late) (congrArg (Handle.mk pidfd.pid) hnumber.symm)
  | @closes j child result hjob =>
    exact (hsignal ht).imp id fun ⟨hk, hpid⟩ => ⟨hpid, .inr ⟨j, child, result, rfl, hjob, hk⟩⟩
  | dies _ _ =>
    rw [setProcess_table] at ht
    split_ifs at ht with hk
    · cases ht
    · exact .inl ht

theorem reaped_of_closing {child : Handle} {result : Result} (hs : Inv s)
    (hjob : s.jobs job = .closing child result) (hresult : result ≠ .error .wait) :
    (s.reaped child.number).isSome := by
  have hfits := hs.fits job
  rw [hjob] at hfits
  match result, hfits with
  | .ok, ⟨info, hinfo, _⟩ | .error .badExit, ⟨info, hinfo, _⟩ | .error .overtime, ⟨info, hinfo⟩ =>
    rw [hinfo]
    rfl
  | .error .wait, _ => exact absurd rfl hresult

/-- The signal is sent by the job that started the process: the kill after the
time limit, or the last signal after a wait that failed. -/
def OwnSignal (front : List Event) (s : State) (event : Event) (job : ℕ) (child : Handle) : Prop :=
  (event = .kill job ∧ .timeout job ∈ front ∧ s.jobs job = .waiting child child .late) ∨
    event = .childKill job ∧ s.jobs job = .closing child (.error .wait)

/-- The job had waited for its process and had yet to send its last signal when
the free pid went to process `number`. -/
def Reused (front : List Event) (job : ℕ) (child : Handle) (result : Result) (number : ℕ) : Prop :=
  ∃ before start after u, front = before ++ start :: after ∧ before.foldlM step init = some u ∧
    u.jobs job = .closing child result ∧ (u.reaped child.number).isSome ∧
    u.table child.pid = none ∧ u.next = number ∧ (start = .fork child.pid ∨ ∃ k, start = .spawn k child.pid)

theorem reused_of_stray {child : Handle} {result : Result}
    (hrun : events.foldlM step init = some s) (hjob : s.jobs job = .closing child result)
    (hresult : result ≠ .error .wait) (hp : s.table child.pid = some ⟨number, parent, status⟩) :
    Reused events job child result number := by
  obtain ⟨a, start, b, u, rfl, hu, ⟨hclosing, hfree, hnext, hstart⟩, -⟩ :=
    last_cause_of_invariant (I := Inv)
      (P := fun s => s.jobs job = .closing child result ∧
        ∃ status, s.table child.pid = some ⟨number, parent, status⟩)
      (K := fun _ => True)
      (C := fun s e => s.jobs job = .closing child result ∧ s.table child.pid = none ∧ s.next = number ∧
        (e = .fork child.pid ∨ ∃ k, e = .spawn k child.pid))
      inv_step
      (by
        rintro s e t hI hstep ⟨ht, status, hpid⟩
        rcases closing_back hI hstep ht hresult with hclosing | hnone
        · exact (table_back hstep hpid).imp (fun h => ⟨⟨hclosing, h⟩, trivial⟩) fun h => ⟨hclosing, h⟩
        · rw [hnone] at hpid
          cases hpid)
      inv_init (by rintro ⟨h, -⟩; cases h) hrun ⟨hjob, status, hp⟩
  exact ⟨a, start, b, u, rfl, hu, hclosing, reaped_of_closing (inv_of_run hu) hclosing hresult,
    hfree, hnext, hstart⟩

/-- A process gets a `SIGKILL` from the job that started it, after the time
limit or because it could not be waited for, or else from a job that still
meant to signal its own process when the pid was given to this one. -/
theorem sigkill_from_own_job_or_reused_pid (events : List Event) (s : State)
    (hrun : events.foldlM step init = some s) (pid : ℕ) (p : Process) (hp : s.table pid = some p)
    (hkill : p.status = .running true) :
    ∃ front event back u, events = front ++ event :: back ∧ front.foldlM step init = some u ∧
      (∃ status, u.table pid = some ⟨p.number, p.parent, status⟩) ∧
      ((∃ job, p.parent = some job ∧ OwnSignal front u event job ⟨pid, p.number⟩) ∨
        ∃ job child result, event = .childKill job ∧ u.jobs job = .closing child result ∧ child.pid = pid ∧
          Reused front job child result p.number) := by
  obtain ⟨number, parent, status⟩ := p
  cases hkill
  obtain ⟨front, event, back, u, rfl, hu, ⟨⟨status, hpid⟩, hsends⟩, -⟩ :=
    last_cause_of_invariant (I := Inv) (P := fun s => s.table pid = some ⟨number, parent, .running true⟩)
      (K := fun _ => True) (C := fun s e => Sends s e pid number parent) inv_step
      (fun s e t _ hstep ht => (sigkill_back hstep ht).imp (fun h => ⟨h, trivial⟩) id)
      inv_init (by rintro h; cases h) hrun hp
  refine ⟨front, event, back, u, rfl, hu, ⟨status, hpid⟩, ?_⟩
  have hinv := inv_of_run hu
  rcases hsends with ⟨job, child, rfl, hjob⟩ | ⟨job, child, result, rfl, hjob, rfl⟩
  · have hfits := hinv.fits job
    rw [hjob] at hfits
    obtain ⟨rfl, _, hown, -⟩ := hfits
    cases hpid.symm.trans hown
    refine .inl ⟨job, rfl, .inl ⟨rfl, timeout_of_expired hu ?_, hjob⟩⟩
    rw [hjob]
    rfl
  · by_cases hresult : result = .error .wait
    · subst hresult
      have hfits := hinv.fits job
      rw [hjob] at hfits
      obtain ⟨_, hown, -⟩ := hfits
      cases hpid.symm.trans hown
      exact .inl ⟨job, rfl, .inr ⟨rfl, hjob⟩⟩
    · exact .inr ⟨job, child, result, rfl, hjob, rfl, reused_of_stray hu hjob hresult hpid⟩

/-- The first job has waited for its process and not yet signalled it when its
pid goes to the process of the second. -/
def reusedPid : List Event :=
  [.spawn 0 7, .openPidfd 0, .die 7 ⟨1, 0⟩, .ready 0, .waitNohang 0, .spawn 1 7, .childKill 0]

theorem second_job_killed_by_first :
    ∃ s p, reusedPid.foldlM step init = some s ∧ s.table 7 = some p ∧ p.status = .running true ∧
      p.parent = some 1 ∧ s.jobs 1 = .spawned ⟨7, 1⟩ ∧
      ∃ front event back u, reusedPid = front ++ event :: back ∧ front.foldlM step init = some u ∧
        (∃ status, u.table 7 = some ⟨p.number, p.parent, status⟩) ∧
        ((∃ job, p.parent = some job ∧ OwnSignal front u event job ⟨7, p.number⟩) ∨
          ∃ job child result, event = .childKill job ∧ u.jobs job = .closing child result ∧ child.pid = 7 ∧
            Reused front job child result p.number) :=
  ⟨_, _, rfl, rfl, rfl, rfl, rfl, sigkill_from_own_job_or_reused_pid reusedPid _ rfl 7 _ rfl rfl⟩

end Signals

end ProgramExplorer.VmProcesses
