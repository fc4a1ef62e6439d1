import ProgramExplorer.WorkerPool

/-!
# The load balancer in front of a pool

The load balancer lets through as many requests at a time as the worker says it
takes: two for each of its threads, as many as fit the queue. A request keeps
its permit while it is proxied. What the worker has begun for a client that
leaves goes on without a permit.
-/

set_option autoImplicit false

namespace ProgramExplorer.LoadBalancer
open Transitions
open WorkerPool (Pool Worker)

section System

/-- How far a request has got: it has its permit, the worker is preparing its
job, the queue has accepted the job, `try_send` has failed, or it was over
before that. -/
inductive Stage where
  | admitted
  | preparing
  | submitted (job : ℕ)
  | queueFull
  | closed
  deriving DecidableEq

structure Request where
  holds : Bool
  stage : Stage
  deriving DecidableEq

structure System where
  permits : ℕ
  requests : List Request
  pool : Pool
  deriving DecidableEq

def new (cores : ℕ) : System := ⟨cores * 2, [], WorkerPool.new cores⟩

inductive Event where
  | arrive
  | forward (request : ℕ)
  | trySend (request : ℕ)
  | take (worker : ℕ)
  | complete (worker : ℕ)
  | answer (request : ℕ)
  | disconnect (request : ℕ)
  | dropHandler (request : ℕ)
  deriving DecidableEq

def System.update (s : System) (i : ℕ) (request : Request) : System :=
  { s with requests := s.requests.set i request }

def System.release (s : System) (i : ℕ) (stage : Stage) : System :=
  { s.update i ⟨false, stage⟩ with permits := s.permits + 1 }

def InFlight (pool : Pool) (job : ℕ) : Prop := job ∈ pool.queue ∨ Worker.running job ∈ pool.workers

instance (pool : Pool) (job : ℕ) : Decidable (InFlight pool job) := inferInstanceAs (Decidable (_ ∨ _))

def System.trySend (s : System) (i : ℕ) (holds : Bool) : System :=
  if s.pool.trySend.accepted = s.pool.accepted then s.update i ⟨holds, .queueFull⟩
  else { s.update i ⟨holds, .submitted s.pool.accepted⟩ with pool := s.pool.trySend }

/-- A request is answered while it has no job in the pool: before it has sent
one, after it could not, or when the job is over. Without its client it goes on
at the worker, unless its handler is dropped there. -/
def step (s : System) : Event → Option System
  | .arrive =>
    if 0 < s.permits then
      some { s with permits := s.permits - 1, requests := s.requests ++ [⟨true, .admitted⟩] }
    else none
  | .forward i =>
    if s.requests[i]? = some ⟨true, .admitted⟩ then some (s.update i ⟨true, .preparing⟩) else none
  | .trySend i =>
    match s.requests[i]? with
    | some ⟨holds, .preparing⟩ => some (s.trySend i holds)
    | _ => none
  | .take worker => (WorkerPool.step s.pool (.take worker)).map fun pool => { s with pool := pool }
  | .complete worker => (WorkerPool.step s.pool (.complete worker)).map fun pool => { s with pool := pool }
  | .answer i =>
    match s.requests[i]? with
    | some ⟨true, .preparing⟩ => some (s.release i .closed)
    | some ⟨true, .queueFull⟩ => some (s.release i .queueFull)
    | some ⟨true, .submitted job⟩ =>
      if InFlight s.pool job then none else some (s.release i (.submitted job))
    | _ => none
  | .disconnect i =>
    match s.requests[i]? with
    | some ⟨true, .admitted⟩ => some (s.release i .closed)
    | some ⟨true, stage⟩ => some (s.release i stage)
    | _ => none
  | .dropHandler i =>
    match s.requests[i]? with
    | some ⟨false, .preparing⟩ => some (s.update i ⟨false, .closed⟩)
    | some ⟨false, .submitted job⟩ =>
      (WorkerPool.step s.pool (.dropReceiver job)).map fun pool => { s with pool := pool }
    | _ => none

inductive Moves (s : System) : Event → System → Prop where
  | arrives (h : 0 < s.permits) :
    Moves s .arrive { s with permits := s.permits - 1, requests := s.requests ++ [⟨true, .admitted⟩] }
  | forwards {i : ℕ} (h : s.requests[i]? = some ⟨true, .admitted⟩) :
    Moves s (.forward i) (s.update i ⟨true, .preparing⟩)
  | sends {i : ℕ} {holds : Bool} (h : s.requests[i]? = some ⟨holds, .preparing⟩) :
    Moves s (.trySend i) (s.trySend i holds)
  | takes {worker : ℕ} {pool : Pool} (h : WorkerPool.step s.pool (.take worker) = some pool) :
    Moves s (.take worker) { s with pool := pool }
  | completes {worker : ℕ} {pool : Pool} (h : WorkerPool.step s.pool (.complete worker) = some pool) :
    Moves s (.complete worker) { s with pool := pool }
  | refuses {i : ℕ} (h : s.requests[i]? = some ⟨true, .preparing⟩) : Moves s (.answer i) (s.release i .closed)
  | full {i : ℕ} (h : s.requests[i]? = some ⟨true, .queueFull⟩) : Moves s (.answer i) (s.release i .queueFull)
  | answers {i job : ℕ} (h : s.requests[i]? = some ⟨true, .submitted job⟩) (hover : ¬ InFlight s.pool job) :
    Moves s (.answer i) (s.release i (.submitted job))
  | withdraws {i : ℕ} (h : s.requests[i]? = some ⟨true, .admitted⟩) :
    Moves s (.disconnect i) (s.release i .closed)
  | disconnects {i : ℕ} {stage : Stage} (h : s.requests[i]? = some ⟨true, stage⟩)
      (hstage : stage ≠ .admitted) :
    Moves s (.disconnect i) (s.release i stage)
  | closes {i : ℕ} (h : s.requests[i]? = some ⟨false, .preparing⟩) :
    Moves s (.dropHandler i) (s.update i ⟨false, .closed⟩)
  | drops {i job : ℕ} {pool : Pool} (h : s.requests[i]? = some ⟨false, .submitted job⟩)
      (hpool : WorkerPool.step s.pool (.dropReceiver job) = some pool) :
    Moves s (.dropHandler i) { s with pool := pool }

theorem moves_of_step {s t : System} {event : Event} (h : step s event = some t) : Moves s event t := by
  cases event with
  | arrive =>
    obtain ⟨hpos, h⟩ := Option.ite_none_right_eq_some.mp h
    cases h
    exact .arrives hpos
  | forward i =>
    obtain ⟨hr, h⟩ := Option.ite_none_right_eq_some.mp h
    cases h
    exact .forwards hr
  | trySend i =>
    simp only [step] at h
    split at h <;> cases h
    next hr => exact .sends hr
  | take worker =>
    obtain ⟨pool, hpool, rfl⟩ := Option.map_eq_some_iff.mp h
    exact .takes hpool
  | complete worker =>
    obtain ⟨pool, hpool, rfl⟩ := Option.map_eq_some_iff.mp h
    exact .completes hpool
  | answer i =>
    simp only [step] at h
    split at h
    · next hr =>
      cases h
      exact .refuses hr
    · next hr =>
      cases h
      exact .full hr
    · next hr =>
      obtain ⟨hover, h⟩ := Option.ite_none_left_eq_some.mp h
      cases h
      exact .answers hr hover
    · cases h
  | disconnect i =>
    simp only [step] at h
    split at h
    · next hr =>
      cases h
      exact .withdraws hr
    · next hne hr =>
      cases h
      exact .disconnects hr hne
    · cases h
  | dropHandler i =>
    simp only [step] at h
    split at h
    · next hr =>
      cases h
      exact .closes hr
    · next hr =>
      obtain ⟨pool, hpool, rfl⟩ := Option.map_eq_some_iff.mp h
      exact .drops hr hpool
    · cases h

end System

section Accounting

def Stage.job? : Stage → Option ℕ
  | .submitted job => some job
  | .admitted | .preparing | .queueFull | .closed => none

def Request.queued (pool : Pool) (request : Request) : Bool :=
  request.stage.job?.elim false fun job => job ∈ pool.queue

def departed (s : System) : ℕ := s.requests.countP fun r => !r.holds && r.queued s.pool

/-- The permits that are free or belong to a request without a job in the
queue. -/
def spare (s : System) : ℕ := s.permits + s.requests.countP fun r => r.holds && !r.queued s.pool

/-- Permits are neither lost nor made, and every job the queue has accepted is
the job of one request. -/
structure Inv (cores : ℕ) (s : System) : Prop where
  permits : s.permits + s.requests.countP Request.holds = cores * 2
  capacity : s.pool.capacity = cores * 2
  jobs : (s.requests.filterMap fun r => r.stage.job?).Perm (List.range s.pool.accepted)
  nodup : s.pool.queue.Nodup
  accepted : ∀ job ∈ s.pool.queue, job < s.pool.accepted

theorem countP_split {α : Type} (p q : α → Bool) (l : List α) :
    l.countP p = l.countP (fun a => p a && q a) + l.countP fun a => p a && !q a := by
  induction l with
  | nil => rfl
  | cons a l ih =>
    simp only [List.countP_cons, ih]
    cases p a <;> cases q a <;> simp <;> omega

theorem queue_length {cores : ℕ} {s : System} (h : Inv cores s) :
    s.pool.queue.length = s.requests.countP (Request.queued s.pool) := by
  have hfilter : ((List.range s.pool.accepted).filter fun job => job ∈ s.pool.queue).Perm s.pool.queue := by
    refine (List.perm_ext_iff_of_nodup (List.nodup_range.filter _) h.nodup).mpr fun job => ?_
    simp only [List.mem_filter, List.mem_range, decide_eq_true_eq]
    exact ⟨fun hjob => hjob.2, fun hjob => ⟨h.accepted job hjob, hjob⟩⟩
  calc s.pool.queue.length
      = (List.range s.pool.accepted).countP (fun job => job ∈ s.pool.queue) := by
        rw [List.countP_eq_length_filter, hfilter.length_eq]
    _ = (s.requests.filterMap fun r => r.stage.job?).countP (fun job => job ∈ s.pool.queue) :=
        (h.jobs.countP_eq _).symm
    _ = s.requests.countP (Request.queued s.pool) := by
        rw [List.countP_filterMap]
        refine List.countP_congr fun r _ => ?_
        unfold Request.queued
        cases r.stage.job? <;> simp

/-- There is room in the queue as long as the clients that have left have fewer
jobs there than permits have none. -/
theorem room_iff {cores : ℕ} {s : System} (h : Inv cores s) :
    s.pool.queue.length < s.pool.capacity ↔ departed s < spare s := by
  have hqueue := queue_length h
  have hqueued := countP_split (Request.queued s.pool) Request.holds s.requests
  have hheld := countP_split Request.holds (Request.queued s.pool) s.requests
  have hcomm : s.requests.countP (fun r => r.queued s.pool && r.holds) =
      s.requests.countP fun r => r.holds && r.queued s.pool :=
    List.countP_congr fun r _ => by rw [Bool.and_comm]
  have hcomm' : s.requests.countP (fun r => r.queued s.pool && !r.holds) = departed s :=
    List.countP_congr fun r _ => by rw [Bool.and_comm]
  have hspare : spare s = s.permits + s.requests.countP fun r => r.holds && !r.queued s.pool := rfl
  have hpermits := h.permits
  have hcapacity := h.capacity
  omega

end Accounting

section Steps

theorem set_split {α : Type} {l : List α} {i : ℕ} {a : α} (h : l[i]? = some a) :
    ∃ front back, l = front ++ a :: back ∧ ∀ b, l.set i b = front ++ b :: back := by
  obtain ⟨hi, rfl⟩ := List.getElem?_eq_some_iff.mp h
  refine ⟨l.take i, l.drop (i + 1), ?_, fun b => List.set_eq_take_append_cons_drop .. |>.trans (if_pos hi)⟩
  rw [List.getElem_cons_drop, List.take_append_drop]

theorem countP_set {α : Type} {l : List α} {i : ℕ} {a : α} (h : l[i]? = some a) (p : α → Bool) (b : α) :
    (l.set i b).countP p + (if p a then 1 else 0) = l.countP p + if p b then 1 else 0 := by
  obtain ⟨front, back, heq, hset⟩ := set_split h
  rw [hset, heq]
  simp only [List.countP_append, List.countP_cons]
  omega

theorem filterMap_set {α β : Type} {l : List α} {i : ℕ} {a : α} (h : l[i]? = some a)
    {f : α → Option β} {b : α}
    (hf : f b = f a) : (l.set i b).filterMap f = l.filterMap f := by
  obtain ⟨front, back, heq, hset⟩ := set_split h
  rw [hset, heq]
  simp only [List.filterMap_append, List.filterMap_cons, hf]

variable {cores : ℕ} {s : System} {i : ℕ} {r : Request}

theorem Inv.update (h : Inv cores s) (hr : s.requests[i]? = some r) {stage : Stage}
    (hjob : stage.job? = r.stage.job?) : Inv cores (s.update i ⟨r.holds, stage⟩) := by
  refine ⟨?_, h.capacity, ?_, h.nodup, h.accepted⟩
  · have hcount := countP_set hr Request.holds ⟨r.holds, stage⟩
    have hpermits := h.permits
    dsimp only at hcount
    simp only [System.update]
    omega
  · have hjobs := filterMap_set hr (f := fun r => r.stage.job?) (b := ⟨r.holds, stage⟩) hjob
    simp only [System.update, hjobs]
    exact h.jobs

theorem Inv.release (h : Inv cores s) (hr : s.requests[i]? = some r) (hholds : r.holds = true) {stage : Stage}
    (hjob : stage.job? = r.stage.job?) : Inv cores (s.release i stage) := by
  refine ⟨?_, h.capacity, ?_, h.nodup, h.accepted⟩
  · have hcount := countP_set hr Request.holds ⟨false, stage⟩
    have hpermits := h.permits
    simp only [hholds, if_true, Bool.false_eq_true, if_false] at hcount
    simp only [System.release, System.update]
    omega
  · have hjobs := filterMap_set hr (f := fun r => r.stage.job?) (b := ⟨false, stage⟩) hjob
    simp only [System.release, System.update, hjobs]
    exact h.jobs

theorem trySend_cases (pool : Pool) :
    (¬ (pool.queue.length < pool.capacity ∧ 0 < pool.live) ∧ pool.trySend.accepted = pool.accepted) ∨
      ((pool.queue.length < pool.capacity ∧ 0 < pool.live) ∧
        pool.trySend = { pool with queue := pool.queue ++ [pool.accepted], accepted := pool.accepted + 1 }) := by
  unfold Pool.trySend
  split_ifs with hroom
  · exact Or.inr ⟨hroom, rfl⟩
  · exact Or.inl ⟨hroom, rfl⟩

theorem Inv.trySend (h : Inv cores s) {holds : Bool} (hr : s.requests[i]? = some ⟨holds, .preparing⟩) :
    Inv cores (s.trySend i holds) := by
  unfold System.trySend
  rcases trySend_cases s.pool with ⟨-, hsame⟩ | ⟨-, hpool⟩
  · rw [if_pos hsame]
    exact h.update hr rfl
  · rw [if_neg (by rw [hpool]; simp), hpool]
    obtain ⟨front, back, heq, hset⟩ := set_split hr
    have hpermits := h.permits
    have hjobs := h.jobs
    rw [heq] at hpermits hjobs
    refine ⟨?_, h.capacity, ?_, ?_, ?_⟩
    · simp only [System.update, hset, List.countP_append, List.countP_cons] at hpermits ⊢
      exact hpermits
    · simp only [System.update, hset, List.filterMap_append, List.filterMap_cons, Stage.job?] at hjobs ⊢
      rw [List.range_succ]
      exact List.perm_middle.trans ((hjobs.cons _).trans (List.perm_append_singleton _ _).symm)
    · refine List.nodup_append.mpr ⟨h.nodup, List.nodup_singleton _, fun a ha b hb => ?_⟩
      rw [List.mem_singleton] at hb
      exact hb ▸ (h.accepted a ha).ne
    · intro job hjob
      rcases List.mem_append.mp hjob with hold | hnew
      · exact Nat.lt_succ_of_lt (h.accepted job hold)
      · rw [List.mem_singleton.mp hnew]
        exact Nat.lt_succ_self _

theorem pool_step {pool pool' : Pool} {event : WorkerPool.Event} (hevent : event ≠ .submit)
    (h : WorkerPool.step pool event = some pool') :
    pool'.capacity = pool.capacity ∧ pool'.accepted = pool.accepted ∧ pool'.queue.Sublist pool.queue := by
  cases WorkerPool.moves_of_step h with
  | submits => exact absurd rfl hevent
  | takes _ hqueue => exact ⟨rfl, rfl, hqueue ▸ List.sublist_cons_self _ _⟩
  | completes _ =>
    obtain ⟨hcapacity, haccepted, -, hqueue⟩ := WorkerPool.sendOutput_frame pool _ _
    exact ⟨hcapacity, haccepted, hqueue ▸ List.Sublist.refl _⟩
  | drops _ => exact ⟨rfl, rfl, List.Sublist.refl _⟩

theorem Inv.pool (h : Inv cores s) {pool : Pool} {event : WorkerPool.Event} (hevent : event ≠ .submit)
    (hstep : WorkerPool.step s.pool event = some pool) : Inv cores { s with pool := pool } := by
  obtain ⟨hcapacity, haccepted, hqueue⟩ := pool_step hevent hstep
  refine ⟨h.permits, hcapacity.trans h.capacity, ?_, h.nodup.sublist hqueue, fun job hjob => ?_⟩
  · rw [haccepted]
    exact h.jobs
  · rw [haccepted]
    exact h.accepted job (hqueue.subset hjob)

theorem inv_new (cores : ℕ) : Inv cores (new cores) where
  permits := rfl
  capacity := rfl
  jobs := List.Perm.refl _
  nodup := List.nodup_nil
  accepted := fun _ h => nomatch h

theorem inv_step {t : System} {event : Event} (h : Inv cores s) (hstep : step s event = some t) :
    Inv cores t := by
  cases moves_of_step hstep with
  | arrives hpos =>
    refine ⟨?_, h.capacity, ?_, h.nodup, h.accepted⟩
    · have hpermits := h.permits
      simp only [List.countP_append, List.countP_singleton, if_true]
      omega
    · rw [List.filterMap_append]
      exact (List.append_nil _).symm ▸ h.jobs
  | forwards hr => exact h.update hr rfl
  | sends hr => exact h.trySend hr
  | takes hpool => exact h.pool (by simp) hpool
  | completes hpool => exact h.pool (by simp) hpool
  | refuses hr => exact h.release hr rfl rfl
  | full hr => exact h.release hr rfl rfl
  | answers hr _ => exact h.release hr rfl rfl
  | withdraws hr => exact h.release hr rfl rfl
  | disconnects hr _ => exact h.release hr rfl rfl
  | closes hr => exact h.update hr rfl
  | drops _ hpool => exact h.pool (by simp) hpool

end Steps

section Runs

def NeverFull (s : System) : Prop := ∀ r ∈ s.requests, r.stage ≠ .queueFull

instance (event : Event) (P : Prop) [Decidable P] : Decidable (∀ i, event = .trySend i → P) :=
  match event with
  | .trySend i => decidable_of_iff P ⟨fun h _ _ => h, fun h => h i rfl⟩
  | .arrive | .forward _ | .take _ | .complete _ | .answer _ | .disconnect _ | .dropHandler _ =>
    isTrue fun _ h => nomatch h

def Accepts (pool : Pool) : Prop := pool.queue.length < pool.capacity ∧ 0 < pool.live

theorem NeverFull.set {s : System} (h : NeverFull s) {i : ℕ} {r : Request} (hr : r.stage ≠ .queueFull)
    {permits : ℕ} {pool : Pool} : NeverFull ⟨permits, s.requests.set i r, pool⟩ := by
  intro r' hr'
  rcases List.mem_or_eq_of_mem_set hr' with hold | rfl
  · exact h r' hold
  · exact hr

theorem neverFull_trySend {s : System} (h : NeverFull s) {i : ℕ} {holds : Bool}
    (hr : s.requests[i]? = some ⟨holds, .preparing⟩) : NeverFull (s.trySend i holds) ↔ Accepts s.pool := by
  unfold System.trySend
  rcases trySend_cases s.pool with ⟨hfull, hsame⟩ | ⟨hroom, hpool⟩
  · rw [if_pos hsame]
    refine iff_of_false (fun hnever => ?_) hfull
    have hi := (List.getElem?_eq_some_iff.mp hr).1
    exact hnever ⟨holds, .queueFull⟩ (List.mem_set hi _) rfl
  · rw [if_neg (by rw [hpool]; simp)]
    exact iff_of_true (h.set (by simp)) hroom

theorem neverFull_step {s t : System} {event : Event} (h : NeverFull s) (hstep : step s event = some t) :
    NeverFull t ↔ ∀ i, event = .trySend i → Accepts s.pool := by
  cases moves_of_step hstep with
  | sends hr =>
    rw [neverFull_trySend h hr]
    exact ⟨fun hroom _ _ => hroom, fun hroom => hroom _ rfl⟩
  | arrives _ =>
    refine iff_of_true (fun r hr => ?_) (by simp)
    rcases List.mem_append.mp hr with hold | hnew
    · exact h r hold
    · rw [List.mem_singleton.mp hnew]
      simp
  | forwards _ | refuses _ | answers _ _ | withdraws _ | closes _ =>
    exact iff_of_true (h.set (by simp)) (by simp)
  | takes _ | completes _ | drops _ _ => exact iff_of_true h (by simp)
  | full hr => exact absurd rfl (h _ (List.mem_of_getElem? hr))
  | @disconnects _ stage hr _ =>
    have hstage := h _ (List.mem_of_getElem? hr)
    exact iff_of_true (h.set (r := ⟨false, stage⟩) hstage) (by simp)

theorem inv_run {cores : ℕ} {events : List Event} : Throughout step (new cores) events (Inv cores) :=
  throughout_of_atEvents (inv_new cores) (fun _ _ _ h (_ : True) hstep => inv_step h hstep)
    fun _ _ _ _ _ _ => trivial

theorem accepts_iff {cores : ℕ} {s : System} (h : Inv cores s) :
    Accepts s.pool ↔ departed s < spare s ∧ 0 < s.pool.live := and_congr_left' (room_iff h)

theorem never_full_of_room {cores : ℕ} {events : List Event}
    (h : AtEvents step (new cores) events fun t event => ∀ i, event = .trySend i →
      departed t < spare t ∧ 0 < t.pool.live) : Throughout step (new cores) events NeverFull := by
  have hboth : Throughout step (new cores) events fun t => Inv cores t ∧ NeverFull t := by
    refine throughout_of_atEvents ⟨inv_new cores, fun _ hr => (nomatch hr)⟩ ?_ h
    rintro t event u ⟨hinv, ht⟩ hroom hstep
    exact ⟨inv_step hinv hstep, (neverFull_step ht hstep).mpr fun i hi => (accepts_iff hinv).mpr (hroom i hi)⟩
  exact fun front back t heq ht => (hboth front back t heq ht).2

/-- A run is free of `QueueFull` exactly if, at every `try_send`, the clients
that have left have fewer jobs in the queue than permits have none, and a
thread is left. -/
theorem queue_never_full_iff (cores : ℕ) {events : List Event} {s : System}
    (hrun : events.foldlM step (new cores) = some s) :
    Throughout step (new cores) events NeverFull ↔
      AtEvents step (new cores) events fun t event => ∀ i, event = .trySend i →
        departed t < spare t ∧ 0 < t.pool.live := by
  refine ⟨fun hnever => ?_, never_full_of_room⟩
  have hboth : Throughout step (new cores) events fun t => Inv cores t ∧ NeverFull t :=
    fun front back t heq ht => ⟨inv_run front back t heq ht, hnever front back t heq ht⟩
  refine atEvents_of_throughout hrun ?_ hboth
  rintro t event u ⟨hinv, ht⟩ hstep ⟨-, hu⟩ i hi
  exact (accepts_iff hinv).mp ((neverFull_step ht hstep).mp hu i hi)

/-- Three requests on one thread, each of which is answered. -/
theorem queue_never_full_answered :
    Throughout step (new 1) [.arrive, .arrive, .forward 0, .trySend 0, .take 0, .complete 0,
      .answer 0, .arrive,
        .forward 2, .trySend 2] NeverFull := by
  refine (queue_never_full_iff 1 (s := ⟨0, [⟨false, .submitted 0⟩, ⟨true, .admitted⟩, ⟨true, .submitted 1⟩],
    ⟨2, [1], [.idle], 2, [0], []⟩⟩) (by decide)).mpr ?_
  decide

/-- One thread has two permits. The first two requests fill the queue, the
client of the first one leaves, and a third request takes its permit. -/
theorem queue_full_after_disconnect :
    [Event.arrive, .arrive, .forward 0, .forward 1, .trySend 0, .trySend 1, .disconnect 0, .arrive,
      .forward 2,
      .trySend 2].foldlM step (new 1) =
        some ⟨0, [⟨false, .submitted 0⟩, ⟨true, .submitted 1⟩, ⟨true, .queueFull⟩],
          ⟨2, [0, 1], [.idle], 2, [], []⟩⟩ := by
  decide

end Runs

section Patience

/-- No client leaves while the worker prepares its job or has it in the queue,
and no handler is dropped. -/
def Patient (s : System) (event : Event) : Prop :=
  (∀ i r, event = .disconnect i → s.requests[i]? = some r → r.stage ≠ .preparing ∧ r.queued s.pool = false) ∧
    ∀ i, event ≠ .dropHandler i

/-- Everything that may fill the queue has a permit, and every thread is
there. -/
structure Covered (cores : ℕ) (s : System) : Prop where
  holders : ∀ r ∈ s.requests, r.stage = .preparing ∨ r.queued s.pool = true → r.holds = true
  dropped : s.pool.dropped = []
  live : s.pool.live = cores

variable {cores : ℕ} {s : System} {i : ℕ}

theorem Covered.set (h : Covered cores s) {r : Request}
    (hr : r.stage = .preparing ∨ r.queued s.pool = true → r.holds = true) {permits : ℕ} :
    Covered cores ⟨permits, s.requests.set i r, s.pool⟩ := by
  refine ⟨fun r' hr' => ?_, h.dropped, h.live⟩
  rcases List.mem_or_eq_of_mem_set hr' with hold | rfl
  · exact h.holders r' hold
  · exact hr

theorem Covered.pool (h : Covered cores s) {pool : Pool} {event : WorkerPool.Event}
    (hevent : (∃ worker, event = .take worker) ∨ ∃ worker, event = .complete worker)
    (hstep : WorkerPool.step s.pool event = some pool) : Covered cores { s with pool := pool } := by
  have hqueue : pool.queue.Sublist s.pool.queue := by
    refine (pool_step ?_ hstep).2.2
    rcases hevent with ⟨worker, rfl⟩ | ⟨worker, rfl⟩ <;> simp
  have hdropped : pool.dropped = s.pool.dropped := by
    rcases hevent with ⟨worker, rfl⟩ | ⟨worker, rfl⟩
    · cases WorkerPool.moves_of_step hstep with
      | takes _ _ => rfl
    · cases WorkerPool.moves_of_step hstep with
      | completes _ => exact (WorkerPool.sendOutput_frame _ _ _).2.2.1
  refine ⟨fun r hr hbusy => h.holders r hr (hbusy.imp_right fun hqueued => ?_), hdropped.trans h.dropped, ?_⟩
  · unfold Request.queued at hqueued ⊢
    cases hjob : r.stage.job? with
    | none => simp [hjob] at hqueued
    | some job =>
      simp only [hjob, Option.elim_some, decide_eq_true_eq] at hqueued ⊢
      exact hqueue.subset hqueued
  · rcases WorkerPool.live_step hstep with ⟨⟨_, job, -, -, habandoned⟩, -⟩ | ⟨-, hlive⟩
    · rw [h.dropped] at habandoned
      cases habandoned
    · exact hlive.trans h.live

theorem Covered.trySend (h : Covered cores s) (hinv : Inv cores s) {holds : Bool}
    (hr : s.requests[i]? = some ⟨holds, .preparing⟩) : Covered cores (s.trySend i holds) := by
  have hholds : holds = true := h.holders _ (List.mem_of_getElem? hr) (Or.inl rfl)
  unfold System.trySend
  rcases trySend_cases s.pool with ⟨-, hsame⟩ | ⟨-, hpool⟩
  · rw [if_pos hsame]
    exact h.set fun _ => hholds
  · rw [if_neg (by rw [hpool]; simp), hpool]
    refine ⟨fun r hmem hbusy => ?_, h.dropped, h.live⟩
    rcases List.mem_or_eq_of_mem_set hmem with hold | rfl
    · refine h.holders r hold (hbusy.imp_right fun hqueued => ?_)
      unfold Request.queued at hqueued ⊢
      cases hjob : r.stage.job? with
      | none => simp [hjob] at hqueued
      | some job =>
        -- an older job is not the one that has just come in
        have hlt : job < s.pool.accepted :=
          List.mem_range.mp (hinv.jobs.subset (List.mem_filterMap.mpr ⟨r, hold, hjob⟩))
        simp only [hjob, Option.elim_some, decide_eq_true_eq, List.mem_append,
          List.mem_singleton] at hqueued ⊢
        exact hqueued.resolve_right hlt.ne
    · exact hholds

theorem covered_new (cores : ℕ) : Covered cores (new cores) :=
  ⟨fun _ h => (nomatch h), rfl, WorkerPool.live_new cores⟩

theorem covered_step {t : System} {event : Event} (h : Covered cores s) (hinv : Inv cores s)
    (hpatient : Patient s event) (hstep : step s event = some t) : Covered cores t := by
  cases moves_of_step hstep with
  | arrives _ =>
    refine ⟨fun r hr hbusy => ?_, h.dropped, h.live⟩
    rcases List.mem_append.mp hr with hold | hnew
    · exact h.holders r hold hbusy
    · rw [List.mem_singleton.mp hnew]
  | forwards _ => exact h.set fun _ => rfl
  | sends hr => exact h.trySend hinv hr
  | takes hpool => exact h.pool (Or.inl ⟨_, rfl⟩) hpool
  | completes hpool => exact h.pool (Or.inr ⟨_, rfl⟩) hpool
  | refuses _ | full _ | withdraws _ => exact h.set (by simp [Request.queued, Stage.job?])
  | answers _ hover =>
    refine h.set fun hbusy => absurd (hbusy.resolve_left (by simp)) fun hqueued => hover (Or.inl ?_)
    simpa [Request.queued, Stage.job?] using hqueued
  | @disconnects i stage hr _ =>
    have hidle := hpatient.1 i _ rfl hr
    refine h.set (r := ⟨false, stage⟩) fun hbusy => ?_
    rcases hbusy with hpreparing | hqueued
    · exact absurd hpreparing hidle.1
    · exact nomatch hidle.2.symm.trans hqueued
  | closes _ | drops _ _ => exact absurd rfl (hpatient.2 _)

/-- With patient clients the permits do bound the queue. -/
theorem never_full_of_patient (cores : ℕ) {events : List Event} {s : System}
    (hrun : events.foldlM step (new cores) = some s)
    (hpatient : AtEvents step (new cores) events Patient) :
    Throughout step (new cores) events NeverFull := by
  have hcovered : Throughout step (new cores) events fun t => Inv cores t ∧ Covered cores t := by
    refine throughout_of_atEvents ⟨inv_new cores, covered_new cores⟩ ?_ hpatient
    rintro t event u ⟨hinv, ht⟩ hevent hstep
    exact ⟨inv_step hinv hstep, covered_step ht hinv hevent hstep⟩
  refine never_full_of_room ?_
  rintro front event back t rfl ht i rfl
  obtain ⟨hinv, hcov⟩ := hcovered front (.trySend i :: back) t rfl ht
  obtain ⟨u, hstep, -⟩ := step_of_run hrun ht
  cases moves_of_step hstep with
  | @sends _ holds hr =>
    have hmem := List.mem_of_getElem? hr
    have hholds : holds = true := hcov.holders _ hmem (Or.inl rfl)
    have hdeparted : departed t = 0 := by
      refine List.countP_eq_zero.mpr fun r hr' hleft => ?_
      rw [Bool.and_eq_true, Bool.not_eq_true'] at hleft
      exact nomatch hleft.1.symm.trans (hcov.holders r hr' (Or.inr hleft.2))
    have hspare : 0 < spare t :=
      Nat.add_pos_right _ (List.countP_pos_iff.mpr ⟨_, hmem, by simp [hholds, Request.queued, Stage.job?]⟩)
    have hheld : 0 < t.requests.countP Request.holds := List.countP_pos_iff.mpr ⟨_, hmem, hholds⟩
    have hpermits := hinv.permits
    rw [hdeparted, hcov.live]
    exact ⟨hspare, by omega⟩

/-- The client of the first request leaves while a thread runs its job. -/
theorem never_full_client_leaves_running_job :
    Throughout step (new 1)
      [.arrive, .forward 0, .trySend 0, .take 0, .disconnect 0, .arrive, .forward 1,
        .trySend 1] NeverFull := by
  refine never_full_of_patient 1 (s := ⟨1, [⟨false, .submitted 0⟩, ⟨true, .submitted 1⟩],
    ⟨2, [1], [.running 0], 2, [], []⟩⟩) (by decide) fun front event back t heq ht => ⟨?_, ?_⟩
  · rintro i r rfl hr
    obtain ⟨rfl, rfl, -⟩ : front = [.arrive, .forward 0, .trySend 0, .take 0] ∧ i = 0 ∧
        back = [.arrive, .forward 1, .trySend 1] := by
      simpa [List.cons_eq_append_iff] using heq
    cases ht
    cases hr
    decide
  · rintro i rfl
    simp [List.cons_eq_append_iff] at heq

end Patience

end ProgramExplorer.LoadBalancer
