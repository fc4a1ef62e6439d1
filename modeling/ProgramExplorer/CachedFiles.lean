import ProgramExplorer.BlobKeys
import ProgramExplorer.Transitions

/-!
# Cache entries and their files

A blob or an image is an entry of a cache in memory and a file in a directory.
A call that finds the entry opens the file afterwards, a call that does not
publishes the file before the entry is inserted, and the listener of an evicted
entry unlinks the file at some later time. Calls and listeners take their steps
in any order.
-/

set_option autoImplicit false

namespace ProgramExplorer.CachedFiles
open BlobKeys Transitions

section System

inductive Store where
  | blobs
  | imgs
  deriving DecidableEq

structure Key where
  store : Store
  blob : BlobKey
  deriving DecidableEq

inductive Error where
  | blobMissing
  | missingFile
  deriving DecidableEq

def Store.missing : Store → Error
  | .blobs => .blobMissing
  | .imgs => .missingFile

inductive Outcome where
  | fresh
  | opened (file : ℕ)
  | failed
  | error (e : Error)
  deriving DecidableEq

/-- Where a call is: it works on the file, has published it, waits for the call
that does, or has got an entry that is not fresh. -/
inductive Phase where
  | idle
  | running (key : Key)
  | published (key : Key) (file : ℕ)
  | waiting (key : Key)
  | found (key : Key)
  | ended (outcome : Outcome)
  deriving DecidableEq

def Phase.init? : Phase → Option Key
  | .running key | .published key _ => some key
  | .idle | .waiting _ | .found _ | .ended _ => none

inductive Event where
  | lookup (call : ℕ) (key : Key)
  | publish (call : ℕ) (key : Key)
  | insert (call : ℕ) (key : Key) (file : ℕ)
  | fail (call : ℕ) (key : Key)
  | cancel (call : ℕ) (key : Key)
  | evict (key : Key) (file : ℕ)
  | listener (key : Key) (file : ℕ)
  | openat (call : ℕ) (key : Key)
  deriving DecidableEq

/-- Files are numbered in the order in which they are published, and an entry
has the number of its file. `inits` has the call whose future is running for a
key, and `evicted` the entries whose listener is still to run. -/
structure State where
  next : ℕ
  files : Key → Option ℕ
  cached : Key → Option ℕ
  inits : Key → Option ℕ
  evicted : List (Key × ℕ)
  calls : ℕ → Phase

/-- What is in the directory when the process starts is in the cache. -/
def load (onDisk : Key → Bool) : State where
  next := 1
  files key := if onDisk key then some 0 else none
  cached key := if onDisk key then some 0 else none
  inits _ := none
  evicted := []
  calls _ := .idle

def State.setCall (s : State) (call : ℕ) (phase : Phase) : State :=
  { s with calls := Function.update s.calls call phase }

def State.start (s : State) (call : ℕ) (key : Key) : State :=
  { s.setCall call (.running key) with inits := Function.update s.inits key (some call) }

def State.publish (s : State) (call : ℕ) (key : Key) : State :=
  { s.setCall call (.published key s.next) with
    next := s.next + 1, files := Function.update s.files key (some s.next) }

def State.settle (s : State) (call : ℕ) (key : Key) (own others : Phase) : State :=
  { s with
    inits := Function.update s.inits key none
    calls := fun c => if c = call then own else if s.calls c = .waiting key then others else s.calls c }

def State.insert (s : State) (call : ℕ) (key : Key) (file : ℕ) : State :=
  { s.settle call key (.ended .fresh) (.found key) with cached := Function.update s.cached key (some file) }

def State.evict (s : State) (key : Key) (file : ℕ) : State :=
  { s with cached := Function.update s.cached key none, evicted := (key, file) :: s.evicted }

def State.removeBlob (s : State) (key : Key) (file : ℕ) : State :=
  { s with files := Function.update s.files key none, evicted := s.evicted.erase (key, file) }

/-- A future that fails gives its error to all who wait; after one that is
dropped they look again. -/
def step (s : State) : Event → Option State
  | .lookup call key =>
    if s.calls call ≠ .idle then none
    else
      match s.cached key, s.inits key with
      | some _, _ => some (s.setCall call (.found key))
      | none, some _ => some (s.setCall call (.waiting key))
      | none, none => some (s.start call key)
  | .publish call key => if s.calls call = .running key then some (s.publish call key) else none
  | .insert call key file =>
    if s.calls call = .published key file then some (s.insert call key file) else none
  | .fail call key =>
    if (s.calls call).init? = some key then some (s.settle call key (.ended .failed) (.ended .failed))
    else none
  | .cancel call key =>
    if (s.calls call).init? = some key then some (s.settle call key (.ended .failed) .idle) else none
  | .evict key file => if s.cached key = some file then some (s.evict key file) else none
  | .listener key file => if (key, file) ∈ s.evicted then some (s.removeBlob key file) else none
  | .openat call key =>
    if s.calls call = .found key then
      some (s.setCall call (.ended ((s.files key).elim (.error key.store.missing) .opened)))
    else none

def run (onDisk : Key → Bool) (events : List Event) : Option State := events.foldlM step (load onDisk)

inductive Moves (s : State) : Event → State → Prop where
  | finds {call : ℕ} {key : Key} {file : ℕ} (hidle : s.calls call = .idle)
      (hcached : s.cached key = some file) :
    Moves s (.lookup call key) (s.setCall call (.found key))
  | waits {call other : ℕ} {key : Key} (hidle : s.calls call = .idle) (hcached : s.cached key = none)
      (hinits : s.inits key = some other) : Moves s (.lookup call key) (s.setCall call (.waiting key))
  | starts {call : ℕ} {key : Key} (hidle : s.calls call = .idle) (hcached : s.cached key = none)
      (hinits : s.inits key = none) :
    Moves s (.lookup call key) (s.start call key)
  | publishes {call : ℕ} {key : Key} (h : s.calls call = .running key) :
    Moves s (.publish call key) (s.publish call key)
  | inserts {call : ℕ} {key : Key} {file : ℕ} (h : s.calls call = .published key file) :
    Moves s (.insert call key file) (s.insert call key file)
  | fails {call : ℕ} {key : Key} (h : (s.calls call).init? = some key) :
    Moves s (.fail call key) (s.settle call key (.ended .failed) (.ended .failed))
  | cancels {call : ℕ} {key : Key} (h : (s.calls call).init? = some key) :
    Moves s (.cancel call key) (s.settle call key (.ended .failed) .idle)
  | evicts {key : Key} {file : ℕ} (h : s.cached key = some file) :
      Moves s (.evict key file) (s.evict key file)
  | unlinks {key : Key} {file : ℕ} (h : (key, file) ∈ s.evicted) :
    Moves s (.listener key file) (s.removeBlob key file)
  | opens {call : ℕ} {key : Key} (h : s.calls call = .found key) :
    Moves s (.openat call key) (s.setCall call (.ended ((s.files key).elim (.error key.store.missing) .opened)))

theorem moves_of_step {s t : State} {event : Event} (h : step s event = some t) : Moves s event t := by
  cases event with
  | lookup call key =>
    obtain ⟨hidle, h⟩ := Option.ite_none_left_eq_some.mp h
    split at h
    · next hcached =>
      cases h
      exact .finds (not_not.mp hidle) hcached
    · next hcached hinits =>
      cases h
      exact .waits (not_not.mp hidle) hcached hinits
    · next hcached hinits =>
      cases h
      exact .starts (not_not.mp hidle) hcached hinits
  | publish call key =>
    obtain ⟨hcall, h⟩ := Option.ite_none_right_eq_some.mp h
    cases h
    exact .publishes hcall
  | insert call key file =>
    obtain ⟨hcall, h⟩ := Option.ite_none_right_eq_some.mp h
    cases h
    exact .inserts hcall
  | fail call key =>
    obtain ⟨hcall, h⟩ := Option.ite_none_right_eq_some.mp h
    cases h
    exact .fails hcall
  | cancel call key =>
    obtain ⟨hcall, h⟩ := Option.ite_none_right_eq_some.mp h
    cases h
    exact .cancels hcall
  | evict key file =>
    obtain ⟨hcached, h⟩ := Option.ite_none_right_eq_some.mp h
    cases h
    exact .evicts hcached
  | listener key file =>
    obtain ⟨hevicted, h⟩ := Option.ite_none_right_eq_some.mp h
    cases h
    exact .unlinks hevicted
  | openat call key =>
    obtain ⟨hcall, h⟩ := Option.ite_none_right_eq_some.mp h
    cases h
    exact .opens hcall

end System

section Fields

variable (s : State) (call c file : ℕ) (key k : Key)

theorem setCall_calls (phase : Phase) :
    (s.setCall call phase).calls c = if c = call then phase else s.calls c := Function.update_apply ..

theorem start_inits : (s.start call key).inits k = if k = key then some call else s.inits k :=
  Function.update_apply ..

theorem publish_files : (s.publish call key).files k = if k = key then some s.next else s.files k :=
  Function.update_apply ..

theorem settle_calls (own others : Phase) : (s.settle call key own others).calls c =
    if c = call then own else if s.calls c = .waiting key then others else s.calls c := rfl

theorem settle_inits (own others : Phase) :
    (s.settle call key own others).inits k = if k = key then none else s.inits k := Function.update_apply ..

theorem insert_cached : (s.insert call key file).cached k = if k = key then some file else s.cached k :=
  Function.update_apply ..

theorem evict_cached : (s.evict key file).cached k = if k = key then none else s.cached k :=
  Function.update_apply ..

theorem removeBlob_files : (s.removeBlob key file).files k = if k = key then none else s.files k :=
  Function.update_apply ..

end Fields

section Order

def Newest (s : State) (key : Key) (file : ℕ) : Prop :=
  file < s.next ∧ ∀ m, s.files key = some m → m ≤ file

/-- One future at a time runs for a key, and none for a key in the cache. -/
structure Order (s : State) : Prop where
  init : ∀ call key, (s.calls call).init? = some key → s.inits key = some call
  published : ∀ call key file, s.calls call = .published key file → Newest s key file
  cached : ∀ key file, s.cached key = some file → s.inits key = none ∧ Newest s key file

theorem load_eq_some {onDisk : Key → Bool} {key : Key} {file : ℕ}
    (h : (if onDisk key then some 0 else none) = some file) : onDisk key = true ∧ file = 0 := by
  obtain ⟨hdisk, h⟩ := Option.ite_none_right_eq_some.mp h
  exact ⟨hdisk, (Option.some.inj h).symm⟩

theorem order_load (onDisk : Key → Bool) : Order (load onDisk) where
  init := fun _ _ h => nomatch h
  published := fun _ _ _ h => nomatch h
  cached := by
    intro key file h
    obtain ⟨-, rfl⟩ := load_eq_some h
    exact ⟨rfl, Nat.zero_lt_one, fun m hm => (load_eq_some hm).2.le⟩

section Steps

variable {s : State} {call file : ℕ} {key : Key}

/-- A call that has no file under way may go anywhere where it has none. -/
theorem Order.setCall (h : Order s) {phase : Phase} (hphase : phase.init? = none) :
    Order (s.setCall call phase) := by
  refine ⟨fun c k hc => ?_, fun c k m hc => ?_, h.cached⟩
  · rw [setCall_calls] at hc
    split_ifs at hc
    · exact nomatch hphase.symm.trans hc
    · exact h.init c k hc
  · rw [setCall_calls] at hc
    split_ifs at hc
    · rw [hc] at hphase
      cases hphase
    · exact h.published c k m hc

theorem Order.start (h : Order s) (hinits : s.inits key = none) (hcached : s.cached key = none) :
    Order (s.start call key) := by
  refine ⟨fun c k hc => ?_, fun c k m hc => ?_, fun k m hk => ?_⟩
  · rw [State.start, setCall_calls] at hc
    rw [start_inits]
    split_ifs at hc with heq
    · cases hc
      rw [if_pos rfl, heq]
    · have hold := h.init c k hc
      rw [if_neg, hold]
      rintro rfl
      exact nomatch hinits.symm.trans hold
  · rw [State.start, setCall_calls] at hc
    split_ifs at hc
    exact h.published c k m hc
  · have hold := h.cached k m hk
    rw [start_inits, if_neg]
    · exact hold
    · rintro rfl
      exact nomatch hcached.symm.trans hk

theorem Newest.publish {k : Key} {m : ℕ} (h : Newest s k m) (hne : k ≠ key) :
    Newest (s.publish call key) k m := by
  refine ⟨Nat.lt_succ_of_lt h.1, fun n hn => h.2 n ?_⟩
  rwa [publish_files, if_neg hne] at hn

theorem newest_publish : Newest (s.publish call key) key s.next := by
  refine ⟨Nat.lt_succ_self _, fun n hn => ?_⟩
  rw [publish_files, if_pos rfl] at hn
  exact (Option.some.inj hn).ge

theorem Order.publish (h : Order s) (hcall : s.calls call = .running key) : Order (s.publish call key) := by
  have hinits : s.inits key = some call := h.init call key (by rw [hcall]; rfl)
  refine ⟨fun c k hc => ?_, fun c k m hc => ?_, fun k m hk => ?_⟩
  · rw [State.publish, setCall_calls] at hc
    split_ifs at hc with heq
    · cases hc
      exact hinits.trans (congrArg some heq.symm)
    · exact h.init c k hc
  · rw [State.publish, setCall_calls] at hc
    split_ifs at hc with heq
    · cases hc
      exact newest_publish
    · refine (h.published c k m hc).publish ?_
      rintro rfl
      have hsame := h.init c k (by rw [hc]; rfl)
      exact heq (Option.some.inj (hsame.symm.trans hinits))
  · have hold := h.cached k m hk
    refine ⟨hold.1, hold.2.publish ?_⟩
    rintro rfl
    exact nomatch hold.1.symm.trans hinits

/-- The other calls that have a file under way have it for other keys. -/
theorem Order.settle (h : Order s) {own others : Phase} (hcall : (s.calls call).init? = some key)
    (hown : own.init? = none) (hothers : others.init? = none) : Order (s.settle call key own others) := by
  have hinits := h.init call key hcall
  have hstays : ∀ c k, ((s.settle call key own others).calls c).init? = some k →
      c ≠ call ∧ (s.settle call key own others).calls c = s.calls c := by
    intro c k hc
    rw [settle_calls] at hc ⊢
    split_ifs at hc ⊢ with heq hwait
    · exact nomatch hown.symm.trans hc
    · exact nomatch hothers.symm.trans hc
    · exact ⟨heq, rfl⟩
  refine ⟨fun c k hc => ?_, fun c k m hc => ?_, fun k m hk => ?_⟩
  · obtain ⟨hne, heq⟩ := hstays c k hc
    rw [heq] at hc
    have hold := h.init c k hc
    rw [settle_inits, if_neg, hold]
    rintro rfl
    exact hne (Option.some.inj (hold.symm.trans hinits))
  · obtain ⟨-, heq⟩ := hstays c k (by rw [hc]; rfl)
    exact h.published c k m (heq.symm.trans hc)
  · have hold := h.cached k m hk
    rw [settle_inits, if_neg]
    · exact hold
    · rintro rfl
      exact nomatch hold.1.symm.trans hinits

theorem Order.insert (h : Order s) (hcall : s.calls call = .published key file) :
    Order (s.insert call key file) := by
  have hsettled : Order (s.settle call key (.ended .fresh) (.found key)) :=
    h.settle (by rw [hcall]; rfl) rfl rfl
  refine ⟨hsettled.init, hsettled.published, fun k m hk => ?_⟩
  rw [insert_cached] at hk
  split_ifs at hk with heq
  · cases hk
    rw [heq]
    exact ⟨(settle_inits s call key key (.ended .fresh) (.found key)).trans (if_pos rfl),
      h.published call key file hcall⟩
  · exact hsettled.cached k m hk

theorem Newest.removeBlob {k : Key} {m : ℕ} (h : Newest s k m) : Newest (s.removeBlob key file) k m := by
  refine ⟨h.1, fun n hn => h.2 n ?_⟩
  rw [removeBlob_files] at hn
  split_ifs at hn
  exact hn

end Steps

theorem order_step {s t : State} {event : Event} (h : Order s) (hstep : step s event = some t) : Order t := by
  cases moves_of_step hstep with
  | finds _ _ => exact h.setCall rfl
  | waits _ _ _ => exact h.setCall rfl
  | starts _ hcached hinits => exact h.start hinits hcached
  | publishes hcall => exact h.publish hcall
  | inserts hcall => exact h.insert hcall
  | fails hcall => exact h.settle hcall rfl rfl
  | cancels hcall => exact h.settle hcall rfl rfl
  | evicts _ =>
    refine ⟨h.init, h.published, fun k m hk => ?_⟩
    rw [evict_cached] at hk
    split_ifs at hk
    exact h.cached k m hk
  | unlinks _ =>
    exact ⟨h.init, fun c k m hc => (h.published c k m hc).removeBlob,
      fun k m hk => ⟨(h.cached k m hk).1, (h.cached k m hk).2.removeBlob⟩⟩
  | opens _ => exact h.setCall rfl

end Order

section History

inductive Touch where
  | published
  | unlinked
  deriving DecidableEq

def touch (key : Key) : Event → Option Touch
  | .publish _ k => if k = key then some .published else none
  | .listener k _ => if k = key then some .unlinked else none
  | _ => none

def lastTouch (key : Key) (events : List Event) : Option Touch := events.reverse.findSome? (touch key)

theorem lastTouch_concat (key : Key) (events : List Event) (event : Event) :
    lastTouch key (events ++ [event]) = (touch key event).or (lastTouch key events) := by
  rw [lastTouch, List.reverse_append, List.reverse_singleton, List.singleton_append, List.findSome?_cons]
  cases touch key event <;> rfl

theorem files_step {s t : State} {event : Event} (hstep : step s event = some t) (key : Key) :
    s.next ≤ t.next ∧
      match touch key event with
      | some .published => t.files key = some s.next ∧ s.next < t.next
      | some .unlinked => t.files key = none
      | none => t.files key = s.files key := by
  cases moves_of_step hstep with
  | @publishes call k _ =>
    refine ⟨Nat.le_succ _, ?_⟩
    rw [touch, publish_files]
    by_cases hk : k = key
    · rw [if_pos hk, if_pos hk.symm]
      exact ⟨rfl, Nat.lt_succ_self _⟩
    · rw [if_neg hk, if_neg (Ne.symm hk)]
  | @unlinks k file _ =>
    refine ⟨le_rfl, ?_⟩
    rw [touch, removeBlob_files]
    by_cases hk : k = key
    · rw [if_pos hk, if_pos hk.symm]
    · rw [if_neg hk, if_neg (Ne.symm hk)]
  | finds _ _ | waits _ _ _ | starts _ _ _ | inserts _ | fails _ | cancels _ | evicts _ | opens _ =>
    exact ⟨le_rfl, rfl⟩

/-- A file is there exactly if it was published after it was last unlinked, or
was there from the start. -/
theorem file_run {onDisk : Key → Bool} {events : List Event} {s : State} (hrun : run onDisk events = some s)
    (key : Key) :
    s.files key ≠ none ↔ lastTouch key events = some .published ∨
      (lastTouch key events = none ∧ onDisk key = true) := by
  induction events using List.reverseRecOn generalizing s with
  | nil =>
    cases hrun
    simp [load, lastTouch]
  | append_singleton events event ih =>
    obtain ⟨u, hu, hstep⟩ := foldlM_concat.mp hrun
    have hfiles := (files_step hstep key).2
    rw [lastTouch_concat]
    cases htouch : touch key event with
    | none =>
      rw [htouch] at hfiles
      rw [hfiles, Option.none_or]
      exact ih hu
    | some what =>
      rw [htouch] at hfiles
      cases what with
      | published => simp [hfiles.1]
      | unlinked => simp [hfiles]

/-- From the eviction of the newest file on: a newer one is there exactly if
one was published after the key was last unlinked. -/
theorem newer_run {s t : State} {key : Key} {file : ℕ} {events : List Event} (hs : Newest s key file)
    (hrun : events.foldlM step s = some t) :
    file < t.next ∧ ((∃ m, t.files key = some m ∧ file < m) ↔ lastTouch key events = some .published) := by
  induction events using List.reverseRecOn generalizing t with
  | nil =>
    cases hrun
    refine ⟨hs.1, iff_of_false ?_ (by simp [lastTouch])⟩
    rintro ⟨m, hm, hlt⟩
    exact absurd (hs.2 m hm) (Nat.not_le.mpr hlt)
  | append_singleton events event ih =>
    obtain ⟨u, hu, hstep⟩ := foldlM_concat.mp hrun
    obtain ⟨hlt, hiff⟩ := ih hu
    obtain ⟨hnext, hfiles⟩ := files_step hstep key
    refine ⟨hlt.trans_le hnext, ?_⟩
    rw [lastTouch_concat]
    cases htouch : touch key event with
    | none =>
      rw [htouch] at hfiles
      rw [hfiles, Option.none_or]
      exact hiff
    | some what =>
      rw [htouch] at hfiles
      cases what with
      | published => simp [hfiles.1, hlt]
      | unlinked => simp [hfiles]

theorem order_run {onDisk : Key → Bool} {events : List Event} {s : State}
    (hrun : run onDisk events = some s) : Order s := by
  induction events using List.reverseRecOn generalizing s with
  | nil =>
    cases hrun
    exact order_load onDisk
  | append_singleton events event ih =>
    obtain ⟨u, hu, hstep⟩ := foldlM_concat.mp hrun
    exact order_step (ih hu) hstep

def Known (onDisk : Key → Bool) (events : List Event) (key : Key) : Prop :=
  lastTouch key events ≠ none ∨ onDisk key = true

theorem Known.concat {onDisk : Key → Bool} {events : List Event} {key : Key} (h : Known onDisk events key)
    (event : Event) : Known onDisk (events ++ [event]) key := by
  refine h.imp_left fun hlast => ?_
  rw [lastTouch_concat]
  cases touch key event with
  | none => exact hlast
  | some what => simp

def Phase.had? : Phase → Option Key
  | .published key _ | .found key => some key
  | .idle | .running _ | .waiting _ | .ended _ => none

/-- What calls have published and found was there, and a listener runs for an
entry that was evicted. -/
structure Seen (onDisk : Key → Bool) (events : List Event) (s : State) : Prop where
  calls : ∀ call key, (s.calls call).had? = some key → Known onDisk events key
  cached : ∀ key file, s.cached key = some file → Known onDisk events key
  evicted : ∀ e ∈ s.evicted, Event.evict e.1 e.2 ∈ events

section Steps

variable {onDisk : Key → Bool} {events : List Event} {event : Event} {s t : State} {call : ℕ} {key : Key}

theorem Seen.concat (h : Seen onDisk events s)
    (hcalls : ∀ c k, (t.calls c).had? = some k → t.calls c = s.calls c ∨ Known onDisk (events ++ [event]) k)
    (hcached : ∀ k file, t.cached k = some file →
      s.cached k = some file ∨ Known onDisk (events ++ [event]) k)
    (hevicted : ∀ e ∈ t.evicted, e ∈ s.evicted ∨ event = .evict e.1 e.2) :
    Seen onDisk (events ++ [event]) t := by
  refine ⟨fun c k hc => ?_, fun k file hk => ?_, fun e he => ?_⟩
  · rcases hcalls c k hc with hsame | hknown
    · exact (h.calls c k (hsame ▸ hc)).concat event
    · exact hknown
  · rcases hcached k file hk with hold | hknown
    · exact (h.cached k file hold).concat event
    · exact hknown
  · rcases hevicted e he with hold | rfl
    · exact List.mem_append_left _ (h.evicted e hold)
    · exact List.mem_append_right _ (List.mem_singleton_self _)

theorem Seen.setCall (h : Seen onDisk events s) {phase : Phase}
    (hphase : ∀ k, phase.had? = some k → Known onDisk (events ++ [event]) k) :
    Seen onDisk (events ++ [event]) (s.setCall call phase) := by
  refine h.concat (fun c k hc => ?_) (fun _ _ => Or.inl) fun _ => Or.inl
  rw [setCall_calls] at hc ⊢
  split_ifs at hc ⊢
  · exact Or.inr (hphase k hc)
  · exact Or.inl rfl

theorem Seen.settle (h : Seen onDisk events s) {own others : Phase} (hown : own.had? = none)
    (hothers : ∀ k, others.had? = some k → Known onDisk (events ++ [event]) k) :
    Seen onDisk (events ++ [event]) (s.settle call key own others) := by
  refine h.concat (fun c k hc => ?_) (fun _ _ => Or.inl) fun _ => Or.inl
  rw [settle_calls] at hc ⊢
  split_ifs at hc ⊢
  · exact nomatch hown.symm.trans hc
  · exact Or.inr (hothers k hc)
  · exact Or.inl rfl

end Steps

theorem seen_step {onDisk : Key → Bool} {events : List Event} {event : Event} {s t : State}
    (h : Seen onDisk events s) (hstep : step s event = some t) : Seen onDisk (events ++ [event]) t := by
  cases moves_of_step hstep with
  | finds _ hcached =>
    refine h.setCall fun k hk => ?_
    cases hk
    exact (h.cached _ _ hcached).concat _
  | waits _ _ _ => exact h.setCall fun k hk => nomatch hk
  | @starts call key _ _ _ =>
    have hcalls : Seen onDisk (events ++ [.lookup call key]) (s.setCall call (.running key)) :=
      h.setCall fun k hk => nomatch hk
    exact ⟨hcalls.calls, hcalls.cached, hcalls.evicted⟩
  | @publishes call key _ =>
    have hcalls : Seen onDisk (events ++ [.publish call key])
        (s.setCall call (.published key s.next)) := by
      refine h.setCall fun k hk => ?_
      cases hk
      exact Or.inl (by simp [lastTouch_concat, touch])
    exact ⟨hcalls.calls, hcalls.cached, hcalls.evicted⟩
  | @inserts call key file hcall =>
    have hknown : Known onDisk (events ++ [.insert call key file]) key :=
      (h.calls call key (by rw [hcall]; rfl)).concat _
    have hsettled : Seen onDisk (events ++ [.insert call key file])
        (s.settle call key (.ended .fresh) (.found key)) := by
      refine h.settle rfl fun k hk => ?_
      cases hk
      exact hknown
    refine ⟨hsettled.calls, fun k m hk => ?_, hsettled.evicted⟩
    rw [insert_cached] at hk
    split_ifs at hk with heq
    · exact heq ▸ hknown
    · exact hsettled.cached k m hk
  | fails _ => exact h.settle rfl fun k hk => nomatch hk
  | cancels _ => exact h.settle rfl fun k hk => nomatch hk
  | evicts _ =>
    refine h.concat (fun _ _ _ => Or.inl rfl) (fun k m hk => Or.inl ?_) fun e he => ?_
    · rw [evict_cached] at hk
      split_ifs at hk
      exact hk
    · rcases List.mem_cons.mp he with rfl | hold
      · exact Or.inr rfl
      · exact Or.inl hold
  | unlinks _ =>
    exact h.concat (fun _ _ _ => Or.inl rfl) (fun _ _ => Or.inl)
      fun e he => Or.inl (List.mem_of_mem_erase he)
  | opens _ => exact h.setCall fun k hk => nomatch hk

theorem seen_run {onDisk : Key → Bool} {events : List Event} {s : State}
    (hrun : run onDisk events = some s) : Seen onDisk events s := by
  induction events using List.reverseRecOn generalizing s with
  | nil =>
    cases hrun
    exact ⟨fun _ _ h => (nomatch h), fun key file h => Or.inr (load_eq_some h).1, fun _ h => (nomatch h)⟩
  | append_singleton events event ih =>
    obtain ⟨u, hu, hstep⟩ := foldlM_concat.mp hrun
    exact seen_step (ih hu) hstep

end History

section Timing

def NoneMissing (onDisk : Key → Bool) (events : List Event) : Prop :=
  Throughout step (load onDisk) events fun s => ∀ call e, s.calls call ≠ .ended (.error e)

/-- No listener unlinks a file that is newer than the entry it runs for. -/
def NewerSpared (onDisk : Key → Bool) (events : List Event) : Prop :=
  AtEvents step (load onDisk) events fun s event => ∀ key file, event = .listener key file →
    ∀ m, s.files key = some m → m ≤ file

/-- Between an eviction and its listener, what is published is unlinked again;
no file is opened between a listener and the next publication. -/
structure Timely (events : List Event) : Prop where
  listeners : ∀ front mid back key file,
    events = front ++ .evict key file :: (mid ++ .listener key file :: back) →
      lastTouch key mid ≠ some .published
  opens : ∀ front back call key, events = front ++ .openat call key :: back →
    lastTouch key front ≠ some .unlinked

section Errors

variable {s : State} {call c : ℕ} {key : Key} {e : Error}

theorem error_of_setCall {phase : Phase} (hphase : phase ≠ .ended (.error e))
    (h : (s.setCall call phase).calls c = .ended (.error e)) : s.calls c = .ended (.error e) := by
  rw [setCall_calls] at h
  split_ifs at h
  · exact absurd h hphase
  · exact h

theorem error_of_settle {own others : Phase} (hown : own ≠ .ended (.error e))
    (hothers : others ≠ .ended (.error e))
    (h : (s.settle call key own others).calls c = .ended (.error e)) : s.calls c = .ended (.error e) := by
  rw [settle_calls] at h
  split_ifs at h
  · exact absurd h hown
  · exact absurd h hothers
  · exact h

end Errors

theorem error_step {s t : State} {event : Event} {c : ℕ} {e : Error} (hstep : step s event = some t)
    (h : t.calls c = .ended (.error e)) :
    s.calls c = .ended (.error e) ∨ ∃ key, event = .openat c key ∧ s.files key = none := by
  cases moves_of_step hstep with
  | finds _ _ | waits _ _ _ => exact Or.inl (error_of_setCall (by simp) h)
  | @starts call key _ _ _ =>
    exact Or.inl (error_of_setCall (by simp) (show (s.setCall call (.running key)).calls c = _ from h))
  | @publishes call key _ =>
    exact Or.inl (error_of_setCall (by simp)
      (show (s.setCall call (.published key s.next)).calls c = _ from h))
  | @inserts call key _ _ =>
    exact Or.inl (error_of_settle (by simp) (by simp)
      (show (s.settle call key (.ended .fresh) (.found key)).calls c = _ from h))
  | fails _ | cancels _ => exact Or.inl (error_of_settle (by simp) (by simp) h)
  | evicts _ | unlinks _ => exact Or.inl h
  | @opens call key _ =>
    cases hfile : s.files key with
    | some m => exact Or.inl (error_of_setCall (by simp [hfile]) h)
    | none =>
      rw [setCall_calls] at h
      split_ifs at h with heq
      · exact Or.inr ⟨key, by rw [heq], hfile⟩
      · exact Or.inl h

theorem openat_step {s t : State} {call : ℕ} {key : Key} (hstep : step s (.openat call key) = some t)
    (h : ∀ e, t.calls call ≠ .ended (.error e)) : s.files key ≠ none := by
  intro hnone
  obtain ⟨-, hstep⟩ := Option.ite_none_right_eq_some.mp hstep
  cases hstep
  refine h key.store.missing ?_
  rw [setCall_calls, if_pos rfl, hnone]
  rfl

theorem noneMissing_iff {onDisk : Key → Bool} {events : List Event} {t : State}
    (hrun : run onDisk events = some t) :
    NoneMissing onDisk events ↔ AtEvents step (load onDisk) events fun s event =>
      ∀ call key, event = .openat call key → s.files key ≠ none := by
  constructor
  · refine atEvents_of_throughout hrun fun s event u _ hstep hu => ?_
    rintro call key rfl
    exact openat_step hstep (hu call)
  · refine throughout_of_atEvents (fun _ _ h => nomatch h) fun s event u hs hopen hstep call e h => ?_
    rcases error_step hstep h with hold | ⟨key, rfl, hnone⟩
    · exact hs call e hold
    · exact hopen call key rfl hnone

/-- Exactly when the listeners and the calls keep out of each other's way. -/
theorem cached_files_kept_iff {onDisk : Key → Bool} {events : List Event} {t : State}
    (hrun : run onDisk events = some t) :
    NoneMissing onDisk events ∧ NewerSpared onDisk events ↔ Timely events := by
  rw [noneMissing_iff hrun]
  constructor
  · rintro ⟨hopens, hspared⟩
    refine ⟨fun front mid back key file heq hlast => ?_, fun front back call key heq hlast => ?_⟩
    · subst heq
      obtain ⟨s, hs, -⟩ := foldlM_of_append hrun
      obtain ⟨u, hevict, hmid⟩ := step_of_run hrun hs
      obtain ⟨v, hv, -⟩ := foldlM_of_append hmid
      have hfront : (front ++ .evict key file :: mid).foldlM step (load onDisk) = some v := by
        rw [List.foldlM_append, hs]
        change List.foldlM step s (.evict key file :: mid) = some v
        rw [List.foldlM_cons, hevict]
        exact hv
      obtain ⟨hcached, hevict⟩ := Option.ite_none_right_eq_some.mp hevict
      cases hevict
      have hnewest : Newest (s.evict key file) key file := ((order_run hs).cached key file hcached).2
      obtain ⟨m, hm, hlt⟩ := (newer_run hnewest hv).2.mpr hlast
      have hle := hspared (front ++ .evict key file :: mid) _ back v (by simp) hfront key file rfl m hm
      exact absurd hlt (Nat.not_lt.mpr hle)
    · subst heq
      obtain ⟨s, hs, -⟩ := foldlM_of_append hrun
      have hfile := (file_run hs key).mp (hopens front _ back s rfl hs call key rfl)
      simp [hlast] at hfile
  · intro htimely
    refine ⟨fun front event back s heq hs => ?_, fun front event back s heq hs => ?_⟩
    · rintro call key rfl
      subst heq
      obtain ⟨u, hstep, -⟩ := step_of_run hrun hs
      have hcall := (Option.ite_none_right_eq_some.mp hstep).1
      have hknown := (seen_run hs).calls call key (by rw [hcall]; rfl)
      refine (file_run hs key).mpr ?_
      have hlast := htimely.opens front back call key rfl
      cases hcase : lastTouch key front with
      | none => exact Or.inr ⟨rfl, hknown.resolve_left fun h => h hcase⟩
      | some what =>
        cases what with
        | published => exact Or.inl rfl
        | unlinked => exact absurd hcase hlast
    · rintro key file rfl m hm
      subst heq
      obtain ⟨u, hstep, -⟩ := step_of_run hrun hs
      have hmem := (seen_run hs).evicted _ (Option.ite_none_right_eq_some.mp hstep).1
      obtain ⟨before, mid, rfl⟩ := List.append_of_mem hmem
      obtain ⟨v, hv, -⟩ := foldlM_of_append hs
      obtain ⟨w, hevict, hmid⟩ := step_of_run hs hv
      obtain ⟨hcached, hevict⟩ := Option.ite_none_right_eq_some.mp hevict
      cases hevict
      have hnewest : Newest (v.evict key file) key file := ((order_run hv).cached key file hcached).2
      by_contra hlt
      have hlast := (newer_run hnewest hmid).2.mp ⟨m, hm, Nat.lt_of_not_le hlt⟩
      exact htimely.listeners before mid back key file (by simp) hlast

def sampleKey (store : Store) : Key := ⟨store, ⟨['s', 'h', 'a', '2', '5', '6', ':', 'a', 'b'], by decide⟩⟩

/-- One call builds an image, another one opens it, and then it is evicted. -/
def quietEvents : List Event :=
  [.lookup 0 (sampleKey .imgs), .publish 0 (sampleKey .imgs), .insert 0 (sampleKey .imgs) 1,
    .lookup 1 (sampleKey .imgs), .openat 1 (sampleKey .imgs), .evict (sampleKey .imgs) 1,
    .listener (sampleKey .imgs) 1]

theorem cached_files_kept_quiet :
    (run (fun _ => false) quietEvents).isSome = true ∧
      NoneMissing (fun _ => false) quietEvents ∧ NewerSpared (fun _ => false) quietEvents := by
  have hsome : (run (fun _ => false) quietEvents).isSome = true := rfl
  obtain ⟨t, ht⟩ := Option.isSome_iff_exists.mp hsome
  refine ⟨hsome, (cached_files_kept_iff ht).mpr ⟨?_, ?_⟩⟩
  · intro front mid back key file heq
    rcases front with _ | ⟨_, _ | ⟨_, _ | ⟨_, _ | ⟨_, _ | ⟨_, _ | ⟨_, _ | ⟨_, front⟩⟩⟩⟩⟩⟩⟩ <;>
      simp [quietEvents] at heq
    obtain ⟨-, -, -, -, -, -, heq⟩ := heq
    cases mid with
    | nil => simp [lastTouch]
    | cons event mid => simp at heq
  · intro front back call key heq
    rcases front with _ | ⟨_, _ | ⟨_, _ | ⟨_, _ | ⟨_, _ | ⟨_, _ | ⟨_, _ | ⟨_, front⟩⟩⟩⟩⟩⟩⟩ <;>
      simp [quietEvents] at heq
    obtain ⟨rfl, rfl, rfl, rfl, ⟨-, rfl⟩, -⟩ := heq
    decide

/-- A call finds a blob; before it opens the file, the blob is evicted and its
listener runs. And a listener that comes late unlinks the file of an image that
has been built and inserted again, which the next call then misses. -/
theorem cached_file_missing :
    (run (fun _ => true) [.lookup 0 (sampleKey .blobs), .evict (sampleKey .blobs) 0,
      .listener (sampleKey .blobs) 0, .openat 0 (sampleKey .blobs)]).map (fun s => s.calls 0) =
        some (.ended (.error .blobMissing)) ∧
    (run (fun _ => true) [.evict (sampleKey .imgs) 0, .lookup 0 (sampleKey .imgs),
      .publish 0 (sampleKey .imgs), .insert 0 (sampleKey .imgs) 1]).map (fun s =>
        (s.files (sampleKey .imgs), s.cached (sampleKey .imgs), s.evicted)) =
          some (some 1, some 1, [(sampleKey .imgs, 0)]) ∧
    (run (fun _ => true) [.evict (sampleKey .imgs) 0, .lookup 0 (sampleKey .imgs),
      .publish 0 (sampleKey .imgs), .insert 0 (sampleKey .imgs) 1, .listener (sampleKey .imgs) 0,
      .lookup 1 (sampleKey .imgs), .openat 1 (sampleKey .imgs)]).map (fun s =>
        (s.files (sampleKey .imgs), s.calls 1)) = some (none, .ended (.error .missingFile)) := by
  decide

end Timing

end ProgramExplorer.CachedFiles
