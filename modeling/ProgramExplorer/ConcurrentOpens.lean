import ProgramExplorer.BlobCache
import ProgramExplorer.Interleavings

/-!
# Downloads that begin at the same time

`openat_create_write` of `peoci/src/blobcache.rs` and its async variant open
the file of a key. If the directory of the algorithm is missing they make it
and open the file again. Each of the three system calls is one step on the
cache directory, and other callers may come between two of them.
-/

set_option autoImplicit false

namespace ProgramExplorer.ConcurrentOpens
open ByteStrings BlobKeys Interleavings
open BlobCache (FileName fileOf)

section Kernel

inductive Errno where
  | noent
  | exist
  deriving DecidableEq, Repr

inductive OFlag where
  | rdwr
  | create
  | trunc
  | cloexec
  | nonblock
  deriving DecidableEq, Repr

/-- The cache directory: the directories in it, and the files in those. -/
structure CacheDir where
  dirs : List Bytes
  files : List FileName
  deriving DecidableEq

def CacheDir.empty : CacheDir := ⟨[], []⟩

instance CacheDir.decidableMemDirs (dir : CacheDir) (name : Bytes) : Decidable (name ∈ dir.dirs) :=
  decidable_of_iff (dir.dirs.contains name = true) List.contains_iff_mem

instance CacheDir.decidableMemFiles (dir : CacheDir) (file : FileName) : Decidable (file ∈ dir.files) :=
  decidable_of_iff (dir.files.contains file = true) List.contains_iff_mem

def dirOf (key : BlobKey) : Bytes := (fileOf key).1

def openatKey (flags : List OFlag) (key : BlobKey) (dir : CacheDir) : Except Errno CacheDir :=
  if dirOf key ∉ dir.dirs then .error .noent
  else if fileOf key ∈ dir.files then .ok dir
  else if .create ∈ flags then .ok { dir with files := fileOf key :: dir.files }
  else .error .noent

def mkdirat (name : Bytes) (dir : CacheDir) : Except Errno CacheDir :=
  if name ∈ dir.dirs then .error .exist else .ok { dir with dirs := name :: dir.dirs }

end Kernel

section Callers

inductive Phase where
  | opening
  | making
  | reopening
  | opened
  | failed (e : Errno)
  deriving DecidableEq, Repr

/-- A call of `openat_create_write`, or of its variant with other flags. -/
structure Caller where
  flags : List OFlag
  key : BlobKey
  phase : Phase
  deriving DecidableEq

def openatCreateWrite (key : BlobKey) : Caller := ⟨[.rdwr, .create, .trunc, .cloexec], key, .opening⟩

def openatCreateWriteAsync (key : BlobKey) : Caller :=
  ⟨[.rdwr, .create, .trunc, .cloexec, .nonblock], key, .opening⟩

/-- The next system call of a caller and what it does with the result. -/
def advance (c : Caller) (dir : CacheDir) : Option (Caller × CacheDir) :=
  match c.phase with
  | .opening =>
    match openatKey c.flags c.key dir with
    | .ok dir => some ({ c with phase := .opened }, dir)
    | .error .noent => some ({ c with phase := .making }, dir)
    | .error e => some ({ c with phase := .failed e }, dir)
  | .making =>
    match mkdirat (dirOf c.key) dir with
    | .ok dir => some ({ c with phase := .reopening }, dir)
    | .error e => some ({ c with phase := .failed e }, dir)
  | .reopening =>
    match openatKey c.flags c.key dir with
    | .ok dir => some ({ c with phase := .opened }, dir)
    | .error e => some ({ c with phase := .failed e }, dir)
  | .opened | .failed _ => none

inductive Request where
  | sync (key : BlobKey)
  | async (key : BlobKey)
  deriving DecidableEq

def Request.key : Request → BlobKey
  | .sync key | .async key => key

def Request.caller : Request → Caller
  | .sync key => openatCreateWrite key
  | .async key => openatCreateWriteAsync key

/-- All callers before their first step, over an empty cache directory. -/
def start (requests : List Request) : System CacheDir Caller := ⟨.empty, requests.map Request.caller⟩

end Callers

section Steps

variable {c c' : Caller} {dir dir' : CacheDir}

def rank (c : Caller) : ℕ :=
  match c.phase with
  | .opening => 3
  | .making => 2
  | .reopening => 1
  | .opened | .failed _ => 0

inductive Moves (c : Caller) (dir : CacheDir) : Caller → CacheDir → Prop
  | opens (hp : c.phase = .opening ∨ c.phase = .reopening) {dir' : CacheDir}
      (h : openatKey c.flags c.key dir = .ok dir') : Moves c dir { c with phase := .opened } dir'
  | misses (hp : c.phase = .opening) (h : openatKey c.flags c.key dir = .error .noent) :
      Moves c dir { c with phase := .making } dir
  | makes (hp : c.phase = .making) (h : dirOf c.key ∉ dir.dirs) :
      Moves c dir { c with phase := .reopening } { dir with dirs := dirOf c.key :: dir.dirs }
  | present (hp : c.phase = .making) (h : dirOf c.key ∈ dir.dirs) :
      Moves c dir { c with phase := .failed .exist } dir
  | fails (hp : c.phase = .reopening) {e : Errno} (h : openatKey c.flags c.key dir = .error e) :
      Moves c dir { c with phase := .failed e } dir

theorem openatKey_error {flags : List OFlag} {key : BlobKey} {e : Errno}
    (h : openatKey flags key dir = .error e) : e = .noent := by
  unfold openatKey at h
  split_ifs at h <;> cases h <;> rfl

theorem moves_of_advance (h : advance c dir = some (c', dir')) : Moves c dir c' dir' := by
  unfold advance at h
  cases hp : c.phase with
  | opening =>
    rw [hp] at h
    cases ho : openatKey c.flags c.key dir with
    | ok d =>
      simp only [ho] at h
      cases h
      exact .opens (.inl hp) ho
    | error e =>
      obtain rfl := openatKey_error ho
      simp only [ho] at h
      cases h
      exact .misses hp ho
  | making =>
    rw [hp] at h
    by_cases hd : dirOf c.key ∈ dir.dirs
    · simp only [mkdirat, if_pos hd] at h
      cases h
      exact .present hp hd
    · simp only [mkdirat, if_neg hd] at h
      cases h
      exact .makes hp hd
  | reopening =>
    rw [hp] at h
    cases ho : openatKey c.flags c.key dir with
    | ok d =>
      simp only [ho] at h
      cases h
      exact .opens (.inr hp) ho
    | error e =>
      simp only [ho] at h
      cases h
      exact .fails hp ho
  | opened =>
    rw [hp] at h
    cases h
  | failed e =>
    rw [hp] at h
    cases h

theorem rank_lt (c : Caller) (dir : CacheDir) (c' : Caller) (dir' : CacheDir)
    (h : advance c dir = some (c', dir')) : rank c' < rank c := by
  cases moves_of_advance h with
  | opens hp _ => rcases hp with hp | hp <;> simp [rank, hp]
  | misses hp _ => simp [rank, hp]
  | makes hp _ => simp [rank, hp]
  | present hp _ => simp [rank, hp]
  | fails hp _ => simp [rank, hp]

theorem key_of_advance (c : Caller) (dir : CacheDir) (c' : Caller) (dir' : CacheDir)
    (h : advance c dir = some (c', dir')) : c'.key = c.key := by
  cases moves_of_advance h <;> rfl

theorem dir_of_advance (c : Caller) (dir : CacheDir) (c' : Caller) (dir' : CacheDir)
    (h : advance c dir = some (c', dir')) : dirOf c'.key = dirOf c.key :=
  congrArg dirOf (key_of_advance c dir c' dir' h)

theorem openatKey_missing {flags : List OFlag} {key : BlobKey} (h : dirOf key ∉ dir.dirs) :
    openatKey flags key dir = .error .noent := if_pos h

theorem openatKey_ok {flags : List OFlag} {key : BlobKey} (h : openatKey flags key dir = .ok dir') :
    dirOf key ∈ dir.dirs ∧ dir'.dirs = dir.dirs ∧ fileOf key ∈ dir'.files ∧
      ∀ file ∈ dir.files, file ∈ dir'.files := by
  unfold openatKey at h
  split_ifs at h with hd hf hc
  · cases h
    exact ⟨hd, rfl, hf, fun _ hfile => hfile⟩
  · cases h
    exact ⟨hd, rfl, List.mem_cons_self, fun _ hfile => List.mem_cons_of_mem _ hfile⟩

theorem openatKey_present {flags : List OFlag} {key : BlobKey} (hc : .create ∈ flags)
    (h : dirOf key ∈ dir.dirs) {e : Errno} : openatKey flags key dir ≠ .error e := by
  unfold openatKey
  rw [if_neg (not_not_intro h)]
  split_ifs <;> simp

/-- A step makes no directory but that of its own key, and removes no file. -/
theorem dirs_of_moves (h : Moves c dir c' dir') {name : Bytes} (hne : dirOf c.key ≠ name) :
    name ∈ dir'.dirs ↔ name ∈ dir.dirs := by
  cases h with
  | opens _ h => rw [(openatKey_ok h).2.1]
  | makes _ _ => rw [List.mem_cons, or_iff_right (Ne.symm hne)]
  | misses _ _ => rfl
  | present _ _ => rfl
  | fails _ _ => rfl

theorem files_of_moves (h : Moves c dir c' dir') {file : FileName} (hfile : file ∈ dir.files) :
    file ∈ dir'.files := by
  cases h with
  | opens _ h => exact (openatKey_ok h).2.2.2 file hfile
  | makes _ _ => exact hfile
  | misses _ _ => exact hfile
  | present _ _ => exact hfile
  | fails _ _ => exact hfile

end Steps

section Alone

def Sound (dir : CacheDir) (c : Caller) : Prop :=
  .create ∈ c.flags ∧
    match c.phase with
    | .opening | .making => dirOf c.key ∉ dir.dirs
    | .reopening => dirOf c.key ∈ dir.dirs
    | .opened => fileOf c.key ∈ dir.files
    | .failed _ => False

theorem sound_own (c : Caller) (dir : CacheDir) (c' : Caller) (dir' : CacheDir)
    (h : advance c dir = some (c', dir')) (hs : Sound dir c) : Sound dir' c' := by
  obtain ⟨hc, hphase⟩ := hs
  cases moves_of_advance h with
  | opens _ ho => exact ⟨hc, (openatKey_ok ho).2.2.1⟩
  | misses hp _ =>
    rw [hp] at hphase
    exact ⟨hc, hphase⟩
  | makes _ _ => exact ⟨hc, List.mem_cons_self⟩
  | present hp hd =>
    rw [hp] at hphase
    exact absurd hd hphase
  | fails hp ho =>
    rw [hp] at hphase
    exact absurd ho (openatKey_present hc hphase)

theorem sound_other (c : Caller) (dir : CacheDir) (c' : Caller) (dir' : CacheDir) (other : Caller)
    (h : advance c dir = some (c', dir')) (hne : dirOf c.key ≠ dirOf other.key) (_ : Sound dir c)
    (hs : Sound dir other) : Sound dir' other := by
  have hmoves := moves_of_advance h
  obtain ⟨hc, hphase⟩ := hs
  refine ⟨hc, ?_⟩
  cases hp : other.phase with
  | opening | making | reopening =>
    rw [hp] at hphase
    simpa only [dirs_of_moves hmoves hne] using hphase
  | opened =>
    rw [hp] at hphase
    exact files_of_moves hmoves hphase
  | failed e =>
    rw [hp] at hphase
    exact hphase

theorem sound_start (requests : List Request) :
    ∀ c ∈ (start requests).procs, Sound (start requests).shared c := by
  intro c hc
  obtain ⟨r, -, rfl⟩ := List.mem_map.mp hc
  cases r <;> simp [Sound, Request.caller, openatCreateWrite, openatCreateWriteAsync, start, CacheDir.empty]

theorem opened_of_finished {dir : CacheDir} {c : Caller} (hs : Sound dir c) (h : advance c dir = none) :
    c.phase = .opened ∧ fileOf c.key ∈ dir.files := by
  obtain ⟨-, hphase⟩ := hs
  unfold advance at h
  cases hp : c.phase with
  | opening =>
    rw [hp] at h hphase
    simp [openatKey_missing hphase] at h
  | making =>
    rw [hp] at h hphase
    simp [mkdirat, if_neg hphase] at h
  | reopening =>
    rw [hp] at h
    simp only at h
    split at h <;> cases h
  | opened =>
    rw [hp] at hphase
    exact ⟨rfl, hphase⟩
  | failed e =>
    rw [hp] at hphase
    exact absurd hphase id

end Alone

section Together

/-- Every interleaving comes to an end, and then every caller has its file. -/
structure AllOpened (requests : List Request) : Prop where
  ends : ∀ schedule s, run advance (start requests) schedule = some s →
    schedule.length ≤ 3 * requests.length
  opened : ∀ schedule s, run advance (start requests) schedule = some s → Finished advance s →
    ∀ (i : ℕ) (r : Request), requests[i]? = some r →
      ∃ c : Caller, s.procs[i]? = some c ∧ c.key = r.key ∧ c.phase = .opened ∧ fileOf r.key ∈ s.shared.files

theorem key_caller (r : Request) : r.caller.key = r.key := by
  cases r <;> rfl

theorem rank_start (requests : List Request) :
    ((start requests).procs.map rank).sum = 3 * requests.length := by
  have hrank : ∀ r : Request, rank r.caller = 3 := by
    intro r
    cases r <;> rfl
  induction requests with
  | nil => rfl
  | cons r requests ih =>
    change rank r.caller + ((start requests).procs.map rank).sum = _
    rw [hrank, ih, List.length_cons]
    omega

theorem length_le_of_run {requests : List Request} {schedule : List ℕ} {s : System CacheDir Caller}
    (h : run advance (start requests) schedule = some s) : schedule.length ≤ 3 * requests.length := by
  have hle := length_add_total_le rank_lt h
  rw [rank_start] at hle
  omega

theorem keys_of_run {requests : List Request} {schedule : List ℕ} {s : System CacheDir Caller}
    (h : run advance (start requests) schedule = some s) :
    s.procs.map Caller.key = requests.map Request.key := by
  rw [labels_of_run key_of_advance h, start, List.map_map]
  exact List.map_congr_left fun r _ => key_caller r

theorem allOpened_of_nodup {requests : List Request} (h : (requests.map fun r => dirOf r.key).Nodup) :
    AllOpened requests := by
  refine ⟨fun schedule s => length_le_of_run, fun schedule s hrun hfin i r hi => ?_⟩
  have hnodup : ((start requests).procs.map fun c => dirOf c.key).Nodup := by
    rw [start, List.map_map]
    have hcongr : requests.map ((fun c => dirOf c.key) ∘ Request.caller) =
        requests.map fun r => dirOf r.key :=
      List.map_congr_left fun r _ => congrArg dirOf (key_caller r)
    rwa [hcongr]
  have hsound := invariant_of_run dir_of_advance sound_own sound_other hnodup (sound_start requests) hrun
  have hkey : (s.procs.map Caller.key)[i]? = some r.key := by
    rw [keys_of_run hrun, List.getElem?_map, hi, Option.map_some]
  rw [List.getElem?_map] at hkey
  obtain ⟨c, hc, hck⟩ := Option.map_eq_some_iff.mp hkey
  have hmem := List.mem_of_getElem? hc
  obtain ⟨hphase, hfile⟩ := opened_of_finished (hsound c hmem) (hfin c hmem)
  exact ⟨c, hc, hck, hphase, hck ▸ hfile⟩

/-- Two callers that both find the directory missing: the second to make it fails. -/
theorem run_of_two {requests : List Request} {i j : ℕ} {c c' : Caller} (hij : i ≠ j)
    (hi : (start requests).procs[i]? = some c) (hj : (start requests).procs[j]? = some c')
    (hdir : dirOf c.key = dirOf c'.key) (hc : c.phase = .opening) (hc' : c'.phase = .opening) :
    ∃ s, run advance (start requests) [i, j, i, j] = some s ∧
      s.procs[j]? = some { c' with phase := .failed .exist } := by
  have hopen : ∀ {c : Caller}, c.phase = .opening →
      advance c CacheDir.empty = some ({ c with phase := .making }, .empty) := by
    intro c hp
    simp [advance, hp, openatKey_missing, CacheDir.empty]
  have hmake : advance { c with phase := .making } CacheDir.empty =
      some ({ c with phase := .reopening }, ⟨[dirOf c.key], []⟩) := rfl
  have hfail : advance { c' with phase := .making } ⟨[dirOf c.key], []⟩ =
      some ({ c' with phase := .failed .exist }, ⟨[dirOf c.key], []⟩) := by
    simp [advance, mkdirat, hdir]
  obtain ⟨s₁, h₁, hd₁, hi₁, ho₁⟩ := step_of_advance hi (hopen hc)
  have hj₁ := (ho₁ j hij.symm).trans hj
  obtain ⟨s₂, h₂, hd₂, hj₂, ho₂⟩ := step_of_advance hj₁ (by rw [hd₁]; exact hopen hc')
  have hi₂ := (ho₂ i hij).trans hi₁
  obtain ⟨s₃, h₃, hd₃, -, ho₃⟩ := step_of_advance hi₂ (by rw [hd₂]; exact hmake)
  have hj₃ := (ho₃ j hij.symm).trans hj₂
  obtain ⟨s₄, h₄, -, hj₄, -⟩ := step_of_advance hj₃ (by rw [hd₃]; exact hfail)
  refine ⟨s₄, ?_, hj₄⟩
  simp only [run, List.foldlM_cons, List.foldlM_nil, h₁, h₂, h₃, h₄, Option.bind_eq_bind, Option.bind_some,
    Option.pure_def]

theorem phase_caller (r : Request) : r.caller.phase = .opening := by
  cases r <;> rfl

theorem not_allOpened {requests : List Request} {i j : ℕ} {r r' : Request} (hij : i ≠ j)
    (hi : requests[i]? = some r) (hj : requests[j]? = some r') (hdir : dirOf r.key = dirOf r'.key) :
    ¬ AllOpened requests := by
  intro h
  have hproc : ∀ {k : ℕ} {r : Request}, requests[k]? = some r →
      (start requests).procs[k]? = some r.caller := by
    intro k r hk
    rw [start, List.getElem?_map, hk, Option.map_some]
  obtain ⟨s, hrun, hs⟩ := run_of_two hij (hproc hi) (hproc hj) (by rw [key_caller, key_caller, hdir])
    (phase_caller r) (phase_caller r')
  obtain ⟨more, t, hmore, hfin⟩ := exists_finished rank_lt s
  have ht := getElem_of_ended (fun _ => rfl) hs hmore
  have hwhole : run advance (start requests) ([i, j, i, j] ++ more) = some t := by
    rw [run, List.foldlM_append]
    change (run advance (start requests) [i, j, i, j] >>= _) = _
    rw [hrun]
    exact hmore
  obtain ⟨c, hc, -, hphase, -⟩ := h.opened _ t hwhole hfin j r' hj
  cases ht.symm.trans hc
  cases hphase

/-- Concurrent first downloads all succeed exactly if no two of them need the
same directory. -/
theorem concurrent_opens_iff (requests : List Request) :
    AllOpened requests ↔ (requests.map fun r => dirOf r.key).Nodup := by
  constructor
  · intro h
    by_contra hdup
    rw [List.nodup_iff_getElem?_ne_getElem?] at hdup
    push Not at hdup
    obtain ⟨i, j, hij, hj, heq⟩ := hdup
    rw [List.length_map] at hj
    have hi := List.getElem?_eq_getElem (hij.trans hj)
    have hj' := List.getElem?_eq_getElem hj
    rw [List.getElem?_map, List.getElem?_map, hi, hj', Option.map_some, Option.map_some,
      Option.some.injEq] at heq
    exact not_allOpened hij.ne hi hj' heq h
  · exact allOpened_of_nodup

def sha256a : BlobKey := ⟨['s', 'h', 'a', '2', '5', '6', ':', 'a'], by decide⟩

def sha256b : BlobKey := ⟨['s', 'h', 'a', '2', '5', '6', ':', 'b'], by decide⟩

theorem second_download_fails : ¬ AllOpened [.async sha256a, .async sha256b] :=
  not_allOpened Nat.zero_ne_one rfl rfl (by decide)

end Together

end ProgramExplorer.ConcurrentOpens
