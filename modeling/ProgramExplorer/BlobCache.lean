import ProgramExplorer.Downloads
import ProgramExplorer.Transitions
import ProgramExplorer.UnixPath

/-!
# The blob cache over several lives of the process

Downloads and image builds open a temporary file, rename it or unlink it, and
may be cut off anywhere. A process that starts makes keys of whatever names it
finds in the directory, and evicting a key unlinks the file of that name. The
name of a temporary file is the name of a key as well.
-/

set_option autoImplicit false

namespace ProgramExplorer.BlobCache
open ByteStrings BlobKeys Digests Transitions UnixPath

section Names

abbrev FileName := Bytes × Bytes

def fileOf (key : BlobKey) : FileName := (Utf8.encode key.parts.1, Utf8.encode key.parts.2)

def tmpOf (key : BlobKey) : FileName := fileOf key.withTmpSuffix

def hexChars : List Char := ['0', '1', '2', '3', '4', '5', '6', '7', '8', '9', 'a', 'b', 'c', 'd', 'e', 'f']

def HexKey (key : BlobKey) : Prop := key.parts.1 = sha256Name ∧ ∀ c ∈ key.parts.2, c ∈ hexChars

instance (key : BlobKey) : Decidable (HexKey key) :=
  decidable_of_iff (key.parts.1 = sha256Name ∧ key.parts.2.all (fun c => c ∈ hexChars) = true) <| by
    simp [HexKey]

theorem parts_spec (key : BlobKey) : key.text = key.parts.1 ++ ':' :: key.parts.2 ∧ ':' ∉ key.parts.1 := by
  obtain ⟨-, -, p, hsplit, -⟩ := key.accepted
  rw [BlobKey.parts, hsplit]
  exact splitOnce_eq_some hsplit

theorem parts_withTmpSuffix (key : BlobKey) :
    key.withTmpSuffix.parts = (key.parts.1, key.parts.2 ++ tmpSuffix) := by
  obtain ⟨htext, hcolon⟩ := parts_spec key
  rw [BlobKey.parts, BlobKey.withTmpSuffix]
  simp only
  rw [htext, List.append_assoc, List.cons_append, splitOnce_append hcolon, Option.getD_some]

theorem asPath_eq (key : BlobKey) : key.asPath = key.parts.1 ++ '/' :: key.parts.2 := by
  have hreplace : ∀ {l : List Char} (r : List Char), ':' ∉ l →
      replaceFirst ':' '/' (l ++ ':' :: r) = l ++ '/' :: r := by
    intro l r hl
    induction l with
    | nil => rfl
    | cons x l ih =>
      rw [List.mem_cons, not_or] at hl
      rw [List.cons_append, replaceFirst, if_neg (Ne.symm hl.1), ih hl.2, List.cons_append]
  rw [BlobKey.asPath, (parts_spec key).1, hreplace _ (parts_spec key).2]

theorem fromCstrParts_fileOf (key : BlobKey) :
    BlobKey.fromCstrParts (fileOf key).1 (fileOf key).2 = some key := by
  simp only [BlobKey.fromCstrParts, fileOf, Utf8.decode_encode, Option.bind_eq_bind, Option.bind_some]
  rw [← (parts_spec key).1, BlobKey.new, dif_pos key.accepted]

theorem fileOf_inj {a b : BlobKey} (h : fileOf a = fileOf b) : a = b := by
  have ha := fromCstrParts_fileOf a
  rw [h, fromCstrParts_fileOf] at ha
  exact (Option.some.inj ha).symm

theorem tmpOf_inj {a b : BlobKey} (h : tmpOf a = tmpOf b) : a = b := by
  have htext := congrArg BlobKey.text (fileOf_inj h)
  have heq : a.text = b.text := List.append_cancel_right htext
  cases a
  cases b
  simp_all

theorem tmpOf_ne_fileOf {key : BlobKey} (h : HexKey key) (other : BlobKey) : tmpOf other ≠ fileOf key := by
  intro heq
  have hkey := fileOf_inj heq
  have hmem : '_' ∈ key.parts.2 := by
    rw [← hkey, parts_withTmpSuffix]
    simp [tmpSuffix]
  exact absurd (h.2 _ hmem) (by decide)

end Names

section Paths

/-- Two names with one slash between them, which lead two levels down. -/
structure TwoLevels (path a b : List Char) : Prop where
  spelled : path = a ++ '/' :: b
  nonempty : a ≠ [] ∧ b ≠ []
  noSlash : '/' ∉ a ∧ '/' ∉ b
  notDots : ∀ name ∈ [a, b], name ≠ ['.'] ∧ name ≠ ['.', '.']

theorem parts_nonempty (key : BlobKey) : key.parts.1 ≠ [] ∧ key.parts.2 ≠ [] := by
  obtain ⟨-, -, p, hsplit, hl, hr⟩ := key.accepted
  rw [BlobKey.parts, hsplit]
  exact ⟨hl, hr⟩

theorem not_mem_parts {c : Char} {key : BlobKey} (h : c ∉ key.text) :
    c ∉ key.parts.1 ∧ c ∉ key.parts.2 := by
  rw [(parts_spec key).1] at h
  exact ⟨fun hc => h (List.mem_append_left _ hc),
    fun hc => h (List.mem_append_right _ (List.mem_cons_of_mem _ hc))⟩

theorem asPath_twoLevels (key : BlobKey) : TwoLevels key.asPath key.parts.1 key.parts.2 := by
  obtain ⟨hdot, hslash, -⟩ := key.accepted
  obtain ⟨hdot₁, hdot₂⟩ := not_mem_parts hdot
  have hnot : ∀ name : List Char, '.' ∉ name → name ≠ ['.'] ∧ name ≠ ['.', '.'] := by
    rintro name hname
    constructor
    · rintro rfl
      exact hname (by simp)
    · rintro rfl
      exact hname (by simp)
  refine ⟨asPath_eq key, parts_nonempty key, not_mem_parts hslash, ?_⟩
  intro name hmem
  rcases List.mem_pair.mp hmem with rfl | rfl
  · exact hnot _ hdot₁
  · exact hnot _ hdot₂

theorem plainName_encode {name : List Char} (hne : name ≠ []) (hslash : '/' ∉ name)
    (hdots : name ≠ ['.'] ∧ name ≠ ['.', '.']) : PlainName (Utf8.encode name) where
  nonempty h := hne (Utf8.encode_injective (h.trans (show [] = Utf8.encode [] from rfl)))
  noSlash h := by
    obtain ⟨c, hc, heq⟩ := Utf8.mem_of_mem_encode h (by decide)
    obtain rfl : c = '/' := Char.toNat_inj.mp heq
    exact hslash hc
  notDot h := hdots.1 (Utf8.encode_injective (h.trans (show _ = Utf8.encode ['.'] from rfl)))
  notDotDot h := hdots.2 (Utf8.encode_injective (h.trans (show _ = Utf8.encode ['.', '.'] from rfl)))

theorem components_of_twoLevels {path a b : List Char} (h : TwoLevels path a b) :
    components (Utf8.encode path) = [.normal (Utf8.encode a), .normal (Utf8.encode b)] := by
  have ha := plainName_encode h.nonempty.1 h.noSlash.1 (h.notDots a (by simp))
  have hb := plainName_encode h.nonempty.2 h.noSlash.2 (h.notDots b (by simp))
  have hjoined : Utf8.encode path = joined [Utf8.encode a, Utf8.encode b] := by
    have hlast : joined [Utf8.encode b] = Utf8.encode b := by simp [joined]
    rw [h.spelled, Utf8.encode_append, joined_cons (by simp), hlast]
    rfl
  rw [hjoined, components_joined (by simp [ha, hb])]
  rfl

theorem new_eq_some {s : List Char} {key : BlobKey} (h : BlobKey.new s = some key) : key.text = s := by
  unfold BlobKey.new at h
  split_ifs at h
  cases h
  rfl

/-- The path of a key leads two levels below the cache directory; no other key
has it, and the loader makes the key of its two names. -/
theorem key_paths_safe {s t : List Char} {key other : BlobKey} (hs : BlobKey.new s = some key)
    (ht : BlobKey.new t = some other) :
    (∃ a b, TwoLevels key.asPath a b ∧
      components (Utf8.encode key.asPath) = [.normal (Utf8.encode a), .normal (Utf8.encode b)] ∧
      BlobKey.fromCstrParts (Utf8.encode a) (Utf8.encode b) = some key) ∧
    (s ≠ t → key.asPath ≠ other.asPath) := by
  constructor
  · have htwo := asPath_twoLevels key
    exact ⟨key.parts.1, key.parts.2, htwo, components_of_twoLevels htwo, fromCstrParts_fileOf key⟩
  · intro hne hpath
    have hcs := components_of_twoLevels (asPath_twoLevels key)
    rw [hpath, components_of_twoLevels (asPath_twoLevels other)] at hcs
    have hfile : fileOf key = fileOf other := by
      injection hcs with h₁ h₂
      injection h₂ with h₂
      injection h₁ with h₁
      injection h₂ with h₂
      exact Prod.ext h₁.symm h₂.symm
    have hkey := fileOf_inj hfile
    rw [← new_eq_some hs, ← new_eq_some ht, hkey] at hne
    exact hne rfl

theorem two_colons_path_safe : ∃ key other : BlobKey,
    BlobKey.new ['a', ':', 'b', ':', 'c'] = some key ∧ BlobKey.new ['a', ':', 'b'] = some other ∧
      key.asPath = ['a', '/', 'b', ':', 'c'] ∧ key.asPath ≠ other.asPath := by
  have hs : BlobKey.new ['a', ':', 'b', ':', 'c'] = some ⟨['a', ':', 'b', ':', 'c'], by decide⟩ := by decide
  have ht : BlobKey.new ['a', ':', 'b'] = some ⟨['a', ':', 'b'], by decide⟩ := by decide
  exact ⟨_, _, hs, ht, by decide, (key_paths_safe hs ht).2 (by decide)⟩

end Paths

section System

/-- What happens in the directory of one cache. The key of a guard that has
renamed or tried to is gone, so that it does not unlink. -/
inductive Event where
  | openatCreateWriteWithGuard (key : BlobKey)
  | success (key : BlobKey) (inserted : Bool)
  | renameFailed (key : BlobKey)
  | dropGuard (key : BlobKey) (unlinked : Bool)
  | evict (key : BlobKey) (unlinked : Bool)
  | restart
  deriving DecidableEq

structure State where
  files : List FileName
  running : List BlobKey
  cached : List BlobKey
  deriving DecidableEq

def empty : State := ⟨[], [], []⟩

def without {α : Type} [DecidableEq α] (a : α) (as : List α) : List α := as.filter fun b => b ≠ a

def readFromDisk (files : List FileName) : List BlobKey :=
  files.filterMap fun file => BlobKey.fromCstrParts file.1 file.2

/-- One job at a time works for a key that is not in the cache. A process may
end at any time, and the next one begins with what it finds. -/
def step (s : State) : Event → Option State
  | .openatCreateWriteWithGuard key =>
    if key ∈ s.running ∨ key ∈ s.cached then none
    else some { s with files := tmpOf key :: without (tmpOf key) s.files, running := key :: s.running }
  | .success key inserted =>
    if key ∈ s.running ∧ HexKey key ∧ tmpOf key ∈ s.files then
      some { files := fileOf key :: without (fileOf key) (without (tmpOf key) s.files)
             running := without key s.running
             cached := if inserted then key :: s.cached else s.cached }
    else none
  | .renameFailed key =>
    if key ∈ s.running ∧ HexKey key then some { s with running := without key s.running } else none
  | .dropGuard key unlinked =>
    if key ∈ s.running then
      some { s with files := if unlinked then without (tmpOf key) s.files else s.files
                    running := without key s.running }
    else none
  | .evict key unlinked =>
    if key ∈ s.cached then
      some { s with files := if unlinked then without (fileOf key) s.files else s.files
                    cached := without key s.cached }
    else none
  | .restart => some ⟨s.files, [], readFromDisk s.files⟩

def run (events : List Event) : Option State := events.foldlM step empty

end System

section Soundness

def Published (events : List Event) (key : BlobKey) : Prop := ∃ inserted, Event.success key inserted ∈ events

/-- What a process finds was published, and no temporary file is among it; an
eviction spares the temporary files of the jobs that are running. -/
structure Sound (events : List Event) : Prop where
  loaded : ∀ front back s, events = front ++ .restart :: back → run front = some s →
    ∀ key ∈ readFromDisk s.files, Published front key ∧ ∀ other : BlobKey, key ≠ other.withTmpSuffix
  evicted : ∀ front key unlinked back s, events = front ++ .evict key unlinked :: back →
    run front = some s → ∀ other ∈ s.running, fileOf key ≠ tmpOf other

def leaves : Event → Option (BlobKey × Bool)
  | .openatCreateWriteWithGuard key => some (key, true)
  | .success key _ => some (key, false)
  | .renameFailed key => some (key, true)
  | .dropGuard key unlinked => some (key, !unlinked)
  | .evict _ _ => none
  | .restart => none

/-- The last job for the key was cut off, could not rename, or could not
unlink. -/
def leftOver (key : BlobKey) (events : List Event) : Bool :=
  events.foldl (fun left event =>
    match leaves event with
    | some (other, b) => if other = key then b else left
    | none => left) false

theorem leftOver_concat (key : BlobKey) (events : List Event) (event : Event) :
    leftOver key (events ++ [event]) =
      match leaves event with
      | some (other, b) => if other = key then b else leftOver key events
      | none => leftOver key events := by
  rw [leftOver, List.foldl_append]
  rfl

theorem mem_without {α : Type} [DecidableEq α] {a b : α} {as : List α} :
    b ∈ without a as ↔ b ∈ as ∧ b ≠ a := by
  simp [without]

section Unlinked

variable {α : Type} [DecidableEq α] {a b : α} {as : List α} {unlinked : Bool}

theorem mem_of_unlinked (h : b ∈ if unlinked then without a as else as) : b ∈ as := by
  cases unlinked with
  | false => exact h
  | true => exact (mem_without.mp h).1

theorem mem_unlinked_iff (hne : b ≠ a) : (b ∈ if unlinked then without a as else as) ↔ b ∈ as := by
  cases unlinked with
  | false => exact Iff.rfl
  | true => exact mem_without.trans (and_iff_left hne)

end Unlinked

structure Inv (events : List Event) (s : State) : Prop where
  tmp : ∀ key, tmpOf key ∈ s.files ↔ leftOver key events = true
  files : ∀ file ∈ s.files, (∃ key, file = fileOf key ∧ HexKey key ∧ Published events key) ∨
    ∃ key, file = tmpOf key
  running : ∀ key ∈ s.running, leftOver key events = true
  cached : ∀ key ∈ s.cached, HexKey key

theorem inv_empty : Inv [] empty :=
  ⟨fun _ => by simp [empty, leftOver], fun _ h => absurd h List.not_mem_nil,
    fun _ h => absurd h List.not_mem_nil, fun _ h => absurd h List.not_mem_nil⟩

theorem published_concat {events : List Event} {key : BlobKey} (h : Published events key) (event : Event) :
    Published (events ++ [event]) key := h.imp fun _ hmem => List.mem_append_left _ hmem

/-- Every name that was there and stays is accounted for as before. -/
theorem Inv.files_concat {events : List Event} {s : State} (h : Inv events s) (event : Event)
    {file : FileName} (hfile : file ∈ s.files) :
    (∃ key, file = fileOf key ∧ HexKey key ∧ Published (events ++ [event]) key) ∨ ∃ key, file = tmpOf key :=
  (h.files file hfile).imp_left fun ⟨key, heq, hhex, hpub⟩ => ⟨key, heq, hhex, published_concat hpub event⟩

section Job

variable {events : List Event} {s : State} {event : Event} {key : BlobKey} {b : Bool}

/-- An event of a job decides about its own temporary file, and leaves those of
the others alone. -/
theorem Inv.tmp_concat (h : Inv events s) (hleaves : leaves event = some (key, b)) {files : List FileName}
    (hkey : tmpOf key ∈ files ↔ b = true)
    (hothers : ∀ other, other ≠ key → (tmpOf other ∈ files ↔ tmpOf other ∈ s.files)) (other : BlobKey) :
    tmpOf other ∈ files ↔ leftOver other (events ++ [event]) = true := by
  rw [leftOver_concat, hleaves]
  by_cases heq : key = other
  · subst heq
    simpa using hkey
  · simp only [if_neg heq]
    rw [hothers other (Ne.symm heq), h.tmp]

theorem Inv.running_concat (h : Inv events s) (hleaves : leaves event = some (key, b)) {other : BlobKey}
    (hother : other ∈ without key s.running) : leftOver other (events ++ [event]) = true := by
  obtain ⟨hmem, hne⟩ := mem_without.mp hother
  rw [leftOver_concat, hleaves]
  simp only [if_neg (Ne.symm hne)]
  exact h.running other hmem

theorem tmpOf_mem_without {files : List FileName} {other : BlobKey} (hne : other ≠ key) :
    tmpOf other ∈ without (tmpOf key) files ↔ tmpOf other ∈ files := by
  rw [mem_without, and_iff_left fun hsame => hne (tmpOf_inj hsame)]

theorem tmpOf_mem_without_fileOf (hhex : HexKey key) {files : List FileName} (other : BlobKey) :
    tmpOf other ∈ without (fileOf key) files ↔ tmpOf other ∈ files := by
  rw [mem_without, and_iff_left (tmpOf_ne_fileOf hhex other)]

end Job

theorem inv_step {events : List Event} {s t : State} {event : Event} (h : Inv events s)
    (hstep : step s event = some t)
    (hload : event = .restart → ∀ key ∈ readFromDisk s.files, HexKey key) : Inv (events ++ [event]) t := by
  cases event with
  | openatCreateWriteWithGuard key =>
    obtain ⟨-, hstep⟩ := Option.ite_none_left_eq_some.mp hstep
    cases hstep
    refine ⟨h.tmp_concat rfl (by simp) fun other hne => ?_, fun file hfile => ?_, fun other hother => ?_,
      h.cached⟩
    · rw [List.mem_cons, or_iff_right fun hsame => hne (tmpOf_inj hsame), tmpOf_mem_without hne]
    · rcases List.mem_cons.mp hfile with rfl | hold
      · exact Or.inr ⟨key, rfl⟩
      · exact h.files_concat _ (mem_without.mp hold).1
    · by_cases heq : other = key
      · rw [leftOver_concat]
        simp [leaves, heq]
      · have hmem := (List.mem_cons.mp hother).resolve_left heq
        exact h.running_concat rfl (mem_without.mpr ⟨hmem, heq⟩)
  | success key inserted =>
    obtain ⟨⟨-, hhex, -⟩, hstep⟩ := Option.ite_none_right_eq_some.mp hstep
    cases hstep
    refine ⟨h.tmp_concat rfl ?_ fun other hne => ?_, fun file hfile => ?_,
      fun other hother => h.running_concat rfl hother, fun other hother => ?_⟩
    · rw [List.mem_cons, or_iff_right (tmpOf_ne_fileOf hhex key), tmpOf_mem_without_fileOf hhex]
      simp [mem_without]
    · rw [List.mem_cons, or_iff_right (tmpOf_ne_fileOf hhex other), tmpOf_mem_without_fileOf hhex,
        tmpOf_mem_without hne]
    · rcases List.mem_cons.mp hfile with rfl | hold
      · exact Or.inl ⟨key, rfl, hhex, inserted, by simp⟩
      · exact h.files_concat _ (mem_without.mp (mem_without.mp hold).1).1
    · have hcached : other = key ∨ other ∈ s.cached := by
        cases inserted with
        | false => exact Or.inr hother
        | true => exact List.mem_cons.mp hother
      rcases hcached with rfl | hold
      · exact hhex
      · exact h.cached other hold
  | renameFailed key =>
    obtain ⟨⟨hrunning, -⟩, hstep⟩ := Option.ite_none_right_eq_some.mp hstep
    cases hstep
    exact ⟨h.tmp_concat rfl (iff_of_true ((h.tmp key).mpr (h.running key hrunning)) rfl) fun _ _ => Iff.rfl,
      fun file hfile => h.files_concat _ hfile, fun other hother => h.running_concat rfl hother, h.cached⟩
  | dropGuard key unlinked =>
    obtain ⟨hrunning, hstep⟩ := Option.ite_none_right_eq_some.mp hstep
    have htmp := (h.tmp key).mpr (h.running key hrunning)
    cases hstep
    refine ⟨h.tmp_concat rfl ?_ fun other hne => ?_, fun file hfile => ?_,
      fun other hother => h.running_concat rfl hother, h.cached⟩
    · cases unlinked <;> simp [mem_without, htmp]
    · exact mem_unlinked_iff fun hsame => hne (tmpOf_inj hsame)
    · exact h.files_concat _ (mem_of_unlinked hfile)
  | evict key unlinked =>
    obtain ⟨hcached, hstep⟩ := Option.ite_none_right_eq_some.mp hstep
    have hhex := h.cached key hcached
    cases hstep
    refine ⟨fun other => ?_, fun file hfile => ?_, fun other hother => ?_,
      fun other hother => h.cached other (mem_without.mp hother).1⟩
    · rw [leftOver_concat]
      exact (mem_unlinked_iff (tmpOf_ne_fileOf hhex other)).trans (h.tmp other)
    · exact h.files_concat _ (mem_of_unlinked hfile)
    · rw [leftOver_concat]
      exact h.running other hother
  | restart =>
    cases hstep
    refine ⟨fun other => ?_, fun file hfile => h.files_concat _ hfile,
      fun other hother => absurd hother List.not_mem_nil, hload rfl⟩
    rw [leftOver_concat]
    exact h.tmp other

/-- The invariant along a run in which every process has found hexadecimal
keys only. -/
theorem inv_run {events : List Event} {s : State} (hrun : run events = some s)
    (hload : ∀ front back t, events = front ++ .restart :: back → run front = some t →
      Inv front t → ∀ key ∈ readFromDisk t.files, HexKey key) : Inv events s := by
  induction events using List.reverseRecOn generalizing s with
  | nil =>
    cases hrun
    exact inv_empty
  | append_singleton events event ih =>
    obtain ⟨t, ht, hstep⟩ := foldlM_concat.mp hrun
    have hinv : Inv events t := ih ht fun front back u heq => hload front (back ++ [event]) u (by simp [heq])
    refine inv_step hinv hstep ?_
    rintro rfl
    exact hload events [] t rfl ht hinv

theorem mem_readFromDisk {files : List FileName} {key : BlobKey} (h : fileOf key ∈ files) :
    key ∈ readFromDisk files := List.mem_filterMap.mpr ⟨_, h, fromCstrParts_fileOf key⟩

/-- Without a file left over, the names in the directory are those of the
published keys. -/
theorem Inv.loaded {events : List Event} {s : State} (h : Inv events s)
    (hclean : ∀ key, leftOver key events = false) {key : BlobKey} (hkey : key ∈ readFromDisk s.files) :
    HexKey key ∧ Published events key := by
  obtain ⟨file, hfile, hparts⟩ := List.mem_filterMap.mp hkey
  rcases h.files file hfile with ⟨other, rfl, hhex, hpub⟩ | ⟨other, rfl⟩
  · rw [fromCstrParts_fileOf] at hparts
    cases hparts
    exact ⟨hhex, hpub⟩
  · exact absurd ((h.tmp other).mp hfile) (by simp [hclean other])

theorem not_hexKey_withTmpSuffix (key : BlobKey) : ¬ HexKey key.withTmpSuffix := fun h =>
  tmpOf_ne_fileOf h key rfl

theorem hexKey_of_published {events : List Event} {s : State} (hrun : run events = some s) {key : BlobKey}
    (h : Published events key) : HexKey key := by
  obtain ⟨inserted, hmem⟩ := h
  obtain ⟨front, back, rfl⟩ := List.append_of_mem hmem
  obtain ⟨t, ht, -⟩ := foldlM_of_append hrun
  obtain ⟨u, hstep, -⟩ := step_of_run hrun ht
  exact (Option.ite_none_right_eq_some.mp hstep).1.2.1

/-- Exactly when, each time a process starts, the last job of every key has
renamed its file or unlinked it. -/
theorem temporaries_unloaded_iff {events : List Event} {s : State} (hrun : run events = some s) :
    Sound events ↔
      ∀ front back, events = front ++ .restart :: back → ∀ key, leftOver key front = false := by
  constructor
  · rintro hsound front back rfl key
    obtain ⟨t, ht, -⟩ := foldlM_of_append hrun
    have hinv : Inv front t := inv_run ht fun front' back' u heq hu _ key hkey =>
      hexKey_of_published hu (hsound.loaded front' (back' ++ .restart :: back) u (by simp [heq]) hu key hkey).1
    by_contra hleft
    have hfile := (hinv.tmp key).mpr (Bool.eq_true_of_not_eq_false hleft)
    exact (hsound.loaded front back t rfl ht _ (mem_readFromDisk hfile)).2 key rfl
  · intro hclean
    -- the invariant holds wherever the run is looked at
    have hinv : ∀ front back t, events = front ++ back → run front = some t → Inv front t :=
      fun front back t heq ht => inv_run ht fun front' back' u heq' hu hinv key hkey =>
        (hinv.loaded (hclean front' (back' ++ back) (by simp [heq, heq'])) hkey).1
    constructor
    · intro front back t heq ht key hkey
      obtain ⟨hhex, hpub⟩ := (hinv front _ t heq ht).loaded (hclean front back heq) hkey
      refine ⟨hpub, ?_⟩
      rintro other rfl
      exact not_hexKey_withTmpSuffix other hhex
    · rintro front key unlinked back t rfl ht other -
      obtain ⟨u, hstep, -⟩ := step_of_run hrun ht
      have hcached := (Option.ite_none_right_eq_some.mp hstep).1
      exact (tmpOf_ne_fileOf ((hinv front _ t rfl ht).cached key hcached) other).symm

open Downloads (sampleKey)

theorem readFromDisk_singleton (key : BlobKey) : readFromDisk [fileOf key] = [key] := by
  simp [readFromDisk, fromCstrParts_fileOf]

theorem temporaries_unloaded_one_life :
    run [.openatCreateWriteWithGuard sampleKey, .success sampleKey true, .restart, .evict sampleKey true] =
        some empty ∧
      Sound [.openatCreateWriteWithGuard sampleKey, .success sampleKey true, .restart,
        .evict sampleKey true] := by
  have hhex : HexKey sampleKey := by decide
  have hrun : run [.openatCreateWriteWithGuard sampleKey, .success sampleKey true, .restart,
      .evict sampleKey true] = some empty := by
    simp [run, step, empty, without, hhex, readFromDisk_singleton]
  refine ⟨hrun, (temporaries_unloaded_iff hrun).mpr ?_⟩
  intro front back heq key
  rcases front with _ | ⟨_, _ | ⟨_, _ | ⟨_, _ | ⟨_, rest⟩⟩⟩⟩ <;> simp at heq
  obtain ⟨rfl, rfl, -⟩ := heq
  simp [leftOver, leaves]

/-- A process is cut off while it downloads. The next one has the temporary
file as a key, downloads again, and evicts that key under the download. -/
theorem temporary_loaded_and_evicted :
    ∃ s t u, run [.openatCreateWriteWithGuard sampleKey, .restart] = some s ∧
      s.cached = [sampleKey.withTmpSuffix] ∧
      step s (.openatCreateWriteWithGuard sampleKey) = some t ∧ tmpOf sampleKey ∈ t.files ∧
      step t (.evict sampleKey.withTmpSuffix true) = some u ∧ u.running = [sampleKey] ∧ u.files = [] ∧
      ¬ Sound [.openatCreateWriteWithGuard sampleKey, .restart] := by
  have hne : sampleKey ≠ sampleKey.withTmpSuffix := fun h => absurd (congrArg BlobKey.text h) (by decide)
  have hload : readFromDisk [tmpOf sampleKey] = [sampleKey.withTmpSuffix] := readFromDisk_singleton _
  refine ⟨⟨[tmpOf sampleKey], [], [sampleKey.withTmpSuffix]⟩,
    ⟨[tmpOf sampleKey], [sampleKey], [sampleKey.withTmpSuffix]⟩, ⟨[], [sampleKey], []⟩,
    by simp [run, step, empty, without, hload], rfl, by simp [step, without, hne], by simp,
    by simp [step, without, tmpOf], rfl, rfl, fun hsound => ?_⟩
  have hloaded := hsound.loaded [.openatCreateWriteWithGuard sampleKey] []
    ⟨[tmpOf sampleKey], [sampleKey], []⟩ rfl (by simp [run, step, empty, without]) sampleKey.withTmpSuffix
    (by simp [hload])
  exact hloaded.2 sampleKey rfl

end Soundness

end ProgramExplorer.BlobCache
