import ProgramExplorer.ArchiveUnpack

/-!
# Unpacking to a directory

`unpack_to_dir` is the second decoder of the archive. It keeps a stack of
open directories, never opens a directory that is left at once, and makes
files and directories by system calls that can refuse a name. The disk maps
the names that lead to an entry to what stands there. The starting directory
is the root of the process, as after `chroot`, so that `..` cannot leave it; a
name may be a path of several parts, which `openat2` resolves beneath the
directory it is called with and `mkdirat` anywhere.
-/

set_option autoImplicit false

namespace ProgramExplorer.ArchiveToDir
open ByteStrings ByteStore LittleEndian StateRules UnixPath FileTree InputLoop ArchiveFormat
open ArchivePack ArchiveUnpack

section Calls

inductive Entry where
  | file (contents : Bytes)
  | dir
  deriving DecidableEq

abbrev Disk := List Bytes → Option Entry

def emptyDisk : Disk := fun path => if path = [] then some .dir else none

def cString (name : Bytes) : Bytes := name.takeWhile (· ≠ 0)

def nameParts (name : Bytes) : List Bytes := ((cString name).splitOn slash).rdropWhile (· = [])

def isAbsolute (name : Bytes) : Bool := (cString name).head? = some slash

def isSlashed (name : Bytes) : Bool := (cString name).getLast? = some slash

/-- One part of a name on the way. `RESOLVE_BENEATH` names the directory that
`..` must not leave. -/
def enter (disk : Disk) (top : Option (List Bytes)) (dir : List Bytes) (part : Bytes) :
    Except Errno (List Bytes) :=
  if part = [] ∨ part = [dot] then .ok dir
  else if part = [dot, dot] then if top = some dir then .error .xdev else .ok dir.dropLast
  else
    match disk (dir ++ [part]) with
    | some .dir => .ok (dir ++ [part])
    | some (.file _) => .error .notdir
    | none => .error .noent

def walk (disk : Disk) (top : Option (List Bytes)) (dir : List Bytes) (way : List Bytes) :
    Except Errno (List Bytes) :=
  way.foldlM (enter disk top) dir

def mkdirat (disk : Disk) (parent : List Bytes) (name : Bytes) : Except Errno Disk :=
  if cString name = [] then .error .noent
  else
    match walk disk none (if isAbsolute name then [] else parent) (nameParts name).dropLast,
      (nameParts name).getLast? with
    | .error errno, _ => .error errno
    | .ok _, none => .error .exist
    | .ok dir, some last =>
      if isDots last ∨ disk (dir ++ [last]) ≠ none then .error .exist
      else .ok (Function.update disk (dir ++ [last]) (some .dir))

/-- Opens for writing and creates what is not there; an old file keeps its
contents. -/
def openatW (disk : Disk) (parent : List Bytes) (name : Bytes) :
    Except Errno (List Bytes × Disk) :=
  if cString name = [] then .error .noent
  else if isAbsolute name then .error .xdev
  else
    match walk disk (some parent) parent (nameParts name).dropLast, (nameParts name).getLast? with
    | .error errno, _ => .error errno
    | .ok _, none => .error .isdir
    | .ok dir, some last =>
      if last = [dot, dot] ∧ dir = parent then .error .xdev
      else if isDots last ∨ isSlashed name then .error .isdir
      else
        match disk (dir ++ [last]) with
        | some .dir => .error .isdir
        | some (.file _) => .ok (dir ++ [last], disk)
        | none => .ok (dir ++ [last], Function.update disk (dir ++ [last]) (some (.file [])))

def writeFile (disk : Disk) (path : List Bytes) (bs : Bytes) : Disk :=
  match disk path with
  | some (.file contents) => Function.update disk path (some (.file (overwrite contents 0 bs)))
  | _ => disk

def openpathat (disk : Disk) (parent : List Bytes) (name : Bytes) : Except Errno (List Bytes) :=
  if cString name = [] then .error .noent
  else if isAbsolute name then .error .xdev
  else walk disk (some parent) parent (nameParts name)

end Calls

section Decoder

structure ToDir where
  cur : Bytes
  /-- The open directories, the innermost first. -/
  stack : List (List Bytes)
  disk : Disk

def toDirStep (s : ToDir) : Next ToDir (EStateM.Result Error Disk Unit) :=
  match s.cur with
  | [] => .done (if s.stack.length = 1 then .ok () s.disk else .error .archiveTruncated s.disk)
  | tag :: cur =>
    match ArchiveFormat1Tag.tryFrom tag with
    | some .file =>
      match s.stack with
      | [] => .done (.error .stackEmpty s.disk)
      | parent :: _ =>
        match readFile cur with
        | .error e => .done (.error e s.disk)
        | .ok (name, data, rest) =>
          match openatW s.disk parent name with
          | .error errno => .done (.error (.openAt errno) s.disk)
          | .ok (path, disk) => .again ⟨rest, s.stack, writeFile disk path data⟩
    | some .dir =>
      match s.stack with
      | [] => .done (.error .stackEmpty s.disk)
      | parent :: _ =>
        match readCstr cur with
        | .error e => .done (.error e s.disk)
        | .ok (name, rest) =>
          match mkdirat s.disk parent name with
          | .error errno => .done (.error (.mkdirAt errno) s.disk)
          | .ok disk =>
            -- a directory that is left at once is never opened
            match rest with
            | [] => .again ⟨rest, s.stack, disk⟩
            | next :: rest' =>
              match ArchiveFormat1Tag.tryFrom next with
              | some .pop => .again ⟨rest', s.stack, disk⟩
              | some _ =>
                match openpathat disk parent name with
                | .error errno => .done (.error (.openAt errno) disk)
                | .ok dir => .again ⟨rest, dir :: s.stack, disk⟩
              | none => .again ⟨rest, s.stack, disk⟩
    | some .pop =>
      match s.stack with
      | [] => .done (.error .emptyStack s.disk)
      | _ :: stack => .again ⟨cur, stack, s.disk⟩
    | none => .done (.error .badTag s.disk)

theorem readCstr_length {cur name rest : Bytes} (h : readCstr cur = .ok (name, rest)) :
    rest.length ≤ cur.length := by
  rw [(readCstr_ok h).1]
  simp
  omega

theorem readFile_length {cur name data rest : Bytes} (h : readFile cur = .ok (name, data, rest)) :
    rest.length ≤ cur.length := by
  rw [(readFile_ok h).1]
  simp
  omega

theorem toDirStep_decreases : Decreases (fun s => s.cur.length) toDirStep := by
  rintro ⟨cur, stack, disk⟩ s' h
  cases cur with
  | nil => cases h
  | cons tag cur =>
    simp only [toDirStep] at h
    simp only [List.length_cons]
    split at h
    · -- a file
      split at h
      · cases h
      split at h
      · cases h
      rename_i hread
      split at h
      · cases h
      cases h
      have := readFile_length hread
      simp only
      omega
    · -- a directory
      split at h
      · cases h
      split at h
      · cases h
      rename_i hread
      have hle := readCstr_length hread
      split at h
      · cases h
      split at h
      · cases h
        simp only
        omega
      · simp only [List.length_cons] at hle
        split at h
        · cases h
          simp only
          omega
        · split at h
          · cases h
          · cases h
            simp only [List.length_cons]
            omega
        · cases h
          simp only [List.length_cons]
          omega
    · split at h
      · cases h
      · cases h
        simp only
        omega
    · cases h

def unpackToDir (data : Bytes) (disk : Disk) : EStateM.Result Error Disk Unit :=
  run toDirStep_decreases ⟨data, [[]], disk⟩

end Decoder

section Machine

structure Placed where
  dirs : List Bytes
  name : Bytes
  entry : Entry

def Placed.path (x : Placed) : List Bytes := x.dirs ++ [x.name]

def placed (dirs : List Bytes) : List Message → List Placed
  | [] => []
  | .file name data :: ms => ⟨dirs, name, .file data⟩ :: placed dirs ms
  | .dir name :: ms => ⟨dirs, name, .dir⟩ :: placed (dirs ++ [name]) ms
  | .pop :: ms => placed dirs.dropLast ms

def depthAfter : List Message → ℕ → Option ℕ
  | [], depth => some depth
  | .file _ _ :: ms, depth => depthAfter ms depth
  | .dir _ :: ms, depth => depthAfter ms (depth + 1)
  | .pop :: _, 0 => none
  | .pop :: ms, depth + 1 => depthAfter ms depth

def endsInDir (ms : List Message) : Bool :=
  match ms.getLast? with
  | some (.dir _) => true
  | _ => false

/-- An entry with the directories its name passes through. -/
structure Target extends Placed where
  passed : List (List Bytes)

/-- Where a way leads, whatever is on the disk. -/
def route (top : Option (List Bytes)) :
    List Bytes → List Bytes → Option (List (List Bytes) × List Bytes)
  | dir, [] => some ([], dir)
  | dir, part :: way =>
    if part = [] ∨ part = [dot] then route top dir way
    else if part = [dot, dot] then if top = some dir then none else route top dir.dropLast way
    else (route top (dir ++ [part]) way).map fun r => ((dir ++ [part]) :: r.1, r.2)

/-- What a call is about: `none` if no call with this name can make an entry. A
held name is resolved beneath the directory. -/
def target (dir : List Bytes) (name : Bytes) (entry : Entry) (held : Bool) : Option Target :=
  match (nameParts name).getLast? with
  | none => none
  | some last =>
    if isDots last ∨ (held ∧ isAbsolute name) ∨ (entry ≠ .dir ∧ isSlashed name) then none
    else
      (route (if held then some dir else none) (if isAbsolute name then [] else dir)
        (nameParts name).dropLast).map fun r => ⟨⟨r.2, last, entry⟩, r.1⟩

def pathOf : Option Target → List Bytes
  | some t => t.path
  | none => []

def entered : List Message → Bool
  | .file _ _ :: _ => true
  | .dir _ :: _ => true
  | _ => false

/-- The calls that the messages lead to, with the open directories. -/
def targets : List (List Bytes) → List Message → List (Option Target)
  | _, [] => []
  | stack, .file name data :: ms =>
    target (stack.headD []) name (.file data) true :: targets stack ms
  | stack, .dir name :: ms =>
    target (stack.headD []) name .dir (entered ms) ::
      targets (pathOf (target (stack.headD []) name .dir (entered ms)) :: stack) ms
  | stack, .pop :: ms => targets stack.tail ms

def put (disk : Disk) (x : Placed) : Option Disk :=
  match x.entry, disk x.path with
  | .dir, none => some (Function.update disk x.path (some .dir))
  | .dir, some _ => none
  | .file data, none => some (Function.update disk x.path (some (.file data)))
  | .file data, some (.file contents) =>
    some (Function.update disk x.path (some (.file (overwrite contents 0 data))))
  | .file _, some .dir => none

def place (disk : Disk) : Option Target → Option Disk
  | none => none
  | some t => if ∀ d ∈ t.passed, disk d = some .dir then put disk t.toPlaced else none

variable {disk disk' : Disk} {top : Option (List Bytes)} {dir : List Bytes} {name : Bytes}

theorem walk_eq_ok {way : List Bytes} {last : List Bytes} :
    walk disk top dir way = .ok last ↔
      ∃ passed, route top dir way = some (passed, last) ∧ ∀ d ∈ passed, disk d = some .dir := by
  induction way generalizing dir with
  | nil => simp [walk, route, pure, Except.pure, eq_comm]
  | cons part way ih =>
    have hwalk : walk disk top dir (part :: way) =
        (enter disk top dir part).bind fun dir' => walk disk top dir' way := rfl
    rw [hwalk, route]
    unfold enter
    split_ifs with hstay hup hout
    · exact ih
    · simp [Except.bind]
    · exact ih
    · cases hd : disk (dir ++ [part]) with
      | none =>
        simp only [Except.bind, reduceCtorEq, false_iff, not_exists, not_and]
        rintro passed hr hall
        obtain ⟨r, -, he⟩ := Option.map_eq_some_iff.mp hr
        cases he
        simp [hd] at hall
      | some x =>
        cases x with
        | file contents =>
          simp only [Except.bind, reduceCtorEq, false_iff, not_exists, not_and]
          rintro passed hr hall
          obtain ⟨r, -, he⟩ := Option.map_eq_some_iff.mp hr
          cases he
          simp [hd] at hall
        | dir =>
          simp only [Except.bind, ih, Option.map_eq_some_iff, Prod.mk.injEq, Prod.exists]
          constructor
          · rintro ⟨passed, hr, hall⟩
            exact ⟨_, ⟨passed, last, hr, rfl, rfl⟩, by simpa [hd] using hall⟩
          · rintro ⟨_, ⟨passed, _, hr, rfl, rfl⟩, hall⟩
            exact ⟨passed, hr, fun d hm => hall d (by simp [hm])⟩

theorem route_append (way way' : List Bytes) :
    route top dir (way ++ way') =
      (route top dir way).bind fun r => (route top r.2 way').map fun r' => (r.1 ++ r'.1, r'.2) := by
  induction way generalizing dir with
  | nil => simp [route]
  | cons part way ih =>
    simp only [List.cons_append, route]
    split_ifs
    · exact ih
    · rfl
    · exact ih
    · rw [ih]
      cases route top (dir ++ [part]) way <;> simp [Option.map_map, Function.comp_def]

/-- What may not leave a directory leads where it leads anyway. -/
theorem route_none_of_some {way : List Bytes} {r : List (List Bytes) × List Bytes}
    (h : route top dir way = some r) : route none dir way = some r := by
  induction way generalizing dir r with
  | nil => exact h
  | cons part way ih =>
    rw [route] at h ⊢
    split_ifs at h ⊢ with hstay hup hout
    · exact ih h
    · exact hout.elim
    · exact ih h
    · obtain ⟨r', hr', rfl⟩ := Option.map_eq_some_iff.mp h
      rw [ih hr']
      rfl

theorem nameParts_nil (h : cString name = []) : nameParts name = [] := by
  simp [nameParts, h]

theorem nameParts_last {last : Bytes} (h : (nameParts name).getLast? = some last) : last ≠ [] := by
  obtain ⟨way, hway⟩ := List.getLast?_eq_some_iff.mp h
  have hne : nameParts name ≠ [] := by simp [hway]
  have hlast := List.rdropWhile_last_not (· = []) _ hne
  simpa [show List.rdropWhile _ _ = nameParts name from rfl, hway] using hlast

theorem place_dir {x : Target} (hx : x.entry = .dir) (h : place disk (some x) = some disk') :
    ∀ d ∈ x.passed ++ [x.path], disk' d = some .dir := by
  simp only [place, put, hx, Option.ite_none_right_eq_some] at h
  obtain ⟨hall, hput⟩ := h
  cases hd : disk x.path with
  | some y => simp [hd] at hput
  | none =>
    rw [hd] at hput
    cases hput
    intro d hmem
    by_cases hpath : d = x.path
    · rw [hpath, Function.update_self]
    · rw [Function.update_of_ne hpath]
      exact hall d (by simpa [hpath] using hmem)

theorem place_target {entry : Entry} {held : Bool} {last : Bytes}
    (hlast : (nameParts name).getLast? = some last)
    (hok : ¬ (isDots last ∨ (held ∧ isAbsolute name) ∨ (entry ≠ .dir ∧ isSlashed name))) :
    place disk (target dir name entry held) =
      (walk disk (if held then some dir else none) (if isAbsolute name then [] else dir)
        (nameParts name).dropLast).toOption.bind fun dir' => put disk ⟨dir', last, entry⟩ := by
  unfold target
  simp only [hlast, hok, if_false]
  cases hw : walk disk (if held then some dir else none) (if isAbsolute name then [] else dir)
      (nameParts name).dropLast with
  | ok dir' =>
    obtain ⟨passed, hr, hall⟩ := walk_eq_ok.mp hw
    rw [hr]
    simp only [Option.map_some, place, Except.toOption, Option.bind_some]
    exact if_pos hall
  | error errno =>
    simp only [Except.toOption, Option.bind_none]
    cases hr : route (if held then some dir else none) (if isAbsolute name then [] else dir)
        (nameParts name).dropLast with
    | none => rfl
    | some r =>
      refine if_neg fun hall => ?_
      rw [walk_eq_ok.mpr ⟨r.1, hr, hall⟩] at hw
      cases hw

theorem mkdirat_eq (disk : Disk) (dir : List Bytes) (name : Bytes) :
    (mkdirat disk dir name).toOption = place disk (target dir name .dir false) := by
  unfold mkdirat
  cases hlast : (nameParts name).getLast? with
  | none =>
    have hnone : target dir name .dir false = none := by simp [target, hlast]
    rw [hnone]
    by_cases hne : cString name = []
    · rw [if_pos hne]
      rfl
    · rw [if_neg hne]
      cases walk disk none (if isAbsolute name then [] else dir) (nameParts name).dropLast <;> rfl
  | some last =>
    have hne : cString name ≠ [] := fun h => by simp [nameParts_nil h] at hlast
    rw [if_neg hne]
    by_cases hdots : isDots last
    · have hnone : target dir name .dir false = none := by simp [target, hlast, hdots]
      rw [hnone]
      cases walk disk none (if isAbsolute name then [] else dir) (nameParts name).dropLast with
      | error errno => rfl
      | ok dir' =>
        simp only [hdots, true_or, if_true]
        rfl
    · rw [place_target hlast (by simp [hdots])]
      simp only [Bool.false_eq_true, if_false]
      cases walk disk none (if isAbsolute name then [] else dir) (nameParts name).dropLast with
      | error errno => rfl
      | ok dir' =>
        simp only [hdots, false_or, Except.toOption, Option.bind_some, put, Placed.path]
        cases disk (dir' ++ [last]) <;> simp

theorem openatW_eq (disk : Disk) (dir : List Bytes) (name data : Bytes) :
    (openatW disk dir name).toOption.map (fun r => writeFile r.2 r.1 data) =
      place disk (target dir name (.file data) true) := by
  unfold openatW
  cases hlast : (nameParts name).getLast? with
  | none =>
    have hnone : target dir name (.file data) true = none := by simp [target, hlast]
    rw [hnone]
    by_cases hne : cString name = []
    · rw [if_pos hne]
      rfl
    by_cases habs : isAbsolute name
    · rw [if_neg hne, if_pos habs]
      rfl
    · rw [if_neg hne, if_neg habs]
      cases walk disk (some dir) dir (nameParts name).dropLast <;> rfl
  | some last =>
    have hne : cString name ≠ [] := fun h => by simp [nameParts_nil h] at hlast
    rw [if_neg hne]
    by_cases hok : isDots last ∨ isAbsolute name ∨ isSlashed name
    · have hnone : target dir name (.file data) true = none := by
        simp [target, hlast, hok]
      rw [hnone]
      by_cases habs : isAbsolute name
      · rw [if_pos habs]
        rfl
      · have hrefused : isDots last ∨ isSlashed name := by simpa [habs] using hok
        rw [if_neg habs]
        cases walk disk (some dir) dir (nameParts name).dropLast with
        | error errno => rfl
        | ok dir' =>
          simp only [hrefused, if_true]
          split_ifs <;> rfl
    · have hplain : ¬ last = [dot, dot] := by
        rintro rfl
        exact hok (.inl (.inr rfl))
      push Not at hok
      obtain ⟨hdots, habs, hslash⟩ := hok
      rw [if_neg habs, place_target hlast (by simp [hdots, habs, hslash])]
      simp only [if_true, habs, Bool.false_eq_true, if_false]
      cases walk disk (some dir) dir (nameParts name).dropLast with
      | error errno => rfl
      | ok dir' =>
        simp only [hplain, hdots, hslash, Bool.false_eq_true, false_and, or_self, if_false,
          Except.toOption, Option.bind_some, put, Placed.path]
        cases hd : disk (dir' ++ [last]) with
        | none => simp [writeFile, overwrite_nil_zero]
        | some x =>
          cases x with
          | dir => rfl
          | file contents => simp [writeFile, hd]

/-- A directory that has been made is opened exactly if its name stays beneath
the one it was made in. -/
theorem openpathat_mkdirat (disk : Disk) (dir : List Bytes) (name : Bytes) {α : Type}
    (k : List Bytes → Disk → Option α) :
    ((mkdirat disk dir name).toOption.bind fun disk' =>
        (openpathat disk' dir name).toOption.bind fun path => k path disk') =
      (place disk (target dir name .dir true)).bind (k (pathOf (target dir name .dir true))) := by
  rw [mkdirat_eq]
  cases hlast : (nameParts name).getLast? with
  | none =>
    have hnone : ∀ held, target dir name .dir held = none := fun held => by simp [target, hlast]
    simp only [hnone, place, Option.bind_none]
  | some last =>
    have hne : cString name ≠ [] := fun h => by simp [nameParts_nil h] at hlast
    have hparts : (nameParts name).dropLast ++ [last] = nameParts name :=
      List.dropLast_append_getLast? _ hlast
    by_cases hdots : isDots last
    · have hnone : ∀ held, target dir name .dir held = none := fun held => by
        simp [target, hlast, hdots]
      simp only [hnone, place, Option.bind_none]
    by_cases habs : isAbsolute name
    · have hnone : target dir name .dir true = none := by simp [target, hlast, habs]
      simp only [hnone, openpathat, hne, habs, if_false, if_true, Except.toOption, Option.bind_none,
        Option.bind_fun_none, place]
    have hheld : ∀ held : Bool, target dir name .dir held =
        (route (if held then some dir else none) dir (nameParts name).dropLast).map
          fun r => ⟨⟨r.2, last, .dir⟩, r.1⟩ := fun held => by
      simp [target, hlast, hdots, habs]
    have hlastStep : ∀ dir', route (some dir) dir' [last] = some ([dir' ++ [last]], dir' ++ [last]) := by
      intro dir'
      have hstay : ¬ (last = [] ∨ last = [dot]) := fun h => h.elim (nameParts_last hlast) (hdots <| .inl ·)
      rw [route, if_neg hstay, if_neg fun h => hdots (.inr h)]
      rfl
    cases hr : route (some dir) dir (nameParts name).dropLast with
    | none =>
      have hopen : ∀ disk', (openpathat disk' dir name).toOption = none := by
        intro disk'
        simp only [openpathat, hne, habs, if_false]
        cases hw : walk disk' (some dir) dir (nameParts name) with
        | error errno => rfl
        | ok dir' =>
          obtain ⟨passed, hroute, -⟩ := walk_eq_ok.mp hw
          rw [← hparts, route_append, hr] at hroute
          cases hroute
      rw [hheld true, if_pos rfl, hr]
      simp only [hopen, Option.bind_none, Option.bind_fun_none, Option.map_none, place]
    | some r =>
      have hsame : target dir name .dir false = target dir name .dir true := by
        rw [hheld true, hheld false, if_pos rfl, if_neg (by simp), hr, route_none_of_some hr]
      have htarget : target dir name .dir true = some ⟨⟨r.2, last, .dir⟩, r.1⟩ := by
        rw [hheld true, if_pos rfl, hr]
        rfl
      rw [hsame, htarget]
      cases hput : place disk (some ⟨⟨r.2, last, .dir⟩, r.1⟩) with
      | none => rfl
      | some disk' =>
        have hopen : openpathat disk' dir name = .ok (r.2 ++ [last]) := by
          simp only [openpathat, hne, habs, if_false]
          refine walk_eq_ok.mpr ⟨r.1 ++ [r.2 ++ [last]], ?_, ?_⟩
          · rw [← hparts, route_append, hr]
            simp only [Option.bind_some, hlastStep, Option.map_some]
          · exact place_dir rfl hput
        simp only [Option.bind_some, hopen, Except.toOption, pathOf, Placed.path]

def diskOf : EStateM.Result Error Disk Unit → Option Disk
  | .ok _ disk => some disk
  | .error _ _ => none

abbrev toDirFrom (cur : Bytes) (stack : List (List Bytes)) (disk : Disk) : Option Disk :=
  diskOf (run toDirStep_decreases ⟨cur, stack, disk⟩)

theorem toDirFrom_done {cur : Bytes} {stack : List (List Bytes)} {disk : Disk}
    {r : EStateM.Result Error Disk Unit} (h : toDirStep ⟨cur, stack, disk⟩ = .done r) :
    toDirFrom cur stack disk = diskOf r := by
  rw [toDirFrom, run_done _ h]

theorem toDirFrom_again {cur cur' : Bytes} {stack stack' : List (List Bytes)} {disk disk' : Disk}
    (h : toDirStep ⟨cur, stack, disk⟩ = .again ⟨cur', stack', disk'⟩) :
    toDirFrom cur stack disk = toDirFrom cur' stack' disk' := by
  rw [toDirFrom, run_again _ h]

theorem toDirFrom_nil (stack : List (List Bytes)) (disk : Disk) :
    toDirFrom [] stack disk = if stack.length = 1 then some disk else none := by
  rw [toDirFrom_done rfl]
  simp only
  split_ifs <;> rfl

theorem toDirFrom_no_stack (cur : Bytes) (disk : Disk) : toDirFrom cur [] disk = none := by
  cases cur with
  | nil => rw [toDirFrom_nil, if_neg (by simp)]
  | cons tag cur =>
    have hstep : ∃ e, toDirStep ⟨tag :: cur, [], disk⟩ = .done (.error e disk) := by
      simp only [toDirStep]
      cases ArchiveFormat1Tag.tryFrom tag with
      | none => exact ⟨_, rfl⟩
      | some t => cases t <;> exact ⟨_, rfl⟩
    obtain ⟨e, hstep⟩ := hstep
    rw [toDirFrom_done hstep]
    rfl

theorem toDirFrom_bad {tag : UInt8} {cur : Bytes} {e : Error} (h : readMessage tag cur = .error e)
    (stack : List (List Bytes)) (disk : Disk) : toDirFrom (tag :: cur) stack disk = none := by
  cases stack with
  | nil => exact toDirFrom_no_stack _ _
  | cons parent stack =>
    have hstep : ∃ e', toDirStep ⟨tag :: cur, parent :: stack, disk⟩ = .done (.error e' disk) := by
      simp only [toDirStep]
      unfold readMessage at h
      cases ht : ArchiveFormat1Tag.tryFrom tag with
      | none => exact ⟨_, rfl⟩
      | some t =>
        rw [ht] at h
        cases t with
        | file =>
          cases hr : readFile cur with
          | error e' => exact ⟨e', rfl⟩
          | ok r =>
            rw [hr] at h
            cases h
        | dir =>
          cases hr : readCstr cur with
          | error e' => exact ⟨e', rfl⟩
          | ok r =>
            rw [hr] at h
            cases h
        | pop => cases h
    obtain ⟨e', hstep⟩ := hstep
    rw [toDirFrom_done hstep]
    rfl

end Machine

section Run

/-- The condition under which a list of messages that was read to the end is
accepted: a directory that ends the archive was not opened. -/
def Closed (ms : List Message) (depth : ℕ) : Prop :=
  depthAfter ms depth = some (if endsInDir ms then 1 else 0)

instance (ms : List Message) (depth : ℕ) : Decidable (Closed ms depth) :=
  inferInstanceAs (Decidable (_ = _))

/-- What the run comes to: the calls one after another, if the end fits. -/
def outcome (e : Option Error) (ms : List Message) (dir : List Bytes) (stack : List (List Bytes))
    (disk : Disk) : Option Disk :=
  if e = none ∧ Closed ms stack.length then (targets (dir :: stack) ms).foldlM place disk else none

theorem closed_cons {m : Message} {ms : List Message} (hne : ms ≠ []) (depth : ℕ) :
    Closed (m :: ms) depth ↔
      depthAfter (m :: ms) depth = some (if endsInDir ms then 1 else 0) := by
  obtain ⟨m', ms', rfl⟩ := List.exists_cons_of_ne_nil hne
  unfold Closed endsInDir
  rw [List.getLast?_cons_cons]

theorem closed_file (name data : Bytes) (ms : List Message) (depth : ℕ) :
    Closed (.file name data :: ms) depth ↔ Closed ms depth := by
  cases ms with
  | nil => rfl
  | cons m ms => exact closed_cons (by simp) depth

theorem closed_pop_succ (ms : List Message) (depth : ℕ) :
    Closed (.pop :: ms) (depth + 1) ↔ Closed ms depth := by
  cases ms with
  | nil => rfl
  | cons m ms => exact closed_cons (by simp) _

theorem not_closed_pop_zero (ms : List Message) : ¬ Closed (.pop :: ms) 0 := by
  intro h
  cases h

theorem closed_dir {name : Bytes} {ms : List Message} (hne : ms ≠ []) (depth : ℕ) :
    Closed (.dir name :: ms) depth ↔ Closed ms (depth + 1) := closed_cons hne depth

theorem ite_bind_none {α β : Type} {c : Prop} [Decidable c] (x : Option α) (f : α → Option β) :
    (if c then x >>= f else none) = x.bind fun a => if c then f a else none := by
  cases x <;> simp

variable {e : Option Error} {ms : List Message} {dir : List Bytes} {stack : List (List Bytes)}
  {disk : Disk}

theorem outcome_file (name data : Bytes) :
    outcome e (.file name data :: ms) dir stack disk =
      (place disk (target dir name (.file data) true)).bind (outcome e ms dir stack) := by
  simp only [outcome, closed_file, targets, List.headD_cons, List.foldlM_cons, ite_bind_none]
  rfl

theorem outcome_dir {name : Bytes} (hne : ms ≠ []) :
    outcome e (.dir name :: ms) dir stack disk =
      (place disk (target dir name .dir (entered ms))).bind
        (outcome e ms (pathOf (target dir name .dir (entered ms))) (dir :: stack)) := by
  simp only [outcome, List.length_cons, closed_dir hne, targets, List.headD_cons, List.foldlM_cons,
    ite_bind_none]
  rfl

theorem outcome_pop {dir' : List Bytes} :
    outcome e (.pop :: ms) dir' (dir :: stack) disk = outcome e ms dir stack disk := by
  simp only [outcome, List.length_cons, closed_pop_succ, targets, List.tail_cons]

theorem outcome_dir_pop (name : Bytes) :
    outcome e (.dir name :: .pop :: ms) dir stack disk =
      (place disk (target dir name .dir false)).bind (outcome e ms dir stack) := by
  rw [outcome_dir (by simp)]
  congr 1
  funext disk'
  exact outcome_pop

theorem outcome_last_dir (name : Bytes) :
    outcome none [.dir name] dir stack disk =
      (place disk (target dir name .dir false)).bind (toDirFrom [] (dir :: stack)) := by
  have hclosed : Closed [.dir name] stack.length ↔ (dir :: stack).length = 1 := by
    simp [Closed, depthAfter, endsInDir]
  simp only [outcome, true_and, hclosed, targets, List.headD_cons, entered, List.foldlM_cons,
    List.foldlM_nil, ite_bind_none]
  congr 1
  funext disk'
  rw [toDirFrom_nil]
  rfl

theorem outcome_error (e : Error) : outcome (some e) ms dir stack disk = none := by
  simp [outcome]

theorem toDirFrom_file {tag : UInt8} {cur name data rest : Bytes}
    (h : readMessage tag cur = .ok (.file name data, rest)) :
    toDirFrom (tag :: cur) (dir :: stack) disk =
      (place disk (target dir name (.file data) true)).bind (toDirFrom rest (dir :: stack)) := by
  obtain ⟨htag, hread⟩ := readMessage_file h
  rw [← openatW_eq disk dir name data]
  cases hopen : openatW disk dir name with
  | error errno =>
    have hstep : toDirStep ⟨tag :: cur, dir :: stack, disk⟩ =
        .done (.error (.openAt errno) disk) := by
      simp only [toDirStep, htag, hread, hopen]
    rw [toDirFrom_done hstep]
    rfl
  | ok r =>
    have hstep : toDirStep ⟨tag :: cur, dir :: stack, disk⟩ =
        .again ⟨rest, dir :: stack, writeFile r.2 r.1 data⟩ := by
      simp only [toDirStep, htag, hread, hopen]
    rw [toDirFrom_again hstep]
    rfl

/-- The next tag decides whether a directory that has been made is opened. -/
def afterDir (dir : List Bytes) (stack : List (List Bytes)) (name rest : Bytes) (disk : Disk) :
    Option Disk :=
  match rest with
  | [] => toDirFrom [] (dir :: stack) disk
  | next :: rest' =>
    match ArchiveFormat1Tag.tryFrom next with
    | some .pop => toDirFrom rest' (dir :: stack) disk
    | some _ =>
      (openpathat disk dir name).toOption.bind fun path =>
        toDirFrom (next :: rest') (path :: dir :: stack) disk
    | none => toDirFrom (next :: rest') (dir :: stack) disk

theorem toDirFrom_opened {tag next : UInt8} {cur name rest : Bytes} {tag' : ArchiveFormat1Tag}
    {disk' : Disk} (htag : ArchiveFormat1Tag.tryFrom tag = some .dir)
    (hread : readCstr cur = .ok (name, next :: rest)) (hmk : mkdirat disk dir name = .ok disk')
    (hnext : ArchiveFormat1Tag.tryFrom next = some tag') (hpop : tag' ≠ .pop) :
    toDirFrom (tag :: cur) (dir :: stack) disk =
      (openpathat disk' dir name).toOption.bind fun path =>
        toDirFrom (next :: rest) (path :: dir :: stack) disk' := by
  have hstep : toDirStep ⟨tag :: cur, dir :: stack, disk⟩ =
      match openpathat disk' dir name with
      | .error errno => .done (.error (.openAt errno) disk')
      | .ok path => .again ⟨next :: rest, path :: dir :: stack, disk'⟩ := by
    cases tag' with
    | pop => exact absurd rfl hpop
    | file => simp only [toDirStep, htag, hread, hmk, hnext]
    | dir => simp only [toDirStep, htag, hread, hmk, hnext]
  cases hopen : openpathat disk' dir name with
  | error errno =>
    rw [hopen] at hstep
    rw [toDirFrom_done hstep]
    rfl
  | ok path =>
    rw [hopen] at hstep
    rw [toDirFrom_again hstep]
    rfl

theorem toDirFrom_dir {tag : UInt8} {cur name rest : Bytes}
    (h : readMessage tag cur = .ok (.dir name, rest)) :
    toDirFrom (tag :: cur) (dir :: stack) disk =
      (mkdirat disk dir name).toOption.bind (afterDir dir stack name rest) := by
  obtain ⟨htag, hread⟩ := readMessage_dir h
  cases hmk : mkdirat disk dir name with
  | error errno =>
    have hstep : toDirStep ⟨tag :: cur, dir :: stack, disk⟩ =
        .done (.error (.mkdirAt errno) disk) := by
      simp only [toDirStep, htag, hread, hmk]
    rw [toDirFrom_done hstep]
    rfl
  | ok disk' =>
    simp only [Except.toOption, Option.bind_some]
    cases rest with
    | nil => exact toDirFrom_again (by simp only [toDirStep, htag, hread, hmk])
    | cons next rest' =>
      simp only [afterDir]
      cases hnext : ArchiveFormat1Tag.tryFrom next with
      | none =>
        have hstep : toDirStep ⟨tag :: cur, dir :: stack, disk⟩ =
            .again ⟨next :: rest', dir :: stack, disk'⟩ := by
          simp only [toDirStep, htag, hread, hmk, hnext]
        exact toDirFrom_again hstep
      | some tag' =>
        cases tag' with
        | pop =>
          have hstep : toDirStep ⟨tag :: cur, dir :: stack, disk⟩ =
              .again ⟨rest', dir :: stack, disk'⟩ := by
            simp only [toDirStep, htag, hread, hmk, hnext]
          exact toDirFrom_again hstep
        | file => exact toDirFrom_opened htag hread hmk hnext (by simp)
        | dir => exact toDirFrom_opened htag hread hmk hnext (by simp)

/-- Nothing comes of a directory with something unreadable behind it. -/
theorem afterDir_bad {next : UInt8} {rest : Bytes} {err : Error} (h : readMessage next rest = .error err)
    (name : Bytes) : afterDir dir stack name (next :: rest) disk = none := by
  have hbad : ∀ stack, toDirFrom (next :: rest) stack disk = none := fun stack => toDirFrom_bad h stack disk
  simp only [afterDir]
  split
  · rename_i hpop
    simp [readMessage, hpop] at h
  · simp only [hbad, Option.bind_fun_none]
  · exact hbad _

/-- On any input, `unpack_to_dir` makes the calls of the messages it can read,
and succeeds if the input and the stack come to their end together. -/
theorem toDirFrom_eq {cur : Bytes} (h : Reads cur ms e) :
    toDirFrom cur (dir :: stack) disk = outcome e ms dir stack disk := by
  -- a directory that is left at once takes two messages in one round
  induction hn : ms.length using Nat.strong_induction_on generalizing cur ms e dir stack disk with
  | _ n ih =>
  subst hn
  cases h with
  | nil =>
    rw [toDirFrom_nil]
    simp [outcome, Closed, depthAfter, endsInDir, targets]
  | bad hbad => rw [toDirFrom_bad hbad, outcome_error]
  | @cons tag cur rest m ms e hread hs =>
    have ihs : ∀ dir stack, toDirFrom rest (dir :: stack) = outcome e ms dir stack :=
      fun dir stack => funext fun disk => ih ms.length (by simp) hs rfl
    cases m with
    | file name data => rw [toDirFrom_file hread, outcome_file, ihs]
    | pop =>
      obtain ⟨htag, rfl⟩ := readMessage_pop hread
      have hstep : toDirStep ⟨tag :: rest, dir :: stack, disk⟩ = .again ⟨rest, stack, disk⟩ := by
        simp only [toDirStep, htag]
      rw [toDirFrom_again hstep]
      cases stack with
      | nil =>
        rw [toDirFrom_no_stack]
        simp [outcome, not_closed_pop_zero]
      | cons dir' stack => rw [outcome_pop, ihs]
    | dir name =>
      rw [toDirFrom_dir hread]
      cases hs with
      | nil => rw [outcome_last_dir, mkdirat_eq]; rfl
      | bad hbad =>
        have hnone : afterDir dir stack name _ = fun _ => none := funext fun _ => afterDir_bad hbad name
        rw [hnone, Option.bind_fun_none, outcome_error]
      | @cons next rest' rest'' m' ms' e hread' hs' =>
        obtain ⟨rfl, -, -⟩ := readMessage_ok hread'
        by_cases hpop : m' = .pop
        · subst hpop
          obtain ⟨-, rfl⟩ := readMessage_pop hread'
          rw [outcome_dir_pop, mkdirat_eq]
          congr 1
          funext disk'
          exact ih ms'.length (by simp) hs' rfl
        · have hopened : ∀ disk', afterDir dir stack name (m'.tag.toByte :: rest') disk' =
              (openpathat disk' dir name).toOption.bind fun path =>
                outcome e (m' :: ms') path (dir :: stack) disk' := by
            intro disk'
            simp only [← ihs]
            cases m' <;> first | exact absurd rfl hpop | rfl
          have hentered : entered (m' :: ms') = true := by
            cases m' <;> first | exact absurd rfl hpop | rfl
          rw [funext hopened, outcome_dir (by simp), hentered]
          exact openpathat_mkdirat disk dir name fun path => outcome e (m' :: ms') path (dir :: stack)

theorem unpackToDir_eq {data : Bytes} (h : Reads data ms e) (disk : Disk) :
    diskOf (unpackToDir data disk) = outcome e ms [] [] disk :=
  toDirFrom_eq h

end Run

section Visitor

variable {σ : Type} (onFile : Bytes → Bytes → σ → σ)

def Named (P : Bytes → Prop) : Message → Prop
  | .file name _ => P name
  | .dir name => P name
  | .pop => True

theorem Named.imp {P Q : Bytes → Prop} (hPQ : ∀ name, P name → Q name) {m : Message} (h : Named P m) :
    Named Q m := by
  cases m with
  | file name data => exact hPQ name h
  | dir name => exact hPQ name h
  | pop => trivial

def PlainMessage : Message → Prop
  | .file name _ => PlainName name
  | .dir name => PlainName name
  | .pop => True

def filesOf (xs : List Placed) : List (List Bytes × Bytes) :=
  xs.filterMap fun x =>
    match x.entry with
    | .file data => some (x.path, data)
    | .dir => none

theorem named_of_plain {m : Message} (h : PlainMessage m) : Named PlainName m := by
  cases m <;> exact h

/-- The names play no part in what is accepted once the messages are read. -/
theorem visitMessages_ok_iff (e : Option Error) (ms : List Message) (path : Bytes) (depth : ℕ) (s : σ) :
    (∃ s', visitMessages (continuing onFile) e ms path depth s = .ok () s') ↔
      e = none ∧ depthAfter ms depth = some 0 := by
  induction ms generalizing path depth s with
  | nil =>
    cases e with
    | some e => simp [visitMessages]
    | none =>
      rw [visitMessages]
      by_cases h : depth = 0 <;> simp [h, depthAfter]
  | cons m ms ih =>
    cases m with
    | file name data => exact ih ..
    | dir name => exact ih ..
    | pop =>
      cases depth with
      | zero => simp [visitMessages, depthAfter]
      | succ depth => exact ih ..

/-- On any input with names that are one component each, `unpack_visitor` hands
out the files of the messages it can read, and succeeds if all directories have
been left. -/
theorem visitMessages_segments (e : Option Error) (ms : List Message)
    (hnamed : ∀ m ∈ ms, Named SegmentName m) (dirs : List Bytes) (hdirs : ∀ n ∈ dirs, SegmentName n)
    (s : σ) :
    visited (visitMessages (continuing onFile) e ms (joined dirs) dirs.length s) =
      if e = none ∧ depthAfter ms dirs.length = some 0 then
        some (visitFiles onFile (filesOf (placed dirs ms)) s)
      else none := by
  induction ms generalizing dirs s with
  | nil =>
    cases e with
    | some e => rfl
    | none =>
      simp only [visitMessages, depthAfter, Option.some.injEq, true_and]
      split_ifs <;> rfl
  | cons m ms ih =>
    have hms : ∀ m ∈ ms, Named SegmentName m := fun m' hm => hnamed m' (by simp [hm])
    cases m with
    | file name data =>
      have hname : SegmentName name := hnamed (.file name data) (by simp)
      have hall : ∀ n ∈ dirs ++ [name], SegmentName n := by
        simpa [or_imp, forall_and] using ⟨hdirs, hname⟩
      simp only [visitMessages, continuing, push_segments hdirs hname, pop_segments hall]
      exact ih hms dirs hdirs _
    | dir name =>
      have hname : SegmentName name := hnamed (.dir name) (by simp)
      have hall : ∀ n ∈ dirs ++ [name], SegmentName n := by
        simpa [or_imp, forall_and] using ⟨hdirs, hname⟩
      have hih := ih hms (dirs ++ [name]) hall s
      rw [List.length_append, List.length_singleton] at hih
      simp only [visitMessages, push_segments hdirs hname]
      exact hih
    | pop =>
      rcases List.eq_nil_or_concat dirs with rfl | ⟨ds, n, rfl⟩
      · simp [visitMessages, visited, depthAfter]
      · rw [List.concat_eq_append] at hdirs ⊢
        have hds : ∀ n ∈ ds, SegmentName n := fun n' hn => hdirs n' (by simp [hn])
        have hlen : (ds ++ [n]).length = ds.length + 1 := by simp
        simp only [visitMessages, hlen, Nat.add_one_ne_zero, if_false, pop_segments hdirs,
          Nat.add_sub_cancel, depthAfter, placed, List.dropLast_concat]
        exact ih hms ds hds s

theorem visitMessages_visited (e : Option Error) (ms : List Message)
    (hplain : ∀ m ∈ ms, PlainMessage m) (dirs : List Bytes) (hdirs : ∀ n ∈ dirs, PlainName n) (s : σ) :
    visited (visitMessages (continuing onFile) e ms (joined dirs) dirs.length s) =
      if e = none ∧ depthAfter ms dirs.length = some 0 then
        some (visitFiles onFile (filesOf (placed dirs ms)) s)
      else none :=
  visitMessages_segments onFile e ms (fun m hm => (named_of_plain (hplain m hm)).imp fun _ h => h.segment)
    dirs (fun n hn => (hdirs n hn).segment) s

end Visitor

section Disks

def Placed.IsFile (x : Placed) : Prop := x.entry ≠ .dir

/-- Two entries may stand at one path only if both are files. -/
def NoClash (xs : List Placed) : Prop :=
  xs.Pairwise fun a b => a.path = b.path → a.IsFile ∧ b.IsFile

def Free (disk : Disk) (x : Placed) : Prop :=
  (x.entry = .dir → disk x.path = none) ∧ (x.IsFile → disk x.path ≠ some .dir)

def merge (old : Option Entry) (x : Entry) : Option Entry :=
  match x, old with
  | .dir, _ => some .dir
  | .file data, some (.file contents) => some (.file (overwrite contents 0 data))
  | .file data, _ => some (.file data)

theorem put_eq_some {disk disk' : Disk} {x : Placed} :
    put disk x = some disk' ↔
      Free disk x ∧ disk' = Function.update disk x.path (merge (disk x.path) x.entry) := by
  unfold put Free Placed.IsFile merge
  cases x.entry with
  | dir => cases disk x.path <;> simp [eq_comm]
  | file data =>
    cases disk x.path with
    | none => simp [eq_comm]
    | some y => cases y <;> simp [eq_comm]

theorem merge_eq_dir {old : Option Entry} {x : Entry} : merge old x = some .dir ↔ x = .dir := by
  unfold merge
  split <;> simp

theorem merge_ne_none (old : Option Entry) (x : Entry) : merge old x ≠ none := by
  unfold merge
  split <;> simp

/-- An entry can follow another exactly if it could come before it and the two
do not clash. -/
theorem free_update {disk : Disk} {x y : Placed} (hx : Free disk x) :
    Free (Function.update disk x.path (merge (disk x.path) x.entry)) y ↔
      Free disk y ∧ (x.path = y.path → x.IsFile ∧ y.IsFile) := by
  by_cases hp : x.path = y.path
  · unfold Free Placed.IsFile at *
    rw [← hp]
    simp only [Function.update_self, ne_eq, merge_eq_dir, merge_ne_none, imp_false, forall_const]
    constructor
    · rintro ⟨hy, hxy⟩
      exact ⟨⟨fun h => absurd h hy, fun _ => hx.2 (hxy hy)⟩, hxy hy, hy⟩
    · rintro ⟨-, hxf, hyf⟩
      exact ⟨hyf, fun _ => hxf⟩
  · unfold Free
    rw [Function.update_of_ne (Ne.symm hp)]
    simp [hp]

theorem foldlM_put_isSome (xs : List Placed) (disk : Disk) :
    (xs.foldlM put disk).isSome ↔ NoClash xs ∧ ∀ x ∈ xs, Free disk x := by
  induction xs generalizing disk with
  | nil => simp [NoClash]
  | cons x xs ih =>
    rw [List.foldlM_cons, NoClash, List.pairwise_cons]
    cases hput : put disk x with
    | none =>
      simp only [Option.bind_eq_bind, Option.bind_none, Option.isSome_none, Bool.false_eq_true,
        false_iff]
      rintro ⟨-, hfree⟩
      have hsome := put_eq_some.mpr ⟨hfree x (by simp), rfl⟩
      rw [hput] at hsome
      cases hsome
    | some disk' =>
      obtain ⟨hx, rfl⟩ := put_eq_some.mp hput
      simp only [Option.bind_eq_bind, Option.bind_some, ih, free_update hx]
      constructor
      · rintro ⟨hxs, hall⟩
        refine ⟨⟨fun y hy => (hall y hy).2, hxs⟩, ?_⟩
        simpa using ⟨hx, fun y hy => (hall y hy).1⟩
      · rintro ⟨⟨hpair, hxs⟩, hall⟩
        exact ⟨hxs, fun y hy => ⟨hall y (by simp [hy]), hpair y hy⟩⟩

theorem free_empty (x : Placed) : Free emptyDisk x := by
  have hp : x.path ≠ [] := by simp [Placed.path]
  simp [Free, emptyDisk, hp]

theorem foldlM_put_empty (xs : List Placed) : (xs.foldlM put emptyDisk).isSome ↔ NoClash xs := by
  rw [foldlM_put_isSome]
  exact and_iff_left fun x _ => free_empty x

theorem dir_on_disk {xs : List Placed} {disk disk' : Disk} (h : xs.foldlM put disk = some disk')
    (d : List Bytes) :
    disk' d = some .dir ↔ disk d = some .dir ∨ ∃ x ∈ xs, x.path = d ∧ x.entry = .dir := by
  induction xs generalizing disk with
  | nil =>
    cases h
    simp
  | cons x xs ih =>
    obtain ⟨disk₁, hput, hrest⟩ := Option.bind_eq_some_iff.mp h
    obtain ⟨hfree, rfl⟩ := put_eq_some.mp hput
    rw [ih hrest, List.exists_mem_cons_iff, ← or_assoc]
    refine or_congr_left ?_
    by_cases hp : d = x.path
    · subst hp
      rw [Function.update_self, merge_eq_dir]
      simp only [true_and, iff_or_self]
      exact fun hd => by_contra fun hx => hfree.2 hx hd
    · rw [Function.update_of_ne hp]
      simp [Ne.symm hp]

theorem foldlM_put_at {xs : List Placed} {disk disk' : Disk} (h : xs.foldlM put disk = some disk')
    (path : List Bytes) :
    disk' path = ((xs.filter (·.path = path)).map (·.entry)).foldl merge (disk path) := by
  induction xs generalizing disk with
  | nil =>
    cases h
    rfl
  | cons x xs ih =>
    rw [List.foldlM_cons] at h
    cases hput : put disk x with
    | none =>
      rw [hput] at h
      cases h
    | some disk₁ =>
      rw [hput] at h
      rw [ih h]
      obtain ⟨-, rfl⟩ := put_eq_some.mp hput
      by_cases hp : x.path = path
      · subst hp
        simp
      · simp [hp, Function.update_of_ne (Ne.symm hp)]

def placesOf (ts : List (Option Target)) : List Placed := ts.filterMap (·.map (·.toPlaced))

/-- The archives whose calls all succeed in an empty directory, said of their
names: each can name an entry, the directories it passes through have been
made by then, and no path is used twice except by files. -/
structure GoesThrough (ts : List (Option Target)) : Prop where
  named : none ∉ ts
  ways : ∀ front t back, ts = front ++ some t :: back → ∀ d ∈ t.passed,
    d = [] ∨ ∃ x ∈ placesOf front, x.path = d ∧ x.entry = .dir
  paths : NoClash (placesOf ts)

theorem placesOf_append (ts us : List (Option Target)) :
    placesOf (ts ++ us) = placesOf ts ++ placesOf us :=
  List.filterMap_append

theorem goesThrough_concat {ts : List (Option Target)} {t : Target} :
    GoesThrough (ts ++ [some t]) ↔ GoesThrough ts ∧
      (∀ d ∈ t.passed, d = [] ∨ ∃ x ∈ placesOf ts, x.path = d ∧ x.entry = .dir) ∧
      NoClash (placesOf ts ++ [t.toPlaced]) := by
  have hplaces : placesOf (ts ++ [some t]) = placesOf ts ++ [t.toPlaced] := placesOf_append _ _
  constructor
  · rintro ⟨hnamed, hways, hpaths⟩
    rw [hplaces] at hpaths
    refine ⟨⟨by simpa using hnamed, ?_, (List.pairwise_append.mp hpaths).1⟩, hways ts t [] rfl, hpaths⟩
    rintro front x back rfl
    exact hways front x (back ++ [some t]) (by simp)
  · rintro ⟨⟨hnamed, hways, -⟩, hway, hpaths⟩
    refine ⟨by simpa using hnamed, ?_, hplaces ▸ hpaths⟩
    intro front x back he
    rcases List.eq_nil_or_concat back with rfl | ⟨back, y, rfl⟩
    · obtain ⟨rfl, hx⟩ := List.append_inj' he rfl
      cases hx
      exact hway
    · obtain ⟨rfl, -⟩ := List.append_inj' (he.trans (by simp : _ = (front ++ some x :: back) ++ [y])) rfl
      exact hways front x back rfl

theorem foldlM_place_eq {ts : List (Option Target)} {disk disk' : Disk}
    (h : ts.foldlM place disk = some disk') : (placesOf ts).foldlM put disk = some disk' := by
  induction ts generalizing disk with
  | nil => exact h
  | cons t ts ih =>
    obtain ⟨disk₁, hplace, hrest⟩ := Option.bind_eq_some_iff.mp h
    cases t with
    | none => cases hplace
    | some t =>
      obtain ⟨-, hput⟩ := Option.ite_none_right_eq_some.mp hplace
      exact Option.bind_eq_some_iff.mpr ⟨disk₁, hput, ih hrest⟩

/-- Each call is judged on the disk that those before it have left. -/
theorem foldlM_place_isSome (ts : List (Option Target)) :
    (ts.foldlM place emptyDisk).isSome ↔ GoesThrough ts := by
  induction ts using List.reverseRecOn with
  | nil =>
    simp only [List.foldlM_nil, Option.pure_def, Option.isSome_some, true_iff]
    exact ⟨by simp, by simp, .nil⟩
  | append_singleton ts t ih =>
    rw [List.foldlM_append]
    cases t with
    | none =>
      have hnot : ¬ GoesThrough (ts ++ [none]) := fun h => h.named (by simp)
      cases ts.foldlM place emptyDisk <;> simp [hnot, place]
    | some t =>
      rw [goesThrough_concat, ← ih]
      cases hts : ts.foldlM place emptyDisk with
      | none => simp
      | some disk =>
        have hput := foldlM_place_eq hts
        have hdirs : ∀ d, disk d = some .dir ↔
            d = [] ∨ ∃ x ∈ placesOf ts, x.path = d ∧ x.entry = .dir := by
          intro d
          rw [dir_on_disk hput d]
          simp [emptyDisk]
        have hclash : NoClash (placesOf ts ++ [t.toPlaced]) ↔ (put disk t.toPlaced).isSome := by
          rw [← foldlM_put_empty, List.foldlM_append, hput]
          simp
        rw [hclash]
        simp only [Option.bind_eq_bind, Option.bind_some, List.foldlM_cons, List.foldlM_nil,
          Option.isSome_some, true_and, place, ← hdirs]
        by_cases hall : ∀ d ∈ t.passed, disk d = some .dir
        · rw [if_pos hall, and_iff_right hall]
          cases put disk t.toPlaced <;> rfl
        · simp [hall]

end Disks

section Contents

def overlaid (contents : Bytes) (writes : List Bytes) : Bytes :=
  writes.foldl (fun contents data => overwrite contents 0 data) contents

theorem overwrite_zero_eq_iff {contents data : Bytes} :
    overwrite contents 0 data = data ↔ contents.length ≤ data.length := by
  unfold overwrite
  split_ifs with h
  · simp [h]
  · simp

theorem overlaid_length_le {contents : Bytes} {writes : List Bytes} {n : ℕ} :
    (overlaid contents writes).length ≤ n ↔ contents.length ≤ n ∧ ∀ data ∈ writes, data.length ≤ n := by
  induction writes generalizing contents with
  | nil => simp [overlaid]
  | cons data writes ih =>
    have hlen : (overwrite contents 0 data).length ≤ n ↔ contents.length ≤ n ∧ data.length ≤ n := by
      rw [length_overwrite]
      split_ifs with h
      · simp [h]
      · simp
    rw [show overlaid contents (data :: writes) = overlaid (overwrite contents 0 data) writes from rfl,
      ih, hlen]
    simp [and_assoc]

theorem overlaid_concat (contents : Bytes) (writes : List Bytes) (data : Bytes) :
    overlaid contents (writes ++ [data]) = overwrite (overlaid contents writes) 0 data := by
  simp [overlaid]

theorem overlaid_eq_last_iff {writes : List Bytes} {data : Bytes} :
    overlaid [] (writes ++ [data]) = data ↔ ∀ d ∈ writes, d.length ≤ data.length := by
  rw [overlaid_concat, overwrite_zero_eq_iff, overlaid_length_le]
  simp

theorem foldl_merge_files (contents : Bytes) (writes : List Bytes) :
    (writes.map Entry.file).foldl merge (some (.file contents)) =
      some (.file (overlaid contents writes)) := by
  induction writes generalizing contents with
  | nil => rfl
  | cons data writes ih => exact ih _

def writesAt (files : List (List Bytes × Bytes)) (path : List Bytes) : List Bytes :=
  (files.filter (·.1 = path)).map (·.2)

theorem writesAt_cons (file : List Bytes × Bytes) (files : List (List Bytes × Bytes))
    (path : List Bytes) :
    writesAt (file :: files) path =
      if file.1 = path then file.2 :: writesAt files path else writesAt files path := by
  unfold writesAt
  split_ifs with h <;> simp [h]

/-- If no directory is placed at a path, the files are all that is. -/
theorem entries_of_no_dir {xs : List Placed} {path : List Bytes}
    (h : ∀ x ∈ xs, x.path = path → x.IsFile) :
    (xs.filter (·.path = path)).map (·.entry) = (writesAt (filesOf xs) path).map Entry.file := by
  induction xs with
  | nil => rfl
  | cons x xs ih =>
    have ih := ih fun y hy => h y (by simp [hy])
    cases hx : x.entry with
    | file data =>
      have hfiles : filesOf (x :: xs) = (x.path, data) :: filesOf xs := by simp [filesOf, hx]
      rw [hfiles, writesAt_cons]
      by_cases hp : x.path = path
      · simp [hp, hx, ih]
      · simp [hp, ih]
    | dir =>
      have hp : x.path ≠ path := fun hp => h x (by simp) hp hx
      have hfiles : filesOf (x :: xs) = filesOf xs := by simp [filesOf, hx]
      rw [hfiles]
      simp [hp, ih]

theorem mem_filesOf {xs : List Placed} {file : List Bytes × Bytes} (h : file ∈ filesOf xs) :
    ∃ x ∈ xs, x.path = file.1 ∧ x.IsFile := by
  obtain ⟨x, hx, hf⟩ := List.mem_filterMap.mp h
  cases he : x.entry with
  | dir => simp [he] at hf
  | file data =>
    rw [he] at hf
    cases hf
    exact ⟨x, hx, rfl, by simp [Placed.IsFile, he]⟩

theorem filesOf_named {P : Bytes → Prop} {xs : List Placed} (h : ∀ x ∈ xs, ∀ n ∈ x.path, P n) :
    ∀ file ∈ filesOf xs, ∀ n ∈ file.1, P n := by
  intro file hf
  obtain ⟨x, hx, hp, -⟩ := mem_filesOf hf
  exact hp ▸ h x hx

theorem NoClash.exclusive {xs : List Placed} (h : NoClash xs) {x y : Placed} (hx : x ∈ xs) (hy : y ∈ xs)
    (hp : x.path = y.path) (hdir : x.entry = .dir) : y.entry = .dir := by
  by_contra hfile
  have hne : x ≠ y := by
    rintro rfl
    exact hfile hdir
  have hsymm : Std.Symm fun a b : Placed => a.path = b.path → a.IsFile ∧ b.IsFile :=
    ⟨fun a b hab he => (hab he.symm).symm⟩
  exact (h.forall hx hy hne hp).1 hdir

theorem foldl_merge_dirs {es : List Entry} (hne : es ≠ []) (h : ∀ e ∈ es, e = .dir)
    (old : Option Entry) : es.foldl merge old = some .dir := by
  obtain ⟨es', e, rfl⟩ := List.eq_nil_or_concat es |>.resolve_left hne
  have he : e = .dir := h e (by simp)
  rw [List.concat_eq_append, List.foldl_append, he]
  rfl

/-- What a successful run leaves at a path where a file was written. -/
theorem file_on_disk {xs : List Placed} (hc : NoClash xs) {disk : Disk}
    (h : xs.foldlM put emptyDisk = some disk) (path : List Bytes) (contents : Bytes) :
    disk path = some (.file contents) ↔
      writesAt (filesOf xs) path ≠ [] ∧ contents = overlaid [] (writesAt (filesOf xs) path) := by
  rw [foldlM_put_at h]
  by_cases hdir : ∃ x ∈ xs, x.path = path ∧ x.entry = .dir
  · -- a directory here excludes every file
    obtain ⟨x, hx, hpath, hentry⟩ := hdir
    have hdirs : ∀ y ∈ xs, y.path = path → y.entry = .dir := fun y hy hyp =>
      hc.exclusive hx hy (hpath.trans hyp.symm) hentry
    have hno : writesAt (filesOf xs) path = [] := by
      rw [writesAt, List.map_eq_nil_iff, List.filter_eq_nil_iff]
      intro file hfile hp
      obtain ⟨y, hy, hyp, hyf⟩ := mem_filesOf hfile
      exact hyf (hdirs y hy (hyp.trans (by simpa using hp)))
    have hfold : ((xs.filter (·.path = path)).map (·.entry)).foldl merge (emptyDisk path) =
        some .dir := by
      refine foldl_merge_dirs ?_ ?_ _
      · have hmem : x ∈ xs.filter (·.path = path) := by simp [hx, hpath]
        simpa using List.ne_nil_of_mem hmem
      · intro e he
        obtain ⟨y, hy, rfl⟩ := List.mem_map.mp he
        rw [List.mem_filter] at hy
        exact hdirs y hy.1 (by simpa using hy.2)
    simp [hfold, hno]
  · have hfiles : ∀ x ∈ xs, x.path = path → x.IsFile := fun x hx hp he => hdir ⟨x, hx, hp, he⟩
    rw [entries_of_no_dir hfiles]
    cases hw : writesAt (filesOf xs) path with
    | nil =>
      simp only [List.map_nil, List.foldl_nil, emptyDisk, ne_eq, not_true_eq_false, false_and,
        iff_false]
      split_ifs <;> simp
    | cons data writes =>
      have hpath : path ≠ [] := by
        intro hnil
        have hmem : data ∈ writesAt (filesOf xs) path := by simp [hw]
        obtain ⟨file, hfile, -⟩ := List.mem_map.mp hmem
        rw [List.mem_filter] at hfile
        obtain ⟨x, -, hxp, -⟩ := mem_filesOf hfile.1
        have : x.path = [] := hxp.trans ((by simpa using hfile.2 : file.1 = path).trans hnil)
        simp [Placed.path] at this
      have hstart : merge (emptyDisk path) (.file data) = some (.file (overwrite [] 0 data)) := by
        simp [emptyDisk, hpath, merge, overwrite_nil_zero]
      rw [List.map_cons, List.foldl_cons, hstart, foldl_merge_files]
      simp [overlaid, eq_comm]

end Contents

section Map

/-- `HashMap<PathBuf, Vec<u8>>`: paths with the same components are one key,
and the key that was there first stays. -/
def insertPath (path data : Bytes) (map : List (Bytes × Bytes)) : List (Bytes × Bytes) :=
  if map.any (fun kv => components kv.1 = components path) then
    map.map fun kv => if components kv.1 = components path then (kv.1, data) else kv
  else map ++ [(path, data)]

def unpackToHashmap (data : Bytes) : Option (List (Bytes × Bytes)) :=
  visited (unpackVisitor (continuing insertPath) data [])

def Maps (map : List (Bytes × Bytes)) (last : List Bytes → Option Bytes) : Prop :=
  ∀ path data, (path, data) ∈ map ↔
    ∃ names, (∀ n ∈ names, PlainName n) ∧ path = joined names ∧ last names = some data

theorem insertPath_maps {map : List (Bytes × Bytes)} {last : List Bytes → Option Bytes}
    (h : Maps map last) {names : List Bytes} (hn : ∀ n ∈ names, PlainName n) (data : Bytes) :
    Maps (insertPath (joined names) data map) (Function.update last names (some data)) := by
  have hkey : ∀ {names' : List Bytes}, (∀ n ∈ names', PlainName n) →
      (components (joined names') = components (joined names) ↔ names' = names) := by
    intro names' hn'
    rw [components_joined hn, components_joined hn']
    exact (List.map_injective_iff.mpr fun _ _ he => by injection he).eq_iff
  intro path bytes
  unfold insertPath
  split_ifs with hany
  · -- the key is there: its value is replaced
    obtain ⟨kv, hkv, hcomp⟩ := List.any_eq_true.mp hany
    obtain ⟨names₀, hn₀, hpath₀, hlast₀⟩ := (h kv.1 kv.2).mp hkv
    obtain rfl : names₀ = names := (hkey hn₀).mp (by simpa [hpath₀] using hcomp)
    constructor
    · intro hmem
      obtain ⟨kv', hkv', he⟩ := List.mem_map.mp hmem
      obtain ⟨names', hn', hpath', hlast'⟩ := (h kv'.1 kv'.2).mp hkv'
      simp only [hpath', hkey hn'] at he
      split_ifs at he with heq
      · cases he
        exact ⟨names', hn', rfl, by simp [heq]⟩
      · refine ⟨names', hn', ?_, ?_⟩
        · rw [← hpath', he]
        · rw [Function.update_of_ne heq, hlast', he]
    · rintro ⟨names', hn', rfl, hlast'⟩
      by_cases heq : names' = names₀
      · subst heq
        rw [Function.update_self] at hlast'
        cases hlast'
        exact List.mem_map.mpr ⟨kv, hkv, by simp [hpath₀]⟩
      · rw [Function.update_of_ne heq] at hlast'
        have hmem := (h (joined names') bytes).mpr ⟨names', hn', rfl, hlast'⟩
        exact List.mem_map.mpr ⟨_, hmem, by simp [(hkey hn').not.mpr heq]⟩
  · have hfresh : ∀ data', (joined names, data') ∉ map := by
      intro data' hmem
      exact hany (List.any_eq_true.mpr ⟨_, hmem, by simp⟩)
    have hnone : last names = none := by
      cases hl : last names with
      | none => rfl
      | some data' => exact absurd ((h _ _).mpr ⟨names, hn, rfl, hl⟩) (hfresh data')
    rw [List.mem_append, h path bytes, List.mem_singleton]
    constructor
    · rintro (⟨names', hn', rfl, hlast'⟩ | he)
      · refine ⟨names', hn', rfl, ?_⟩
        rw [Function.update_of_ne, hlast']
        rintro rfl
        rw [hnone] at hlast'
        cases hlast'
      · cases he
        exact ⟨names, hn, rfl, by simp⟩
    · rintro ⟨names', hn', rfl, hlast'⟩
      by_cases heq : names' = names
      · subst heq
        rw [Function.update_self] at hlast'
        cases hlast'
        exact Or.inr rfl
      · rw [Function.update_of_ne heq] at hlast'
        exact Or.inl ⟨names', hn', rfl, hlast'⟩

theorem visitFiles_maps {files : List (List Bytes × Bytes)}
    (hplain : ∀ file ∈ files, ∀ n ∈ file.1, PlainName n) {map : List (Bytes × Bytes)}
    {last : List Bytes → Option Bytes} (h : Maps map last) :
    Maps (visitFiles insertPath files map)
      fun names => (writesAt files names).getLast?.or (last names) := by
  induction files generalizing map last with
  | nil => simpa [visitFiles, writesAt] using h
  | cons file files ih =>
    have hlast : ∀ names, (writesAt (file :: files) names).getLast?.or (last names) =
        (writesAt files names).getLast?.or (Function.update last file.1 (some file.2) names) := by
      intro names
      rw [writesAt_cons]
      by_cases hp : file.1 = names
      · subst hp
        simp only [if_true, Function.update_self, List.getLast?_cons]
        cases (writesAt files file.1).getLast? <;> rfl
      · rw [if_neg hp, Function.update_of_ne (Ne.symm hp)]
    simp only [hlast]
    exact ih (fun f hf => hplain f (by simp [hf]))
      (insertPath_maps h (hplain file (by simp)) file.2)

end Map

section Agreement

def LongestLast (xs : List Placed) : Prop :=
  ∀ path init last, writesAt (filesOf xs) path = init ++ [last] →
    ∀ data ∈ init, data.length ≤ last.length

def SameFiles (disk : Disk) (map : List (Bytes × Bytes)) : Prop :=
  ∀ path contents, (path, contents) ∈ map ↔
    ∃ names, path = joined names ∧ disk names = some (.file contents)

/-- The two decoders succeed on the same inputs, whatever a visitor that goes
on does, and then give the same files if the names are plain. -/
def Agree (data : Bytes) : Prop :=
  (∀ (σ : Type) (onFile : Bytes → Bytes → σ → σ) (s : σ),
    (diskOf (unpackToDir data emptyDisk)).isSome ↔
      (visited (unpackVisitor (continuing onFile) data s)).isSome) ∧
  ((∀ m ∈ (messages data).1, PlainMessage m) → ∀ disk map,
    diskOf (unpackToDir data emptyDisk) = some disk → unpackToHashmap data = some map →
      SameFiles disk map)

theorem placed_named {P : Bytes → Prop} {ms : List Message} (hnamed : ∀ m ∈ ms, Named P m)
    {dirs : List Bytes}
    (hdirs : ∀ n ∈ dirs, P n) : ∀ x ∈ placed dirs ms, ∀ n ∈ x.path, P n := by
  induction ms generalizing dirs with
  | nil => simp [placed]
  | cons m ms ih =>
    have hms : ∀ m ∈ ms, Named P m := fun m' hm => hnamed m' (by simp [hm])
    cases m with
    | file name data =>
      have hname : P name := hnamed (.file name data) (by simp)
      intro x hx
      rcases List.mem_cons.mp hx with rfl | hx
      · simpa [Placed.path, or_imp, forall_and] using ⟨hdirs, hname⟩
      · exact ih hms hdirs x hx
    | dir name =>
      have hname : P name := hnamed (.dir name) (by simp)
      have hall : ∀ n ∈ dirs ++ [name], P n := by
        simpa [or_imp, forall_and] using ⟨hdirs, hname⟩
      intro x hx
      rcases List.mem_cons.mp hx with rfl | hx
      · exact hall
      · exact ih hms hall x hx
    | pop => exact ih hms fun n hn => hdirs n (List.mem_of_mem_dropLast hn)

theorem placed_plain {ms : List Message} (hplain : ∀ m ∈ ms, PlainMessage m) {dirs : List Bytes}
    (hdirs : ∀ n ∈ dirs, PlainName n) : ∀ x ∈ placed dirs ms, ∀ n ∈ x.path, PlainName n :=
  placed_named (fun m hm => named_of_plain (hplain m hm)) hdirs

theorem depthAfter_endsInDir {ms : List Message} {depth k : ℕ} (h : depthAfter ms depth = some k)
    (hend : endsInDir ms) : k ≠ 0 := by
  induction ms generalizing depth with
  | nil => cases hend
  | cons m ms ih =>
    cases ms with
    | nil =>
      cases m with
      | dir name =>
        cases h
        omega
      | file name data => cases hend
      | pop => cases hend
    | cons m' ms =>
      have hend' : endsInDir (m' :: ms) := by
        unfold endsInDir at hend ⊢
        rwa [List.getLast?_cons_cons] at hend
      cases m with
      | file name data => exact ih h hend'
      | dir name => exact ih h hend'
      | pop =>
        cases depth with
        | zero => cases h
        | succ depth => exact ih h hend'

theorem sameFiles_iff {xs : List Placed} (hplain : ∀ x ∈ xs, ∀ n ∈ x.path, PlainName n)
    (hc : NoClash xs) {disk : Disk} (hdisk : xs.foldlM put emptyDisk = some disk) :
    SameFiles disk (visitFiles insertPath (filesOf xs) []) ↔ LongestLast xs := by
  have hfile : ∀ file ∈ filesOf xs, ∀ n ∈ file.1, PlainName n := filesOf_named hplain
  have hnames : ∀ names, writesAt (filesOf xs) names ≠ [] → ∀ n ∈ names, PlainName n := by
    intro names hne
    obtain ⟨data, hdata⟩ := List.exists_mem_of_ne_nil _ hne
    obtain ⟨file, hf, -⟩ := List.mem_map.mp hdata
    rw [List.mem_filter] at hf
    exact (by simpa using hf.2 : file.1 = names) ▸ hfile file hf.1
  have hmaps : Maps (visitFiles insertPath (filesOf xs) [])
      fun names => (writesAt (filesOf xs) names).getLast? := by
    have hnil : Maps [] fun _ => none := by simp [Maps]
    simpa using visitFiles_maps hfile hnil
  constructor
  · intro hsame path init last hw
    have hne : writesAt (filesOf xs) path ≠ [] := by simp [hw]
    have hmem := (hmaps (joined path) last).mpr ⟨path, hnames path hne, rfl, by simp [hw]⟩
    obtain ⟨names, hj, hd⟩ := (hsame _ _).mp hmem
    obtain ⟨hne', hlast⟩ := (file_on_disk hc hdisk names last).mp hd
    obtain rfl := joined_inj (hnames path hne) (hnames names hne') hj
    rw [hw] at hlast
    exact overlaid_eq_last_iff.mp hlast.symm
  · intro hlong path contents
    rw [hmaps path contents]
    constructor
    · rintro ⟨names, -, rfl, hlast⟩
      obtain ⟨init, hw⟩ := List.getLast?_eq_some_iff.mp hlast
      refine ⟨names, rfl, (file_on_disk hc hdisk names contents).mpr ⟨by simp [hw], ?_⟩⟩
      rw [hw]
      exact (overlaid_eq_last_iff.mpr (hlong names init contents hw)).symm
    · rintro ⟨names, rfl, hd⟩
      obtain ⟨hne, hcont⟩ := (file_on_disk hc hdisk names contents).mp hd
      obtain ⟨init, last, hw⟩ := List.eq_nil_or_concat _ |>.resolve_left hne
      rw [List.concat_eq_append] at hw
      refine ⟨names, hnames names hne, rfl, ?_⟩
      rw [hcont, hw, overlaid_eq_last_iff.mpr (hlong names init last hw)]
      simp [hw]

def stackOf (dirs : List Bytes) : List (List Bytes) := dirs.inits.reverse

@[simp] theorem stackOf_nil : stackOf [] = [[]] := rfl

theorem stackOf_concat (dirs : List Bytes) (name : Bytes) :
    stackOf (dirs ++ [name]) = (dirs ++ [name]) :: stackOf dirs := by
  simp [stackOf, List.inits_append]

theorem stackOf_headD (dirs : List Bytes) : (stackOf dirs).headD [] = dirs := by
  rcases List.eq_nil_or_concat dirs with rfl | ⟨ds, n, rfl⟩
  · rfl
  · rw [List.concat_eq_append, stackOf_concat]
    rfl

theorem cString_read {name : Bytes} (h : ReadName name) :
    cString name = if name.head? = some 0 then [] else name := by
  obtain ⟨c, cs, rfl⟩ := List.exists_cons_of_ne_nil h.nonempty
  by_cases hc : c = 0
  · simp [cString, hc]
  · have hcs : cs.takeWhile (· ≠ 0) = cs := by
      rw [List.takeWhile_eq_self_iff]
      intro x hx
      have : x ≠ 0 := fun h0 => h.noNul (by simpa [h0] using hx)
      simpa using this
    simpa [cString, hc] using hcs

theorem target_plain {dir : List Bytes} {name : Bytes} {entry : Entry} {held : Bool}
    (hplain : PlainName name) (hread : ReadName name) (hne : target dir name entry held ≠ none) :
    target dir name entry held = some ⟨⟨dir, name, entry⟩, []⟩ := by
  have hnul : ¬ name.head? = some 0 := by
    intro hhead
    have hnil : cString name = [] := by rw [cString_read hread, if_pos hhead]
    exact hne (by simp [target, nameParts_nil hnil])
  have hname : cString name = name := by rw [cString_read hread, if_neg hnul]
  have hparts : nameParts name = [name] := by
    have hno : ∀ part ∈ [name], slash ∉ part := by simpa using hplain.noSlash
    have hsplit : name.splitOn slash = [name] := by
      simpa using List.splitOn_intercalate slash hno (by simp)
    rw [nameParts, hname, hsplit, List.rdropWhile_singleton, if_neg (by simp [hplain.nonempty])]
  have hdots : ¬ isDots name := fun h => h.elim hplain.notDot hplain.notDotDot
  have habs : isAbsolute name = false := by
    simp only [isAbsolute, hname, decide_eq_false_iff_not]
    exact fun h => hplain.noSlash (List.mem_of_mem_head? h)
  have hslash : isSlashed name = false := by
    simp only [isSlashed, hname, decide_eq_false_iff_not]
    exact fun h => hplain.noSlash (List.mem_of_getLast? h)
  simp [target, hparts, hdots, habs, hslash, route]

/-- With plain names the calls are the entries that the visitor is told of. -/
theorem placesOf_plain {ms : List Message} (hplain : ∀ m ∈ ms, PlainMessage m)
    (hread : ∀ m ∈ ms, m.Readable) {dirs : List Bytes} (hdepth : depthAfter ms dirs.length ≠ none)
    (hnamed : none ∉ targets (stackOf dirs) ms) :
    placesOf (targets (stackOf dirs) ms) = placed dirs ms := by
  induction ms generalizing dirs with
  | nil => rfl
  | cons m ms ih =>
    have hplain' : ∀ m ∈ ms, PlainMessage m := fun m' hm => hplain m' (by simp [hm])
    have hread' : ∀ m ∈ ms, m.Readable := fun m' hm => hread m' (by simp [hm])
    cases m with
    | file name data =>
      rw [targets, stackOf_headD, List.mem_cons, not_or] at hnamed
      rw [targets, stackOf_headD, target_plain (hplain (.file name data) (by simp))
        (hread (.file name data) (by simp)).1 (Ne.symm hnamed.1), placed, ← ih hplain' hread' hdepth hnamed.2]
      rfl
    | dir name =>
      rw [targets, stackOf_headD, List.mem_cons, not_or] at hnamed
      have htarget := target_plain (hplain (.dir name) (by simp)) (hread (.dir name) (by simp))
        (Ne.symm hnamed.1)
      have hstack : pathOf (target dirs name .dir (entered ms)) :: stackOf dirs =
          stackOf (dirs ++ [name]) := by
        rw [htarget, stackOf_concat]
        rfl
      rw [hstack] at hnamed
      rw [targets, stackOf_headD, hstack, placed,
        ← ih hplain' hread' (by simpa [depthAfter] using hdepth) hnamed.2, htarget]
      rfl
    | pop =>
      rcases List.eq_nil_or_concat dirs with rfl | ⟨ds, n, rfl⟩
      · exact absurd rfl hdepth
      · rw [List.concat_eq_append] at hdepth hnamed ⊢
        rw [targets, stackOf_concat, List.tail_cons] at hnamed ⊢
        rw [placed, List.dropLast_concat]
        exact ih hplain' hread' (by simpa [depthAfter] using hdepth) hnamed

/-- The decoders agree on an archive exactly if it is not cut off right after a
directory at the top, and, when it is well formed, all its calls go through
and, if its names are plain, of the files at one path the last is the
longest. -/
theorem decoders_agree_iff (data : Bytes) :
    Agree data ↔
      ((messages data).2 = none →
        (depthAfter (messages data).1 0 = some 0 →
          GoesThrough (targets [[]] (messages data).1) ∧
          ((∀ m ∈ (messages data).1, PlainMessage m) → LongestLast (placed [] (messages data).1))) ∧
        ¬ (endsInDir (messages data).1 ∧ depthAfter (messages data).1 0 = some 1 ∧
          GoesThrough (targets [[]] (messages data).1))) := by
  have hreads := messages_reads data
  unfold Agree unpackToHashmap
  generalize (messages data).1 = ms at hreads ⊢
  generalize (messages data).2 = e at hreads ⊢
  have hdir : diskOf (unpackToDir data emptyDisk) = outcome e ms [] [] emptyDisk :=
    unpackToDir_eq hreads emptyDisk
  have hvisits : ∀ (σ : Type) (onFile : Bytes → Bytes → σ → σ) (s : σ),
      (visited (unpackVisitor (continuing onFile) data s)).isSome ↔
        e = none ∧ depthAfter ms 0 = some 0 := by
    intro σ onFile s
    rw [unpackVisitor_eq _ hreads, ← visitMessages_ok_iff onFile e ms [] 0 s]
    cases visitMessages (continuing onFile) e ms [] 0 s <;> simp [visited]
  have hthrough := foldlM_place_isSome (targets [[]] ms)
  have hall : ∀ {P : Prop}, (∀ σ : Type, (Bytes → Bytes → σ → σ) → σ → P) ↔ P :=
    ⟨fun h => h Unit (fun _ _ s => s) (), fun h _ _ _ => h⟩
  simp only [hvisits, hdir, outcome, List.length_nil, hall]
  cases e with
  | some e => simp
  | none =>
    simp only [true_and, forall_const]
    by_cases h0 : depthAfter ms 0 = some 0
    · have hend : endsInDir ms = false := by
        by_contra hne
        exact depthAfter_endsInDir h0 (by simpa using hne) rfl
      have hclosed : Closed ms 0 := by simpa [Closed, hend] using h0
      simp only [h0, hclosed, hend, if_true, iff_true, forall_const, Bool.false_eq_true, false_and,
        not_false_eq_true, and_true, hthrough]
      refine and_congr_right fun hgo => forall_congr' fun hplain => ?_
      obtain ⟨disk, hdisk⟩ := Option.isSome_iff_exists.mp (hthrough.mpr hgo)
      have hplaces : placesOf (targets (stackOf []) ms) = placed [] ms :=
        placesOf_plain hplain (reads_readable hreads) (by simp [h0]) hgo.named
      rw [stackOf_nil] at hplaces
      have hmap : visited (unpackVisitor (continuing insertPath) data []) =
          some (visitFiles insertPath (filesOf (placed [] ms)) []) := by
        rw [unpackVisitor_eq _ hreads]
        exact (visitMessages_visited insertPath none ms hplain [] (by simp) []).trans (if_pos ⟨rfl, h0⟩)
      have hput := foldlM_place_eq hdisk
      rw [hplaces] at hput
      have hsame := sameFiles_iff (placed_plain hplain (by simp)) (hplaces ▸ hgo.paths) hput
      rw [← hsame, hdisk, hmap]
      exact ⟨fun h => h _ _ rfl rfl, by rintro h _ _ ⟨⟩ ⟨⟩; exact h⟩
    · have hclosed : Closed ms 0 ↔ endsInDir ms ∧ depthAfter ms 0 = some 1 := by
        unfold Closed
        cases endsInDir ms <;> simp [h0]
      have hnone : visited (unpackVisitor (continuing insertPath) data []) = none := by
        rw [← Option.not_isSome_iff_eq_none, hvisits]
        simp [h0]
      simp only [h0, hnone, iff_false, false_implies, true_and, reduceCtorEq, implies_true, and_true]
      by_cases hcl : Closed ms 0
      · obtain ⟨hend, h1⟩ := hclosed.mp hcl
        simp only [hcl, if_true, hthrough, hend, h1, true_and]
      · have hno : ¬ (endsInDir ms ∧ depthAfter ms 0 = some 1 ∧ GoesThrough (targets [[]] ms)) :=
          fun h => hcl (hclosed.mpr ⟨h.1, h.2.1⟩)
        simp only [hcl, if_false, Option.isSome_none, Bool.false_eq_true, not_false_eq_true, hno]

def dotted : Bytes := encodeAll [.file [dot, slash, 0x61] [9], .dir [0x64], .pop]

/-- A name that is not plain is no obstacle. -/
theorem decoders_agree_dotted : Agree dotted := by
  have hm : messages dotted = ([.file [dot, slash, 0x61] [9], .dir [0x64], .pop], none) := by decide
  have htargets : targets [[]] [.file [dot, slash, 0x61] [9], .dir [0x64], .pop] =
      [some ⟨⟨[], [0x61], .file [9]⟩, []⟩, some ⟨⟨[], [0x64], .dir⟩, []⟩] := rfl
  refine (decoders_agree_iff dotted).mpr fun _ => ?_
  rw [hm]
  refine ⟨fun _ => ⟨?_, fun hplain => ?_⟩, fun h => absurd h.1 (by decide)⟩
  · rw [htargets, ← foldlM_place_isSome]
    decide
  · exact absurd (hplain (.file [dot, slash, 0x61] [9]) (by simp)).noSlash (by decide)

/-- An archive that ends with a directory is accepted by one decoder only, and
a shorter file leaves the end of the one before it on the disk. -/
theorem decoders_disagree :
    ((diskOf (unpackToDir [2, 0x64, 0] emptyDisk)).isSome ∧
      visited (unpackVisitor recorder [2, 0x64, 0] []) = none) ∧
    (diskOf (unpackToDir (encodeAll [.file [0x61] [1, 2], .file [0x61] [3]]) emptyDisk)).bind
        (fun disk => disk [[0x61]]) = some (.file [3, 2]) ∧
      unpackToHashmap (encodeAll [.file [0x61] [1, 2], .file [0x61] [3]]) = some [([0x61], [3])] := by
  decide

end Agreement

end ProgramExplorer.ArchiveToDir
