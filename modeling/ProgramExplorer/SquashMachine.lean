import ProgramExplorer.ErofsTree
import ProgramExplorer.SquashDeletions

/-!
# Squashing layers with a callback

`squash_layer` and `squash_cb` of `peimage/src/squash.rs`. The layers are
read from the top down; an archive is the sequence of its entries, where
reading an entry may fail. The squasher asks an entry for its path only and
hands the entry to the callback, so entries and callback are parameters.
-/

set_option autoImplicit false

namespace ProgramExplorer.SquashMachine
open ByteStrings OrderedMap UnixPath SquashDeletions

inductive EntryType where
  | regular
  | link
  | symlink
  | char
  | block
  | directory
  | fifo
  | continuous
  | gnuLongName
  | gnuLongLink
  | gnuSparse
  | xGlobalHeader
  | xHeader
  | other (byte : UInt8)
  deriving DecidableEq, Repr

inductive Error where
  | io
  | opaqueWhiteoutNoParent
  | hardlinkNoLink
  | xattrKeyUtf8Error
  | uidTooBig
  | gidTooBig
  | unhandledEntryType (t : EntryType)
  | erofs (e : ErofsTree.Error)
  deriving DecidableEq, Repr

inductive Whiteout where
  | whiteout (path : Bytes)
  | opaqueDir (path : Bytes)
  deriving DecidableEq, Repr

def whPrefix : Bytes := [0x2e, 0x77, 0x68, 0x2e]

def whOpaque : Bytes := whPrefix ++ whPrefix ++ [0x2e, 0x6f, 0x70, 0x71]

def whiteout (path : Bytes) : Except Error (Option Whiteout) :=
  match fileName path with
  | none => .ok none
  | some name =>
    if whOpaque.isPrefixOf name then
      match parent path with
      | some p => .ok (some (.opaqueDir p))
      | none => .error .opaqueWhiteoutNoParent
    else if whPrefix.isPrefixOf name then
      .ok (some (.whiteout (withFileName path (name.drop whPrefix.length))))
    else .ok none

structure Stats where
  deletions : ℕ
  deletionDirs : ℕ
  opaques : ℕ
  shadowed : ℕ
  deletionsMapSize : ℕ
  deriving DecidableEq, Repr

def Stats.default : Stats := ⟨0, 0, 0, 0, 0⟩

def Stats.count (stats : Stats) : DeletionReason → Stats
  | .whiteout => { stats with deletions := stats.deletions + 1 }
  | .whiteoutDir => { stats with deletionDirs := stats.deletionDirs + 1 }
  | .opaqueDir => { stats with opaques := stats.opaques + 1 }
  | .shadowed => { stats with shadowed := stats.shadowed + 1 }

structure Squasher (σ : Type) where
  stats : Stats
  deletions : DeletionsOsString
  cb : σ

section Machine

variable {ε σ : Type} (path : ε → Bytes) (onEntry : ε → EStateM Error σ Unit)

def squashEntry (i : ℕ) (entry : ε) : EStateM Error (Squasher σ) Unit := fun s =>
  match whiteout (path entry) with
  | .error e => .error e s
  | .ok (some (.whiteout p)) =>
    .ok () (if i ≠ 0 then { s with deletions := s.deletions.pushWhiteout p } else s)
  | .ok (some (.opaqueDir p)) =>
    .ok () (if i ≠ 0 then { s with deletions := s.deletions.pushOpaque p } else s)
  | .ok none =>
    match s.deletions.isDeleted (path entry) with
    | some reason => .ok () { s with stats := s.stats.count reason }
    | none =>
      match onEntry entry s.cb with
      | .error e cb => .error e { s with cb := cb }
      | .ok _ cb =>
        .ok () { s with
          cb := cb
          deletions := if i ≠ 0 then s.deletions.insertSeen (path entry) else s.deletions }

def squashLayer (i : ℕ) : List (Except Error ε) → EStateM Error (Squasher σ) Unit
  | [] => fun s =>
    .ok () (if i ≠ 0 then { s with deletions := s.deletions.endOfLayer } else s)
  | .error e :: _ => throw e
  | .ok entry :: rest => do
    squashEntry path onEntry i entry
    squashLayer i rest

def squashLayers : List (List (Except Error ε) × ℕ) → EStateM Error (Squasher σ) Unit
  | [] => pure ()
  | (layer, i) :: rest => do
    squashLayer path onEntry i layer
    squashLayers rest

def squashCb (layers : List (List (Except Error ε))) : EStateM Error σ Stats := fun cb =>
  match squashLayers path onEntry layers.zipIdx.reverse
      ⟨Stats.default, DeletionsOsString.default, cb⟩ with
  | .error e s => .error e s.cb
  | .ok _ s => .ok { s.stats with deletionsMapSize := s.deletions.map.entries.length } s.cb

end Machine

structure Call (ε : Type) where
  layer : ℕ
  pos : ℕ
  entry : ε
  deriving DecidableEq, Repr

section Calls

variable {ε : Type} (path : ε → Bytes)

def locate (layers : List (List ε)) : List (List (Call ε)) :=
  layers.mapIdx fun i es => es.mapIdx fun k e => ⟨i, k, e⟩

def order (layers : List (List ε)) : List (Call ε) := (locate layers).reverse.flatten

def recorder : Call ε → EStateM Error (List (Call ε)) Unit := fun c log => .ok () (log ++ [c])

def finalState {σ α : Type} : EStateM.Result Error σ α → σ
  | .ok _ s | .error _ s => s

def calls (layers : List (List ε)) : List (Call ε) :=
  finalState (squashCb (fun c : Call ε => path c.entry) recorder
    ((locate layers).map (·.map .ok)) [])

end Calls

end ProgramExplorer.SquashMachine
