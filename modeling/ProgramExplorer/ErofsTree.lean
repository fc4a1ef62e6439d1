import ProgramExplorer.FileTree
import ProgramExplorer.OrderedMap
import ProgramExplorer.UnixPath

/-!
# The in-memory tree of the image builder

The data model and the path operations of `peerofs/src/build.rs`. A method
on `&mut self` is a state transformer that keeps the state it leaves behind
when it fails: directories made on the way to a rejected path stay. The path
operations never look at what a leaf or a directory stores, so they are
stated for any payload; the builder's own tree is one instance.
-/

set_option autoImplicit false

namespace ProgramExplorer.ErofsTree
open ByteStrings OrderedMap UnixPath FileTree

/-- The errors of the builder; `panicked` stands for a failed assertion. -/
inductive Error where
  | fileExists
  | badFilename
  | emptyPath
  | emptyFilename
  | notADir
  | blockNoTooBig
  | metaBlockTooBig
  | fileBlockTooBig
  | inodeTooBig
  | noMetaBlock
  | addrLessThanMetaBlock
  | addrNotAligned
  | diskIdTooBig
  | noDiskId
  | noRootDiskId
  | rootDiskIdTooBig
  | noStartBlock
  | iterFail
  | nameOffsetTooBig
  | uidGidTooBig
  | hardlinkToDir
  | hardlinkNotResolved
  | hardlinkMultiNotHandled
  | unhandledPrefixComponent
  | pathWithDotDot
  | weirdPath
  | pathTrailingSlash
  | insertFailed
  | upsertFailed
  | maxDepthExceeded
  | xattrKeyTooLong
  | xattrValueTooLong
  | tooManyXattrs
  | modeShouldFitInU16
  | dirDiskIdMismatch (expected : Option UInt32) (got : UInt32)
  | maxSizeExceeded
  | oob
  | other (message : String)
  | io
  | panicked
  deriving DecidableEq, Repr

def sIfmt : UInt32 := 0xf000

/-- `rustix::fs::Mode`: permission bits, with the file type bits masked out as
`from_raw_mode` does. -/
structure Mode where
  bits : UInt32
  noType : bits &&& sIfmt = 0
  deriving DecidableEq, Repr

def Mode.fromRawMode (raw : UInt32) : Mode where
  bits := raw &&& ~~~sIfmt
  noType := by
    rw [UInt32.and_assoc]
    simp [sIfmt]

abbrev XattrMap := OrdMap Bytes Bytes

structure Meta where
  uid : UInt32
  gid : UInt32
  mtime : UInt64
  mode : Mode
  xattrs : XattrMap

def Meta.default : Meta where
  uid := 0
  gid := 0
  mtime := 0
  mode := Mode.fromRawMode 0o755
  xattrs := OrdMap.empty

def erofsNullAddr : UInt32 := 0xffffffff

structure File where
  metadata : Meta
  startBlock : UInt32
  nLinks : UInt32
  len : ℕ
  tail : Option Bytes
  diskId : Option UInt32

structure Symlink where
  metadata : Meta
  startBlock : UInt32
  nLinks : UInt32
  len : ℕ
  tail : Option Bytes
  diskId : Option UInt32

structure DirInfo where
  metadata : Meta
  diskId : Option UInt32
  startBlock : UInt32
  nDirentsPerBlock : List ℕ
  totalSize : ℕ

inductive Leaf where
  | file (f : File)
  | symlink (s : Symlink)
  | dot
  | dotDot

abbrev Dirent := Tree Leaf DirInfo

structure Dir (φ δ : Type) where
  info : δ
  children : List (Bytes × Tree φ δ)

section Paths

variable {φ δ α : Type}

def Dir.toTree (d : Dir φ δ) : Tree φ δ := .dir d.info d.children

def setChild (name : Bytes) (t : Tree φ δ) (d : Dir φ δ) : Dir φ δ :=
  { d with children := upsertList name (fun _ => t) d.children }

/-- Runs an action on the child directory `name` and stores what it leaves. -/
def zoom (name : Bytes) (child d : Dir φ δ) (act : EStateM Error (Dir φ δ) α) :
    EStateM.Result Error (Dir φ δ) α :=
  match act child with
  | .ok a child' => .ok a (setChild name child'.toTree d)
  | .error e child' => .error e (setChild name child'.toTree d)

def getOrCreateDir (dflt : Dir φ δ) (name : Bytes) (act : EStateM Error (Dir φ δ) α) :
    EStateM Error (Dir φ δ) α := fun d =>
  match lookup name d.children with
  | some (.dir info cs) => zoom name ⟨info, cs⟩ d act
  | some (.leaf _) => .error .notADir d
  | none => zoom name dflt d act

def getDir (name : Bytes) (act : EStateM Error (Dir φ δ) α) : EStateM Error (Dir φ δ) α := fun d =>
  match lookup name d.children with
  | some (.dir info cs) => zoom name ⟨info, cs⟩ d act
  | _ => .error .notADir d

/-- The loop of `lookup_impl` over the components; `k` runs on the directory
reached, with the final name component if there is one. -/
def lookupLoop (sub : Bytes → EStateM Error (Dir φ δ) α → EStateM Error (Dir φ δ) α)
    (k : Option Bytes → EStateM Error (Dir φ δ) α) :
    List Component → EStateM Error (Dir φ δ) α
  | [] => k none
  | [.normal name] => k (some name)
  | [.curDir] => k none
  | [_] => throw .weirdPath
  | .curDir :: rest | .rootDir :: rest => lookupLoop sub k rest
  | .parentDir :: _ => throw .pathWithDotDot
  | .normal name :: rest => sub name (lookupLoop sub k rest)

def lookupImpl (sub : Bytes → EStateM Error (Dir φ δ) α → EStateM Error (Dir φ δ) α)
    (path : Bytes) (k : Option Bytes → EStateM Error (Dir φ δ) α) :
    EStateM Error (Dir φ δ) α :=
  if path = [] then throw .emptyPath
  else if path = [dot] ∨ path = [dot, slash] ∨ path = [slash] then k none
  else lookupLoop sub k (components path)

def lookupCreate (dflt : Dir φ δ) (path : Bytes) (k : Option Bytes → EStateM Error (Dir φ δ) α) :
    EStateM Error (Dir φ δ) α :=
  lookupImpl (getOrCreateDir dflt) path k

def lookupOnly (path : Bytes) (k : Option Bytes → EStateM Error (Dir φ δ) α) :
    EStateM Error (Dir φ δ) α :=
  lookupImpl getDir path k

def insert (dflt : Dir φ δ) (path : Bytes) (entry : Tree φ δ) : EStateM Error (Dir φ δ) Unit :=
  lookupCreate dflt path fun
    | some name => modify (setChild name entry)
    | none => throw .insertFailed

def endsWithSlash (path : Bytes) : Bool := path.getLast? == some slash

/-- `Root::add_file` and `Root::add_symlink`, which differ in the entry only. -/
def addLeaf (dflt : Dir φ δ) (path : Bytes) (x : φ) : EStateM Error (Dir φ δ) Unit :=
  if endsWithSlash path then throw .pathTrailingSlash
  else insert dflt path (.leaf x)

def upsertDir (dflt : Dir φ δ) (path : Bytes) (set : δ → δ) : EStateM Error (Dir φ δ) Unit :=
  lookupCreate dflt path fun
    | none => modify fun d => { d with info := set d.info }
    | some name => getOrCreateDir dflt name (modify fun d => { d with info := set d.info })

end Paths

end ProgramExplorer.ErofsTree
