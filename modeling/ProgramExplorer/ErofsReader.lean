import ProgramExplorer.ByteStore
import ProgramExplorer.ErofsDisk

/-!
# Reading an EROFS image

`Erofs`, `Inode`, `DirentsIterator` and `XattrsIterator` of
`peerofs/src/disk.rs` over the bytes of an image. Offsets are numbers below
`2 ^ 64`; an addition that leaves this range, a shift by the word size and a
subtraction below zero panic in the source and are errors here.
-/

set_option autoImplicit false

namespace ProgramExplorer.ErofsReader
open ByteStrings ByteStore LittleEndian
open ErofsTree (erofsNullAddr)
open ErofsDisk

/-- The errors of the reader; `panicked` stands for a panic. -/
inductive Error where
  | badSuperblock
  | badMagic
  | badConversion
  | badCStr
  | oob
  | notDir
  | notSymlink
  | notRegDirLink
  | direntBadSize
  | badFileType
  | inodeTooBig
  | notExpectingBlockData
  | blockLenShouldBeZero
  | notCompressed
  | notCompressedFull
  | invalidXattrPrefix
  | builtinPrefixTooBig
  | xattrPrefixTableNotHandled
  | decompress
  | lciMalformed
  | write
  | underflow
  | unknownCompression
  | head2NotSupported
  | compressionNotSupported (type : CompressionType)
  | layoutNotHandled (layout : Layout)
  | panicked
  deriving DecidableEq, Repr

def okOr {α : Type} (x : Option α) (e : Error) : Except Error α :=
  match x with
  | some a => .ok a
  | none => .error e

theorem okOr_eq_some {α : Type} {x : Option α} {e : Error} {a : α} (h : okOr x e = .ok a) :
    x = some a := by
  cases x with
  | none => cases h
  | some b =>
    cases h
    rfl

theorem okOr_some_bind {α β : Type} (a : α) (e : Error) (f : α → Except Error β) :
    (okOr (some a) e >>= f) = f a := rfl

def add64 (a b : ℕ) : Except Error ℕ := if a + b < 2 ^ 64 then .ok (a + b) else .error .panicked

def shl64 (a : ℕ) (bits : UInt8) : Except Error ℕ :=
  if bits.toNat < 64 then .ok (a * 2 ^ bits.toNat % 2 ^ 64) else .error .panicked

inductive Inode where
  | compact (diskId : UInt32) (x : InodeCompact)
  | extended (diskId : UInt32) (x : InodeExtended)
  deriving DecidableEq

def Inode.new (diskId : UInt32) (data : Bytes) : Except Error Inode := do
  let (formatLayout, _) ← okOr (takeU16 data) .badConversion
  let _ ← okOr (getLayout formatLayout) .badConversion
  if getFormat formatLayout = 0 then
    let (x, _) ← okOr (InodeCompact.fromPrefix data) .badConversion
    pure (.compact diskId x)
  else
    let (x, _) ← okOr (InodeExtended.fromPrefix data) .badConversion
    pure (.extended diskId x)

def Inode.mode : Inode → UInt16
  | .compact _ x => x.mode
  | .extended _ x => x.mode

def Inode.fileType (i : Inode) : FileType := FileType.fromRawMode i.mode.toUInt32

def Inode.dataSize : Inode → ℕ
  | .compact _ x => x.size.toNat
  | .extended _ x => x.size.toNat

def Inode.diskId : Inode → UInt32
  | .compact id _ => id
  | .extended id _ => id

def Inode.size : Inode → ℕ
  | .compact _ _ => 32
  | .extended _ _ => 64

def Inode.xattrCount : Inode → UInt16
  | .compact _ x => x.xattrCount
  | .extended _ x => x.xattrCount

def Inode.uid : Inode → UInt32
  | .compact _ x => x.uid.toUInt32
  | .extended _ x => x.uid

def Inode.gid : Inode → UInt32
  | .compact _ x => x.gid.toUInt32
  | .extended _ x => x.gid

def Inode.formatLayout : Inode → UInt16
  | .compact _ x => x.formatLayout
  | .extended _ x => x.formatLayout

def Inode.layout (i : Inode) : Except Error Layout := okOr (getLayout i.formatLayout) .panicked

def Inode.rawBlockAddr : Inode → UInt32
  | .compact _ x => x.info
  | .extended _ x => x.info

def xattrCountToLen (count : UInt16) : ℕ := if count = 0 then 0 else 12 + (count.toNat - 1) * 4

def Inode.xattrLen (i : Inode) : Option ℕ :=
  if xattrCountToLen i.xattrCount = 0 then none else some (xattrCountToLen i.xattrCount)

structure Erofs where
  data : Bytes
  sb : Superblock

def Erofs.new (data : Bytes) : Except Error Erofs := do
  let (sb, _) ← okOr (Superblock.fromPrefix (← okOr (from? data superOffset) .oob)) .badConversion
  if sb.magic ≠ superMagic then throw .badMagic
  pure ⟨data, sb⟩

def Erofs.blockSize (fs : Erofs) : Except Error ℕ := shl64 1 fs.sb.blkszbits

def Erofs.blockOffset (fs : Erofs) (block : UInt32) : Except Error ℕ := shl64 block.toNat fs.sb.blkszbits

def Erofs.rawInodeOffset (fs : Erofs) (diskId : UInt32) : Except Error ℕ := do
  add64 (← fs.blockOffset fs.sb.metaBlkaddr) (32 * diskId.toNat)

def Erofs.inodeOffset (fs : Erofs) (inode : Inode) : Except Error ℕ := fs.rawInodeOffset inode.diskId

def Erofs.inodeEnd (fs : Erofs) (inode : Inode) : Except Error ℕ := do
  add64 (← add64 (← fs.inodeOffset inode) inode.size) (inode.xattrLen.getD 0)

def Erofs.getInode (fs : Erofs) (diskId : UInt32) : Except Error Inode := do
  Inode.new diskId (← okOr (from? fs.data (← fs.rawInodeOffset diskId)) .oob)

def Erofs.getRootInode (fs : Erofs) : Except Error Inode := fs.getInode fs.sb.rootDiskId.toUInt32

def computeBlockTailLen (blockSize size : ℕ) : ℕ × ℕ :=
  (size / blockSize * blockSize, size - size / blockSize * blockSize)

def Erofs.getData (fs : Erofs) (inode : Inode) : Except Error (Bytes × Bytes) := do
  match ← inode.layout with
  | .flatInline =>
    let (blockLen, tailLen) := computeBlockTailLen (← fs.blockSize) inode.dataSize
    let tailBegin ← fs.inodeEnd inode
    let tail ← okOr (slice? fs.data tailBegin (← add64 tailBegin tailLen)) .oob
    if inode.rawBlockAddr = erofsNullAddr then
      if blockLen ≠ 0 then throw .blockLenShouldBeZero
      pure ([], tail)
    else
      let dataBegin ← fs.blockOffset inode.rawBlockAddr
      let block ← okOr (slice? fs.data dataBegin (← add64 dataBegin blockLen)) .oob
      pure (block, tail)
  | .flatPlain =>
    if inode.dataSize = 0 then pure ([], [])
    else
      let dataBegin ← fs.blockOffset inode.rawBlockAddr
      let block ← okOr (slice? fs.data dataBegin (← add64 dataBegin inode.dataSize)) .oob
      pure (block, [])
  | layout => throw (.layoutNotHandled layout)

structure DirentItem where
  diskId : UInt64
  fileType : DirentFileType
  name : Bytes
  deriving DecidableEq

def Erofs.getInodeFromDirent (fs : Erofs) (dirent : DirentItem) : Except Error Inode :=
  if dirent.diskId.toNat < 2 ^ 32 then fs.getInode dirent.diskId.toUInt32 else .error .inodeTooBig

structure DirentsIterator where
  data : Bytes
  remaining : Option Bytes
  i : ℕ
  count : ℕ
  blockSize : ℕ

/-- Looks at the first record, whose name offset tells how many there are. -/
def DirentsIterator.countRecords (it : DirentsIterator) : Except Error DirentsIterator := do
  let (dirent, _) ← okOr (DiskDirent.fromPrefix it.data) .badConversion
  if dirent.nameOffset.toNat % 12 ≠ 0 then throw .direntBadSize
  pure { it with i := 0, count := dirent.nameOffset.toNat / 12 }

def DirentsIterator.resetCount (it : DirentsIterator) : Except Error DirentsIterator :=
  if it.data = [] then
    let it := { it with data := it.remaining.getD [], remaining := none }
    if it.data = [] then pure { it with i := 0, count := 0 } else it.countRecords
  else it.countRecords

def DirentsIterator.new (data : Bytes × Bytes) (blockSize : ℕ) : Except Error DirentsIterator :=
  DirentsIterator.resetCount ⟨data.1, some data.2, 0, 0, blockSize⟩

def DirentsIterator.get (it : DirentsIterator) (i : ℕ) : Except Error DiskDirent := do
  let (dirent, _) ← okOr (DiskDirent.fromPrefix (← okOr (from? it.data (i * 12)) .oob)) .badConversion
  pure dirent

def DirentsIterator.nextImpl (it : DirentsIterator) : Except Error (DirentItem × DirentsIterator) := do
  let dirent ← it.get it.i
  let fileType ← okOr (DirentFileType.tryFrom dirent.fileType) .badFileType
  let nameOffset := dirent.nameOffset.toNat
  if it.i + 1 < it.count then
    let nextDirent ← it.get (it.i + 1)
    let nextOffset := nextDirent.nameOffset.toNat
    if nextOffset < nameOffset then throw .panicked
    let name ← okOr (slice? it.data nameOffset nextOffset) .oob
    pure (⟨dirent.diskId, fileType, name⟩, { it with i := it.i + 1 })
  else
    let blockEnd := min it.data.length it.blockSize
    let slice ← okOr (slice? it.data nameOffset blockEnd) .oob
    let it ← DirentsIterator.resetCount { it with data := it.data.drop blockEnd }
    pure (⟨dirent.diskId, fileType, slice.takeWhile (· ≠ 0)⟩, it)

def DirentsIterator.items : ℕ → DirentsIterator → Except Error (List DirentItem)
  | 0, _ => .error .panicked
  | fuel + 1, it =>
    if it.i < it.count then do
      let (item, it) ← it.nextImpl
      let items ← DirentsIterator.items fuel it
      pure (item :: items)
    else pure []

def Erofs.getDirents (fs : Erofs) (inode : Inode) : Except Error DirentsIterator := do
  if inode.fileType ≠ .directory then throw .notDir
  DirentsIterator.new (← fs.getData inode) (← fs.blockSize)

inductive XattrPrefix where
  | builtin (i : UInt8)
  | table (i : UInt8)
  deriving DecidableEq

def XattrPrefix.tryFrom (x : UInt8) : Except Error (Option XattrPrefix) :=
  if x = 0 then .ok none
  else if x &&& 0x80 ≠ 0 then .ok (some (.table (x &&& 0x7f)))
  else if x < 7 then .ok (some (.builtin x))
  else .error .invalidXattrPrefix

structure XattrItem where
  pre : Option XattrPrefix
  name : Bytes
  value : Bytes
  deriving DecidableEq

structure XattrsIterator where
  data : Bytes
  sharedData : Bytes
  sharedRemaining : ℕ

def roundUpTo (n x : ℕ) : ℕ := if x = 0 then n else (x + n - 1) / n * n

/-- The record at the front: its header, name, value and the bytes after them. -/
def splitXattr (data : Bytes) : Except Error (XattrEntry × Bytes × Bytes × Bytes) := do
  let (entry, data) ← okOr (XattrEntry.fromPrefix data) .badConversion
  let (name, rest) ← okOr (takeBytes entry.nameLen.toNat data) .oob
  let (value, _) ← okOr (takeBytes entry.valueSize.toNat rest) .oob
  pure (entry, name, value, data)

def XattrsIterator.nextShared (it : XattrsIterator) : Except Error XattrItem × XattrsIterator :=
  match takeU32 it.data with
  | none => (.error .badConversion, { it with sharedRemaining := it.sharedRemaining - 1 })
  | some (index, data) =>
    let item := do
      let (entry, name, value, _) ← splitXattr (← okOr (from? it.sharedData (index.toNat * 4)) .oob)
      pure ⟨← XattrPrefix.tryFrom entry.nameIndex, name, value⟩
    (item, { it with data := data, sharedRemaining := it.sharedRemaining - 1 })

def XattrsIterator.nextUnshared (it : XattrsIterator) : Except Error XattrItem × XattrsIterator :=
  match splitXattr it.data with
  | .error e => (.error e, it)
  | .ok (entry, name, value, data) =>
    match from? data (roundUpTo 4 (name.length + value.length)) with
    | none => (.error .oob, it)
    | some data =>
      ((XattrPrefix.tryFrom entry.nameIndex).map fun pre => ⟨pre, name, value⟩,
        { it with data := if data.length < 4 then [] else data })

def XattrsIterator.next (it : XattrsIterator) : Option (Except Error XattrItem × XattrsIterator) :=
  if it.sharedRemaining > 0 then some it.nextShared
  else if it.data ≠ [] then some it.nextUnshared
  else none

def XattrsIterator.items : ℕ → XattrsIterator → Except Error (List XattrItem)
  | 0, _ => .error .panicked
  | fuel + 1, it =>
    match it.next with
    | none => .ok []
    | some (.error e, _) => .error e
    | some (.ok item, it) => do
      let items ← XattrsIterator.items fuel it
      pure (item :: items)

def Erofs.getXattrs (fs : Erofs) (inode : Inode) : Except Error (Option XattrsIterator) :=
  match inode.xattrLen with
  | none => pure none
  | some size => do
    let offset ← add64 (← fs.inodeOffset inode) inode.size
    let data ← okOr (slice? fs.data offset (← add64 offset size)) .oob
    let sharedData ← okOr (from? fs.data (← fs.blockOffset fs.sb.xattrBlkaddr)) .oob
    let (header, data) ← okOr (XattrHeader.fromPrefix data) .badConversion
    pure (some ⟨data, sharedData, header.sharedCount.toNat⟩)

/-- `user.`, `system.posix_acl_access`, `system.posix_acl_default`, `trusted`,
nothing, `security.`. -/
def xattrBuiltinPrefixTable : List Bytes :=
  [[117, 115, 101, 114, 46],
   [115, 121, 115, 116, 101, 109, 46, 112, 111, 115, 105, 120, 95, 97, 99, 108, 95, 97, 99, 99,
    101, 115, 115],
   [115, 121, 115, 116, 101, 109, 46, 112, 111, 115, 105, 120, 95, 97, 99, 108, 95, 100, 101, 102,
    97, 117, 108, 116],
   [116, 114, 117, 115, 116, 101, 100],
   [],
   [115, 101, 99, 117, 114, 105, 116, 121, 46]]

def getXattrPrefix (item : XattrItem) : Except Error Bytes :=
  match item.pre with
  | none => .ok []
  | some (.builtin i) => okOr xattrBuiltinPrefixTable[i.toNat - 1]? .builtinPrefixTooBig
  | some (.table _) => .error .xattrPrefixTableNotHandled

end ProgramExplorer.ErofsReader
