import ProgramExplorer.ErofsReader
import ProgramExplorer.StateRules

/-!
# Building an EROFS image

`Builder` of `peerofs/src/build.rs`. File contents are written while entries
are added; everything else is written by `intoInner`, which walks the tree
four times. The writer behind the builder does not fail, positions are
natural numbers, and the block size is the constant the source sets.
-/

set_option autoImplicit false

namespace ProgramExplorer.ErofsBuilder
open ByteStrings OrderedMap UnixPath ByteStore LittleEndian FileTree ErofsTree ErofsDisk
open StateRules
open ErofsReader (xattrCountToLen roundUpTo xattrBuiltinPrefixTable)

def blockSize : ℕ := 4096

structure Stats where
  files : ℕ
  symlinks : ℕ
  dirs : ℕ
  tails : ℕ
  tailSize : ℕ
  blockEndPadding : ℕ

def Stats.default : Stats := ⟨0, 0, 0, 0, 0, 0⟩

structure BuilderConfig where
  maxFileSize : Option UInt64
  incrementUidGid : Option UInt32

structure Builder where
  root : Dir Leaf DirInfo
  incrementUidGid : Option UInt32
  writer : Writer
  superblock : Superblock
  curDataBlock : ℕ
  metaBlock : Option ℕ
  nDirs : ℕ
  nInodes : ℕ
  links : List (Bytes × Bytes × Meta)
  inodeAddr : ℕ
  stats : Stats
  maxDepth : ℕ
  maxFileSize : ℕ
  curFileSize : ℕ

def DirInfo.default : DirInfo where
  metadata := Meta.default
  diskId := none
  startBlock := erofsNullAddr
  nDirentsPerBlock := []
  totalSize := 0

def Dir.default : Dir Leaf DirInfo where
  info := DirInfo.default
  children := [([dot], .leaf .dot), ([dot, dot], .leaf .dotDot)]

def Builder.new (config : BuilderConfig) : Builder where
  root := Dir.default
  incrementUidGid := config.incrementUidGid
  writer := (Writer.mk [] 0).seek blockSize
  superblock := Superblock.zeroed
  curDataBlock := 1
  metaBlock := none
  nDirs := 0
  nInodes := 0
  links := []
  inodeAddr := 0
  stats := Stats.default
  maxDepth := 32
  maxFileSize := (config.maxFileSize.getD (-1)).toNat
  curFileSize := 0

def toU32 (n : ℕ) (e : Error) : Except Error UInt32 :=
  if n < 2 ^ 32 then .ok (UInt32.ofNat n) else .error e

def padding (written alignment : ℕ) : ℕ :=
  if written % alignment = 0 then 0 else alignment - written % alignment

def write (bs : Bytes) : EStateM Error Builder Unit := fun b =>
  .ok () { b with writer := b.writer.writeAll bs }

def zeroFill (written alignment : ℕ) : EStateM Error Builder ℕ := fun b =>
  let n := padding written alignment
  .ok n { b with
    writer := b.writer.writeAll (List.replicate n 0)
    stats := { b.stats with blockEndPadding := b.stats.blockEndPadding + n } }

def zeroFillBlock (written : ℕ) : EStateM Error Builder ℕ := zeroFill written blockSize

def seekBlock (block : ℕ) : EStateM Error Builder Unit := fun b =>
  .ok () (if b.curDataBlock ≠ block then
    { b with writer := b.writer.seek (block * blockSize), curDataBlock := block } else b)

def addrToDiskId (addr : ℕ) : EStateM Error Builder UInt32 := do
  let b ← get
  let metaBlock ← check (okOr b.metaBlock .noMetaBlock)
  require (metaBlock * blockSize ≤ addr) .addrLessThanMetaBlock
  require ((addr - metaBlock * blockSize) % inodeAlignment = 0) .addrNotAligned
  check (toU32 ((addr - metaBlock * blockSize) / inodeAlignment) .diskIdTooBig)

def sizeTailLen (len : ℕ) : ℕ × ℕ × ℕ :=
  if len % blockSize > blockSize / 2 then (len / blockSize + 1, len, 0)
  else (len / blockSize, len / blockSize * blockSize, len % blockSize)

structure Reader where
  data : Bytes
  fails : Bool

def ioCopy (contents : Reader) (n : ℕ) : EStateM Error Builder Reader := do
  write (contents.data.take n)
  require (n ≤ contents.data.length ∨ contents.fails = false) .io
  pure { contents with data := contents.data.drop n }

def readExact (contents : Reader) (n : ℕ) : Except Error Bytes :=
  if contents.data.length < n then .error .io else .ok (contents.data.take n)

def addIds (metadata : Meta) (inc : UInt32) : Except Error Meta := do
  let uid ← toU32 (metadata.uid.toNat + inc.toNat) .uidGidTooBig
  let gid ← toU32 (metadata.gid.toNat + inc.toNat) .uidGidTooBig
  pure { metadata with uid := uid, gid := gid }

def hookMeta (metadata : Meta) : EStateM Error Builder Meta := do
  let b ← get
  check (match b.incrementUidGid with
    | some inc => addIds metadata inc
    | none => .ok metadata)

def onRoot {α : Type} (act : EStateM Error (Dir Leaf DirInfo) α) : EStateM Error Builder α := fun b =>
  match act b.root with
  | .ok a root => .ok a { b with root := root }
  | .error e root => .error e { b with root := root }

def startBlockFor (blockLen : ℕ) : EStateM Error Builder UInt32 := do
  let b ← get
  check (if blockLen > 0 then toU32 b.curDataBlock .blockNoTooBig else .ok erofsNullAddr)

def advance (nBlocks : ℕ) : EStateM Error Builder Unit :=
  modify fun b => { b with curDataBlock := b.curDataBlock + nBlocks }

def copyBlocks (nBlocks blockLen : ℕ) (contents : Reader) : EStateM Error Builder Reader :=
  if blockLen > 0 then do
    let contents ← ioCopy contents blockLen
    advance nBlocks
    let _ ← zeroFillBlock blockLen
    pure contents
  else pure contents

def readTail (tailLen : ℕ) (contents : Reader) : Except Error (Option Bytes) :=
  if tailLen > 0 then (readExact contents tailLen).map some else .ok none

def addFile (path : Bytes) (metadata : Meta) (len : ℕ) (contents : Reader) :
    EStateM Error Builder Unit := do
  let b ← get
  require (min (b.curFileSize + len) (2 ^ 64 - 1) < b.maxFileSize) .maxSizeExceeded
  let startBlock ← startBlockFor (sizeTailLen len).2.1
  let contents ← copyBlocks (sizeTailLen len).1 (sizeTailLen len).2.1 contents
  let tail ← check (readTail (sizeTailLen len).2.2 contents)
  let metadata ← hookMeta metadata
  onRoot (addLeaf Dir.default path (.file ⟨metadata, startBlock, 1, len, tail, none⟩))

def upsertDir (path : Bytes) (metadata : Meta) : EStateM Error Builder Unit := do
  let metadata ← hookMeta metadata
  onRoot (ErofsTree.upsertDir Dir.default path fun d => { d with metadata := metadata })

def writeBlocks (nBlocks blockLen : ℕ) (data : Bytes) : EStateM Error Builder Unit :=
  if blockLen > 0 then do
    write (data.take blockLen)
    let _ ← zeroFillBlock blockLen
    advance nBlocks
  else pure ()

def linkTail (blockLen tailLen : ℕ) (data : Bytes) : Option Bytes :=
  if tailLen > 0 then some (data.drop blockLen) else none

def addSymlink (path link : Bytes) (metadata : Meta) : EStateM Error Builder Unit := do
  let startBlock ← startBlockFor (sizeTailLen link.length).2.1
  writeBlocks (sizeTailLen link.length).1 (sizeTailLen link.length).2.1 link
  let metadata ← hookMeta metadata
  onRoot (addLeaf Dir.default path (.symlink ⟨metadata, startBlock, 1, link.length,
    linkTail (sizeTailLen link.length).2.1 (sizeTailLen link.length).2.2 link, none⟩))

def addLink (path target : Bytes) (metadata : Meta) : EStateM Error Builder Unit :=
  modify fun b => { b with links := b.links ++ [(path, target, metadata)] }

inductive DiskInode where
  | compact (x : InodeCompact)
  | extended (x : InodeExtended)

def DiskInode.withXattrCount (count : UInt16) : DiskInode → DiskInode
  | .compact x => .compact { x with xattrCount := count }
  | .extended x => .extended { x with xattrCount := count }

def DiskInode.asBytes : DiskInode → Bytes
  | .compact x => x.asBytes
  | .extended x => x.asBytes

/-- Number and length of the first builtin part that the key starts with. -/
def xattrBuiltinPrefix (key : Bytes) : Option (UInt8 × ℕ) :=
  xattrBuiltinPrefixTable.zipIdx.findSome? fun (pre, i) =>
    if pre.isPrefixOf key then some (UInt8.ofNat (i + 1), pre.length) else none

def makeXattrEntry (key value : Bytes) : Except Error (ℕ × XattrEntry) :=
  let (id, len) := (xattrBuiltinPrefix key).getD (0, 0)
  if key.length - len ≥ 256 then .error .xattrKeyTooLong
  else if value.length ≥ 65536 then .error .xattrValueTooLong
  else .ok (len, ⟨UInt8.ofNat (key.length - len), id, UInt16.ofNat value.length⟩)

def makeXattrEntries : List (Bytes × Bytes) → Except Error (List (ℕ × XattrEntry))
  | [] => pure []
  | (key, value) :: rest => do
    let entry ← makeXattrEntry key value
    let entries ← makeXattrEntries rest
    pure (entry :: entries)

def xattrsSize (entries : List XattrEntry) : ℕ :=
  (entries.map fun e => e.nameLen.toNat + e.valueSize.toNat + 4).sum

def xattrCount (entries : List XattrEntry) : ℕ × ℕ :=
  if xattrsSize entries = 0 then (0, 0)
  else (roundUpTo 4 (xattrsSize entries) / 4 + 1, roundUpTo 4 (xattrsSize entries) - xattrsSize entries)

def xattrsBytes (xattrs : XattrMap) (entries : List (ℕ × XattrEntry)) (padding : ℕ) : Bytes :=
  if xattrs.entries = [] then []
  else XattrHeader.zeroed.asBytes ++
    ((entries.zip xattrs.entries).flatMap fun (e, kv) =>
      e.2.asBytes ++ (kv.1.drop e.1 ++ kv.2)) ++ List.replicate padding 0

/-- Skips to the next block when the record would leave the current one. -/
def alignInode (totalLen : ℕ) : EStateM Error Builder Unit := do
  let b ← get
  if b.inodeAddr / blockSize ≠ (b.inodeAddr + totalLen) / blockSize then do
    let _ ← zeroFillBlock b.inodeAddr
    modify fun b' => { b' with inodeAddr := (b.inodeAddr + totalLen) / blockSize * blockSize }
  else pure ()

def writeTail (tail : Option Bytes) : EStateM Error Builder Unit :=
  match tail with
  | some t => do
    modify fun b => { b with
      stats := { b.stats with tails := b.stats.tails + 1, tailSize := b.stats.tailSize + t.length } }
    write t
  | none => pure ()

def writeRecord (data xattrs : Bytes) (tail : Option Bytes) (totalLen : ℕ) :
    EStateM Error Builder UInt32 := do
  require (totalLen ≤ blockSize) .inodeTooBig
  alignInode totalLen
  let b ← get
  let diskId ← addrToDiskId b.inodeAddr
  write data
  write xattrs
  writeTail tail
  let padding ← zeroFill totalLen inodeAlignment
  modify fun b => { b with inodeAddr := b.inodeAddr + (totalLen + padding) }
  pure diskId

def writeInode (inode : DiskInode) (tail : Option Bytes) (xattrs : XattrMap) :
    EStateM Error Builder UInt32 := do
  modify fun b => { b with nInodes := b.nInodes + 1 }
  let entries ← check (makeXattrEntries xattrs.entries)
  let count := xattrCount (entries.map (·.2))
  require (count.1 < 65536) .tooManyXattrs
  let data := (inode.withXattrCount (UInt16.ofNat count.1)).asBytes
  writeRecord data (xattrsBytes xattrs entries count.2) tail
    (data.length + xattrCountToLen (UInt16.ofNat count.1) + (tail.getD []).length)

structure TreeVisitor (σ : Type) where
  onFile : File → EStateM Error σ File := pure
  onSymlink : Symlink → EStateM Error σ Symlink := pure
  onDirExit : DirInfo → EStateM Error σ DirInfo := pure
  onDirEnter : DirInfo → List (Bytes × Dirent) → EStateM Error σ DirInfo := fun info _ => pure info

section Walk

variable {σ : Type} (visitor : TreeVisitor σ) (maxDepth : ℕ)

def walkLeaf : Leaf → EStateM Error σ Leaf
  | .file f => do pure (.file (← visitor.onFile f))
  | .symlink s => do pure (.symlink (← visitor.onSymlink s))
  | .dot => pure .dot
  | .dotDot => pure .dotDot

mutual
def walkTree (depth : ℕ) : Dirent → EStateM Error σ Dirent
  | .leaf x => do pure (.leaf (← walkLeaf visitor x))
  | .dir info cs => do
    require (depth ≠ maxDepth) .maxDepthExceeded
    let info ← visitor.onDirEnter info cs
    let cs ← walkChildren (depth + 1) cs
    let info ← visitor.onDirExit info
    pure (.dir info cs)

def walkChildren (depth : ℕ) : List (Bytes × Dirent) → EStateM Error σ (List (Bytes × Dirent))
  | [] => pure []
  | (name, t) :: cs => do
    let t ← walkTree depth t
    let cs ← walkChildren depth cs
    pure ((name, t) :: cs)
end

end Walk

structure Packing where
  counts : List ℕ
  len : ℕ
  count : ℕ

def packName (p : Packing) (name : Bytes) : Packing :=
  if p.len + (12 + name.length) > blockSize ∨ p.len + 12 > 65535 then
    ⟨p.counts ++ [p.count], 12 + name.length, 1⟩
  else ⟨p.counts, p.len + (12 + name.length), p.count + 1⟩

def Packing.blocks (p : Packing) : List ℕ := if p.count ≠ 0 then p.counts ++ [p.count] else p.counts

def Packing.size (p : Packing) : ℕ :=
  blockSize * p.counts.length + if p.count ≠ 0 then p.len else 0

def prepareDirentData (info : DirInfo) (names : List Bytes) (startBlock : ℕ) : Except Error DirInfo := do
  let start ← toU32 startBlock .blockNoTooBig
  let p := names.foldl packName ⟨info.nDirentsPerBlock, 0, 0⟩
  if names.length = p.blocks.sum then
    .ok { info with startBlock := start, nDirentsPerBlock := p.blocks, totalSize := p.size }
  else .error .panicked

def prepareDirents : TreeVisitor Builder where
  onDirEnter := fun info cs => do
    let b ← get
    let info ← check (prepareDirentData info (cs.map (·.1)) b.curDataBlock)
    modify fun b => { b with
      nDirs := b.nDirs + 1
      stats := { b.stats with dirs := b.stats.dirs + 1 }
      curDataBlock := b.curDataBlock + info.nDirentsPerBlock.length }
    pure info

def makeMode (typ : FileType) (mode : Mode) : Except Error UInt16 :=
  if (typ.asRawMode ||| mode.bits).toNat > 65535 then .error .modeShouldFitInU16
  else .ok (typ.asRawMode ||| mode.bits).toUInt16

def makeInode (fileType : FileType) (size : ℕ) (startBlock : UInt32) (metadata : Meta)
    (tail : Option Bytes) (nLinks : UInt32) : Except Error InodeExtended := do
  let layout := if tail.isSome then Layout.flatInline else Layout.flatPlain
  let mode ← makeMode fileType metadata.mode
  pure { InodeExtended.zeroed with
    formatLayout := formatLayout .extended layout
    mode := mode
    uid := metadata.uid
    gid := metadata.gid
    mtime := metadata.mtime
    nlink := nLinks
    info := startBlock
    size := UInt64.ofNat size }

def replaceDiskId (prev : Option UInt32) (diskId : UInt32) : Except Error (Option UInt32) :=
  if prev.isSome then .error .panicked else .ok (some diskId)

def writeDirInodes : TreeVisitor Builder where
  onDirEnter := fun info _ => do
    let inode ← check
      (makeInode .directory info.totalSize info.startBlock info.metadata none 1)
    let diskId ← writeInode (.extended inode) none info.metadata.xattrs
    let diskId ← check (replaceDiskId info.diskId diskId)
    pure { info with diskId := diskId }

def writeInodes : TreeVisitor Builder where
  onFile := fun file => do
    modify fun b => { b with stats := { b.stats with files := b.stats.files + 1 } }
    let inode ← check (makeInode .regularFile file.len file.startBlock file.metadata file.tail
      file.nLinks)
    let diskId ← writeInode (.extended inode) file.tail file.metadata.xattrs
    let diskId ← check (replaceDiskId file.diskId diskId)
    pure { file with diskId := diskId }
  onSymlink := fun symlink => do
    modify fun b => { b with stats := { b.stats with symlinks := b.stats.symlinks + 1 } }
    let inode ← check (makeInode .symlink symlink.len symlink.startBlock symlink.metadata
      symlink.tail symlink.nLinks)
    let diskId ← writeInode (.extended inode) symlink.tail symlink.metadata.xattrs
    let diskId ← check (replaceDiskId symlink.diskId diskId)
    pure { symlink with diskId := diskId }

def direntFileType : Dirent → DirentFileType
  | .leaf (.file _) => .regularFile
  | .leaf (.symlink _) => .symlink
  | .leaf .dot | .leaf .dotDot | .dir _ _ => .directory

def childDiskId (self parent : Option UInt32) : Dirent → Option UInt32
  | .leaf (.file f) => f.diskId
  | .dir info _ => info.diskId
  | .leaf (.symlink s) => s.diskId
  | .leaf .dot => self
  | .leaf .dotDot => parent.or self

/-- The records of one block; the names follow them from `nameOffset` on. -/
def encodeDirents (self parent : Option UInt32) : ℕ → List (Bytes × Dirent) → Except Error Bytes
  | _, [] => pure []
  | nameOffset, (name, child) :: rest => do
    let diskId ← okOr (childDiskId self parent child) .noDiskId
    let offset ← if nameOffset < 65536 then .ok (UInt16.ofNat nameOffset) else .error .nameOffsetTooBig
    let records ← encodeDirents self parent (nameOffset + name.length) rest
    pure ((DiskDirent.mk diskId.toUInt64 offset (direntFileType child).toU8 0).asBytes ++ records)

def writeDirentBlocks (self parent : Option UInt32) :
    List ℕ → List (Bytes × Dirent) → EStateM Error Builder Unit
  | [], _ => pure ()
  | count :: counts, cs => do
    require (count ≤ cs.length) .panicked
    let records ← check (encodeDirents self parent (count * 12) (cs.take count))
    let block := records ++ ((cs.take count).map (·.1)).flatten
    write block
    let _ ← zeroFillBlock block.length
    advance 1
    writeDirentBlocks self parent counts (cs.drop count)

/-- The second component is the stack of parents, the innermost first. -/
def writeDirents : TreeVisitor (Builder × List UInt32) where
  onDirEnter := fun info cs s =>
    match (do
      seekBlock info.startBlock.toNat
      writeDirentBlocks info.diskId s.2.head? info.nDirentsPerBlock cs
      check (okOr info.diskId .noDiskId) : EStateM Error Builder UInt32) s.1 with
    | .ok diskId b => .ok info (b, diskId :: s.2)
    | .error e b => .error e (b, s.2)
  onDirExit := fun info s => .ok info (s.1, s.2.tail)

def linkTarget (name : Option Bytes) : EStateM Error (Dir Leaf DirInfo) (UInt32 × ℕ × Option Bytes) :=
  match name with
  | none => throw .hardlinkNotResolved
  | some name => fun d =>
    match lookup name d.children with
    | none => .error .hardlinkNotResolved d
    | some (.leaf (.file f)) =>
      .ok (f.startBlock, f.len, f.tail)
        (setChild name (.leaf (.file { f with nLinks := f.nLinks + 1 })) d)
    | some (.leaf (.symlink s)) =>
      .ok (s.startBlock, s.len, s.tail)
        (setChild name (.leaf (.symlink { s with nLinks := s.nLinks + 1 })) d)
    | some _ => .error .hardlinkToDir d

def resolveLink (link : Bytes × Bytes × Meta) : EStateM Error (Dir Leaf DirInfo) Unit := do
  let (startBlock, len, tail) ← lookupOnly link.2.1 linkTarget
  addLeaf Dir.default link.1 (.file ⟨link.2.2, startBlock, 2, len, tail, none⟩)

def resolveLinks : EStateM Error Builder Unit := do
  let b ← get
  modify fun b => { b with links := [] }
  onRoot (b.links.forM resolveLink)

def onTree {σ : Type} (root : Dir Leaf DirInfo) (walk : Dirent → EStateM Error σ Dirent) :
    EStateM Error σ (Dir Leaf DirInfo) := do
  let tree ← walk root.toTree
  check (match tree with
    | .dir info cs => .ok ⟨info, cs⟩
    | .leaf _ => .error .panicked)

def withParents {α : Type} (act : EStateM Error (Builder × List UInt32) α) : EStateM Error Builder α :=
  fun b =>
    match act (b, []) with
    | .ok a s => .ok a s.1
    | .error e s => .error e s.1

def writeTree : EStateM Error Builder Unit := do
  let b ← get
  let root ← onTree b.root (walkTree prepareDirents b.maxDepth 0)
  modify fun b => { b with
    metaBlock := some b.curDataBlock
    inodeAddr := b.curDataBlock * blockSize
    writer := b.writer.seek (b.curDataBlock * blockSize) }
  let root ← onTree root (walkTree writeDirInodes b.maxDepth 0)
  let root ← onTree root (walkTree writeInodes b.maxDepth 0)
  let root ← withParents (onTree root (walkTree writeDirents b.maxDepth 0))
  modify fun b => { b with root := root }

def writeSuperblock : EStateM Error Builder Unit := do
  let b ← get
  let metaBlock ← check (okOr b.metaBlock .noMetaBlock)
  let metaBlkaddr ← check (toU32 metaBlock .metaBlockTooBig)
  let rootDiskId ← check (okOr b.root.info.diskId .noRootDiskId)
  require (rootDiskId.toNat < 65536) .rootDiskIdTooBig
  let superblock := { b.superblock with
    magic := superMagic
    blkszbits := 12
    metaBlkaddr := metaBlkaddr
    rootDiskId := rootDiskId.toUInt16
    inos := UInt64.ofNat b.nInodes }
  set { b with
    superblock := superblock
    writer := (b.writer.seek superOffset).writeAll superblock.asBytes }

def finalize : EStateM Error Builder Unit := do
  resolveLinks
  writeTree
  writeSuperblock

def intoInner (b : Builder) : Except Error (Stats × Bytes) :=
  match finalize b with
  | .ok _ b => .ok (b.stats, b.writer.data)
  | .error e _ => .error e

end ProgramExplorer.ErofsBuilder
