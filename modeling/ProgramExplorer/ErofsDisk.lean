import ProgramExplorer.ErofsTree
import ProgramExplorer.LittleEndian

/-!
# The on-disk records of an EROFS image

The `repr(C)` structures of `peerofs/src/disk.rs` with the bytes they stand
for. A record read from the front of a byte string is rejected only when the
bytes are too few, and reading undoes writing.
-/

set_option autoImplicit false

namespace ProgramExplorer.ErofsDisk
open ByteStrings LittleEndian ErofsTree

abbrev FixedBytes (n : ℕ) := { bs : Bytes // bs.length = n }

def FixedBytes.zero (n : ℕ) : FixedBytes n := ⟨List.replicate n 0, List.length_replicate⟩

def takeFixed (n : ℕ) (bs : Bytes) : Option (FixedBytes n × Bytes) :=
  if h : n ≤ bs.length then some (⟨bs.take n, List.length_take_of_le h⟩, bs.drop n) else none

@[simp] theorem takeFixed_append {n : ℕ} (a : FixedBytes n) (rest : Bytes) :
    takeFixed n (a.val ++ rest) = some (a, rest) := by
  obtain ⟨a, rfl⟩ := a
  simp [takeFixed]

theorem takeFixed_length {n : ℕ} {bs rest : Bytes} {x : FixedBytes n}
    (h : takeFixed n bs = some (x, rest)) : bs.length = n + rest.length := by
  unfold takeFixed at h
  split_ifs at h
  cases h
  rw [List.length_drop]
  omega

theorem takeFixed_bind {β : Type} {n : ℕ} (a : FixedBytes n) (rest : Bytes)
    (f : FixedBytes n × Bytes → Option β) : (takeFixed n (a.val ++ rest) >>= f) = f (a, rest) := by
  rw [takeFixed_append]
  rfl

def superOffset : ℕ := 1024

def superMagic : UInt32 := 0xe0f5e1e2

def inodeAlignment : ℕ := 32

structure Superblock where
  magic : UInt32
  checksum : UInt32
  featureCompat : UInt32
  blkszbits : UInt8
  sbExtslots : UInt8
  rootDiskId : UInt16
  inos : UInt64
  buildTime : UInt64
  buildTimeNsec : UInt32
  blocks : UInt32
  metaBlkaddr : UInt32
  xattrBlkaddr : UInt32
  uuid : FixedBytes 16
  volumeName : FixedBytes 16
  featureIncompat : UInt32
  availableComprAlgs : UInt16
  extraDevices : UInt16
  devtSlotoff : UInt16
  dirblkbits : UInt8
  xattrPrefixCount : UInt8
  xattrPrefixStart : UInt32
  packedNid : UInt64
  xattrFilterReserved : UInt8
  reserved2 : FixedBytes 23
  deriving DecidableEq

def Superblock.zeroed : Superblock :=
  ⟨0, 0, 0, 0, 0, 0, 0, 0, 0, 0, 0, 0, FixedBytes.zero 16, FixedBytes.zero 16, 0, 0, 0, 0, 0, 0, 0,
    0, 0, FixedBytes.zero 23⟩

def Superblock.asBytes (s : Superblock) : Bytes :=
  u32 s.magic ++ (u32 s.checksum ++ (u32 s.featureCompat ++ (u8 s.blkszbits ++ (u8 s.sbExtslots ++
  (u16 s.rootDiskId ++ (u64 s.inos ++ (u64 s.buildTime ++ (u32 s.buildTimeNsec ++ (u32 s.blocks ++
  (u32 s.metaBlkaddr ++ (u32 s.xattrBlkaddr ++ (s.uuid.val ++ (s.volumeName.val ++
  (u32 s.featureIncompat ++ (u16 s.availableComprAlgs ++ (u16 s.extraDevices ++
  (u16 s.devtSlotoff ++ (u8 s.dirblkbits ++ (u8 s.xattrPrefixCount ++ (u32 s.xattrPrefixStart ++
  (u64 s.packedNid ++ (u8 s.xattrFilterReserved ++ s.reserved2.val))))))))))))))))))))))

def Superblock.fromPrefix (bs : Bytes) : Option (Superblock × Bytes) := do
  let (magic, bs) ← takeU32 bs
  let (checksum, bs) ← takeU32 bs
  let (featureCompat, bs) ← takeU32 bs
  let (blkszbits, bs) ← takeU8 bs
  let (sbExtslots, bs) ← takeU8 bs
  let (rootDiskId, bs) ← takeU16 bs
  let (inos, bs) ← takeU64 bs
  let (buildTime, bs) ← takeU64 bs
  let (buildTimeNsec, bs) ← takeU32 bs
  let (blocks, bs) ← takeU32 bs
  let (metaBlkaddr, bs) ← takeU32 bs
  let (xattrBlkaddr, bs) ← takeU32 bs
  let (uuid, bs) ← takeFixed 16 bs
  let (volumeName, bs) ← takeFixed 16 bs
  let (featureIncompat, bs) ← takeU32 bs
  let (availableComprAlgs, bs) ← takeU16 bs
  let (extraDevices, bs) ← takeU16 bs
  let (devtSlotoff, bs) ← takeU16 bs
  let (dirblkbits, bs) ← takeU8 bs
  let (xattrPrefixCount, bs) ← takeU8 bs
  let (xattrPrefixStart, bs) ← takeU32 bs
  let (packedNid, bs) ← takeU64 bs
  let (xattrFilterReserved, bs) ← takeU8 bs
  let (reserved2, bs) ← takeFixed 23 bs
  pure (⟨magic, checksum, featureCompat, blkszbits, sbExtslots, rootDiskId, inos, buildTime,
    buildTimeNsec, blocks, metaBlkaddr, xattrBlkaddr, uuid, volumeName, featureIncompat,
    availableComprAlgs, extraDevices, devtSlotoff, dirblkbits, xattrPrefixCount,
    xattrPrefixStart, packedNid, xattrFilterReserved, reserved2⟩, bs)

theorem Superblock.fromPrefix_asBytes (s : Superblock) (rest : Bytes) :
    Superblock.fromPrefix (s.asBytes ++ rest) = some (s, rest) := by
  simp only [Superblock.fromPrefix, Superblock.asBytes, List.append_assoc,
    ↓takeU8_bind, ↓takeU16_bind, ↓takeU32_bind, ↓takeU64_bind, ↓takeFixed_bind]
  rfl

theorem Superblock.asBytes_length (s : Superblock) : s.asBytes.length = 128 := by
  simp [Superblock.asBytes, s.uuid.property, s.volumeName.property, s.reserved2.property]

structure InodeCompact where
  formatLayout : UInt16
  xattrCount : UInt16
  mode : UInt16
  nlink : UInt16
  size : UInt32
  reserved : UInt32
  info : UInt32
  ino : UInt32
  uid : UInt16
  gid : UInt16
  reserved2 : UInt32
  deriving DecidableEq

def InodeCompact.asBytes (i : InodeCompact) : Bytes :=
  u16 i.formatLayout ++ (u16 i.xattrCount ++ (u16 i.mode ++ (u16 i.nlink ++ (u32 i.size ++
  (u32 i.reserved ++ (u32 i.info ++ (u32 i.ino ++ (u16 i.uid ++ (u16 i.gid ++
  u32 i.reserved2)))))))))

def InodeCompact.fromPrefix (bs : Bytes) : Option (InodeCompact × Bytes) := do
  let (formatLayout, bs) ← takeU16 bs
  let (xattrCount, bs) ← takeU16 bs
  let (mode, bs) ← takeU16 bs
  let (nlink, bs) ← takeU16 bs
  let (size, bs) ← takeU32 bs
  let (reserved, bs) ← takeU32 bs
  let (info, bs) ← takeU32 bs
  let (ino, bs) ← takeU32 bs
  let (uid, bs) ← takeU16 bs
  let (gid, bs) ← takeU16 bs
  let (reserved2, bs) ← takeU32 bs
  pure (⟨formatLayout, xattrCount, mode, nlink, size, reserved, info, ino, uid, gid, reserved2⟩, bs)

theorem InodeCompact.fromPrefix_asBytes (i : InodeCompact) (rest : Bytes) :
    InodeCompact.fromPrefix (i.asBytes ++ rest) = some (i, rest) := by
  simp only [InodeCompact.fromPrefix, InodeCompact.asBytes, List.append_assoc,
    ↓takeU16_bind, ↓takeU32_bind]
  rfl

theorem InodeCompact.asBytes_length (i : InodeCompact) : i.asBytes.length = 32 := by
  simp [InodeCompact.asBytes]

structure InodeExtended where
  formatLayout : UInt16
  xattrCount : UInt16
  mode : UInt16
  reserved : UInt16
  size : UInt64
  info : UInt32
  ino : UInt32
  uid : UInt32
  gid : UInt32
  mtime : UInt64
  mtimeNsec : UInt32
  nlink : UInt32
  reserved2 : FixedBytes 16
  deriving DecidableEq

def InodeExtended.zeroed : InodeExtended :=
  ⟨0, 0, 0, 0, 0, 0, 0, 0, 0, 0, 0, 0, FixedBytes.zero 16⟩

def InodeExtended.asBytes (i : InodeExtended) : Bytes :=
  u16 i.formatLayout ++ (u16 i.xattrCount ++ (u16 i.mode ++ (u16 i.reserved ++ (u64 i.size ++
  (u32 i.info ++ (u32 i.ino ++ (u32 i.uid ++ (u32 i.gid ++ (u64 i.mtime ++ (u32 i.mtimeNsec ++
  (u32 i.nlink ++ i.reserved2.val)))))))))))

def InodeExtended.fromPrefix (bs : Bytes) : Option (InodeExtended × Bytes) := do
  let (formatLayout, bs) ← takeU16 bs
  let (xattrCount, bs) ← takeU16 bs
  let (mode, bs) ← takeU16 bs
  let (reserved, bs) ← takeU16 bs
  let (size, bs) ← takeU64 bs
  let (info, bs) ← takeU32 bs
  let (ino, bs) ← takeU32 bs
  let (uid, bs) ← takeU32 bs
  let (gid, bs) ← takeU32 bs
  let (mtime, bs) ← takeU64 bs
  let (mtimeNsec, bs) ← takeU32 bs
  let (nlink, bs) ← takeU32 bs
  let (reserved2, bs) ← takeFixed 16 bs
  pure (⟨formatLayout, xattrCount, mode, reserved, size, info, ino, uid, gid, mtime, mtimeNsec,
    nlink, reserved2⟩, bs)

theorem InodeExtended.fromPrefix_asBytes (i : InodeExtended) (rest : Bytes) :
    InodeExtended.fromPrefix (i.asBytes ++ rest) = some (i, rest) := by
  simp only [InodeExtended.fromPrefix, InodeExtended.asBytes, List.append_assoc,
    ↓takeU16_bind, ↓takeU32_bind, ↓takeU64_bind, ↓takeFixed_bind]
  rfl

theorem InodeExtended.asBytes_length (i : InodeExtended) : i.asBytes.length = 64 := by
  simp [InodeExtended.asBytes, i.reserved2.property]

structure XattrHeader where
  nameFilter : UInt32
  sharedCount : UInt8
  reserved : FixedBytes 7
  deriving DecidableEq

def XattrHeader.zeroed : XattrHeader := ⟨0, 0, FixedBytes.zero 7⟩

def XattrHeader.asBytes (h : XattrHeader) : Bytes :=
  u32 h.nameFilter ++ (u8 h.sharedCount ++ h.reserved.val)

def XattrHeader.fromPrefix (bs : Bytes) : Option (XattrHeader × Bytes) := do
  let (nameFilter, bs) ← takeU32 bs
  let (sharedCount, bs) ← takeU8 bs
  let (reserved, bs) ← takeFixed 7 bs
  pure (⟨nameFilter, sharedCount, reserved⟩, bs)

theorem XattrHeader.fromPrefix_asBytes (h : XattrHeader) (rest : Bytes) :
    XattrHeader.fromPrefix (h.asBytes ++ rest) = some (h, rest) := by
  simp only [XattrHeader.fromPrefix, XattrHeader.asBytes, List.append_assoc,
    ↓takeU8_bind, ↓takeU32_bind, ↓takeFixed_bind]
  rfl

theorem XattrHeader.asBytes_length (h : XattrHeader) : h.asBytes.length = 12 := by
  simp [XattrHeader.asBytes, h.reserved.property]

structure XattrEntry where
  nameLen : UInt8
  nameIndex : UInt8
  valueSize : UInt16
  deriving DecidableEq

def XattrEntry.asBytes (e : XattrEntry) : Bytes := u8 e.nameLen ++ (u8 e.nameIndex ++ u16 e.valueSize)

def XattrEntry.fromPrefix (bs : Bytes) : Option (XattrEntry × Bytes) := do
  let (nameLen, bs) ← takeU8 bs
  let (nameIndex, bs) ← takeU8 bs
  let (valueSize, bs) ← takeU16 bs
  pure (⟨nameLen, nameIndex, valueSize⟩, bs)

theorem XattrEntry.asBytes_length (e : XattrEntry) : e.asBytes.length = 4 := by
  simp [XattrEntry.asBytes]

structure DiskDirent where
  diskId : UInt64
  nameOffset : UInt16
  fileType : UInt8
  reserved : UInt8
  deriving DecidableEq

def DiskDirent.asBytes (d : DiskDirent) : Bytes :=
  u64 d.diskId ++ (u16 d.nameOffset ++ (u8 d.fileType ++ u8 d.reserved))

def DiskDirent.fromPrefix (bs : Bytes) : Option (DiskDirent × Bytes) := do
  let (diskId, bs) ← takeU64 bs
  let (nameOffset, bs) ← takeU16 bs
  let (fileType, bs) ← takeU8 bs
  let (reserved, bs) ← takeU8 bs
  pure (⟨diskId, nameOffset, fileType, reserved⟩, bs)

theorem DiskDirent.fromPrefix_asBytes (d : DiskDirent) (rest : Bytes) :
    DiskDirent.fromPrefix (d.asBytes ++ rest) = some (d, rest) := by
  simp only [DiskDirent.fromPrefix, DiskDirent.asBytes, List.append_assoc,
    ↓takeU8_bind, ↓takeU16_bind, ↓takeU64_bind]
  rfl

theorem DiskDirent.asBytes_length (d : DiskDirent) : d.asBytes.length = 12 := by
  simp [DiskDirent.asBytes]

inductive Layout where
  | flatPlain
  | compressedFull
  | flatInline
  | compressedCompact
  | chunkBased
  deriving DecidableEq, Repr

def Layout.toU16 : Layout → UInt16
  | .flatPlain => 0
  | .compressedFull => 1
  | .flatInline => 2
  | .compressedCompact => 3
  | .chunkBased => 4

def Layout.tryFrom (x : UInt16) : Option Layout :=
  if x = 0 then some .flatPlain
  else if x = 1 then some .compressedFull
  else if x = 2 then some .flatInline
  else if x = 3 then some .compressedCompact
  else if x = 4 then some .chunkBased
  else none

inductive InodeType where
  | compact
  | extended

def getFormat (formatLayout : UInt16) : UInt16 := formatLayout &&& 1

def getLayout (formatLayout : UInt16) : Option Layout := Layout.tryFrom ((formatLayout >>> 1) &&& 7)

def formatLayout (typ : InodeType) (layout : Layout) : UInt16 :=
  (match typ with | .compact => 0 | .extended => 1) ||| (layout.toU16 <<< 1)

theorem getLayout_formatLayout (typ : InodeType) (layout : Layout) :
    getLayout (formatLayout typ layout) = some layout := by
  cases typ <;> cases layout <;> rfl

theorem getFormat_formatLayout (typ : InodeType) (layout : Layout) :
    getFormat (formatLayout typ layout) = match typ with | .compact => 0 | .extended => 1 := by
  cases typ <;> cases layout <;> rfl

inductive FileType where
  | regularFile
  | directory
  | symlink
  | fifo
  | socket
  | characterDevice
  | blockDevice
  | unknown
  deriving DecidableEq, Repr

def FileType.asRawMode : FileType → UInt32
  | .regularFile => 0o100000
  | .directory => 0o040000
  | .symlink => 0o120000
  | .fifo => 0o010000
  | .socket => 0o140000
  | .characterDevice => 0o020000
  | .blockDevice => 0o060000
  | .unknown => sIfmt

def FileType.fromRawMode (mode : UInt32) : FileType :=
  let t := mode &&& sIfmt
  if t = 0o100000 then .regularFile
  else if t = 0o040000 then .directory
  else if t = 0o120000 then .symlink
  else if t = 0o010000 then .fifo
  else if t = 0o140000 then .socket
  else if t = 0o020000 then .characterDevice
  else if t = 0o060000 then .blockDevice
  else .unknown

inductive DirentFileType where
  | unknown
  | regularFile
  | directory
  | characterDevice
  | blockDevice
  | fifo
  | socket
  | symlink
  deriving DecidableEq, Repr

def DirentFileType.toU8 : DirentFileType → UInt8
  | .unknown => 0
  | .regularFile => 1
  | .directory => 2
  | .characterDevice => 3
  | .blockDevice => 4
  | .fifo => 5
  | .socket => 6
  | .symlink => 7

def DirentFileType.tryFrom (x : UInt8) : Option DirentFileType :=
  if x = 0 then some .unknown
  else if x = 1 then some .regularFile
  else if x = 2 then some .directory
  else if x = 3 then some .characterDevice
  else if x = 4 then some .blockDevice
  else if x = 5 then some .fifo
  else if x = 6 then some .socket
  else if x = 7 then some .symlink
  else none

theorem DirentFileType.tryFrom_toU8 (t : DirentFileType) : DirentFileType.tryFrom t.toU8 = some t := by
  cases t <;> rfl

def Layout.isCompressed : Layout → Bool
  | .compressedFull | .compressedCompact => true
  | _ => false

inductive CompressionType where
  | lz4
  | lzma
  | deflate
  | zstd
  deriving DecidableEq, Repr

def CompressionType.tryFrom (x : UInt8) : Option CompressionType :=
  if x = 0 then some .lz4
  else if x = 1 then some .lzma
  else if x = 2 then some .deflate
  else if x = 3 then some .zstd
  else none

structure MapHeader where
  fragmentOffset : UInt32
  config : UInt16
  algorithm : UInt8
  clusterBits : UInt8
  deriving DecidableEq

def MapHeader.asBytes (h : MapHeader) : Bytes :=
  u32 h.fragmentOffset ++ (u16 h.config ++ (u8 h.algorithm ++ u8 h.clusterBits))

def MapHeader.fromPrefix (bs : Bytes) : Option (MapHeader × Bytes) := do
  let (fragmentOffset, bs) ← takeU32 bs
  let (config, bs) ← takeU16 bs
  let (algorithm, bs) ← takeU8 bs
  let (clusterBits, bs) ← takeU8 bs
  pure (⟨fragmentOffset, config, algorithm, clusterBits⟩, bs)

def MapHeader.clusterSizeBits (h : MapHeader) : UInt8 := h.clusterBits &&& 7

inductive LogicalClusterType where
  | plain
  | head1
  | nonHead
  | head2
  deriving DecidableEq, Repr

structure LogicalClusterIndex where
  advise : UInt16
  clusterOffset : UInt16
  blockAddrOrDelta : UInt32
  deriving DecidableEq

def LogicalClusterIndex.asBytes (x : LogicalClusterIndex) : Bytes :=
  u16 x.advise ++ (u16 x.clusterOffset ++ u32 x.blockAddrOrDelta)

def LogicalClusterIndex.fromPrefix (bs : Bytes) : Option (LogicalClusterIndex × Bytes) := do
  let (advise, bs) ← takeU16 bs
  let (clusterOffset, bs) ← takeU16 bs
  let (blockAddrOrDelta, bs) ← takeU32 bs
  pure (⟨advise, clusterOffset, blockAddrOrDelta⟩, bs)

def LogicalClusterIndex.typ (x : LogicalClusterIndex) : LogicalClusterType :=
  if x.advise &&& 3 = 0 then .plain
  else if x.advise &&& 3 = 1 then .head1
  else if x.advise &&& 3 = 2 then .nonHead
  else .head2

def LogicalClusterIndex.blockAddr (x : LogicalClusterIndex) : UInt32 := x.blockAddrOrDelta

def LogicalClusterIndex.delta (x : LogicalClusterIndex) : UInt16 × UInt16 :=
  (x.blockAddrOrDelta.toUInt16, (x.blockAddrOrDelta >>> 16).toUInt16)

end ProgramExplorer.ErofsDisk
