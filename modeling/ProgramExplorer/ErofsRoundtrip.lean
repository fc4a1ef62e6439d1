import ProgramExplorer.ErofsFinalize

/-!
# Reading an image back

A walk over an image from its root inode, with the functions of the reader
alone. On an image that the builder made it finds the tree of contents: the
names, types, owners, modes and bytes that were added.
-/

set_option autoImplicit false

namespace ProgramExplorer.ErofsRoundtrip
open ByteStrings UnixPath ByteStore StateRules FileTree ErofsDisk
open ErofsTree (Mode sIfmt Leaf DirInfo Dir Dirent erofsNullAddr Meta)
open ErofsReader
open ErofsBuilder (DiskInode Builder BuilderConfig Builder.new blockSize makeMode
  makeInode sizeTailLen linkTail direntFileType childDiskId finalize intoInner Stats Reader)
open ErofsCursor ErofsPlacement ErofsReadback ErofsContents ErofsDirents ErofsWalk
open ErofsPasses ErofsDirentPass ErofsFinalize

def readAttrs (inode : Inode) : Attrs :=
  ⟨inode.fileType, inode.uid, inode.gid, Mode.fromRawMode inode.mode.toUInt32⟩

def direntTypeOf : FileType → DirentFileType
  | .regularFile => .regularFile
  | .directory => .directory
  | .symlink => .symlink
  | .fifo => .fifo
  | .socket => .socket
  | .characterDevice => .characterDevice
  | .blockDevice => .blockDevice
  | .unknown => .unknown

/-- One entry of a directory. The walk goes on only if `.` and `..` lead to the
directory and to its parent, and if the entry and its inode agree on the type. -/
def walkItem (fs : Erofs) (walk : Inode → Option (Tree Seen Attrs)) (own parent : UInt32)
    (item : DirentItem) : Option (Bytes × Tree Seen Attrs) :=
  if item.name = [dot] then
    if item.diskId = own.toUInt64 then some (item.name, .leaf .self) else none
  else if item.name = [dot, dot] then
    if item.diskId = parent.toUInt64 then some (item.name, .leaf .parent) else none
  else do
    let inode ← (fs.getInodeFromDirent item).toOption
    if item.fileType ≠ direntTypeOf inode.fileType then none
    else if inode.fileType = .directory then do
      let tree ← walk inode
      some (item.name, tree)
    else do
      let data ← (fs.getData inode).toOption
      some (item.name, .leaf (.entry (readAttrs inode) (data.1 ++ data.2)))

def walkDir (fs : Erofs) : ℕ → UInt32 → Inode → Option (Tree Seen Attrs)
  | 0, _, _ => none
  | fuel + 1, parent, inode => do
    let dirents ← (fs.getDirents inode).toOption
    let items ← (dirents.items (inode.dataSize + 1)).toOption
    let children ← items.mapM (walkItem fs (walkDir fs fuel inode.diskId) inode.diskId parent)
    some (.dir (readAttrs inode) children)

def walkImage (fs : Erofs) (fuel : ℕ) : Option (Tree Seen Attrs) := do
  let root ← fs.getRootInode.toOption
  walkDir fs fuel root.diskId root

section Modes

theorem or_and_right (a b c : UInt32) : (a ||| b) &&& c = (a &&& c) ||| (b &&& c) := by
  apply UInt32.eq_of_toBitVec_eq
  ext i
  simp [Bool.and_or_distrib_right]

theorem and_not_of_disjoint {a c : UInt32} (h : a &&& c = 0) : a &&& ~~~c = a := by
  apply UInt32.eq_of_toBitVec_eq
  ext i hi
  have := congrArg (fun x : UInt32 => x.toBitVec[i]) h
  simp at this
  simp
  exact this

def Plain (fileType : FileType) : Prop :=
  fileType = .regularFile ∨ fileType = .symlink ∨ fileType = .directory

theorem makeMode_ok {fileType : FileType} (hp : Plain fileType) {mode : Mode} {raw : UInt16}
    (h : makeMode fileType mode = .ok raw) :
    FileType.fromRawMode raw.toUInt32 = fileType ∧ Mode.fromRawMode raw.toUInt32 = mode := by
  unfold makeMode at h
  split_ifs at h with hbig
  cases h
  have hraw : (fileType.asRawMode ||| mode.bits).toUInt16.toUInt32 =
      fileType.asRawMode ||| mode.bits := by
    apply UInt32.toNat_inj.mp
    simp only [UInt16.toNat_toUInt32, UInt32.toNat_toUInt16]
    omega
  have htype : (fileType.asRawMode ||| mode.bits) &&& sIfmt = fileType.asRawMode := by
    rw [or_and_right, mode.noType, UInt32.or_zero]
    rcases hp with rfl | rfl | rfl <;> rfl
  have hbits : (fileType.asRawMode ||| mode.bits) &&& ~~~sIfmt = mode.bits := by
    rw [or_and_right, and_not_of_disjoint mode.noType]
    rcases hp with rfl | rfl | rfl <;> exact UInt32.zero_or
  rw [hraw]
  constructor
  · simp only [FileType.fromRawMode, htype]
    rcases hp with rfl | rfl | rfl <;> rfl
  · cases mode
    simp only [Mode.fromRawMode, hbits]

end Modes

section Inodes

variable {metaBlock : ℕ} {fs : Erofs} (hv : Volume metaBlock fs)

theorem makeInode_tagged {fileType : FileType} {size : ℕ} {startBlock : UInt32} {metadata : Meta}
    {tail : Option Bytes} {nLinks : UInt32} {inode : InodeExtended}
    (h : makeInode fileType size startBlock metadata tail nLinks = .ok inode) :
    WellTagged (.extended inode) := by
  obtain ⟨mode, -, -, hf, -⟩ := makeInode_ok h
  refine ⟨?_, ?_⟩
  · rw [hf, getFormat_formatLayout]
    decide
  · rw [hf, getLayout_formatLayout]
    rfl

theorem makeInode_reads {fileType : FileType} (hp : Plain fileType) {size : ℕ} {startBlock : UInt32}
    {metadata : Meta} {tail : Option Bytes} {nLinks : UInt32} {inode : InodeExtended}
    (h : makeInode fileType size startBlock metadata tail nLinks = .ok inode) (id : UInt32)
    (count : UInt16) :
    readAttrs (.extended id { inode with xattrCount := count }) = attrsOf fileType metadata ∧
      getLayout inode.formatLayout =
        some (if tail.isSome then Layout.flatInline else Layout.flatPlain) ∧
      inode.info = startBlock ∧ inode.size = UInt64.ofNat size := by
  obtain ⟨mode, hmode, hm, hf, -, huid, hgid, hinfo, hsize⟩ := makeInode_ok h
  obtain ⟨htype, hbits⟩ := makeMode_ok hp hmode
  refine ⟨?_, ?_, hinfo, hsize⟩
  · simp only [readAttrs, attrsOf, Inode.fileType, Inode.mode, Inode.uid, Inode.gid, hm, htype, hbits,
      huid, hgid]
  · rw [hf, getLayout_formatLayout]

include hv in
theorem getInode_filed {limit : ℕ} {diskId : Option UInt32} {fileType : FileType} {size : ℕ}
    {startBlock : UInt32} {metadata : Meta} {tail : Option Bytes} {nLinks : UInt32}
    (hp : Plain fileType)
    (h : Filed metaBlock fs.data limit diskId fileType size startBlock metadata tail nLinks) :
    ∃ id inode, diskId = some id ∧ fs.getInode id = .ok (.extended id inode) ∧
      readAttrs (.extended id inode) = attrsOf fileType metadata ∧
      getLayout inode.formatLayout =
        some (if tail.isSome then Layout.flatInline else Layout.flatPlain) ∧
      inode.info = startBlock ∧ inode.size = UInt64.ofNat size ∧
      HasAt fs.data (inodeAddress metaBlock id + 64 + xattrCountToLen inode.xattrCount)
        (tail.getD []) := by
  obtain ⟨id, inode, hid, hmake, hat, -⟩ := h
  obtain ⟨hinode, htail⟩ := (hasAt_append _ _ _ _).mp hat
  obtain ⟨hattrs, hlay, hinfo, hsize⟩ := makeInode_reads hp hmake id inode.xattrCount
  obtain ⟨-, -, -, -, hx, -⟩ := makeInode_ok hmake
  refine ⟨id, inode, hid, getInode_eq hv (makeInode_tagged hmake) hinode, hattrs, hlay, hinfo, hsize, ?_⟩
  rw [InodeExtended.asBytes_length] at htail
  simpa [hx, xattrCountToLen] using htail

theorem slice_of_hasAt {data bs : Bytes} {off : ℕ} (h : HasAt data off bs) (hb : bs ≠ []) :
    slice? data off (off + bs.length) = some bs := h.slice? (h.length_le hb)

theorem add64_ok {a b : ℕ} (h : a + b < 2 ^ 64) : add64 a b = .ok (a + b) := if_pos h

include hv in
theorem getData_plain {id : UInt32} {inode : InodeExtended} {bytes : Bytes}
    (hl : getLayout inode.formatLayout = some .flatPlain) (hs : inode.size.toNat = bytes.length)
    (hb : bytes ≠ [] → HasAt fs.data (inode.info.toNat * blockSize) bytes ∧
      bytes.length < 2 ^ 50) :
    fs.getData (.extended id inode) = .ok (bytes, []) := by
  have hlay : (Inode.extended id inode).layout = .ok .flatPlain := by
    rw [Inode.layout, Inode.formatLayout, hl]
    rfl
  simp only [Erofs.getData, hlay, bind, Except.bind, Inode.dataSize, hs]
  by_cases hne : bytes = []
  · rw [hne]
    rfl
  · obtain ⟨hat, hlt⟩ := hb hne
    have hinfo := inode.info.toNat_lt
    have hadd : add64 (inode.info.toNat * blockSize) bytes.length =
        .ok (inode.info.toNat * blockSize + bytes.length) := by
      refine add64_ok ?_
      simp only [blockSize]
      omega
    rw [if_neg (by simpa using hne)]
    simp only [blockOffset_eq hv, Inode.rawBlockAddr, hadd, slice_of_hasAt hat hne, reader_okOr_some]
    rfl

theorem xattrCountToLen_lt (count : UInt16) : xattrCountToLen count < 2 ^ 20 := by
  have := count.toNat_lt
  unfold xattrCountToLen
  split_ifs <;> omega

include hv in
theorem inodeEnd_eq (id : UInt32) (inode : InodeExtended) :
    fs.inodeEnd (.extended id inode) =
      .ok (inodeAddress metaBlock id + 64 + xattrCountToLen inode.xattrCount) := by
  have haddr := inodeAddress_lt hv id
  have hxattr := xattrCountToLen_lt inode.xattrCount
  have hlen : (Inode.extended id inode).xattrLen.getD 0 = xattrCountToLen inode.xattrCount := by
    unfold Inode.xattrLen
    split_ifs with h0
    · exact h0.symm
    · rfl
  simp only [Erofs.inodeEnd, Erofs.inodeOffset, Inode.diskId, Inode.size, rawInodeOffset_eq hv, hlen,
    bind, Except.bind]
  rw [add64_ok (by omega)]
  exact add64_ok (by omega)

include hv in
theorem getData_inline {id : UInt32} {inode : InodeExtended} {bytes tail : Bytes}
    (hl : getLayout inode.formatLayout = some .flatInline) (hs : inode.size.toNat = bytes.length)
    (htail : tail = bytes.drop (bytes.length / blockSize * blockSize)) (hne : tail ≠ [])
    (hat : HasAt fs.data (inodeAddress metaBlock id + 64 + xattrCountToLen inode.xattrCount) tail)
    (hnull : inode.info = erofsNullAddr ↔ bytes.length / blockSize = 0)
    (hb : bytes.length / blockSize ≠ 0 → HasAt fs.data (inode.info.toNat * blockSize)
      (bytes.take (bytes.length / blockSize * blockSize))) (hlt : bytes.length < 2 ^ 50) :
    fs.getData (.extended id inode) =
      .ok (bytes.take (bytes.length / blockSize * blockSize), tail) := by
  have hlay : (Inode.extended id inode).layout = .ok .flatInline := by
    rw [Inode.layout, Inode.formatLayout, hl]
    rfl
  have haddr := inodeAddress_lt hv id
  have hlen : tail.length = bytes.length - bytes.length / blockSize * blockSize := by
    rw [htail, List.length_drop]
  have hend := inodeEnd_eq hv id inode
  have hxattr := xattrCountToLen_lt inode.xattrCount
  have hadd : add64 (inodeAddress metaBlock id + 64 + xattrCountToLen inode.xattrCount) tail.length =
      .ok (inodeAddress metaBlock id + 64 + xattrCountToLen inode.xattrCount + tail.length) := by
    refine add64_ok ?_
    omega
  have hsize : computeBlockTailLen 4096 bytes.length =
      (bytes.length / blockSize * blockSize, tail.length) := by
    rw [hlen]
    rfl
  simp only [Erofs.getData, hlay, bind, Except.bind, Inode.dataSize, hs, blockSize_eq hv, hsize, hend,
    hadd, slice_of_hasAt hat hne, reader_okOr_some, Inode.rawBlockAddr]
  by_cases h0 : bytes.length / blockSize = 0
  · rw [if_pos (hnull.mpr h0), h0, Nat.zero_mul, if_neg (by simp), List.take_zero]
    rfl
  · have htake : (bytes.take (bytes.length / blockSize * blockSize)).length =
        bytes.length / blockSize * blockSize := by
      rw [List.length_take]
      exact Nat.min_eq_left (Nat.div_mul_le_self _ _)
    have hbne : bytes.take (bytes.length / blockSize * blockSize) ≠ [] := by
      refine List.ne_nil_of_length_pos ?_
      rw [htake]
      simp only [blockSize] at *
      omega
    have hslice := slice_of_hasAt (hb h0) hbne
    rw [htake] at hslice
    have hinfo := inode.info.toNat_lt
    have hle := Nat.div_mul_le_self bytes.length blockSize
    have hadd' : add64 (inode.info.toNat * blockSize) (bytes.length / blockSize * blockSize) =
        .ok (inode.info.toNat * blockSize + bytes.length / blockSize * blockSize) := by
      refine add64_ok ?_
      simp only [blockSize] at *
      omega
    rw [if_neg fun h => h0 (hnull.mp h)]
    simp only [blockOffset_eq hv, hadd', hslice, reader_okOr_some]
    rfl

end Inodes

section Items

variable {metaBlock : ℕ} {fs : Erofs} (hv : Volume metaBlock fs)

include hv in
theorem volume_lt : metaBlock < 2 ^ 32 := by
  rw [← hv.metaAt]
  exact fs.sb.metaBlkaddr.toNat_lt

theorem sizeTailLen_tail_none {len : ℕ} (h : (sizeTailLen len).2.2 = 0) : (sizeTailLen len).2.1 = len := by
  have := sizeTailLen_sum len
  omega

theorem sizeTailLen_tail_some {len : ℕ} (h : (sizeTailLen len).2.2 ≠ 0) :
    (sizeTailLen len).2.1 = len / blockSize * blockSize := by
  unfold sizeTailLen at h ⊢
  split_ifs at h ⊢
  · exact absurd rfl h
  · rfl

theorem sizeTailLen_tail_lt (len : ℕ) : (sizeTailLen len).2.2 < blockSize := by
  unfold sizeTailLen blockSize
  split_ifs
  · exact Nat.zero_lt_succ _
  · exact Nat.mod_lt _ (by norm_num)

include hv in
theorem extent_length_lt {cur : ℕ} {i : Item} {bytes : Bytes} (h : Extent fs.data cur i bytes)
    (hcur : cur ≤ metaBlock) : bytes.length < 2 ^ 45 := by
  have hlt := volume_lt hv
  have hsum := sizeTailLen_sum i.len
  have htail := sizeTailLen_tail_lt i.len
  rw [← h.len]
  rcases Nat.eq_zero_or_pos (sizeTailLen i.len).2.1 with h0 | hpos
  · simp only [blockSize] at *
    omega
  · have hle := blockLen_le i.len
    have hrange := (h.range hpos).2
    simp only [blockSize] at *
    omega

include hv in
/-- A file or a symlink is read with its attributes and all its bytes. -/
theorem item_reads {cur limit : ℕ} {i : Item} {bytes : Bytes} (hp : Plain i.fileType)
    (hcur : cur ≤ metaBlock) (h : Complete metaBlock cur fs.data limit i bytes) :
    ∃ id inode data, i.diskId = some id ∧ fs.getInode id = .ok inode ∧
      readAttrs inode = attrsOf i.fileType i.metadata ∧ fs.getData inode = .ok data ∧
      data.1 ++ data.2 = bytes := by
  obtain ⟨hext, hfiled⟩ := h
  obtain ⟨id, inode, hid, hget, hattrs, hlay, hinfo, hsize, htail⟩ := getInode_filed hv hp hfiled
  have hlt := extent_length_lt hv hext hcur
  have hs : inode.size.toNat = bytes.length := by
    rw [hsize, hext.len, UInt64.toNat_ofNat']
    omega
  have hblk := volume_lt hv
  by_cases h0 : (sizeTailLen i.len).2.2 = 0
  · have hnone : i.tail = none := by
      rw [hext.tail, linkTail, if_neg (by omega)]
    have hall := sizeTailLen_tail_none h0
    rw [hnone] at hlay
    refine ⟨id, _, (bytes, []), hid, hget, hattrs, getData_plain hv hlay hs ?_, List.append_nil _⟩
    intro hne
    have hpos : 0 < (sizeTailLen i.len).2.1 := by
      rw [hall, hext.len]
      exact List.length_pos_of_ne_nil hne
    have hat := hext.blocks hpos
    rw [hall, hext.len, List.take_length] at hat
    rw [hinfo]
    exact ⟨hat, by omega⟩
  · have hsome : i.tail = some (bytes.drop (bytes.length / blockSize * blockSize)) := by
      rw [hext.tail, linkTail, if_pos (by omega), sizeTailLen_tail_some h0, hext.len]
    have hsum := sizeTailLen_sum i.len
    have hb := sizeTailLen_tail_some h0
    rw [hext.len] at hb hsum h0
    rw [hsome] at hlay htail
    have hzero : (sizeTailLen i.len).2.1 = 0 ↔ bytes.length / blockSize = 0 := by
      rw [hext.len, hb]
      simp [blockSize]
    refine ⟨id, _, _, hid, hget, hattrs, getData_inline hv hlay hs rfl ?_ htail ?_ ?_ (by omega),
      List.take_append_drop _ _⟩
    · refine List.ne_nil_of_length_pos ?_
      rw [List.length_drop]
      omega
    · rw [hinfo, ← hzero]
      constructor
      · intro hnull
        by_contra hpos
        have hrange := hext.range (by omega)
        have hpad := sizeTailLen_padded i.len
        have : i.startBlock.toNat = 2 ^ 32 - 1 := by
          rw [hnull]
          rfl
        have hn : 0 < (sizeTailLen i.len).1 := by
          refine Nat.pos_of_ne_zero fun hz => hpos ?_
          rw [hz] at hpad
          omega
        omega
      · exact hext.null
    · intro hne
      have hat := hext.blocks (Nat.pos_of_ne_zero fun hz => hne (hzero.mp hz))
      rwa [hext.len, hb, ← hinfo] at hat

end Items

section Directories

variable {metaBlock : ℕ} {fs : Erofs} (hv : Volume metaBlock fs)

theorem length_le_dirData (own parent : Option UInt32) (blocks : List (List Child)) :
    blocks.flatten.length ≤ (dirData own parent blocks).length := by
  have hblock : ∀ cs : List Child, cs.length ≤ (blockBytes own parent cs).length := by
    intro cs
    rw [blockBytes_length, need_eq, namesOf, List.length_map]
    omega
  induction blocks with
  | nil => exact Nat.le_refl _
  | cons cs blocks ih =>
    have hcs := hblock cs
    cases blocks with
    | nil => simpa [dirData] using hcs
    | cons cs' blocks =>
      rw [List.flatten_cons, List.length_append, dirData, List.length_append, List.length_append]
      · omega
      · simp

include hv in
theorem dir_items {own : UInt32} {parent : Option UInt32} {inode : InodeExtended}
    {blocks : List (List Child)} (hl : getLayout inode.formatLayout = some .flatPlain)
    (htype : (Inode.extended own inode).fileType = .directory)
    (hb : ∀ cs ∈ blocks, Block (namesOf cs))
    (hs : inode.size = UInt64.ofNat (dirData (some own) parent blocks).length)
    (hat : HasAt fs.data (inode.info.toNat * blockSize) (dirData (some own) parent blocks))
    (hle : inode.info.toNat + blocks.length ≤ metaBlock) :
    ∃ dirents, fs.getDirents (.extended own inode) = .ok dirents ∧
      dirents.items ((Inode.extended own inode).dataSize + 1) =
        .ok (entriesRead (some own) parent blocks) := by
  have hlt := volume_lt hv
  have hlen := @dirData_length_le (some own) parent blocks hb
  have hsize : inode.size.toNat = (dirData (some own) parent blocks).length := by
    rw [hs, UInt64.toNat_ofNat']
    simp only [blockSize] at *
    omega
  obtain ⟨it, hreset, hitems⟩ := @items_dirData (some own) parent blocks hb (some []) rfl
  have hdata : fs.getData (.extended own inode) = .ok (dirData (some own) parent blocks, []) := by
    refine getData_plain hv hl hsize fun _ => ⟨hat, ?_⟩
    simp only [blockSize] at *
    omega
  refine ⟨it, ?_, hitems _ ?_⟩
  · rw [Erofs.getDirents, if_neg (by simp [htype]), hdata, blockSize_eq hv]
    exact hreset 0 0
  · rw [Inode.dataSize, hsize]
    exact Nat.lt_succ_of_le (length_le_dirData _ _ blocks)

include hv in
/-- A directory is read with its attributes and the entries of all its blocks. -/
theorem dir_reads {limit : ℕ} {info : DirInfo} {own : UInt32} {parent : Option UInt32}
    {blocks : List (List Child)} (h : FiledDir metaBlock fs.data limit info)
    (hid : info.diskId = some own) (hb : ∀ cs ∈ blocks, Block (namesOf cs))
    (hnul : ∀ c ∈ blocks.flatten, (0 : UInt8) ∉ c.1)
    (ht : info.totalSize = (dirData (some own) parent blocks).length)
    (hat : HasAt fs.data (info.startBlock.toNat * blockSize) (dirData (some own) parent blocks))
    (hle : info.startBlock.toNat + blocks.length ≤ metaBlock) :
    ∃ inode dirents, fs.getInode own = .ok inode ∧ inode.diskId = own ∧
      readAttrs inode = dirAttrs info ∧ fs.getDirents inode = .ok dirents ∧
      dirents.items (inode.dataSize + 1) = .ok (blocks.flatten.map (itemOf (some own) parent)) := by
  obtain ⟨id, inode, hid', hget, hattrs, hlay, hinfo, hsize, -⟩ :=
    getInode_filed hv (Or.inr (Or.inr rfl)) h
  obtain rfl : own = id := Option.some.inj (hid.symm.trans hid')
  have htype : (Inode.extended own inode).fileType = .directory := congrArg Attrs.fileType hattrs
  rw [ht] at hsize
  rw [← hinfo] at hat hle
  obtain ⟨dirents, hdirents, hitems⟩ := dir_items hv hlay htype hb hsize hat hle
  rw [entriesRead_of_noNul hnul] at hitems
  exact ⟨_, dirents, hget, rfl, hattrs, hdirents, hitems⟩

theorem getInodeFromDirent_eq (fs : Erofs) (id : UInt32) (fileType : DirentFileType) (name : Bytes) :
    fs.getInodeFromDirent ⟨id.toUInt64, fileType, name⟩ = fs.getInode id := by
  have hlt := id.toNat_lt
  rw [Erofs.getInodeFromDirent, if_pos (by rwa [UInt32.toNat_toUInt64]), UInt32.toUInt32_toUInt64]

end Directories

section Walk

variable {metaBlock cur limit : ℕ} {fs : Erofs} (hv : Volume metaBlock fs)

include hv in
theorem walkItem_leaf (hcur : cur ≤ metaBlock) {walk : Inode → Option (Tree Seen Attrs)} {own : UInt32}
    {parent : Option UInt32} {name : Bytes} {x : Leaf} {y : Seen}
    (h : LeafRel (Complete metaBlock cur fs.data limit) name x y) :
    walkItem fs walk own (parent.getD own) (itemOf (some own) parent (name, .leaf x)) =
      some (name, .leaf y) := by
  cases h with
  | dot => simp [walkItem, itemOf, childId, childDiskId]
  | dotDot => cases parent <;> simp [walkItem, itemOf, childId, childDiskId]
  | @item _ _ i bytes hi hn _ hs =>
    have hplain : Plain i.fileType ∧ i.fileType ≠ .directory ∧
        direntFileType (.leaf x) = direntTypeOf i.fileType ∧
        childDiskId (some own) parent (.leaf x) = i.diskId := by
      cases x <;> cases hi <;> simp [Plain, direntFileType, direntTypeOf, childDiskId]
    obtain ⟨hp, hdir, htype, hchild⟩ := hplain
    obtain ⟨id, inode, data, hid, hget, hattrs, hdata, hbytes⟩ := item_reads hv hp hcur hs
    have hfile : inode.fileType = i.fileType := congrArg Attrs.fileType hattrs
    simp [walkItem, itemOf, childId, hchild, hid, hn.notDot, hn.notDotDot, getInodeFromDirent_eq, hget,
      htype, hfile, hdir, hdata, hbytes, hattrs, Except.toOption]

include hv

mutual
theorem walkDir_reads (hcur : cur ≤ metaBlock) : ∀ (t : Dirent) {info : DirInfo} {cs : List Child}
    {name : Bytes} {t' : Tree Seen Attrs} {parent : Option UInt32} {lo hi fuel : ℕ}, t = .dir info cs →
    Rel (LeafRel (Complete metaBlock cur fs.data limit)) (DirRel (Placement metaBlock fs.data limit))
      name t t' → Linked fs.data parent t → Laid lo t hi → hi ≤ metaBlock → t.levels ≤ fuel →
    ∃ own inode, info.diskId = some own ∧ fs.getInode own = .ok inode ∧ inode.diskId = own ∧
      inode.fileType = .directory ∧ walkDir fs fuel (parent.getD own) inode = some t'
  | .leaf _, _, _, _, _, _, _, _, _ => fun h => nomatch h
  | .dir info cs, _, _, name, _, parent, lo, hi, fuel => by
    intro ht hrel hlinked hlaid hhi hfuel
    cases ht
    cases hrel with
    | @dir _ _ attrs _ cs' hd hc =>
    cases hlinked with
    | @dir _ _ own _ blocks hid hcs hb ht hn hat hids hlinks =>
    cases hlaid with
    | dir hs hl hlc =>
    obtain ⟨fuel, rfl⟩ : ∃ k, fuel = k + 1 := ⟨fuel - 1, by rw [Tree.levels] at hfuel; omega⟩
    have hle := hlc.le
    have hlen : info.nDirentsPerBlock.length = blocks.length := by rw [hn, List.length_map]
    have hnul : ∀ c ∈ blocks.flatten, (0 : UInt8) ∉ c.1 := by
      intro c hm
      rw [← hcs] at hm
      exact hd.names_ok.noNul c.1 (List.mem_map_of_mem hm)
    obtain ⟨inode, dirents, hget, hdisk, hattrs, hdirents, hitems⟩ :=
      dir_reads hv hd.state.2 hid hb hnul ht hat (by omega)
    have hfile : inode.fileType = .directory := congrArg Attrs.fileType hattrs
    refine ⟨own, inode, hid, hget, hdisk, hfile, ?_⟩
    rw [Tree.levels] at hfuel
    have hwalk := walkChildren_reads hcur cs parent hc hlinks hlc hhi (Nat.le_of_succ_le_succ hfuel)
    rw [walkDir, hdirents, hdisk, hattrs, hd.attrs_eq]
    simp only [Except.toOption, hitems, ← hcs, hwalk, Option.bind_eq_bind, Option.bind_some]

theorem walkChildren_reads (hcur : cur ≤ metaBlock) : ∀ (cs : List Child)
    {cs' : List (Bytes × Tree Seen Attrs)} {own : UInt32} (parent : Option UInt32) {lo hi fuel : ℕ},
    RelList (LeafRel (Complete metaBlock cur fs.data limit))
      (DirRel (Placement metaBlock fs.data limit)) cs cs' →
    LinkedList fs.data (some own) cs → LaidList lo cs hi → hi ≤ metaBlock → levelsList cs ≤ fuel →
    (cs.map (itemOf (some own) parent)).mapM
      (walkItem fs (walkDir fs fuel own) own (parent.getD own)) = some cs'
  | [], _, _, _, _, _, _ => by
    intro hrel _ _ _ _
    cases hrel
    rfl
  | (name, t) :: cs, _, own, parent, lo, hi, fuel => by
    intro hrel hlinked hlaid hhi hfuel
    cases hrel with
    | @cons _ _ t' _ cs' h hc =>
    cases hlinked with
    | cons hl hlinks =>
    cases hlaid with
    | cons hlo hlc =>
    rw [levelsList] at hfuel
    have hrest := walkChildren_reads hcur cs parent hc hlinks hlc hhi (le_trans (le_max_right _ _) hfuel)
    have hdir := fun info children (ht : t = .dir info children) =>
      walkDir_reads hcur t ht h hl hlo (hlc.le.trans hhi) (le_trans (le_max_left _ _) hfuel)
    have hfirst : walkItem fs (walkDir fs fuel own) own (parent.getD own)
        (itemOf (some own) parent (name, t)) = some (name, t') := by
      cases h with
      | leaf hx => exact walkItem_leaf hv hcur hx
      | dir hd hcc =>
        obtain ⟨id, inode, hid, hget, -, hfile, hwalk⟩ := hdir _ _ rfl
        rw [Option.getD_some] at hwalk
        simp [walkItem, itemOf, childId, childDiskId, hid, hd.good.notDot, hd.good.notDotDot,
          getInodeFromDirent_eq, hget, direntFileType, direntTypeOf, hfile, hwalk, Except.toOption]
    rw [List.map_cons, List.mapM_cons, hfirst, hrest]
    rfl
end

end Walk

theorem leafKind_eq {S : Item → Bytes → Prop} {name : Bytes} {x : Leaf} {y : Seen}
    (h : LeafRel S name x y) : leafKind x = y.kind := by
  cases h with
  | dot => rfl
  | dotDot => rfl
  | item hi => cases x <;> cases hi <;> rfl

/-- The image of any tree that was added without an error is read back as this
tree, entry by entry: names and order, types, owners, modes and bytes. -/
theorem image_roundtrip (config : BuilderConfig) (calls : List Call)
    (hplain : ∀ c ∈ calls, PlainCall c) (hok : AllOk (Builder.new config) calls) (stats : Stats)
    (image : Bytes) (himage : intoInner (after (Builder.new config) calls) = .ok (stats, image))
    (fuel : ℕ) (hfuel : 32 ≤ fuel) :
    let contents := added config.incrementUidGid emptyDir calls
    contents.toTree.map Seen.kind id =
        (after (Builder.new config) calls).root.toTree.map leafKind dirAttrs ∧
      ∃ fs, Erofs.new image = .ok fs ∧ walkImage fs fuel = some contents.toTree := by
  intro contents
  have hadding := run_adding (new_adding config) hplain hok
  refine ⟨?_, ?_⟩
  · refine (Rel.map_eq ?_ ?_ hadding.root).symm
    · intro _ _ _ h
      exact leafKind_eq h
    · intro _ _ _ _ h
      exact h.attrs_eq.symm
  cases hf : finalize (after (Builder.new config) calls) with
  | error e b =>
    rw [intoInner, hf] at himage
    cases himage
  | ok _ b =>
    rw [intoInner, hf] at himage
    cases himage
    obtain ⟨fs, cur, metaBlock, limit, root, hnew, hv, hholds, hroot⟩ := finalize_image hadding hf
    obtain ⟨id, inode, hid, hget, hdisk, -, hwalk⟩ := walkDir_reads hv hholds.laid.le root.toTree rfl
      hholds.rel hholds.linked hholds.laid (le_refl _) (hholds.levels.trans hfuel)
    obtain rfl : id = fs.sb.rootDiskId.toUInt32 := Option.some.inj (hid.symm.trans hroot)
    refine ⟨fs, hnew, ?_⟩
    rw [walkImage, Erofs.getRootInode, hget]
    simpa [Except.toOption, hdisk] using hwalk

def fileInDir : List Call :=
  [.addFile [0x64, slash, 0x66] Meta.default 2 ⟨[7, 8], false⟩]

theorem image_roundtrip_file_in_dir :
    ∃ stats image fs, intoInner (after (Builder.new ⟨none, none⟩) fileInDir) = .ok (stats, image) ∧
      Erofs.new image = .ok fs ∧ walkImage fs 32 =
        some (.dir (attrsOf .directory Meta.default)
          [([dot], .leaf .self), ([dot, dot], .leaf .parent), ([0x64],
            .dir (attrsOf .directory Meta.default) [([dot], .leaf .self), ([dot, dot], .leaf .parent),
              ([0x66], .leaf (.entry (attrsOf .regularFile Meta.default) [7, 8]))])]) := by
  have hplain : ∀ c ∈ fileInDir, PlainCall c := by
    have hc : components [0x64, slash, 0x66] = [.normal [0x64], .normal [0x66]] := by decide
    simp [fileInDir, PlainCall, PlainPath, hc, Meta.default, OrderedMap.OrdMap.empty, blockSize]
  have hok : AllOk (Builder.new ⟨none, none⟩) fileInDir := ⟨by decide +kernel, trivial⟩
  have himage : (intoInner (after (Builder.new ⟨none, none⟩) fileInDir)).isOk = true := by
    decide +kernel
  cases hr : intoInner (after (Builder.new ⟨none, none⟩) fileInDir) with
  | error e =>
    rw [hr] at himage
    cases himage
  | ok r =>
    obtain ⟨fs, hnew, hwalk⟩ :=
      (image_roundtrip ⟨none, none⟩ fileInDir hplain hok r.1 r.2 hr 32 (le_refl _)).2
    exact ⟨r.1, r.2, fs, rfl, hnew, hwalk⟩

end ProgramExplorer.ErofsRoundtrip
