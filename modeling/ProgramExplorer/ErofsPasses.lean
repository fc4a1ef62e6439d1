import ProgramExplorer.ErofsContents
import ProgramExplorer.ErofsDirents
import ProgramExplorer.ErofsWalk

/-!
# The passes that write an image

Blocks for the directories are reserved after the data, inodes are appended
after them, and then the reserved blocks are filled. The regions do not
overlap, so what one pass has written is still there at the end.
-/

set_option autoImplicit false

namespace ProgramExplorer.ErofsPasses
open ByteStrings ByteStore StateRules FileTree ErofsTree ErofsDisk ErofsBuilder ErofsCursor
open ErofsPlacement ErofsReadback ErofsContents ErofsDirents ErofsWalk

section Prepare

def Prepared (names : List Bytes) (info : DirInfo) : Prop :=
  info.diskId = none ∧ Packed names info.nDirentsPerBlock info.totalSize

def SameWriter (b b' : Builder) : Prop := b'.writer = b.writer

theorem prepareDirents_ok {info info' : DirInfo} {cs : List (Bytes × Dirent)} {b b' : Builder}
    (h : prepareDirents.onDirEnter info cs b = .ok info' b') :
    prepareDirentData info (cs.map (·.1)) b.curDataBlock = .ok info' ∧ SameWriter b b' ∧
      b.curDataBlock + info'.nDirentsPerBlock.length = b'.curDataBlock := by
  obtain ⟨b₁, b₂, hget, h1⟩ := bind_eq_ok.mp h
  obtain ⟨rfl, rfl⟩ := get_eq_ok.mp hget
  obtain ⟨info₁, b₃, hprep, h2⟩ := bind_eq_ok.mp h1
  obtain ⟨hprep, rfl⟩ := check_eq_ok.mp hprep
  obtain ⟨u, b₄, hmod, h3⟩ := bind_eq_ok.mp h2
  have hmod := modify_eq_ok.mp hmod
  obtain ⟨rfl, rfl⟩ := pure_eq_ok.mp h3
  subst hmod
  exact ⟨hprep, rfl, rfl⟩

theorem prepareDirents_spec (cur : ℕ) :
    WalkSpec prepareDirents (fun _ => True) SameWriter
      (fun s => LeafRel (Loaded s.writer.data cur)) (fun s => LeafRel (Loaded s.writer.data cur))
      (fun _ => DirRel fun _ => FreshDir) (fun _ => DirRel Prepared) where
  refl _ := rfl
  trans h h' := Eq.trans h' h
  leafMono _ h n x y hl := by
    rwa [show _ = _ from h]
  dirMono _ _ _ _ _ _ h := h
  leafMono' _ h n x y hl := by
    rwa [show _ = _ from h]
  dirMono' _ _ _ _ _ _ h := h
  leaf := by
    intro _ s s' n x x' y _ hl hw
    have hsame : walkLeaf prepareDirents x s = .ok x s := by cases x <;> rfl
    rw [hsame] at hw
    cases hw
    exact ⟨trivial, rfl, hl⟩
  enter := by
    intro _ s s' n cs d d' e _ hd hw
    obtain ⟨hprep, hsame, -⟩ := prepareDirents_ok hw
    obtain ⟨-, hpack, hmeta, hid, -⟩ := prepareDirentData_ok hprep hd.state.2 hd.names_ok.fits
      hd.names_ok.nonempty
    refine ⟨trivial, hsame, hd.good, hd.names_ok, ?_, ?_, ?_, hpack⟩
    · rw [hd.attrs_eq, dirAttrs, dirAttrs, hmeta]
    · rw [hmeta]
      exact hd.plain
    · rw [hid]
      exact hd.state.1
  exit _ _ := rfl

theorem prepareDirents_lays {maxDepth depth : ℕ} {t t' : Dirent} {b b' : Builder}
    (h : walkTree prepareDirents maxDepth depth t b = .ok t' b') :
    Laid b.curDataBlock t' b'.curDataBlock := by
  refine walkTree_lays (v := prepareDirents) Builder.curDataBlock ?_ ?_ (fun _ _ => rfl) t h
  · intro x s x' s' hw
    have hsame : walkLeaf prepareDirents x s = .ok x s := by cases x <;> rfl
    rw [hsame] at hw
    cases hw
    rfl
  · intro d cs s d' s' hw
    obtain ⟨hprep, -, hcur⟩ := prepareDirents_ok hw
    refine ⟨?_, hcur⟩
    obtain ⟨start, hs, hprep⟩ := except_bind_eq_ok.mp hprep
    simp only at hprep
    split_ifs at hprep
    cases hprep
    exact toU32_ok hs

end Prepare

section Inodes

/-- An inode as `make_inode` makes it stands with its tail at the address of
this id, below `limit`. -/
def Filed (metaBlock : ℕ) (data : Bytes) (limit : ℕ) (diskId : Option UInt32)
    (fileType : FileType) (size : ℕ) (startBlock : UInt32) (metadata : Meta) (tail : Option Bytes)
    (nLinks : UInt32) : Prop :=
  ∃ id inode, diskId = some id ∧
    makeInode fileType size startBlock metadata tail nLinks = .ok inode ∧
    HasAt data (inodeAddress metaBlock id) (inode.asBytes ++ tail.getD []) ∧
    inodeAddress metaBlock id + (inode.asBytes ++ tail.getD []).length ≤ limit

def FiledItem (metaBlock : ℕ) (data : Bytes) (limit : ℕ) (i : Item) : Prop :=
  Filed metaBlock data limit i.diskId i.fileType i.len i.startBlock i.metadata i.tail i.nLinks

def FiledDir (metaBlock : ℕ) (data : Bytes) (limit : ℕ) (info : DirInfo) : Prop :=
  Filed metaBlock data limit info.diskId .directory info.totalSize info.startBlock info.metadata none 1

theorem Filed.mono {metaBlock : ℕ} {data data' : Bytes} {limit limit' : ℕ} {diskId : Option UInt32}
    {fileType : FileType} {size : ℕ} {startBlock : UInt32} {metadata : Meta} {tail : Option Bytes}
    {nLinks : UInt32}
    (h : Filed metaBlock data limit diskId fileType size startBlock metadata tail nLinks)
    (hle : limit ≤ limit')
    (hk : ∀ off bs, metaBlock * blockSize ≤ off → off + bs.length ≤ limit → HasAt data off bs →
      HasAt data' off bs) :
    Filed metaBlock data' limit' diskId fileType size startBlock metadata tail nLinks := by
  obtain ⟨id, inode, hid, hmake, hat, hlim⟩ := h
  exact ⟨id, inode, hid, hmake, hk _ _ (Nat.le_add_right _ _) hlim hat, hlim.trans hle⟩

theorem makeInode_ok {fileType : FileType} {size : ℕ} {startBlock : UInt32} {metadata : Meta}
    {tail : Option Bytes} {nLinks : UInt32} {inode : InodeExtended}
    (h : makeInode fileType size startBlock metadata tail nLinks = .ok inode) :
    ∃ mode, makeMode fileType metadata.mode = .ok mode ∧ inode.mode = mode ∧
      inode.formatLayout =
        formatLayout .extended (if tail.isSome then Layout.flatInline else Layout.flatPlain) ∧
      inode.xattrCount = 0 ∧ inode.uid = metadata.uid ∧ inode.gid = metadata.gid ∧
      inode.info = startBlock ∧ inode.size = UInt64.ofNat size := by
  obtain ⟨mode, hm, h⟩ := except_bind_eq_ok.mp h
  cases h
  exact ⟨mode, hm, rfl, rfl, rfl, rfl, rfl, rfl, rfl⟩

theorem recordOf_plain {inode : InodeExtended} (h0 : inode.xattrCount = 0) (tail : Option Bytes)
    {xattrs : XattrMap} (hx : xattrs.entries = []) :
    recordOf (.extended inode) tail xattrs = .ok (inode.asBytes ++ tail.getD []) := by
  have hin : { inode with xattrCount := 0 } = inode := by
    cases inode
    cases h0
    rfl
  have hrec : recordOf (.extended inode) tail xattrs =
      .ok ((DiskInode.withXattrCount 0 (.extended inode)).asBytes ++ xattrsBytes xattrs [] 0 ++
        tail.getD []) := by
    rw [recordOf, hx]
    rfl
  rw [hrec, xattrsBytes, if_pos hx, List.append_nil, DiskInode.withXattrCount, hin]
  rfl

theorem writeRecord_keeps (data xattrs : Bytes) (tail : Option Bytes) (totalLen : ℕ) :
    Keeps Builder.curDataBlock (writeRecord data xattrs tail totalLen) := by
  refine keeps_bind (keeps_require _ _) fun _ => keeps_bind ?_ fun _ => ?_
  · refine keeps_bind keeps_get fun b => ?_
    split_ifs
    · exact keeps_bind (fun _ => rfl) fun _ => keeps_modify fun _ => rfl
    · exact keeps_pure _
  refine keeps_bind keeps_get fun b => keeps_bind ?_ fun id => ?_
  · refine keeps_bind keeps_get fun b' => keeps_bind (keeps_check _) fun m => ?_
    refine keeps_bind (keeps_require _ _) fun _ => keeps_bind (keeps_require _ _) fun _ => ?_
    exact keeps_check _
  refine keeps_bind (fun _ => rfl) fun _ => keeps_bind (fun _ => rfl) fun _ => keeps_bind ?_ fun _ => ?_
  · cases tail with
    | none => exact keeps_pure _
    | some t => exact keeps_bind (keeps_modify fun _ => rfl) fun _ => fun _ => rfl
  · refine keeps_bind (fun _ => rfl) fun _ => keeps_bind (keeps_modify fun _ => rfl) fun _ => ?_
    exact keeps_pure _

theorem writeInode_keeps (inode : DiskInode) (tail : Option Bytes) (xattrs : XattrMap) :
    Keeps Builder.curDataBlock (writeInode inode tail xattrs) := by
  refine keeps_bind (keeps_modify fun _ => rfl) fun _ => keeps_bind (keeps_check _) fun entries => ?_
  exact keeps_bind (keeps_require _ _) fun _ => writeRecord_keeps _ _ _ _

/-- The relation between the states before and after some inodes are written. -/
structure Appends (b b' : Builder) : Prop where
  ext : Extends b b'
  cursor_eq : b'.curDataBlock = b.curDataBlock

/-- The record of an inode stands at the address of this id, below `limit`. -/
def Recorded (metaBlock : ℕ) (data : Bytes) (limit : ℕ) (id : UInt32) (inode : InodeExtended)
    (tail : Option Bytes) (xattrs : XattrMap) : Prop :=
  ∃ record, recordOf (.extended inode) tail xattrs = .ok record ∧
    HasAt data (inodeAddress metaBlock id) record ∧ inodeAddress metaBlock id + record.length ≤ limit

theorem writeInode_recorded {metaBlock : ℕ} {b b' : Builder} (hp : Placed metaBlock b)
    {tail : Option Bytes} {xattrs : XattrMap} {inode : InodeExtended}
    (hfit : Fits b (.extended inode) tail xattrs) {id : UInt32}
    (h : writeInode (.extended inode) tail xattrs b = .ok id b') :
    Placed metaBlock b' ∧ Appends b b' ∧
      Recorded metaBlock b'.writer.data b'.inodeAddr id inode tail xattrs := by
  have hkeep := writeInode_keeps (.extended inode) tail xattrs b
  obtain ⟨hp', hext, hst⟩ := writeInode_step hp hfit
  rw [h] at hp' hext hst hkeep
  obtain ⟨record, hr, hs⟩ := hst id rfl
  exact ⟨hp', ⟨hext, hkeep⟩, record, hr, hs.written, hs.before⟩

theorem fits_of_nil {xattrs : XattrMap} {tail : Option Bytes} (hx : xattrs.entries = [])
    (ht : (tail.getD []).length ≤ blockSize / 2) (b : Builder) (inode : InodeExtended) :
    Fits b (.extended inode) tail xattrs := by
  rintro record hr ⟨hfull, -⟩
  obtain ⟨entries, he, hr⟩ := except_bind_eq_ok.mp hr
  rw [hx] at he
  cases he
  cases hr
  rw [xattrsBytes, if_pos hx] at hfull
  simp only [DiskInode.withXattrCount, DiskInode.asBytes, List.append_nil, List.length_append,
    InodeExtended.asBytes_length, blockSize] at hfull ht
  omega

theorem writeInode_plain {metaBlock : ℕ} {b b' : Builder} (hp : Placed metaBlock b)
    {fileType : FileType} {size : ℕ} {startBlock : UInt32} {metadata : Meta} {tail : Option Bytes}
    {nLinks : UInt32} {inode : InodeExtended}
    (hmake : makeInode fileType size startBlock metadata tail nLinks = .ok inode)
    (hx : metadata.xattrs.entries = []) (ht : (tail.getD []).length ≤ blockSize / 2) {id : UInt32}
    (h : writeInode (.extended inode) tail metadata.xattrs b = .ok id b') :
    Placed metaBlock b' ∧ Appends b b' ∧
      Filed metaBlock b'.writer.data b'.inodeAddr (some id) fileType size startBlock metadata tail
        nLinks := by
  obtain ⟨-, -, -, -, h0, -⟩ := makeInode_ok hmake
  obtain ⟨hp', happ, record, hr, hat, hle⟩ := writeInode_recorded hp (fits_of_nil hx ht b inode) h
  rw [recordOf_plain h0 tail hx] at hr
  cases hr
  exact ⟨hp', happ, id, inode, rfl, hmake, hat, hle⟩

theorem place_ok {β : Type} {made : Except Error InodeExtended} {tail : Option Bytes}
    {xattrs : XattrMap} {prev : Option UInt32} {g : Option UInt32 → β} {b b' : Builder} {r : β}
    (h : (do
      let inode ← check made
      let diskId ← writeInode (.extended inode) tail xattrs
      let diskId ← check (replaceDiskId prev diskId)
      pure (g diskId) : EStateM Error Builder β) b = .ok r b') :
    ∃ inode id, made = .ok inode ∧ writeInode (.extended inode) tail xattrs b = .ok id b' ∧
      r = g (some id) := by
  obtain ⟨inode, b₁, hmake, h1⟩ := bind_eq_ok.mp h
  obtain ⟨hinode, rfl⟩ := check_eq_ok.mp hmake
  obtain ⟨id, b₂, hwrite, h2⟩ := bind_eq_ok.mp h1
  obtain ⟨newId, b₃, hrep, h3⟩ := bind_eq_ok.mp h2
  obtain ⟨hnew, rfl⟩ := check_eq_ok.mp hrep
  obtain ⟨rfl, rfl⟩ := pure_eq_ok.mp h3
  unfold replaceDiskId at hnew
  split_ifs at hnew
  cases hnew
  exact ⟨inode, id, hinode, hwrite, rfl⟩

variable {metaBlock cur : ℕ} (hcur : cur ≤ metaBlock)

theorem appends_trans {b b' b'' : Builder} (h : Appends b b') (h' : Appends b' b'') :
    Appends b b'' :=
  ⟨h.ext.trans h'.ext, h'.cursor_eq.trans h.cursor_eq⟩

theorem filed_appends {b b' : Builder} (h : Appends b b') {diskId : Option UInt32}
    {fileType : FileType} {size : ℕ} {startBlock : UInt32} {metadata : Meta} {tail : Option Bytes}
    {nLinks : UInt32}
    (hf : Filed metaBlock b.writer.data b.inodeAddr diskId fileType size startBlock metadata tail
      nLinks) :
    Filed metaBlock b'.writer.data b'.inodeAddr diskId fileType size startBlock metadata tail
      nLinks :=
  hf.mono h.ext.addr fun off bs _ hle hat => h.ext.keeps off bs hle hat

include hcur in
theorem extent_appends {b b' : Builder} (hp : Placed metaBlock b) (h : Appends b b') {i : Item}
    {bytes : Bytes} (he : Extent b.writer.data cur i bytes) : Extent b'.writer.data cur i bytes := by
  refine he.mono (le_refl _) fun off bs _ hle hat => h.ext.keeps off bs ?_ hat
  exact hle.trans ((Nat.mul_le_mul_right _ hcur).trans hp.above)

def Written (metaBlock : ℕ) (b : Builder) (names : List Bytes) (info : DirInfo) : Prop :=
  Packed names info.nDirentsPerBlock info.totalSize ∧
    FiledDir metaBlock b.writer.data b.inodeAddr info

theorem dirRel_mono {S S' : List Bytes → DirInfo → Prop} (h : ∀ ns d, S ns d → S' ns d)
    {name : Bytes} {names : List Bytes} {info : DirInfo} {attrs : Attrs}
    (hd : DirRel S name names info attrs) : DirRel S' name names info attrs :=
  ⟨hd.good, hd.names_ok, hd.attrs_eq, hd.plain, h _ _ hd.state⟩

include hcur in
theorem writeDirInodes_spec :
    WalkSpec writeDirInodes (Placed metaBlock) Appends
      (fun s => LeafRel (Loaded s.writer.data cur)) (fun s => LeafRel (Loaded s.writer.data cur))
      (fun _ => DirRel Prepared) (fun s => DirRel (Written metaBlock s)) where
  refl s := ⟨Extends.refl s, rfl⟩
  trans := appends_trans
  leafMono hp h _ _ _ hl := leafRel_mono (fun _ _ hs => ⟨hs.1, extent_appends hcur hp h hs.2⟩) hl
  dirMono _ _ _ _ _ _ h := h
  leafMono' hp h _ _ _ hl := leafRel_mono (fun _ _ hs => ⟨hs.1, extent_appends hcur hp h hs.2⟩) hl
  dirMono' _ h _ _ _ _ hd := dirRel_mono (fun _ _ hs => ⟨hs.1, filed_appends h hs.2⟩) hd
  leaf := by
    intro _ s s' n x x' y hp hl hw
    have hsame : walkLeaf writeDirInodes x s = .ok x s := by cases x <;> rfl
    rw [hsame] at hw
    cases hw
    exact ⟨hp, ⟨Extends.refl s, rfl⟩, hl⟩
  enter := by
    intro _ s s' n cs d d' e hp hd hw
    simp only [writeDirInodes] at hw
    obtain ⟨inode, id, hmake, hwrite, rfl⟩ :=
      place_ok (g := fun diskId => { d with diskId := diskId }) hw
    obtain ⟨hp', happ, hfiled⟩ := writeInode_plain hp hmake hd.plain (by simp) hwrite
    exact ⟨hp', happ, hd.good, hd.names_ok, hd.attrs_eq, hd.plain, hd.state.2, hfiled⟩
  exit _ _ := rfl

theorem tail_length_le (len : ℕ) : (sizeTailLen len).2.2 ≤ blockSize / 2 := by
  unfold sizeTailLen
  split_ifs <;> simp_all

theorem extent_tail_le {data : Bytes} {i : Item} {bytes : Bytes} (h : Extent data cur i bytes) :
    (i.tail.getD []).length ≤ blockSize / 2 := by
  have hsum := sizeTailLen_sum i.len
  have hle := tail_length_le i.len
  rw [h.tail, linkTail]
  split_ifs
  · rw [Option.getD_some, List.length_drop, ← h.len]
    omega
  · simp

theorem placed_stats {b : Builder} (h : Placed metaBlock b) (stats : Stats) :
    Placed metaBlock { b with stats := stats } := ⟨⟨h.isMeta, h.aligned, h.above⟩, h.pos⟩

theorem writeInodes_leaf {x x' : Leaf} {i : Item} {b b' : Builder} (hi : item x = some i)
    (h : walkLeaf writeInodes x b = .ok x' b') :
    ∃ stats inode id,
      makeInode i.fileType i.len i.startBlock i.metadata i.tail i.nLinks = .ok inode ∧
      writeInode (.extended inode) i.tail i.metadata.xattrs { b with stats := stats } = .ok id b' ∧
      item x' = some { i with diskId := some id } := by
  cases x with
  | file f =>
    cases hi
    obtain ⟨f', b₁, hf, hp⟩ := bind_eq_ok.mp h
    obtain ⟨rfl, rfl⟩ := pure_eq_ok.mp hp
    obtain ⟨_, b₂, hmod, h1⟩ := bind_eq_ok.mp hf
    obtain rfl := modify_eq_ok.mp hmod
    obtain ⟨inode, id, hmake, hwrite, rfl⟩ :=
      place_ok (g := fun diskId => { f with diskId := diskId }) h1
    exact ⟨_, inode, id, hmake, hwrite, rfl⟩
  | symlink f =>
    cases hi
    obtain ⟨f', b₁, hf, hp⟩ := bind_eq_ok.mp h
    obtain ⟨rfl, rfl⟩ := pure_eq_ok.mp hp
    obtain ⟨_, b₂, hmod, h1⟩ := bind_eq_ok.mp hf
    obtain rfl := modify_eq_ok.mp hmod
    obtain ⟨inode, id, hmake, hwrite, rfl⟩ :=
      place_ok (g := fun diskId => { f with diskId := diskId }) h1
    exact ⟨_, inode, id, hmake, hwrite, rfl⟩
  | dot => cases hi
  | dotDot => cases hi

def Complete (metaBlock cur : ℕ) (data : Bytes) (limit : ℕ) (i : Item) (bytes : Bytes) : Prop :=
  Extent data cur i bytes ∧ FiledItem metaBlock data limit i

include hcur in
theorem writeInodes_spec :
    WalkSpec writeInodes (Placed metaBlock) Appends
      (fun s => LeafRel (Loaded s.writer.data cur))
      (fun s => LeafRel (Complete metaBlock cur s.writer.data s.inodeAddr))
      (fun s => DirRel (Written metaBlock s)) (fun s => DirRel (Written metaBlock s)) where
  refl s := ⟨Extends.refl s, rfl⟩
  trans := appends_trans
  leafMono hp h _ _ _ hl := leafRel_mono (fun _ _ hs => ⟨hs.1, extent_appends hcur hp h hs.2⟩) hl
  dirMono _ h _ _ _ _ hd := dirRel_mono (fun _ _ hs => ⟨hs.1, filed_appends h hs.2⟩) hd
  leafMono' hp h _ _ _ hl :=
    leafRel_mono (fun _ _ hs => ⟨extent_appends hcur hp h hs.1, filed_appends h hs.2⟩) hl
  dirMono' _ h _ _ _ _ hd := dirRel_mono (fun _ _ hs => ⟨hs.1, filed_appends h hs.2⟩) hd
  leaf := by
    intro _ s s' n x x' y hp hl hw
    cases hl with
    | @item _ _ i bytes hi hn hx hs =>
      obtain ⟨stats, inode, id, hmake, hwrite, hi'⟩ := writeInodes_leaf hi hw
      obtain ⟨hp', happ, hfiled⟩ :=
        writeInode_plain (placed_stats hp stats) hmake hx (extent_tail_le hs.2) hwrite
      have hstats : Appends s { s with stats := stats } := ⟨⟨le_refl _, fun _ _ _ h => h⟩, rfl⟩
      have happ' := appends_trans hstats happ
      have hext := extent_appends hcur hp happ' hs.2
      refine ⟨hp', happ', .item (i := { i with diskId := some id }) hi' hn hx ⟨?_, hfiled⟩⟩
      exact ⟨hext.len, hext.tail, hext.null, hext.range, hext.blocks⟩
    | dot =>
      obtain ⟨rfl, rfl⟩ := pure_eq_ok.mp hw
      exact ⟨hp, ⟨Extends.refl _, rfl⟩, .dot⟩
    | dotDot =>
      obtain ⟨rfl, rfl⟩ := pure_eq_ok.mp hw
      exact ⟨hp, ⟨Extends.refl _, rfl⟩, .dotDot⟩
  enter := by
    intro _ s s' n cs d d' e hp hd hw
    obtain ⟨rfl, rfl⟩ := pure_eq_ok.mp hw
    exact ⟨hp, ⟨Extends.refl _, rfl⟩, hd⟩
  exit _ _ := rfl

end Inodes

end ProgramExplorer.ErofsPasses
