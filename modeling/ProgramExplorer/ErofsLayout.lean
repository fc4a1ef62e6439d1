import ProgramExplorer.ErofsPacking
import ProgramExplorer.ErofsXattrSync

/-!
# The image of any tree

Whatever calls have been made, with whatever results, the image that comes out
holds a record for every inode of the tree and the entries of every directory,
as long as every name fits a block and no record fills a block from its start.
Nothing is said here about the blocks of the files.
-/

set_option autoImplicit false

namespace ProgramExplorer.ErofsLayout
open ByteStrings ByteStore StateRules FileTree ErofsTree ErofsDisk ErofsBuilder ErofsCursor
open ErofsContents
open ErofsReader (Erofs roundUpTo)
open ErofsXattrs (size stream encoded_length)
open ErofsPlacement ErofsReadback ErofsDirents ErofsWalk ErofsPasses ErofsDirentPass
open ErofsFinalize ErofsLinks ErofsOwners UnixPath ErofsTreeRelation ErofsPaths ErofsCalls
open ErofsPacking (HasEntries NotYetPacked Fits AllFit resolveLinks_hasEntries IsItem
  Unpacked bareDir linkable Shape)

section Stages

def xattrsLen (xattrs : XattrMap) : ℕ :=
  if xattrs.entries = [] then 0
  else 12 + roundUpTo 4 (xattrs.entries.map fun kv => 4 + size kv).sum

/-- The length of an inode with its xattrs and its tail. -/
def recordLen (xattrs : XattrMap) (tail : Option Bytes) : ℕ :=
  64 + xattrsLen xattrs + (tail.getD []).length

/-- No record fills a block from its start, the first one beginning at `addr`. -/
def Steady : ℕ → List ℕ → Prop
  | _, [] => True
  | addr, len :: lens => ¬ (len = blockSize ∧ addr % blockSize = 0) ∧ Steady (nextAddr addr len) lens

instance decidableSteady : ∀ addr lens, Decidable (Steady addr lens)
  | _, [] => .isTrue trivial
  | addr, len :: lens =>
    @instDecidableAnd _ _ inferInstance (decidableSteady (nextAddr addr len) lens)

def leafLen (x : Leaf) : List ℕ := (item x).toList.map fun i => recordLen i.metadata.xattrs i.tail

def dirLen (info : DirInfo) : List ℕ := [recordLen info.metadata.xattrs none]

/-- The records of a tree in the order they are written: all directories, and
then all files and symlinks. -/
def recordLens (d : Dir Leaf DirInfo) : List ℕ :=
  d.toTree.preorder (fun _ => []) dirLen ++ d.toTree.preorder leafLen fun _ => []

structure Fitting (d : Dir Leaf DirInfo) : Prop where
  names : d.toTree.EachDir (onNames AllFit)
  records : Steady 0 (recordLens d)

def ReadyLeaf (_ : Bytes) (x y : Leaf) : Prop := x = y

structure ReadyDir (_ : Bytes) (names : List Bytes) (d e : DirInfo) : Prop where
  same : d = e
  unpacked : e.nDirentsPerBlock = []
  nonempty : names ≠ []
  fits : Fits names

structure ReservedDir (_ : Bytes) (names : List Bytes) (d e : DirInfo) : Prop where
  metadata_eq : d.metadata = e.metadata
  packed : Packed names d.nDirentsPerBlock d.totalSize
  counts : d.nDirentsPerBlock = direntCounts names

structure PlacedDir (metaBlock : ℕ) (data : Bytes) (limit : ℕ) (_ : Bytes) (names : List Bytes)
    (d e : DirInfo) : Prop where
  metadata_eq : d.metadata = e.metadata
  packed : Packed names d.nDirentsPerBlock d.totalSize
  counts : d.nDirentsPerBlock = direntCounts names
  recorded : ∃ id inode, d.diskId = some id ∧
    makeInode .directory d.totalSize d.startBlock d.metadata none 1 = .ok inode ∧
    Recorded metaBlock data limit id inode none d.metadata.xattrs

inductive PlacedLeaf (metaBlock : ℕ) (data : Bytes) (limit : ℕ) (_ : Bytes) : Leaf → Leaf → Prop
  | item {x y : Leaf} {i : Item} {id : UInt32} {inode : InodeExtended} (hy : item y = some i)
      (hx : item x = some { i with diskId := some id })
      (hmake : makeInode i.fileType i.len i.startBlock i.metadata i.tail i.nLinks = .ok inode)
      (hr : Recorded metaBlock data limit id inode i.tail i.metadata.xattrs) :
      PlacedLeaf metaBlock data limit _ x y
  | special {x : Leaf} (hx : item x = none) : PlacedLeaf metaBlock data limit _ x x

theorem recordOf_length {inode : InodeExtended} {tail : Option Bytes} {xattrs : XattrMap} {record : Bytes}
    (h : recordOf (.extended inode) tail xattrs = .ok record) : record.length = recordLen xattrs tail := by
  obtain ⟨entries, he, hc, rfl⟩ := ErofsXattrSync.recordOf_ok h
  have hx : (xattrsBytes xattrs entries (xattrCount (entries.map (·.2))).2).length = xattrsLen xattrs := by
    by_cases hnil : xattrs.entries = []
    · rw [xattrsBytes, if_pos hnil, xattrsLen, if_pos hnil, List.length_nil]
    · obtain ⟨pad, hpad, hmod, hbytes⟩ := ErofsXattrSync.xattrsBytes_eq he hnil
      have hstream : (stream xattrs.entries pad).length =
          (xattrs.entries.map fun kv => 4 + size kv).sum + pad := by
        rw [stream, List.length_append, List.length_flatMap, List.length_replicate]
        simp only [encoded_length]
      rw [hbytes, List.length_append, XattrHeader.asBytes_length, xattrsLen, if_neg hnil]
      rw [hstream] at hmod ⊢
      have hpos : (xattrs.entries.map fun kv => 4 + size kv).sum ≠ 0 := by
        obtain ⟨kv, kvs, hcons⟩ := List.exists_cons_of_ne_nil hnil
        rw [hcons, List.map_cons, List.sum_cons]
        omega
      rw [roundUpTo, if_neg hpos]
      omega
  simp only [DiskInode.withXattrCount, DiskInode.asBytes, List.length_append, InodeExtended.asBytes_length,
    hx, recordLen]
  omega

theorem nextAddr_shift (blocks addr len : ℕ) :
    nextAddr (blocks * blockSize + addr) len = blocks * blockSize + nextAddr addr len := by
  have hdiv (n : ℕ) : (blocks * blockSize + n) / blockSize = blocks + n / blockSize := by
    rw [Nat.mul_comm, Nat.mul_add_div (show 0 < blockSize by decide)]
  have hend := hdiv (addr + len)
  rw [← Nat.add_assoc] at hend
  by_cases h : addr / blockSize = (addr + len) / blockSize
  · rw [nextAddr, nextAddr, if_neg (by rw [hdiv, hend, h]; simp), if_neg (by simpa using h), Nat.add_assoc]
  · rw [nextAddr, nextAddr, if_pos (by rw [hdiv, hend]; omega), if_pos h, hend, Nat.add_mul, Nat.add_assoc]

theorem steady_shift {blocks addr : ℕ} {lens : List ℕ} (h : Steady addr lens) :
    Steady (blocks * blockSize + addr) lens := by
  induction lens generalizing addr with
  | nil => trivial
  | cons len lens ih =>
    refine ⟨?_, ?_⟩
    · rw [Nat.mul_add_mod_self_right]
      exact h.1
    · rw [nextAddr_shift]
      exact ih h.2

variable {metaBlock : ℕ}

/-- The records are in place so far, and the rest will be. -/
def Going (metaBlock : ℕ) (lens : List ℕ) (b : Builder) : Prop :=
  Placed metaBlock b ∧ Steady b.inodeAddr lens

theorem writeInode_going {lens : List ℕ} {b b' : Builder} {tail : Option Bytes} {xattrs : XattrMap}
    (hg : Going metaBlock (recordLen xattrs tail :: lens) b) {inode : InodeExtended} {id : UInt32}
    (h : writeInode (.extended inode) tail xattrs b = .ok id b') :
    Going metaBlock lens b' ∧ Appends b b' ∧
      Recorded metaBlock b'.writer.data b'.inodeAddr id inode tail xattrs := by
  obtain ⟨hp, hfit, hrest⟩ := hg
  have hfits : ErofsPlacement.Fits b (.extended inode) tail xattrs := by
    intro record hr
    rw [recordOf_length hr]
    exact hfit
  obtain ⟨record, hr, haddr⟩ := writeInode_addr hp hfits h
  obtain ⟨hp', happ, hrec⟩ := writeInode_recorded hp hfits h
  rw [recordOf_length hr] at haddr
  exact ⟨⟨hp', haddr ▸ hrest⟩, happ, hrec⟩

theorem recorded_mono {data data' : Bytes} {limit limit' : ℕ} {id : UInt32} {inode : InodeExtended}
    {tail : Option Bytes} {xattrs : XattrMap} (h : Recorded metaBlock data limit id inode tail xattrs)
    (hle : limit ≤ limit')
    (hk : ∀ off bs, metaBlock * blockSize ≤ off → off + bs.length ≤ limit → HasAt data off bs →
      HasAt data' off bs) :
    Recorded metaBlock data' limit' id inode tail xattrs := by
  obtain ⟨record, hr, hat, hlim⟩ := h
  exact ⟨record, hr, hk _ _ (Nat.le_add_right _ _) hlim hat, hlim.trans hle⟩

theorem placedLeaf_mono {data data' : Bytes} {limit limit' : ℕ} (hle : limit ≤ limit')
    (hk : ∀ off bs, metaBlock * blockSize ≤ off → off + bs.length ≤ limit → HasAt data off bs →
      HasAt data' off bs) {name : Bytes} {x y : Leaf} (h : PlacedLeaf metaBlock data limit name x y) :
    PlacedLeaf metaBlock data' limit' name x y := by
  cases h with
  | item hy hx hmake hr => exact .item hy hx hmake (recorded_mono hr hle hk)
  | special hx => exact .special hx

theorem placedDir_mono {data data' : Bytes} {limit limit' : ℕ} (hle : limit ≤ limit')
    (hk : ∀ off bs, metaBlock * blockSize ≤ off → off + bs.length ≤ limit → HasAt data off bs →
      HasAt data' off bs) {name : Bytes} {names : List Bytes} {d e : DirInfo}
    (h : PlacedDir metaBlock data limit name names d e) :
    PlacedDir metaBlock data' limit' name names d e := by
  obtain ⟨id, inode, hid, hmake, hr⟩ := h.recorded
  exact ⟨h.metadata_eq, h.packed, h.counts, id, inode, hid, hmake, recorded_mono hr hle hk⟩

theorem prepareDirents_reserves :
    WalkSpec prepareDirents (fun _ => True) (fun _ _ => True) (fun _ => ReadyLeaf) (fun _ => ReadyLeaf)
      (fun _ => ReadyDir) (fun _ => ReservedDir) where
  refl _ := trivial
  trans _ _ := trivial
  leafMono _ _ _ _ _ h := h
  dirMono _ _ _ _ _ _ h := h
  leafMono' _ _ _ _ _ h := h
  dirMono' _ _ _ _ _ _ h := h
  leaf := by
    intro _ s s' n x x' y _ hl hw
    have hsame : walkLeaf prepareDirents x s = .ok x s := by cases x <;> rfl
    rw [hsame] at hw
    cases hw
    exact ⟨trivial, trivial, hl⟩
  enter := by
    intro _ s s' n cs d d' e _ hd hw
    obtain rfl := hd.same
    obtain ⟨hprep, -, -⟩ := prepareDirents_ok hw
    obtain ⟨-, hpack, hmeta, -, hcounts⟩ := prepareDirentData_ok hprep hd.unpacked hd.fits hd.nonempty
    exact ⟨trivial, trivial, hmeta, hpack, hcounts⟩
  exit _ _ := rfl

theorem writeDirInodes_places :
    WorkSpec (fun _ => []) dirLen writeDirInodes (Going metaBlock) Appends (fun _ => ReadyLeaf)
      (fun _ => ReadyLeaf) (fun _ => ReservedDir) (fun s => PlacedDir metaBlock s.writer.data s.inodeAddr) where
  refl s := ⟨Extends.refl s, rfl⟩
  trans := appends_trans
  leafMono _ _ _ _ _ h := h
  dirMono _ _ _ _ _ _ h := h
  leafMono' _ _ _ _ _ h := h
  dirMono' _ h _ _ _ _ hd := placedDir_mono h.ext.addr (fun off bs _ => h.ext.keeps off bs) hd
  leaf := by
    intro _ s s' n x x' y hp hl hw
    have hsame : walkLeaf writeDirInodes x s = .ok x s := by cases x <;> rfl
    rw [hsame] at hw
    cases hw
    exact ⟨hp, ⟨Extends.refl s, rfl⟩, hl⟩
  enter := by
    intro w s s' n cs d d' e hp hd hw
    simp only [writeDirInodes] at hw
    obtain ⟨inode, id, hmake, hwrite, rfl⟩ :=
      place_ok (g := fun diskId => { d with diskId := diskId }) hw
    rw [dirLen, ← hd.metadata_eq] at hp
    obtain ⟨hp', happ, hr⟩ := writeInode_going hp hwrite
    exact ⟨hp', happ, hd.metadata_eq, hd.packed, hd.counts, id, inode, rfl, hmake, hr⟩
  exit _ _ := rfl

theorem writeInodes_places :
    WorkSpec leafLen (fun _ => []) writeInodes (Going metaBlock) Appends (fun _ => ReadyLeaf)
      (fun s => PlacedLeaf metaBlock s.writer.data s.inodeAddr)
      (fun s => PlacedDir metaBlock s.writer.data s.inodeAddr)
      (fun s => PlacedDir metaBlock s.writer.data s.inodeAddr) where
  refl s := ⟨Extends.refl s, rfl⟩
  trans := appends_trans
  leafMono _ _ _ _ _ h := h
  dirMono _ h _ _ _ _ hd := placedDir_mono h.ext.addr (fun off bs _ => h.ext.keeps off bs) hd
  leafMono' _ h _ _ _ hl := placedLeaf_mono h.ext.addr (fun off bs _ => h.ext.keeps off bs) hl
  dirMono' _ h _ _ _ _ hd := placedDir_mono h.ext.addr (fun off bs _ => h.ext.keeps off bs) hd
  leaf := by
    rintro w s s' n x x' y hp rfl hw
    cases hi : item x with
    | some i =>
      obtain ⟨stats, inode, id, hmake, hwrite, hi'⟩ := writeInodes_leaf hi hw
      have hlen : leafLen x = [recordLen i.metadata.xattrs i.tail] := by rw [leafLen, hi]; rfl
      rw [hlen] at hp
      obtain ⟨hp', happ, hr⟩ := writeInode_going ⟨placed_stats hp.1 stats, hp.2⟩ hwrite
      have hstats : Appends s { s with stats := stats } := ⟨⟨le_refl _, fun _ _ _ h => h⟩, rfl⟩
      exact ⟨hp', appends_trans hstats happ, .item hi hi' hmake hr⟩
    | none =>
      have hsame : walkLeaf writeInodes x s = .ok x s := by
        cases x with
        | dot => rfl
        | dotDot => rfl
        | file f => cases hi
        | symlink f => cases hi
      rw [hsame] at hw
      cases hw
      rw [leafLen, hi] at hp
      exact ⟨hp, ⟨Extends.refl s, rfl⟩, .special hi⟩
  enter := by
    intro w s s' n cs d d' e hp hd hw
    obtain ⟨rfl, rfl⟩ := pure_eq_ok.mp hw
    exact ⟨hp, ⟨Extends.refl _, rfl⟩, hd⟩
  exit _ _ := rfl

end Stages

section Passes

structure Image (metaBlock limit : ℕ) (fs : Erofs) (root e : Dir Leaf DirInfo) : Prop where
  volume : Volume metaBlock fs
  rel : Rel (PlacedLeaf metaBlock fs.data limit) (PlacedDir metaBlock fs.data limit) []
    root.toTree e.toTree
  laid : ∃ cur, Laid cur root.toTree metaBlock
  linked : Linked fs.data none root.toTree
  rootId : root.info.diskId = some fs.sb.rootDiskId.toUInt32

theorem ready_rel {b : Builder} (hb : HasEntries b) (hfit : Fitting b.root) :
    Rel ReadyLeaf ReadyDir [] b.root.toTree b.root.toTree := by
  obtain ⟨e, he⟩ := hb
  have hfresh : b.root.toTree.EachDir (onNames NotYetPacked) := by
    refine Rel.eachDir_left ?_ he
    exact fun _ _ _ _ h => h
  have hdirs := hfresh.imp (R := onNames fun d ns => NotYetPacked d ns ∧ AllFit d ns)
    (fun _ _ h h' => ⟨h, h'⟩) hfit.names
  refine (Tree.rel_self [] (Tree.all_true _) hdirs).mono (fun _ _ _ h => h.1) ?_
  rintro n ns d _ ⟨rfl, -, hready, hfits⟩
  exact ⟨rfl, hready.1, hready.2, hfits⟩

theorem writeTree_image {b b' : Builder} (hb : HasEntries b) (hfit : Fitting b.root)
    (h : writeTree b = .ok () b') :
    ∃ metaBlock limit, b'.metaBlock = some metaBlock ∧
      Rel (PlacedLeaf metaBlock b'.writer.data limit) (PlacedDir metaBlock b'.writer.data limit) []
        b'.root.toTree b.root.toTree ∧
      Laid b.curDataBlock b'.root.toTree metaBlock ∧ Linked b'.writer.data none b'.root.toTree := by
  obtain ⟨root₁, b₁, root₂, b₂, root₃, b₃, root₄, b₄, parents, hw₁, hw₂, hw₃, hw₄, rfl⟩ :=
    writeTree_ok h
  -- reserving the directory blocks
  obtain ⟨-, -, hrel₁⟩ := walkTree_rel prepareDirents_reserves _ _ trivial (ready_rel hb hfit) hw₁
  have hlaid₁ := prepareDirents_lays hw₁
  -- the inodes of the directories and then all others
  have hgoing : Going b₁.curDataBlock (recordLens b.root) (atMeta b₁) := by
    have hsteady := @steady_shift b₁.curDataBlock 0 _ hfit.records
    rw [Nat.add_zero] at hsteady
    refine ⟨⟨⟨rfl, ?_, le_refl _⟩, rfl⟩, hsteady⟩
    simp only [atMeta, inodeAlignment, blockSize]
    omega
  obtain ⟨hgoing₂, happ₂, hrel₂⟩ := walkTree_work writeDirInodes_places _ _ hgoing hrel₁ hw₂
  have hlaid₂ := hlaid₁.of_rel (fun _ _ _ _ => writeDirInodes_blocks) (walkTree_nodes (n := []) _ hw₂)
  rw [← List.append_nil (b.root.toTree.preorder leafLen _)] at hgoing₂
  obtain ⟨hgoing₃, happ₃, hrel₃⟩ := walkTree_work writeInodes_places _ _ hgoing₂ hrel₂ hw₃
  have hlaid₃ := hlaid₂.of_rel (fun _ _ _ _ => writeInodes_blocks) (walkTree_nodes (n := []) _ hw₃)
  have hcur₃ : b₃.curDataBlock = b₁.curDataBlock := happ₃.cursor_eq.trans happ₂.cursor_eq
  -- filling the directory blocks
  obtain ⟨hroot, hpass, hlinked⟩ := writeDirents_tree (fun _ _ _ _ hd => hd.packed) _ hlaid₃ hrel₃
    (le_refl b₁.curDataBlock) (Or.inl hcur₃) hw₄
  obtain rfl := toTree_inj hroot
  have hkeep : ∀ off bs, b₁.curDataBlock * blockSize ≤ off → off + bs.length ≤ b₃.inodeAddr →
      HasAt b₃.writer.data off bs → HasAt b₄.writer.data off bs :=
    fun off bs hlo _ hat => hpass.window off bs (Or.inr hlo) hat
  refine ⟨b₁.curDataBlock, b₃.inodeAddr, hpass.meta_eq.trans hgoing₃.1.isMeta, ?_, hlaid₃, hlinked⟩
  exact hrel₃.mono (fun _ _ _ => placedLeaf_mono le_rfl hkeep)
    fun _ _ _ _ => placedDir_mono le_rfl hkeep

/-- What `into_inner` leaves is an image of the tree with its links resolved. -/
theorem finalize_layout {b b₁ b' : Builder} (hb : HasEntries b) (hcur : 1 ≤ b.curDataBlock)
    (hlinks : resolveLinks b = .ok () b₁) (hfit : Fitting b₁.root) (h : finalize b = .ok () b') :
    ∃ metaBlock limit fs, Erofs.new b'.writer.data = .ok fs ∧ Image metaBlock limit fs b'.root b₁.root := by
  rw [finalize, bind_eq_ok] at h
  obtain ⟨_, b₁', hlinks', h1⟩ := h
  rw [hlinks] at hlinks'
  cases hlinks'
  obtain ⟨_, b₂, htree, h2⟩ := bind_eq_ok.mp h1
  have hcur₁ : b₁.curDataBlock = b.curDataBlock := by
    obtain ⟨root, -, rfl⟩ := resolveLinks_ok hlinks
    rfl
  obtain ⟨metaBlock, limit, hmeta, hrel, hlaid, hlinked⟩ :=
    writeTree_image (resolveLinks_hasEntries hb hlinks) hfit htree
  obtain ⟨fs, hnew, hv, hroot, hkeep⟩ := superblock_image hmeta h2
  have hbehind : ∀ off, b.curDataBlock * blockSize ≤ off → blockSize ≤ off := fun off hoff =>
    (Nat.le_mul_of_pos_left blockSize hcur).trans hoff
  have hle := hlaid.le
  rw [hcur₁] at hle hlaid
  have hrecords : ∀ off bs, metaBlock * blockSize ≤ off → off + bs.length ≤ limit →
      HasAt b₂.writer.data off bs → HasAt fs.data off bs := fun off bs hoff _ =>
    hkeep off bs (hbehind off ((Nat.mul_le_mul_right _ hle).trans hoff))
  rw [writeSuperblock_root h2]
  refine ⟨metaBlock, limit, fs, hnew, hv, ?_, ⟨_, hlaid⟩, ?_, hroot⟩
  · exact hrel.mono (fun _ _ _ => placedLeaf_mono le_rfl hrecords)
      fun _ _ _ _ => placedDir_mono le_rfl hrecords
  · exact linked_mono _ hlaid hlinked fun off bs hoff _ => hkeep off bs (hbehind off hoff)

end Passes

section Calls

/-- The leaves that are neither files nor symlinks have the names `.` and `..`. -/
def DotLeaf (name : Bytes) (x : Leaf) (y : Bool) : Prop := IsItem name x y ∧ (y = false → IsDot name)

structure Kempt (b : Builder) : Prop where
  shape : ∃ e, RelDir DotLeaf Unpacked [] b.root e
  dot : entryOf [dot] b.root = some (.leaf .dot)
  slash : ∀ m, slash ∈ m → entryOf m b.root = none
  started : 1 ≤ b.curDataBlock

theorem Kempt.hasEntries {b : Builder} (h : Kempt b) : HasEntries b := by
  obtain ⟨e, he⟩ := h.shape
  exact ⟨e, he.mono (fun _ _ _ h => h.1) fun _ _ _ _ h => h⟩

theorem default_dotLeaf (name : Bytes) : RelDir DotLeaf Unpacked name Dir.default bareDir :=
  .dir ⟨rfl, by simp [Dir.default]⟩
    (.cons (.leaf ⟨rfl, fun _ => Or.inl rfl⟩) (.cons (.leaf ⟨rfl, fun _ => Or.inr rfl⟩) .nil))

theorem dotLeaf_linkable : Linkable DotLeaf (fun _ _ => True) linkable where
  file := by
    rintro name f y ⟨rfl, hdot⟩
    exact ⟨(), rfl, trivial, rfl, hdot⟩
  symlink := by
    rintro name s y ⟨rfl, hdot⟩
    exact ⟨(), rfl, trivial, rfl, hdot⟩
  dot := by
    rintro name y ⟨rfl, -⟩
    rfl
  dotDot := by
    rintro name y ⟨rfl, -⟩
    rfl

theorem dotLeaf_shape : Shape (fun name => ¬ IsDot name) DotLeaf Unpacked where
  grows _ _ _ _ _ h hne _ := ⟨h.1, hne⟩
  fresh name _ := default_dotLeaf name
  item _ _ _ h := ⟨h, fun hf => absurd hf (by simp)⟩
  linked := dotLeaf_linkable
  metadata _ _ _ _ _ h := h
  names _ _ hm h := h.elim (normal_name hm).1 (normal_name hm).2

section Entries

variable {m : Bytes}

theorem onRoot_entry {α : Type} {act : EStateM Error (Dir Leaf DirInfo) α} (h : Keeps (entryOf m) act) :
    Keeps (fun b : Builder => entryOf m b.root) (onRoot act) := by
  intro b
  have hroot := h b.root
  unfold onRoot
  cases hact : act b.root with
  | ok a root =>
    rw [hact] at hroot
    exact hroot
  | error e root =>
    rw [hact] at hroot
    exact hroot

theorem linkTarget_entry {name : Bytes} (h : name ≠ m) : Keeps (entryOf m) (linkTarget (some name)) := by
  intro d
  unfold linkTarget
  simp only
  split
  · rfl
  · exact entryOf_setChild h _ d
  · exact entryOf_setChild h _ d
  · rfl

variable (hm : ∀ path, .normal m ∉ components path)
include hm

theorem call_entry (c : Call) : Keeps (fun b : Builder => entryOf m b.root) c.run := by
  intro b
  have he := call_effect b c
  generalize c.run b = r at he
  cases he with
  | refused _ hs => exact congrArg (entryOf m) hs.root
  | @file path _ _ _ f b' hs _ =>
    exact (onRoot_entry (addLeaf_keeps _ (hm path) _) b').trans (congrArg (entryOf m) hs.root)
  | @symlink path _ _ s b' hs _ =>
    exact (onRoot_entry (addLeaf_keeps _ (hm path) _) b').trans (congrArg (entryOf m) hs.root)
  | @dir path => exact onRoot_entry (upsertDir_keeps _ (hm path) _) b
  | link => rfl

theorem resolveLink_entry (link : Link) : Keeps (entryOf m) (resolveLink link) := by
  refine keeps_bind (lookupImpl_keeps (fun _ act h => getDir_keeps h act) (fun _ => rfl) ?_
    (hm link.2.1)) fun _ => ?_
  · exact fun name h => linkTarget_entry h
  · exact addLeaf_keeps _ (hm link.1) _

end Entries

section Started

theorem started_of_keeps {α : Type} {x : EStateM Error Builder α} (h : Keeps Builder.curDataBlock x) :
    Triple (fun b => 1 ≤ b.curDataBlock) x (fun _ b => 1 ≤ b.curDataBlock)
      (fun _ b => 1 ≤ b.curDataBlock) := triple_of_keeps h (1 ≤ ·)

theorem advance_started (n : ℕ) :
    Triple (fun b => 1 ≤ b.curDataBlock) (advance n) (fun _ b => 1 ≤ b.curDataBlock)
      (fun _ b => 1 ≤ b.curDataBlock) :=
  fun _ hb => Nat.le_add_right_of_le hb

theorem copyBlocks_started (n len : ℕ) (contents : Reader) :
    Triple (fun b => 1 ≤ b.curDataBlock) (copyBlocks n len contents) (fun _ b => 1 ≤ b.curDataBlock)
      (fun _ b => 1 ≤ b.curDataBlock) := by
  unfold copyBlocks
  split_ifs
  · refine triple_bind (started_of_keeps ?_) fun r => triple_bind (advance_started n) fun _ => ?_
    · refine keeps_bind (fun _ => rfl) fun _ => ?_
      exact keeps_bind (keeps_require _ _) fun _ => keeps_pure _
    · exact started_of_keeps (keeps_bind (fun _ => rfl) fun _ => keeps_pure _)
  · exact started_of_keeps (keeps_pure _)

theorem writeBlocks_started (n len : ℕ) (data : Bytes) :
    Triple (fun b => 1 ≤ b.curDataBlock) (writeBlocks n len data) (fun _ b => 1 ≤ b.curDataBlock)
      (fun _ b => 1 ≤ b.curDataBlock) := by
  unfold writeBlocks
  split_ifs
  · refine triple_bind (started_of_keeps fun _ => rfl) fun _ => ?_
    exact triple_bind (started_of_keeps fun _ => rfl) fun _ => advance_started n
  · exact started_of_keeps (keeps_pure _)

theorem call_started (c : Call) :
    Triple (fun b => 1 ≤ b.curDataBlock) c.run (fun _ b => 1 ≤ b.curDataBlock)
      (fun _ b => 1 ≤ b.curDataBlock) := by
  have hroot {α : Type} (act : EStateM Error (Dir Leaf DirInfo) α) :=
    started_of_keeps (onRoot_keeps (fun _ _ => rfl) act)
  cases c with
  | addFile path metadata len contents =>
    refine triple_bind (started_of_keeps keeps_get) fun b => ?_
    refine triple_bind (started_of_keeps (keeps_require _ _)) fun _ => ?_
    refine triple_bind (started_of_keeps (startBlockFor_keeps _)) fun start => ?_
    refine triple_bind (copyBlocks_started _ _ _) fun r => ?_
    refine triple_bind (started_of_keeps (keeps_check _)) fun tail => ?_
    exact triple_bind (started_of_keeps (hookMeta_keeps _)) fun m => hroot _
  | addSymlink path link metadata =>
    refine triple_bind (started_of_keeps (startBlockFor_keeps _)) fun start => ?_
    refine triple_bind (writeBlocks_started _ _ _) fun _ => ?_
    exact triple_bind (started_of_keeps (hookMeta_keeps _)) fun m => hroot _
  | upsertDir path metadata =>
    exact triple_bind (started_of_keeps (hookMeta_keeps _)) fun m => hroot _
  | addLink path target metadata => exact started_of_keeps (keeps_modify fun _ => rfl)

end Started

theorem normal_ne_dot (path : Bytes) : .normal [dot] ∉ components path :=
  fun hm => (normal_name hm).1 rfl

theorem new_kempt (config : BuilderConfig) : Kempt (Builder.new config) where
  shape := ⟨bareDir, default_dotLeaf []⟩
  dot := rfl
  slash m hm := by
    have h₁ : ¬ [dot] = m := by
      rintro rfl
      simp [dot, slash] at hm
    have h₂ : ¬ [dot, dot] = m := by
      rintro rfl
      simp [dot, slash] at hm
    simp [entryOf, Builder.new, Dir.default, OrderedMap.lookup, h₁, h₂]
  started := le_rfl

theorem call_kempt {b : Builder} (h : Kempt b) (c : Call) : Kempt (stateAfter (c.run b)) := by
  obtain ⟨e, he⟩ := h.shape
  refine ⟨dotLeaf_shape.call he c, ?_, ?_, stateAfter_of_keeping (call_started c) h.started⟩
  · rw [← h.dot]
    exact call_entry normal_ne_dot c b
  · intro m hm
    rw [← h.slash m hm]
    exact call_entry (fun _ hn => normal_noSlash hn hm) c b

theorem after_kempt {b : Builder} (h : Kempt b) (calls : List Call) : Kempt (after b calls) := by
  induction calls generalizing b with
  | nil => exact h
  | cons c calls ih => exact ih (call_kempt h c)

theorem kempt_of_run {config : BuilderConfig} {calls : List Call} {c : Call} {b : Builder}
    (h : c.run (after (Builder.new config) calls) = .ok () b) : Kempt b := by
  have hk := call_kempt (after_kempt (new_kempt config) calls) c
  rwa [h] at hk

theorem resolveLinks_kempt {b b' : Builder} (h : Kempt b) (hr : resolveLinks b = .ok () b') :
    Kempt b' := by
  obtain ⟨e, he⟩ := h.shape
  have hshape := dotLeaf_shape.resolveLinks he hr
  obtain ⟨root, hloop, rfl⟩ := resolveLinks_ok hr
  have hkeep : ∀ m, (∀ path, .normal m ∉ components path) → entryOf m root = entryOf m b.root := by
    intro m hm
    have hk := keeps_forM (resolveLink_entry hm) b.links b.root
    rwa [hloop] at hk
  exact ⟨hshape, (hkeep _ normal_ne_dot).trans h.dot,
    fun m hm => (hkeep m fun _ hn => normal_noSlash hn hm).trans (h.slash m hm), h.started⟩

end Calls

end ProgramExplorer.ErofsLayout
