import ProgramExplorer.ErofsDirentPass

/-!
# The finished image

The passes of `finalize` one after the other. The image they leave has a
superblock that the reader accepts, and for every entry of the tree of
contents its inode, its bytes and its place in a directory.
-/

set_option autoImplicit false

namespace ProgramExplorer.ErofsFinalize
open ByteStrings ByteStore StateRules FileTree ErofsTree ErofsTreeRelation ErofsDisk
open ErofsBuilder
open ErofsReader (Erofs)
open ErofsPlacement ErofsReadback ErofsContents ErofsDirents ErofsWalk ErofsPasses
open ErofsDirentPass

def Placement (metaBlock : ℕ) (data : Bytes) (limit : ℕ) (names : List Bytes) (info : DirInfo) : Prop :=
  Packed names info.nDirentsPerBlock info.totalSize ∧ FiledDir metaBlock data limit info

/-- The bytes of an image of this tree: contents below block `cur`, directory
blocks from `cur` to `metaBlock`, inodes from `metaBlock` on. -/
structure Holds (data : Bytes) (cur metaBlock limit : ℕ) (root : Dir Leaf DirInfo)
    (e : Dir Seen Attrs) : Prop where
  started : 1 ≤ cur
  rel : Rel (LeafRel (Complete metaBlock cur data limit)) (DirRel (Placement metaBlock data limit)) []
    root.toTree e.toTree
  laid : Laid cur root.toTree metaBlock
  linked : Linked data none root.toTree
  levels : root.toTree.levels ≤ 32

theorem Holds.mono {data data' : Bytes} {cur metaBlock limit : ℕ} {root : Dir Leaf DirInfo}
    {e : Dir Seen Attrs} (h : Holds data cur metaBlock limit root e)
    (hk : ∀ off bs, blockSize ≤ off → HasAt data off bs → HasAt data' off bs) :
    Holds data' cur metaBlock limit root e := by
  have hblock : ∀ {i}, cur ≤ i → blockSize ≤ i * blockSize := by
    intro i hi
    exact Nat.le_mul_of_pos_left blockSize (by have := h.started; omega)
  have hfiled : ∀ off bs, metaBlock * blockSize ≤ off → off + bs.length ≤ limit → HasAt data off bs →
      HasAt data' off bs := fun off bs hlo _ => hk off bs ((hblock h.laid.le).trans hlo)
  refine ⟨h.started, h.rel.mono ?_ ?_, h.laid, ?_, h.levels⟩
  · intro n x y hl
    refine leafRel_mono (fun i bytes hs => ⟨hs.1.mono (le_refl _) ?_, ?_⟩) hl
    · exact fun off bs hlo _ hat => hk off bs hlo hat
    · exact hs.2.mono (le_refl _) hfiled
  · intro n ns d d' hd
    exact dirRel_mono (fun _ _ hs => ⟨hs.1, hs.2.mono (le_refl _) hfiled⟩) hd
  · exact linked_mono _ h.laid h.linked
      fun off bs hlo _ => hk off bs ((hblock (le_refl _)).trans hlo)

theorem onTree_ok {σ : Type} {root root' : Dir Leaf DirInfo} {walk : Dirent → EStateM Error σ Dirent}
    {s s' : σ} (h : onTree root walk s = .ok root' s') : walk root.toTree s = .ok root'.toTree s' := by
  obtain ⟨tree, s₁, hw, hc⟩ := bind_eq_ok.mp h
  obtain ⟨hd, rfl⟩ := check_eq_ok.mp hc
  cases tree with
  | leaf x => cases hd
  | dir info cs =>
    cases hd
    exact hw

theorem withParents_ok {α : Type} {act : EStateM Error (Builder × List UInt32) α} {a : α}
    {b b' : Builder} (h : withParents act b = .ok a b') :
    ∃ parents, act (b, []) = .ok a (b', parents) := by
  unfold withParents at h
  split at h
  · rename_i s hr
    cases h
    exact ⟨s.2, hr⟩
  · cases h

theorem resolveLinks_none {b b' : Builder} (hl : b.links = []) (h : resolveLinks b = .ok () b') :
    b' = b := by
  obtain ⟨b₁, b₂, hget, h1⟩ := bind_eq_ok.mp h
  obtain ⟨rfl, rfl⟩ := get_eq_ok.mp hget
  obtain ⟨_, b₃, hmod, h2⟩ := bind_eq_ok.mp h1
  obtain rfl := modify_eq_ok.mp hmod
  rw [hl] at h2
  obtain ⟨root, hr, rfl⟩ := onRoot_ok h2
  obtain ⟨-, rfl⟩ := pure_eq_ok.mp hr
  cases b₂
  cases hl
  rfl

/-- The first of the two inode passes fills in the id of a directory and nothing else. -/
theorem writeDirInodes_dirStep {d d' : DirInfo} (h : DirStep writeDirInodes d d') :
    ∃ inode id, makeInode .directory d.totalSize d.startBlock d.metadata none 1 = .ok inode ∧
      d' = { d with diskId := some id } := by
  obtain ⟨cs, s, s₁, d₁, s₂, s', henter, hexit⟩ := h
  obtain ⟨rfl, -⟩ := pure_eq_ok.mp hexit
  simp only [writeDirInodes] at henter
  obtain ⟨inode, id, hmake, -, rfl⟩ :=
    place_ok (g := fun diskId => { d with diskId := diskId }) henter
  exact ⟨inode, id, hmake, rfl⟩

theorem writeInodes_dir {d d' : DirInfo} (h : DirStep writeInodes d d') : d' = d := by
  obtain ⟨cs, s, s₁, d₁, s₂, s', henter, hexit⟩ := h
  obtain ⟨rfl, -⟩ := pure_eq_ok.mp henter
  exact (pure_eq_ok.mp hexit).1

theorem writeDirInodes_blocks {d d' : DirInfo} (h : DirStep writeDirInodes d d') :
    d'.startBlock = d.startBlock ∧ d'.nDirentsPerBlock = d.nDirentsPerBlock := by
  obtain ⟨inode, id, -, rfl⟩ := writeDirInodes_dirStep h
  exact ⟨rfl, rfl⟩

theorem writeInodes_blocks {d d' : DirInfo} (h : DirStep writeInodes d d') :
    d'.startBlock = d.startBlock ∧ d'.nDirentsPerBlock = d.nDirentsPerBlock := by
  rw [writeInodes_dir h]
  exact ⟨rfl, rfl⟩

theorem toTree_inj {d d' : Dir Leaf DirInfo} (h : d.toTree = d'.toTree) : d = d' := by
  cases d
  cases d'
  cases h
  rfl

def atMeta (b : Builder) : Builder :=
  { b with
    metaBlock := some b.curDataBlock
    inodeAddr := b.curDataBlock * blockSize
    writer := b.writer.seek (b.curDataBlock * blockSize) }

theorem writeTree_ok {b b' : Builder} (h : writeTree b = .ok () b') :
    ∃ (root₁ : Dir Leaf DirInfo) (b₁ : Builder) (root₂ : Dir Leaf DirInfo) (b₂ : Builder)
      (root₃ : Dir Leaf DirInfo) (b₃ : Builder) (root₄ : Dir Leaf DirInfo) (b₄ : Builder)
      (parents : List UInt32),
      walkTree prepareDirents b.maxDepth 0 b.root.toTree b = .ok root₁.toTree b₁ ∧
      walkTree writeDirInodes b.maxDepth 0 root₁.toTree (atMeta b₁) = .ok root₂.toTree b₂ ∧
      walkTree writeInodes b.maxDepth 0 root₂.toTree b₂ = .ok root₃.toTree b₃ ∧
      walkTree writeDirents b.maxDepth 0 root₃.toTree (b₃, []) = .ok root₄.toTree (b₄, parents) ∧
      b' = { b₄ with root := root₄ } := by
  rw [writeTree, bind_eq_ok] at h
  obtain ⟨b₀, b₀', hget, h1⟩ := h
  obtain ⟨rfl, rfl⟩ := get_eq_ok.mp hget
  obtain ⟨root₁, b₁, hw₁, h2⟩ := bind_eq_ok.mp h1
  obtain ⟨_, b₁', hmod, h3⟩ := bind_eq_ok.mp h2
  obtain rfl := modify_eq_ok.mp hmod
  obtain ⟨root₂, b₂, hw₂, h4⟩ := bind_eq_ok.mp h3
  obtain ⟨root₃, b₃, hw₃, h5⟩ := bind_eq_ok.mp h4
  obtain ⟨root₄, b₄, hw₄, h6⟩ := bind_eq_ok.mp h5
  obtain rfl := modify_eq_ok.mp h6
  obtain ⟨parents, hw₄⟩ := withParents_ok hw₄
  exact ⟨root₁, b₁, root₂, b₂, root₃, b₃, root₄, b₄, parents, onTree_ok hw₁, onTree_ok hw₂,
    onTree_ok hw₃, onTree_ok hw₄, rfl⟩

theorem writeTree_holds {inc : Option UInt32} {b b' : Builder} {e : Dir Seen Attrs}
    (ha : Adding inc b e) (h : writeTree b = .ok () b') :
    ∃ cur metaBlock limit, Holds b'.writer.data cur metaBlock limit b'.root e ∧
      b'.metaBlock = some metaBlock := by
  obtain ⟨root₁, b₁, root₂, b₂, root₃, b₃, root₄, b₄, parents, hw₁, hw₂, hw₃, hw₄, rfl⟩ :=
    writeTree_ok h
  -- reserving the directory blocks
  obtain ⟨-, -, hrel₁⟩ :=
    walkTree_rel (prepareDirents_spec b.curDataBlock) _ _ trivial ha.root hw₁
  have hlaid₁ := prepareDirents_lays hw₁
  have hcur := hlaid₁.le
  -- the inodes of the directories and then all others
  have hplaced : Placed b₁.curDataBlock (atMeta b₁) := by
    refine ⟨⟨rfl, ?_, le_refl _⟩, rfl⟩
    simp only [atMeta, inodeAlignment, blockSize]
    omega
  have hdata : (atMeta b₁).writer.data = b₁.writer.data := rfl
  rw [← hdata] at hrel₁
  obtain ⟨hplaced₂, happ₂, hrel₂⟩ :=
    walkTree_rel (writeDirInodes_spec hcur) _ _ hplaced hrel₁ hw₂
  have hlaid₂ := hlaid₁.of_rel (fun _ _ _ _ => writeDirInodes_blocks) (walkTree_nodes (n := []) _ hw₂)
  obtain ⟨hplaced₃, happ₃, hrel₃⟩ :=
    walkTree_rel (writeInodes_spec hcur) _ _ hplaced₂ hrel₂ hw₃
  have hlaid₃ := hlaid₂.of_rel (fun _ _ _ _ => writeInodes_blocks) (walkTree_nodes (n := []) _ hw₃)
  have hcur₃ : b₃.curDataBlock = b₁.curDataBlock := happ₃.cursor_eq.trans happ₂.cursor_eq
  -- filling the directory blocks
  obtain ⟨hroot, hpass, hlinked⟩ := writeDirents_tree (fun _ _ _ _ hd => hd.state.1) _ hlaid₃ hrel₃
    (le_refl b₁.curDataBlock) (Or.inl hcur₃) hw₄
  obtain rfl := toTree_inj hroot
  have hlevels := walkTree_levels _ hw₄ (Nat.zero_le _)
  refine ⟨b.curDataBlock, b₁.curDataBlock, b₃.inodeAddr,
    ⟨ha.started, hrel₃.mono ?_ ?_, hlaid₃, hlinked, ?_⟩, ?_⟩
  · intro n x y hl
    refine leafRel_mono (fun i bytes hs => ⟨hs.1.mono (le_refl _) ?_, hs.2.mono (le_refl _) ?_⟩) hl
    · exact fun off bs _ hle hat => hpass.window off bs (Or.inl hle) hat
    · exact fun off bs hlo _ hat => hpass.window off bs (Or.inr hlo) hat
  · intro n ns d d' hd
    refine dirRel_mono (fun _ _ hs => ⟨hs.1, hs.2.mono (le_refl _) ?_⟩) hd
    exact fun off bs hlo _ hat => hpass.window off bs (Or.inr hlo) hat
  · rw [ha.depth, Nat.zero_add] at hlevels
    exact hlevels
  · exact hpass.meta_eq.trans hplaced₃.isMeta

theorem writeSuperblock_ok {b b' : Builder} {metaBlock : ℕ} (hm : b.metaBlock = some metaBlock)
    (h : writeSuperblock b = .ok () b') :
    ∃ sb : Superblock, b'.writer = (b.writer.seek superOffset).writeAll sb.asBytes ∧
      sb.magic = superMagic ∧ sb.blkszbits = 12 ∧ sb.metaBlkaddr.toNat = metaBlock ∧
      b.root.info.diskId = some sb.rootDiskId.toUInt32 := by
  rw [writeSuperblock, bind_eq_ok] at h
  obtain ⟨b₁, b₂, hget, h1⟩ := h
  obtain ⟨rfl, rfl⟩ := get_eq_ok.mp hget
  obtain ⟨m, b₃, hmeta, h2⟩ := bind_eq_ok.mp h1
  obtain ⟨hmeta, rfl⟩ := check_eq_ok.mp hmeta
  obtain ⟨addr, b₄, haddr, h3⟩ := bind_eq_ok.mp h2
  obtain ⟨haddr', rfl⟩ := check_eq_ok.mp haddr
  obtain ⟨id, b₅, hid, h4⟩ := bind_eq_ok.mp h3
  obtain ⟨hid', rfl⟩ := check_eq_ok.mp hid
  obtain ⟨_, b₆, hreq, h5⟩ := bind_eq_ok.mp h4
  obtain ⟨hlt, rfl⟩ := require_eq_ok.mp hreq
  obtain rfl := set_eq_ok.mp h5
  rw [hm] at hmeta
  cases hmeta
  refine ⟨_, rfl, rfl, rfl, toU32_ok haddr', ?_⟩
  rw [okOr_eq_ok.mp hid']
  congr 1
  apply UInt32.toNat_inj.mp
  simp only [UInt16.toNat_toUInt32, UInt32.toNat_toUInt16]
  omega

/-- The reader accepts the superblock, and everything behind the first block
is as before. -/
theorem superblock_image {b b' : Builder} {metaBlock : ℕ} (hm : b.metaBlock = some metaBlock)
    (h : writeSuperblock b = .ok () b') :
    ∃ fs : Erofs, Erofs.new b'.writer.data = .ok fs ∧ Volume metaBlock fs ∧
      b.root.info.diskId = some fs.sb.rootDiskId.toUInt32 ∧
      ∀ off bs, blockSize ≤ off → HasAt b.writer.data off bs → HasAt fs.data off bs := by
  obtain ⟨sb, hw, hmagic, hbits, haddr, hroot⟩ := writeSuperblock_ok hm h
  have hsuper : HasAt b'.writer.data superOffset sb.asBytes := by
    rw [hw]
    exact (b.writer.seek superOffset).hasAt_writeAll _
  obtain ⟨rest, hfrom⟩ := hsuper.from? (List.ne_nil_of_length_pos (by
    rw [Superblock.asBytes_length]
    omega))
  refine ⟨⟨b'.writer.data, sb⟩, ?_, ⟨hbits, haddr⟩, hroot, fun off bs hoff hat => ?_⟩
  · simp only [Erofs.new, hfrom, reader_okOr_some, bind, Except.bind,
      Superblock.fromPrefix_asBytes, hmagic, ne_eq, not_true_eq_false, if_false]
    rfl
  · have hkeep : HasAt (overwrite b.writer.data superOffset sb.asBytes) off bs := by
      refine hat.overwrite (Or.inr ?_)
      rw [Superblock.asBytes_length]
      simp only [superOffset, blockSize] at *
      omega
    change HasAt b'.writer.data off bs
    rw [hw]
    exact hkeep

theorem finalize_image {inc : Option UInt32} {b b' : Builder} {e : Dir Seen Attrs}
    (ha : Adding inc b e) (h : finalize b = .ok () b') :
    ∃ (fs : Erofs) (cur metaBlock limit : ℕ) (root : Dir Leaf DirInfo),
      Erofs.new b'.writer.data = .ok fs ∧ Volume metaBlock fs ∧
      Holds fs.data cur metaBlock limit root e ∧
      root.info.diskId = some fs.sb.rootDiskId.toUInt32 := by
  rw [finalize, bind_eq_ok] at h
  obtain ⟨_, b₁, hlinks, h1⟩ := h
  obtain rfl := resolveLinks_none ha.noLinks hlinks
  obtain ⟨_, b₂, htree, h2⟩ := bind_eq_ok.mp h1
  obtain ⟨cur, metaBlock, limit, hholds, hmeta⟩ := writeTree_holds ha htree
  obtain ⟨fs, hnew, hv, hroot, hkeep⟩ := superblock_image hmeta h2
  exact ⟨fs, cur, metaBlock, limit, b₂.root, hnew, hv, hholds.mono hkeep, hroot⟩

end ProgramExplorer.ErofsFinalize
