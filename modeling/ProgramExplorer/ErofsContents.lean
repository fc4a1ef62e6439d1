import ProgramExplorer.ErofsCursor
import ProgramExplorer.ErofsTreeRelation

/-!
# What the builder has been given

The calls on a builder, run on a tree that keeps attributes and contents in
place of allocations. After calls that all succeed the builder's tree has the
same names, and the blocks and tails of each file hold the bytes of that
tree.
-/

set_option autoImplicit false

namespace ProgramExplorer.ErofsContents
open ByteStrings OrderedMap UnixPath ByteStore StateRules FileTree ErofsTree
open ErofsTreeRelation ErofsDisk ErofsBuilder ErofsCursor

structure Attrs where
  fileType : FileType
  uid : UInt32
  gid : UInt32
  mode : Mode
  deriving DecidableEq

def attrsOf (fileType : FileType) (metadata : Meta) : Attrs :=
  ⟨fileType, metadata.uid, metadata.gid, metadata.mode⟩

/-- What can stand under a name besides a directory; the last two are the
entries that lead to the directory itself and to its parent. -/
inductive Seen where
  | entry (attrs : Attrs) (data : Bytes)
  | self
  | parent
  deriving DecidableEq

inductive Kind where
  | entry (attrs : Attrs)
  | self
  | parent
  deriving DecidableEq

def Seen.kind : Seen → Kind
  | .entry attrs _ => .entry attrs
  | .self => .self
  | .parent => .parent

def leafKind : Leaf → Kind
  | .file f => .entry (attrsOf .regularFile f.metadata)
  | .symlink s => .entry (attrsOf .symlink s.metadata)
  | .dot => .self
  | .dotDot => .parent

def dirAttrs (info : DirInfo) : Attrs := attrsOf .directory info.metadata

def emptyDir : Dir Seen Attrs where
  info := attrsOf .directory Meta.default
  children := [([dot], .leaf .self), ([dot, dot], .leaf .parent)]

def hooked (inc : Option UInt32) (metadata : Meta) : Except Error Meta :=
  match inc with
  | some inc => addIds metadata inc
  | none => .ok metadata

def addCall (inc : Option UInt32) : Call → EStateM Error (Dir Seen Attrs) Unit
  | .addFile path metadata len contents => do
    let metadata ← check (hooked inc metadata)
    addLeaf emptyDir path (.entry (attrsOf .regularFile metadata) (contents.data.take len))
  | .addSymlink path link metadata => do
    let metadata ← check (hooked inc metadata)
    addLeaf emptyDir path (.entry (attrsOf .symlink metadata) link)
  | .upsertDir path metadata => do
    let metadata ← check (hooked inc metadata)
    ErofsTree.upsertDir emptyDir path fun _ => attrsOf .directory metadata
  | .addLink _ _ _ => pure ()

def added (inc : Option UInt32) (d : Dir Seen Attrs) : List Call → Dir Seen Attrs
  | [] => d
  | c :: cs => added inc (stateAfter (addCall inc c d)) cs

structure Item where
  fileType : FileType
  metadata : Meta
  startBlock : UInt32
  nLinks : UInt32
  len : ℕ
  tail : Option Bytes
  diskId : Option UInt32

def item : Leaf → Option Item
  | .file f => some ⟨.regularFile, f.metadata, f.startBlock, f.nLinks, f.len, f.tail, f.diskId⟩
  | .symlink s => some ⟨.symlink, s.metadata, s.startBlock, s.nLinks, s.len, s.tail, s.diskId⟩
  | .dot | .dotDot => none

structure GoodName (name : Bytes) : Prop where
  noNul : (0 : UInt8) ∉ name
  fits : 12 + name.length ≤ blockSize
  notDot : name ≠ [dot]
  notDotDot : name ≠ [dot, dot]

inductive LeafRel (S : Item → Bytes → Prop) : Bytes → Leaf → Seen → Prop
  | item {name : Bytes} {x : Leaf} {i : Item} {bytes : Bytes} (hi : item x = some i)
      (hn : GoodName name) (hx : i.metadata.xattrs.entries = []) (hs : S i bytes) :
      LeafRel S name x (.entry (attrsOf i.fileType i.metadata) bytes)
  | dot : LeafRel S [dot] .dot .self
  | dotDot : LeafRel S [dot, dot] .dotDot .parent

/-- The names in a directory: at least `.` and `..`, all fit for a dirent block. -/
structure NamesOk (names : List Bytes) : Prop where
  nonempty : names ≠ []
  noNul : ∀ name ∈ names, (0 : UInt8) ∉ name
  fits : ∀ name ∈ names, 12 + name.length ≤ blockSize

structure DirRel (S : List Bytes → DirInfo → Prop) (name : Bytes) (names : List Bytes)
    (info : DirInfo) (attrs : Attrs) : Prop where
  good : GoodName name
  names_ok : NamesOk names
  attrs_eq : attrs = dirAttrs info
  plain : info.metadata.xattrs.entries = []
  state : S names info

/-- Blocks and tail of an item hold these bytes; the blocks lie below `cur`. -/
structure Extent (data : Bytes) (cur : ℕ) (i : Item) (bytes : Bytes) : Prop where
  len : i.len = bytes.length
  tail : i.tail = linkTail (sizeTailLen i.len).2.1 (sizeTailLen i.len).2.2 bytes
  null : (sizeTailLen i.len).2.1 = 0 → i.startBlock = erofsNullAddr
  range : 0 < (sizeTailLen i.len).2.1 →
    1 ≤ i.startBlock.toNat ∧ i.startBlock.toNat + (sizeTailLen i.len).1 ≤ cur
  blocks : 0 < (sizeTailLen i.len).2.1 →
    HasAt data (i.startBlock.toNat * blockSize) (bytes.take (sizeTailLen i.len).2.1)

theorem blockLen_le (len : ℕ) : (sizeTailLen len).2.1 ≤ (sizeTailLen len).1 * blockSize := by
  have := sizeTailLen_padded len
  omega

theorem Extent.mono {data data' : Bytes} {cur cur' : ℕ} {i : Item} {bytes : Bytes}
    (h : Extent data cur i bytes) (hle : cur ≤ cur')
    (hk : ∀ off bs, blockSize ≤ off → off + bs.length ≤ cur * blockSize → HasAt data off bs →
      HasAt data' off bs) :
    Extent data' cur' i bytes := by
  refine ⟨h.len, h.tail, h.null, ?_, ?_⟩
  · intro hb
    obtain ⟨h1, h2⟩ := h.range hb
    exact ⟨h1, h2.trans hle⟩
  · intro hb
    obtain ⟨h1, h2⟩ := h.range hb
    have hlen := blockLen_le i.len
    refine hk _ _ ?_ ?_ (h.blocks hb)
    · exact Nat.le_mul_of_pos_left blockSize h1
    · rw [List.length_take]
      have := Nat.mul_le_mul_right blockSize h2
      rw [Nat.add_mul] at this
      omega

def Loaded (data : Bytes) (cur : ℕ) (i : Item) (bytes : Bytes) : Prop :=
  i.diskId = none ∧ Extent data cur i bytes

def FreshDir (info : DirInfo) : Prop := info.diskId = none ∧ info.nDirentsPerBlock = []

abbrev RootRel (data : Bytes) (cur : ℕ) (d : Dir Leaf DirInfo) (e : Dir Seen Attrs) : Prop :=
  RelDir (LeafRel (Loaded data cur)) (DirRel fun _ => FreshDir) [] d e

theorem leafRel_mono {S S' : Item → Bytes → Prop} (h : ∀ i bytes, S i bytes → S' i bytes)
    {name : Bytes} {x : Leaf} {y : Seen} (hr : LeafRel S name x y) : LeafRel S' name x y := by
  cases hr with
  | item hi hn hx hs => exact .item hi hn hx (h _ _ hs)
  | dot => exact .dot
  | dotDot => exact .dotDot

theorem rootRel_mono {data data' : Bytes} {cur cur' : ℕ} {d : Dir Leaf DirInfo} {e : Dir Seen Attrs}
    (h : RootRel data cur d e) (hle : cur ≤ cur')
    (hk : ∀ off bs, blockSize ≤ off → off + bs.length ≤ cur * blockSize → HasAt data off bs →
      HasAt data' off bs) :
    RootRel data' cur' d e :=
  Rel.mono (fun _ _ _ => leafRel_mono fun _ _ hs => ⟨hs.1, hs.2.mono hle hk⟩) (fun _ _ _ _ hd => hd) h

theorem dirRel_grows : Grows GoodName (DirRel fun _ => FreshDir) := by
  intro n ns ns' d d' h hne hns
  refine ⟨h.good, ⟨hne, ?_, ?_⟩, h.attrs_eq, h.plain, h.state⟩
  · intro m hm
    exact (hns m hm).elim (h.names_ok.noNul m) (·.noNul)
  · intro m hm
    exact (hns m hm).elim (h.names_ok.fits m) (·.fits)

theorem goodName_nil : GoodName [] := ⟨by simp, by simp [blockSize], by simp, by simp⟩

theorem default_rel {data : Bytes} {cur : ℕ} {name : Bytes} (hn : GoodName name) :
    RelDir (LeafRel (Loaded data cur)) (DirRel fun _ => FreshDir) name
      Dir.default emptyDir :=
  .dir ⟨hn, ⟨by simp [Dir.default], by decide, by decide⟩, rfl, rfl, rfl, rfl⟩
    (.cons (.leaf .dot) (.cons (.leaf .dotDot) .nil))

/-- The names of a path are free of NUL and short enough for a block. -/
def PlainPath (path : Bytes) : Prop :=
  ∀ name, .normal name ∈ components path → (0 : UInt8) ∉ name ∧ 12 + name.length ≤ blockSize

theorem PlainPath.good {path : Bytes} (h : PlainPath path) {name : Bytes}
    (hm : .normal name ∈ components path) : GoodName name :=
  ⟨(h name hm).1, (h name hm).2, (normal_name hm).1, (normal_name hm).2⟩

/-- A call with a plain path, no xattrs and a reader with enough bytes. -/
def PlainCall : Call → Prop
  | .addFile path metadata len contents =>
    PlainPath path ∧ metadata.xattrs.entries = [] ∧ len ≤ contents.data.length
  | .addSymlink path _ metadata => PlainPath path ∧ metadata.xattrs.entries = []
  | .upsertDir path metadata => PlainPath path ∧ metadata.xattrs.entries = []
  | .addLink _ _ _ => False

structure Adding (inc : Option UInt32) (b : Builder) (e : Dir Seen Attrs) : Prop where
  aligned : Aligned b
  started : 1 ≤ b.curDataBlock
  increment : b.incrementUidGid = inc
  noLinks : b.links = []
  depth : b.maxDepth = 32
  root : RootRel b.writer.data b.curDataBlock b.root e

theorem new_adding (config : BuilderConfig) :
    Adding config.incrementUidGid (Builder.new config) emptyDir :=
  ⟨new_aligned config, le_refl _, rfl, rfl, rfl, default_rel goodName_nil⟩

theorem hookMeta_ok {b b' : Builder} {metadata m : Meta} (h : hookMeta metadata b = .ok m b') :
    hooked b.incrementUidGid metadata = .ok m ∧ b' = b := by
  obtain ⟨b₁, b₂, hget, h⟩ := bind_eq_ok.mp h
  obtain ⟨rfl, rfl⟩ := get_eq_ok.mp hget
  exact check_eq_ok.mp h

theorem hooked_xattrs {inc : Option UInt32} {metadata m : Meta} (h : hooked inc metadata = .ok m) :
    m.xattrs = metadata.xattrs := by
  cases inc with
  | none =>
    cases h
    rfl
  | some inc =>
    obtain ⟨uid, -, h⟩ := except_bind_eq_ok.mp h
    obtain ⟨gid, -, h⟩ := except_bind_eq_ok.mp h
    cases h
    rfl

theorem onRoot_ok {α : Type} {act : EStateM Error (Dir Leaf DirInfo) α} {a : α} {b b' : Builder}
    (h : onRoot act b = .ok a b') : ∃ root, act b.root = .ok a root ∧ b' = { b with root := root } := by
  unfold onRoot at h
  cases hr : act b.root with
  | ok a' root =>
    rw [hr] at h
    cases h
    exact ⟨root, rfl, rfl⟩
  | error e root =>
    rw [hr] at h
    cases h

theorem stored_keeps {b : Builder} (ha : Aligned b) (n : ℕ) (x : Bytes) (off : ℕ) (bs : Bytes)
    (hle : off + bs.length ≤ b.curDataBlock * blockSize) (h : HasAt b.writer.data off bs) :
    HasAt (stored n x b).writer.data off bs := by
  refine h.overwrite (Or.inl ?_)
  rw [Aligned] at ha
  omega

theorem stored_has {b : Builder} (ha : Aligned b) (n : ℕ) (x : Bytes) :
    HasAt (stored n x b).writer.data (b.curDataBlock * blockSize) x := by
  rw [← ha]
  exact ((hasAt_append _ _ _ _).mp (b.writer.hasAt_writeAll _)).1

def NextBlock (b : Builder) (len : ℕ) (start : UInt32) : Prop :=
  (if (sizeTailLen len).2.1 > 0 then toU32 b.curDataBlock .blockNoTooBig else .ok erofsNullAddr) = .ok start

abbrev withBlocks (len : ℕ) (bytes : Bytes) (b : Builder) : Builder :=
  stored (sizeTailLen len).1 (bytes.take (sizeTailLen len).2.1) b

theorem aligned_withBlocks {b : Builder} (ha : Aligned b) {len : ℕ} {bytes : Bytes}
    (hlen : len = bytes.length) : Aligned (withBlocks len bytes b) := by
  have hlist : (bytes.take (sizeTailLen len).2.1).length = (sizeTailLen len).2.1 := by
    have := sizeTailLen_sum len
    rw [List.length_take]
    omega
  exact aligned_stored ha (by rw [hlist, sizeTailLen_padded])

theorem extent_stored {b : Builder} (ha : Aligned b) (hstarted : 1 ≤ b.curDataBlock) {i : Item}
    {bytes : Bytes} (hlen : i.len = bytes.length)
    (htail : i.tail = linkTail (sizeTailLen i.len).2.1 (sizeTailLen i.len).2.2 bytes)
    (hstart : NextBlock b i.len i.startBlock) :
    Extent (withBlocks i.len bytes b).writer.data (withBlocks i.len bytes b).curDataBlock i bytes := by
  unfold NextBlock at hstart
  refine ⟨hlen, htail, ?_, ?_, ?_⟩
  · intro h0
    rw [if_neg (by omega)] at hstart
    exact (Except.ok.inj hstart).symm
  all_goals
    intro hb
    rw [if_pos hb] at hstart
    have hnum : i.startBlock.toNat = b.curDataBlock := by
      unfold toU32 at hstart
      split_ifs at hstart with hlt
      rw [← Except.ok.inj hstart, UInt32.toNat_ofNat']
      omega
    rw [hnum]
  · exact ⟨hstarted, le_refl _⟩
  · exact stored_has ha _ _

/-- An item is stored at the next free block and put into the tree. -/
theorem adding_insert {inc : Option UInt32} {b : Builder} {e : Dir Seen Attrs} (h : Adding inc b e)
    {path : Bytes} (hp : PlainPath path) {x : Leaf} {i : Item} (bytes : Bytes)
    (hi : item x = some i) (hx : i.metadata.xattrs.entries = []) (hid : i.diskId = none)
    (hlen : i.len = bytes.length)
    (htail : i.tail = linkTail (sizeTailLen i.len).2.1 (sizeTailLen i.len).2.2 bytes)
    (hstart : NextBlock b i.len i.startBlock) {root : Dir Leaf DirInfo}
    (hr : addLeaf Dir.default path x b.root = .ok () root) :
    Adding inc { withBlocks i.len bytes b with root := root }
      (stateAfter (addLeaf emptyDir path (.entry (attrsOf i.fileType i.metadata) bytes) e)) := by
  set b' := withBlocks i.len bytes b
  have hcur : b'.curDataBlock = b.curDataBlock + (sizeTailLen i.len).1 := rfl
  have hext : Extent b'.writer.data b'.curDataBlock i bytes :=
    extent_stored h.aligned h.started hlen htail hstart
  have hroot : RootRel b'.writer.data b'.curDataBlock b.root e :=
    rootRel_mono h.root (by omega) fun off bs _ hle ha => stored_keeps h.aligned _ _ off bs hle ha
  refine ⟨aligned_withBlocks h.aligned hlen, ?_, h.increment, h.noLinks, h.depth, ?_⟩
  · exact h.started.trans (by simp only [hcur]; omega)
  · have hact : RelAct (LeafRel (Loaded b'.writer.data b'.curDataBlock)) (DirRel fun _ => FreshDir)
        (fun _ _ => True) (addLeaf Dir.default path x)
        (addLeaf emptyDir path (.entry (attrsOf i.fileType i.metadata) bytes)) :=
      relAct_addLeaf dirRel_grows (fun name hn => default_rel hn) (fun name hm => hp.good hm)
        (fun name hn => .item hi hn hx ⟨hid, hext⟩)
    have hrel := hact [] b.root e hroot
    rw [hr] at hrel
    exact hrel.stateAfter

theorem readTail_eq {len : ℕ} {contents : Reader} (hlen : len ≤ contents.data.length) :
    readTail (sizeTailLen len).2.2
        { contents with data := contents.data.drop (sizeTailLen len).2.1 } =
      .ok (linkTail (sizeTailLen len).2.1 (sizeTailLen len).2.2 (contents.data.take len)) := by
  have hsum := sizeTailLen_sum len
  unfold readTail linkTail readExact
  split_ifs with h0 h1
  · simp only [List.length_drop] at h1
    omega
  · rw [List.drop_take, show len - (sizeTailLen len).2.1 = (sizeTailLen len).2.2 by omega]
    rfl
  · rfl

/-- A file whose reader has all its bytes is stored at the next free block. -/
theorem addFile_ok {b b' : Builder} {path : Bytes} {metadata : Meta} {len : ℕ} {contents : Reader}
    (hlen : len ≤ contents.data.length) (h : addFile path metadata len contents b = .ok () b') :
    ∃ start m root, NextBlock b len start ∧ hooked b.incrementUidGid metadata = .ok m ∧
      addLeaf Dir.default path (.file ⟨m, start, 1, len,
        linkTail (sizeTailLen len).2.1 (sizeTailLen len).2.2 (contents.data.take len), none⟩) b.root =
          .ok () root ∧
      b' = { withBlocks len (contents.data.take len) b with root := root } := by
  have hsum := sizeTailLen_sum len
  obtain ⟨b₁, b₂, hget, h1⟩ := bind_eq_ok.mp h
  obtain ⟨rfl, rfl⟩ := get_eq_ok.mp hget
  obtain ⟨_, b₃, hreq, h2⟩ := bind_eq_ok.mp h1
  obtain ⟨-, rfl⟩ := require_eq_ok.mp hreq
  obtain ⟨start, b₄, hs, h3⟩ := bind_eq_ok.mp h2
  obtain ⟨b₅, b₆, hget, hs⟩ := bind_eq_ok.mp hs
  obtain ⟨rfl, rfl⟩ := get_eq_ok.mp hget
  obtain ⟨hstart, rfl⟩ := check_eq_ok.mp hs
  rw [bind_eq_ok, copyBlocks_eq _ _ _ _ (fun h => sizeTailLen_zero h) (by omega)] at h3
  obtain ⟨r, b₇, hcopy, h4⟩ := h3
  cases hcopy
  obtain ⟨tail, b₈, ht, h5⟩ := bind_eq_ok.mp h4
  rw [readTail_eq hlen] at ht
  obtain ⟨ht, rfl⟩ := check_eq_ok.mp ht
  cases ht
  obtain ⟨m, b₉, hm, h6⟩ := bind_eq_ok.mp h5
  obtain ⟨hhook, rfl⟩ := hookMeta_ok hm
  obtain ⟨root, hr, rfl⟩ := onRoot_ok h6
  have htake : contents.data.take (sizeTailLen len).2.1 =
      (contents.data.take len).take (sizeTailLen len).2.1 := by
    rw [List.take_take, Nat.min_eq_left (by omega)]
  exact ⟨start, m, root, hstart, hhook, hr, by rw [htake]⟩

theorem addFile_adding {inc : Option UInt32} {b b' : Builder} {e : Dir Seen Attrs}
    (h : Adding inc b e) {path : Bytes} {metadata : Meta} {len : ℕ} {contents : Reader}
    (hp : PlainCall (.addFile path metadata len contents))
    (hok : addFile path metadata len contents b = .ok () b') :
    Adding inc b' (stateAfter (addCall inc (.addFile path metadata len contents) e)) := by
  obtain ⟨hpath, hx, hlen⟩ := hp
  obtain ⟨start, m, root, hstart, hhook, hr, rfl⟩ := addFile_ok hlen hok
  have hm' : hooked inc metadata = .ok m := h.increment ▸ hhook
  have hxm : m.xattrs.entries = [] := by rw [hooked_xattrs hm', hx]
  have hins := adding_insert h hpath (contents.data.take len) rfl hxm rfl
    (by simp [hlen]) rfl hstart hr
  simp only [addCall, bind, EStateM.bind, check, hm']
  exact hins

theorem addSymlink_ok {b b' : Builder} {path link : Bytes} {metadata : Meta}
    (h : addSymlink path link metadata b = .ok () b') :
    ∃ start m root, NextBlock b link.length start ∧ hooked b.incrementUidGid metadata = .ok m ∧
      addLeaf Dir.default path (.symlink ⟨m, start, 1, link.length,
        linkTail (sizeTailLen link.length).2.1 (sizeTailLen link.length).2.2 link, none⟩) b.root =
          .ok () root ∧
      b' = { withBlocks link.length link b with root := root } := by
  have hsum := sizeTailLen_sum link.length
  obtain ⟨start, b₁, hs, h1⟩ := bind_eq_ok.mp h
  obtain ⟨b₂, b₃, hget, hs⟩ := bind_eq_ok.mp hs
  obtain ⟨rfl, rfl⟩ := get_eq_ok.mp hget
  obtain ⟨hstart, rfl⟩ := check_eq_ok.mp hs
  rw [bind_eq_ok, writeBlocks_eq _ _ _ _ (fun h => sizeTailLen_zero h) (by omega)] at h1
  obtain ⟨r, b₄, hcopy, h2⟩ := h1
  cases hcopy
  obtain ⟨m, b₅, hm, h3⟩ := bind_eq_ok.mp h2
  obtain ⟨hhook, rfl⟩ := hookMeta_ok hm
  obtain ⟨root, hr, rfl⟩ := onRoot_ok h3
  exact ⟨start, m, root, hstart, hhook, hr, rfl⟩

theorem addSymlink_adding {inc : Option UInt32} {b b' : Builder} {e : Dir Seen Attrs}
    (h : Adding inc b e) {path link : Bytes} {metadata : Meta}
    (hp : PlainCall (.addSymlink path link metadata))
    (hok : addSymlink path link metadata b = .ok () b') :
    Adding inc b' (stateAfter (addCall inc (.addSymlink path link metadata) e)) := by
  obtain ⟨hpath, hx⟩ := hp
  obtain ⟨start, m, root, hstart, hhook, hr, rfl⟩ := addSymlink_ok hok
  have hm' : hooked inc metadata = .ok m := h.increment ▸ hhook
  have hxm : m.xattrs.entries = [] := by rw [hooked_xattrs hm', hx]
  have hins := adding_insert h hpath link rfl hxm rfl rfl rfl hstart hr
  simp only [addCall, bind, EStateM.bind, check, hm']
  exact hins

theorem upsertDir_adding {inc : Option UInt32} {b b' : Builder} {e : Dir Seen Attrs}
    (h : Adding inc b e) {path : Bytes} {metadata : Meta} (hp : PlainCall (.upsertDir path metadata))
    (hok : ErofsBuilder.upsertDir path metadata b = .ok () b') :
    Adding inc b' (stateAfter (addCall inc (.upsertDir path metadata) e)) := by
  obtain ⟨hpath, hx⟩ := hp
  obtain ⟨m, b₁, hm, h1⟩ := bind_eq_ok.mp hok
  obtain ⟨hhook, rfl⟩ := hookMeta_ok hm
  obtain ⟨root, hr, rfl⟩ := onRoot_ok h1
  have hm' : hooked inc metadata = .ok m := h.increment ▸ hhook
  have hxm : m.xattrs.entries = [] := by rw [hooked_xattrs hm', hx]
  have hact : RelAct (LeafRel (Loaded b₁.writer.data b₁.curDataBlock)) (DirRel fun _ => FreshDir)
      (fun _ _ => True) (ErofsTree.upsertDir Dir.default path fun d => { d with metadata := m })
      (ErofsTree.upsertDir emptyDir path fun _ => attrsOf .directory m) :=
    relAct_upsertDir dirRel_grows (fun name hn => default_rel hn) (fun name hm => hpath.good hm)
      (fun _ _ _ _ hd => ⟨hd.good, hd.names_ok, rfl, hxm, hd.state⟩)
  have hrel := hact [] b₁.root e h.root
  rw [hr] at hrel
  refine ⟨h.aligned, h.started, h.increment, h.noLinks, h.depth, ?_⟩
  simp only [addCall, bind, EStateM.bind, check, hm']
  exact hrel.stateAfter

theorem call_adding {inc : Option UInt32} {b : Builder} {e : Dir Seen Attrs} (h : Adding inc b e)
    {c : Call} (hp : PlainCall c) (hok : result (c.run b) = .ok ()) :
    Adding inc (stateAfter (c.run b)) (stateAfter (addCall inc c e)) := by
  cases hr : c.run b with
  | error er b' =>
    rw [hr] at hok
    cases hok
  | ok u b' =>
    cases c with
    | addFile path metadata len contents => exact addFile_adding h hp hr
    | addSymlink path link metadata => exact addSymlink_adding h hp hr
    | upsertDir path metadata => exact upsertDir_adding h hp hr
    | addLink path target metadata => exact hp.elim

def AllOk (b : Builder) : List Call → Prop
  | [] => True
  | c :: cs => result (c.run b) = .ok () ∧ AllOk (stateAfter (c.run b)) cs

theorem run_adding {inc : Option UInt32} {b : Builder} {e : Dir Seen Attrs} (h : Adding inc b e)
    {cs : List Call} (hp : ∀ c ∈ cs, PlainCall c) (hok : AllOk b cs) :
    Adding inc (after b cs) (added inc e cs) := by
  induction cs generalizing b e with
  | nil => exact h
  | cons c cs ih =>
    exact ih (call_adding h (hp c (by simp)) hok.1) (fun c' hc => hp c' (by simp [hc])) hok.2

end ProgramExplorer.ErofsContents
