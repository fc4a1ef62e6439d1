import ProgramExplorer.ErofsIterators
import ProgramExplorer.ErofsLayout
import ProgramExplorer.ErofsResolution
import ProgramExplorer.ErofsRoundtrip
import Mathlib.Data.List.SplitLengths

/-!
# Looking up paths and reading symlinks

`lookup` of the reader compares every component of a path with the names that
are stored, while the builder skips the components that are not names. A dot
in front is an entry of the root like any other, but a slash in front is no
entry of any directory. `get_symlink` returns the bytes behind the inode, and
the builder puts only targets of at most half a block there.
-/

set_option autoImplicit false

namespace ProgramExplorer.ErofsLookup
open ByteStrings UnixPath ByteStore InputLoop StateRules FileTree
open ErofsTree (Leaf DirInfo Dir Dirent Symlink Meta erofsNullAddr addLeaf)
open ErofsDisk ErofsReader
open ErofsBuilder (Builder BuilderConfig Builder.new blockSize makeInode sizeTailLen
  linkTail childDiskId resolveLinks resolveLink finalize addSymlink)
open ErofsCursor ErofsPlacement ErofsReadback ErofsContents ErofsDirents ErofsWalk
open ErofsPasses ErofsDirentPass ErofsPaths ErofsCalls ErofsLinks ErofsAdds ErofsResolution
open ErofsRoundtrip ErofsIterators ErofsLayout

section Reader

def findStep (name : Bytes) (it : DirentsIterator) :
    Next DirentsIterator (Except Error (Option DirentItem)) :=
  if it.i < it.count then
    match it.nextImpl with
    | .ok (item, it) => if item.name = name then .done (.ok (some item)) else .again it
    | .error e => .done (.error e)
  else .done (.ok none)

def findDirent (name : Bytes) (it : DirentsIterator) : Except Error (Option DirentItem) :=
  (runFor (findStep name) (direntsLeft it + 1) it).getD (.error .panicked)

def lookupFrom (fs : Erofs) : Inode → List Bytes → Except Error (Option Inode)
  | cur, [] => .ok (some cur)
  | cur, component :: components => do
    let dirents ← fs.getDirents cur
    match ← findDirent component dirents with
    | some item => lookupFrom fs (← fs.getInodeFromDirent item) components
    | none => pure none

def Erofs.lookup (fs : Erofs) (p : Bytes) : Except Error (Option Inode) := do
  lookupFrom fs (← fs.getRootInode) (texts p)

def Erofs.getSymlink (fs : Erofs) (inode : Inode) : Except Error Bytes := do
  if inode.fileType ≠ .symlink then throw .notSymlink
  let (block, tail) ← fs.getData inode
  if block ≠ [] then throw .notExpectingBlockData
  pure tail

end Reader

section Search

variable {name : Bytes} {it it' : DirentsIterator}

theorem findStep_again (h : findStep name it = .again it') : direntStep it = .again it' := by
  unfold findStep at h
  unfold direntStep
  split_ifs at h ⊢ with hi
  cases hn : it.nextImpl with
  | error e =>
    rw [hn] at h
    cases h
  | ok p =>
    rw [hn] at h
    simp only at h ⊢
    split_ifs at h
    cases h
    rfl

theorem findStep_ends (hb : 0 < it.blockSize) :
    (runFor (findStep name) (direntsLeft it + 1) it).isSome :=
  runFor_isSome_of (fun it => 0 < it.blockSize)
    (fun _ _ hb h => direntsLeft_lt hb (findStep_again h)) hb (Nat.lt_succ_self _)

theorem runFor_findStep {fuel : ℕ} {items : List DirentItem} (h : it.items fuel = .ok items) :
    runFor (findStep name) fuel it = some (.ok (items.find? (·.name = name))) := by
  induction fuel generalizing it items with
  | zero => cases h
  | succ fuel ih =>
    rw [DirentsIterator.items] at h
    rw [runFor, findStep]
    split_ifs at h ⊢ with hi
    · obtain ⟨⟨item, it'⟩, hn, h⟩ := except_bind_eq_ok.mp h
      obtain ⟨rest, hrest, h⟩ := except_bind_eq_ok.mp h
      obtain rfl := except_pure_eq_ok.mp h
      rw [hn]
      by_cases hname : item.name = name
      · simp [hname]
      · simp [hname, ih hrest]
    · obtain rfl := except_pure_eq_ok.mp h
      rfl

theorem findDirent_of_items (hb : 0 < it.blockSize) {fuel : ℕ} {items : List DirentItem}
    (h : it.items fuel = .ok items) : findDirent name it = .ok (items.find? (·.name = name)) := by
  rw [findDirent, runFor_unique (runFor_findStep h) (findStep_ends hb)]
  rfl

end Search

section Names

/-- Whether this is the last name of a block of a directory with these names. -/
def EndsBlock (names : List Bytes) (name : Bytes) : Prop :=
  ∃ block ∈ (direntCounts names).splitLengths names, block.getLast? = some name

instance (names : List Bytes) (name : Bytes) : Decidable (EndsBlock names name) :=
  inferInstanceAs (Decidable (∃ block ∈ _, _))

/-- The reader sees the name as it is: it has no NUL, or it does not end a block. -/
def Legible (names : List Bytes) (name : Bytes) : Prop := (0 : UInt8) ∈ name → ¬ EndsBlock names name

instance (names : List Bytes) (name : Bytes) : Decidable (Legible names name) :=
  inferInstanceAs (Decidable (_ → _))

theorem splitLengths_flatten {α : Type} (blocks : List (List α)) :
    (blocks.map List.length).splitLengths blocks.flatten = blocks := by
  induction blocks with
  | nil => rfl
  | cons block blocks ih => simp [ih]

theorem endsBlock_iff {cs : List Child} {blocks : List (List Child)} (hcs : cs = blocks.flatten)
    (hcounts : direntCounts (cs.map (·.1)) = blocks.map List.length) (name : Bytes) :
    EndsBlock (cs.map (·.1)) name ↔ ∃ t, ((name, t), true) ∈ blocks.flatMap marked := by
  have hlens : blocks.map List.length = (blocks.map (List.map (·.1))).map List.length := by
    rw [List.map_map]
    exact List.map_congr_left fun block _ => by simp
  have hnames : cs.map (·.1) = (blocks.map (List.map (·.1))).flatten := by
    rw [hcs, List.map_flatten]
  rw [EndsBlock, hcounts, hlens, hnames, splitLengths_flatten]
  simp only [List.mem_map, exists_exists_and_eq_and, List.getLast?_map, Option.map_eq_some_iff,
    List.mem_flatMap, mem_marked_last]
  constructor
  · rintro ⟨block, hm, ⟨_, t⟩, hl, rfl⟩
    exact ⟨t, block, hm, hl⟩
  · rintro ⟨t, block, hm, hl⟩
    exact ⟨block, hm, (name, t), hl, rfl⟩

theorem cut_ne_of_lt {y x : Bytes} (h : y < x) : cut y ≠ x := by
  rintro rfl
  by_cases heq : cut y = y
  · rw [heq] at h
    exact lt_irrefl _ h
  · exact lt_asymm h (prefix_lt (List.takeWhile_prefix _) heq)

theorem zero_notMem_cut (y : Bytes) : (0 : UInt8) ∉ cut y := by
  intro h
  simpa using List.mem_takeWhile_imp h

variable {own parent : Option UInt32}

/-- In the order of the names the entry that is looked for comes first, unless
its name is cut. -/
theorem find_marked {entries : List (Child × Bool)} {name : Bytes} {t : Dirent} {last : Bool}
    (hs : entries.Pairwise fun a b => a.1.1 < b.1.1) (hm : ((name, t), last) ∈ entries) :
    (entries.map (itemAs own parent)).find? (·.name = name) =
      if last = true ∧ (0 : UInt8) ∈ name then none else some (itemOf own parent (name, t)) := by
  induction entries with
  | nil => cases hm
  | cons c entries ih =>
    obtain ⟨hlt, hs⟩ := List.pairwise_cons.mp hs
    rcases List.mem_cons.mp hm with rfl | hm
    · by_cases hcut : last = true ∧ (0 : UInt8) ∈ name
      · rw [if_pos hcut, List.find?_eq_none]
        intro item hitem
        obtain ⟨d, hd, rfl⟩ := List.mem_map.mp hitem
        rcases List.mem_cons.mp hd with rfl | hd
        · have hne : cut name ≠ name := fun h => cut_eq_self_iff.mp h hcut.2
          simpa [itemAs, hcut.1] using hne
        · by_cases hlast : d.2 = true
          · have hne : cut d.1.1 ≠ name := by
              rintro rfl
              exact zero_notMem_cut _ hcut.2
            simpa [itemAs, hlast] using hne
          · simpa [itemAs, hlast] using (hlt d hd).ne'
      · have hname : (if last then cut name else name) = name := by
          by_cases hlast : last = true
          · rw [if_pos hlast]
            exact cut_eq_self_iff.mpr fun h0 => hcut ⟨hlast, h0⟩
          · rw [if_neg hlast]
        rw [if_neg hcut, List.map_cons, List.find?_cons_of_pos (by simp [itemAs, hname])]
        simp [itemAs, itemOf, hname]
    · have hne : (itemAs own parent c).name ≠ name := by
        have hc := hlt _ hm
        by_cases hlast : c.2 = true
        · simpa [itemAs, hlast] using cut_ne_of_lt hc
        · simpa [itemAs, hlast] using hc.ne
      rw [List.map_cons, List.find?_cons_of_neg (by simpa using hne)]
      exact ih hs hm

variable {cs : List Child} {blocks : List (List Child)} (hcs : cs = blocks.flatten)
include hcs

theorem marked_pairwise (hs : (cs.map (·.1)).Pairwise (· < ·)) :
    (blocks.flatMap marked).Pairwise fun a b => a.1.1 < b.1.1 := by
  rw [hcs, ← flatMap_marked_fst, List.map_map, List.pairwise_map] at hs
  exact hs

theorem find_present (hcounts : direntCounts (cs.map (·.1)) = blocks.map List.length)
    (hs : (cs.map (·.1)).Pairwise (· < ·)) {name : Bytes} {t : Dirent}
    (hl : OrderedMap.lookup name cs = some t) :
    (entriesRead own parent blocks).find? (·.name = name) =
      if Legible (cs.map (·.1)) name then some (itemOf own parent (name, t)) else none := by
  have hpair := marked_pairwise hcs hs
  have hmem := OrderedMap.mem_of_lookup hl
  rw [hcs, ← flatMap_marked_fst] at hmem
  obtain ⟨⟨c, last⟩, hm, rfl⟩ := List.mem_map.mp hmem
  rw [entriesRead, find_marked hpair hm]
  have hends : EndsBlock (cs.map (·.1)) name ↔ last = true := by
    rw [endsBlock_iff hcs hcounts]
    constructor
    · rintro ⟨t', hm'⟩
      have hnames : ((blocks.flatMap marked).map fun c => c.1.1).Nodup :=
        List.pairwise_map.mpr (hpair.imp fun h => h.ne)
      cases List.inj_on_of_nodup_map hnames hm hm' rfl
      rfl
    · exact fun hlast => ⟨t, hlast ▸ hm⟩
  have hleg : Legible (cs.map (·.1)) name ↔ ¬ (last = true ∧ (0 : UInt8) ∈ name) := by
    rw [Legible, hends, not_and']
  by_cases hcut : last = true ∧ (0 : UInt8) ∈ name
  · rw [if_pos hcut, if_neg fun h => hleg.mp h hcut]
  · rw [if_neg hcut, if_pos (hleg.mpr hcut)]

theorem find_absent {name : Bytes} (hn : ∀ c ∈ cs, c.1 ≠ name ∧ cut c.1 ≠ name) :
    (entriesRead own parent blocks).find? (·.name = name) = none := by
  rw [entriesRead, List.find?_eq_none]
  intro item hitem
  obtain ⟨c, hc, rfl⟩ := List.mem_map.mp hitem
  have hm : c.1 ∈ cs := by
    rw [hcs, ← flatMap_marked_fst]
    exact List.mem_map_of_mem hc
  obtain ⟨h1, h2⟩ := hn _ hm
  by_cases hlast : c.2 = true
  · simpa [itemAs, hlast] using h2
  · simpa [itemAs, hlast] using h1

end Names

section Records

theorem getDirents_blockSize {fs : Erofs} {inode : Inode} {it : DirentsIterator} {n : ℕ}
    (h : fs.getDirents inode = .ok it) (hn : fs.blockSize = .ok n) : it.blockSize = n := by
  unfold Erofs.getDirents at h
  split_ifs at h
  · cases h
  obtain ⟨data, -, h⟩ := except_bind_eq_ok.mp h
  rw [hn] at h
  exact (resetCount_fresh h).blockSize

variable {metaBlock limit : ℕ} {fs : Erofs} (hv : Volume metaBlock fs)
include hv

/-- A record is read with what its inode was made from, and the tail stands
behind its extended attributes. -/
theorem recorded_reads {fileType : FileType} (hp : Plain fileType) {size : ℕ} {startBlock : UInt32}
    {metadata : Meta} {tail : Option Bytes} {nLinks id : UInt32} {inode : InodeExtended}
    (hmake : makeInode fileType size startBlock metadata tail nLinks = .ok inode)
    (h : Recorded metaBlock fs.data limit id inode tail metadata.xattrs) :
    ∃ x : InodeExtended, fs.getInode id = .ok (.extended id x) ∧
      readAttrs (.extended id x) = attrsOf fileType metadata ∧
      getLayout x.formatLayout = some (if tail.isSome then Layout.flatInline else Layout.flatPlain) ∧
      x.info = startBlock ∧ x.size = UInt64.ofNat size ∧
      HasAt fs.data (inodeAddress metaBlock id + 64 + xattrCountToLen x.xattrCount)
        (tail.getD []) := by
  obtain ⟨record, hr, hat, -⟩ := h
  obtain ⟨entries, he, hc, rfl⟩ := ErofsXattrSync.recordOf_ok hr
  obtain ⟨hinode, hrest⟩ := (hasAt_append _ _ _ _).mp hat
  obtain ⟨-, htail⟩ := (hasAt_append _ _ _ _).mp hrest
  obtain ⟨hattrs, hlay, hinfo, hsize⟩ := makeInode_reads hp hmake id
    (UInt16.ofNat (ErofsBuilder.xattrCount (entries.map (·.2))).1)
  refine ⟨_, getInode_eq hv (wellTagged_withXattrCount (makeInode_tagged hmake) _) hinode, hattrs, hlay,
    hinfo, hsize, ?_⟩
  rwa [xattrsBytes_length he hc, asBytes_length _ id] at htail

/-- The entries of a directory of the image are found under their names, as
far as they are legible. -/
theorem dir_search {info : DirInfo} {e : DirInfo} {cs : List Child} {name : Bytes} {own : UInt32}
    {parent : Option UInt32} {lo hi : ℕ}
    (hp : PlacedDir metaBlock fs.data limit name (cs.map (·.1)) info e)
    (hlaid : Laid lo (.dir info cs) hi) (hhi : hi ≤ metaBlock)
    (hlinked : Linked fs.data parent (.dir info cs)) (hs : (cs.map (·.1)).Pairwise (· < ·))
    (hid : info.diskId = some own) :
    ∃ x dirents, fs.getInode own = .ok (.extended own x) ∧
      fs.getDirents (.extended own x) = .ok dirents ∧
      (∀ component t, OrderedMap.lookup component cs = some t → findDirent component dirents =
        .ok (if Legible (cs.map (·.1)) component then some (itemOf (some own) parent (component, t))
          else none)) ∧
      ∀ component, (∀ c ∈ cs, c.1 ≠ component ∧ cut c.1 ≠ component) →
        findDirent component dirents = .ok none := by
  obtain ⟨id, inode, hid', hmake, hr⟩ := hp.recorded
  obtain rfl : own = id := Option.some.inj (hid.symm.trans hid')
  obtain ⟨x, hget, hattrs, hlay, hinfo, hsize, -⟩ := recorded_reads hv (Or.inr (Or.inr rfl)) hmake hr
  cases hlinked with
  | @dir _ _ id _ blocks hid'' hcs hb ht hn hat hids hlinks =>
  obtain rfl : own = id := Option.some.inj (hid.symm.trans hid'')
  cases hlaid with
  | dir hstart hl hlc =>
  have hle := hlc.le
  rw [ht] at hsize
  rw [← hinfo] at hat
  have hend : x.info.toNat + blocks.length ≤ metaBlock := by
    have hlen : info.nDirentsPerBlock.length = blocks.length := by rw [hn, List.length_map]
    rw [hinfo, hstart]
    omega
  obtain ⟨dirents, hdirents, hitems⟩ :=
    dir_items hv hlay (congrArg Attrs.fileType hattrs) hb hsize hat hend
  have hsized : 0 < dirents.blockSize := by
    rw [getDirents_blockSize hdirents (blockSize_eq hv)]
    exact Nat.zero_lt_succ _
  have hcounts : direntCounts (cs.map (·.1)) = blocks.map List.length := hp.counts.symm.trans hn
  refine ⟨x, dirents, hget, hdirents, fun component t hl => ?_, fun component hnone => ?_⟩
  · rw [findDirent_of_items hsized hitems, find_present hcs hcounts hs hl]
  · rw [findDirent_of_items hsized hitems, find_absent hcs hnone]

end Records

section Descent

/-- Every name on the way is legible in its directory. -/
def LegibleWay : List Bytes → Dirent → Prop
  | [], _ => True
  | _ :: _, .leaf _ => True
  | name :: names, .dir _ cs => Legible (cs.map (·.1)) name ∧
    ∀ t ∈ (OrderedMap.lookup name cs).toList, LegibleWay names t

instance decidableLegibleWay : ∀ names t, Decidable (LegibleWay names t)
  | [], _ => .isTrue trivial
  | _ :: _, .leaf _ => .isTrue trivial
  | name :: names, .dir _ cs =>
    have := decidableLegibleWay names
    inferInstanceAs (Decidable (Legible (cs.map (·.1)) name ∧
      ∀ t ∈ (OrderedMap.lookup name cs).toList, LegibleWay names t))

def InodeAt (fs : Erofs) (root : Dir Leaf DirInfo) (names : List Bytes) (inode : Inode) : Prop :=
  ∃ t id, treeAt names root.toTree = some t ∧ childDiskId none none t = some id ∧
    fs.getInode id = .ok inode

theorem laidList_mem {lo hi : ℕ} {cs : List Child} {c : Child} (h : LaidList lo cs hi) (hm : c ∈ cs) :
    ∃ lo' hi', Laid lo' c.2 hi' ∧ hi' ≤ hi := by
  induction cs generalizing lo with
  | nil => cases hm
  | cons d cs ih =>
    cases h with
    | cons h hc =>
      rcases List.mem_cons.mp hm with rfl | hm
      · exact ⟨_, _, h, hc.le⟩
      · exact ih hc hm

theorem linkedList_mem {data : Bytes} {parent : Option UInt32} {cs : List Child} {c : Child}
    (h : LinkedList data parent cs) (hm : c ∈ cs) : Linked data parent c.2 := by
  induction cs with
  | nil => cases hm
  | cons d cs ih =>
    cases h with
    | cons h hc =>
      rcases List.mem_cons.mp hm with rfl | hm
      · exact h
      · exact ih hc hm

theorem item_plain {y : Leaf} {i : Item} (h : item y = some i) : Plain i.fileType := by
  cases y <;> cases h <;> simp [Plain]

theorem childDiskId_item {x : Leaf} {i : Item} (h : item x = some i) (own parent : Option UInt32) :
    childDiskId own parent (.leaf x) = i.diskId := by
  cases x <;> cases h <;> rfl

/-- On the way to an entry with an inode of its own there are no dots. -/
theorem childDiskId_on_way {names : List Bytes} {c t : Dirent} {id : UInt32}
    (ht : treeAt names c = some t) (hid : childDiskId none none t = some id)
    (own parent : Option UInt32) : childDiskId none none c = childDiskId own parent c := by
  cases c with
  | dir info cs => rfl
  | leaf x =>
    cases names with
    | cons name names => cases ht
    | nil =>
      cases Option.some.inj ht
      cases x with
      | file f => rfl
      | symlink s => rfl
      | dot => cases hid
      | dotDot => cases hid

variable {metaBlock limit : ℕ} {fs : Erofs}

theorem lookupFrom_none {cur : Inode} {dirents : DirentsIterator} {component : Bytes}
    (hd : fs.getDirents cur = .ok dirents) (hf : findDirent component dirents = .ok none)
    (components : List Bytes) : lookupFrom fs cur (component :: components) = .ok none := by
  rw [lookupFrom, hd]
  change (findDirent component dirents >>= _) = _
  rw [hf]
  rfl

theorem lookupFrom_some {cur inode : Inode} {dirents : DirentsIterator} {component : Bytes}
    {item : DirentItem} (hd : fs.getDirents cur = .ok dirents)
    (hf : findDirent component dirents = .ok (some item))
    (hi : fs.getInodeFromDirent item = .ok inode) (components : List Bytes) :
    lookupFrom fs cur (component :: components) = lookupFrom fs inode components := by
  rw [lookupFrom, hd]
  change (findDirent component dirents >>= _) = _
  rw [hf]
  change (fs.getInodeFromDirent item >>= _) = _
  rw [hi]
  rfl

variable (hv : Volume metaBlock fs)
include hv

theorem node_reads {name : Bytes} {t u : Dirent} {id : UInt32}
    (h : Rel (PlacedLeaf metaBlock fs.data limit) (PlacedDir metaBlock fs.data limit) name t u)
    (hid : childDiskId none none t = some id) : ∃ x, fs.getInode id = .ok (.extended id x) := by
  cases h with
  | @leaf _ x y h =>
    cases h with
    | @item _ i id' inode hy hx hmake hr =>
      obtain rfl : id' = id := by simpa [childDiskId_item hx] using hid
      obtain ⟨x, hget, -⟩ := recorded_reads hv (item_plain hy) hmake hr
      exact ⟨x, hget⟩
    | special hx =>
      cases x with
      | file f => cases hx
      | symlink s => cases hx
      | dot => cases hid
      | dotDot => cases hid
  | @dir _ info _ _ _ hd _ =>
    obtain ⟨id', inode, hid', hmake, hr⟩ := hd.recorded
    obtain rfl : id' = id := Option.some.inj (hid'.symm.trans hid)
    obtain ⟨x, hget, -⟩ := recorded_reads hv (Or.inr (Or.inr rfl)) hmake hr
    exact ⟨x, hget⟩

theorem lookupFrom_tree {names : List Bytes} {name : Bytes} {t t' u : Dirent}
    {parent : Option UInt32} {lo hi : ℕ} {id id' : UInt32} {inode inode' : Inode}
    (hrel : Rel (PlacedLeaf metaBlock fs.data limit) (PlacedDir metaBlock fs.data limit) name t u)
    (hlaid : Laid lo t hi) (hhi : hi ≤ metaBlock) (hlinked : Linked fs.data parent t)
    (hs : u.EachDir (onNames fun _ ns => ns.Pairwise (· < ·))) (ht : treeAt names t = some t')
    (hid : childDiskId none none t = some id) (hget : fs.getInode id = .ok inode)
    (hid' : childDiskId none none t' = some id') (hget' : fs.getInode id' = .ok inode') :
    lookupFrom fs inode names = .ok (if LegibleWay names u then some inode' else none) := by
  induction names generalizing name t u parent lo hi id inode with
  | nil =>
    cases Option.some.inj ht
    cases hid.symm.trans hid'
    cases hget.symm.trans hget'
    rw [if_pos (show LegibleWay [] u from trivial)]
    rfl
  | cons component names ih =>
    cases hrel with
    | leaf => cases ht
    | @dir _ info e cs cs' hd hc =>
    rw [treeAt] at ht
    split_ifs at ht with hdot
    obtain ⟨c, hl, ht⟩ := Option.bind_eq_some_iff.mp ht
    have hmem := OrderedMap.mem_of_lookup hl
    have hsorted : (cs.map (·.1)).Pairwise (· < ·) := by
      rw [hc.names_eq]
      exact hs.1
    obtain ⟨x, dirents, hgetx, hdirents, hfind, -⟩ :=
      dir_search hv hd hlaid hhi hlinked hsorted hid
    cases hget.symm.trans hgetx
    cases hlinked with
    | @dir _ _ own _ blocks hown _ _ _ _ _ hids hlinks =>
    obtain rfl : own = id := Option.some.inj (hown.symm.trans hid)
    cases hlaid with
    | dir _ _ hlc =>
    -- the child, its place and its inode
    obtain ⟨lo', hi', hlaid', hle⟩ := laidList_mem hlc hmem
    rcases hc.lookup component with ⟨hn, -⟩ | ⟨c', v, hl', hv', hrel'⟩
    · cases hn.symm.trans hl
    cases hl.symm.trans hl'
    have hcid := (childDiskId_on_way ht hid' (some own) parent).trans (hids _ hmem)
    obtain ⟨y, hgety⟩ := node_reads hv hrel' hcid
    have hitem : fs.getInodeFromDirent (itemOf (some own) parent (component, c)) = .ok (.extended _ y) :=
      (getInodeFromDirent_eq fs _ _ _).trans hgety
    have hfound := hfind component c hl
    have hway : LegibleWay (component :: names) (.dir e cs') ↔
        Legible (cs.map (·.1)) component ∧ LegibleWay names v := by
      rw [LegibleWay, hv', hc.names_eq]
      simp
    by_cases hleg : Legible (cs.map (·.1)) component
    · rw [if_pos hleg] at hfound
      rw [lookupFrom_some hdirents hfound hitem, ih hrel' hlaid' (hle.trans hhi)
        (linkedList_mem hlinks hmem) (eachDirList_mem hs.2 (OrderedMap.mem_of_lookup hv')) ht hcid hgety]
      simp only [hway, hleg, true_and]
    · rw [if_neg hleg] at hfound
      rw [lookupFrom_none hdirents hfound, if_neg fun h => hleg (hway.mp h).1]

end Descent

section Images

variable {metaBlock limit : ℕ} {fs : Erofs} {root e : Dir Leaf DirInfo}

theorem treeAt_of_nodeAt {names : List Bytes} {v : Leaf ⊕ DirInfo} (h : nodeAt e names = some v) :
    ∃ t, treeAt names e.toTree = some t ∧ node t = v := Option.map_eq_some_iff.mp h

theorem image_treeAt (h : Image metaBlock limit fs root e) {names : List Bytes} {u : Dirent}
    (hu : treeAt names e.toTree = some u) :
    ∃ name t, treeAt names root.toTree = some t ∧
      Rel (PlacedLeaf metaBlock fs.data limit) (PlacedDir metaBlock fs.data limit) name t u := by
  obtain ⟨name, t, ht, hrel, -⟩ := rel_treeAt h.rel.symm hu
  exact ⟨name, t, ht, hrel.symm⟩

theorem inodeAt_of_kept {b : Builder} (h : Image metaBlock limit fs root b.root) (hk : Kempt b)
    {names : List Bytes} {v : Leaf ⊕ DirInfo} (hkept : nodeAt b.root names = some v) :
    ∃ inode, InodeAt fs root names inode := by
  obtain ⟨u, hu, -⟩ := treeAt_of_nodeAt hkept
  obtain ⟨name, t, ht, hrel⟩ := image_treeAt h hu
  have hid : ∃ id, childDiskId none none t = some id := by
    cases hrel with
    | @leaf _ x y hl =>
      cases hl with
      | @item _ i id inode hy hx hmake hr => exact ⟨id, childDiskId_item hx none none⟩
      | special hx =>
        obtain ⟨ghost, hshape⟩ := hk.shape
        obtain ⟨n, g, -, hg, hn⟩ := rel_treeAt hshape hu
        cases hg with
        | @leaf _ _ y hy =>
          have hdot : IsDot n := hy.2 (by rw [← hy.1, hx]; rfl)
          rcases hn with rfl | hn
          · exact absurd hdot (by decide)
          · exact absurd hdot hn
    | dir hd _ =>
      obtain ⟨id, inode, hid, -⟩ := hd.recorded
      exact ⟨id, hid⟩
  obtain ⟨id, hid⟩ := hid
  obtain ⟨x, hget⟩ := node_reads h.volume hrel hid
  exact ⟨_, t, id, ht, hid, hget⟩

/-- The path as it is spelled leads to the entry that its names lead to, if
it does not begin with a slash and the names on the way are legible. -/
theorem image_lookup {b : Builder} (h : Image metaBlock limit fs root b.root) (hk : Kempt b)
    (hs : Sorted b.root) {p : Bytes} (hp : NoParent p) {inode : Inode}
    (hi : InodeAt fs root (pathNames p) inode) :
    Erofs.lookup fs p = .ok (if hasRoot p = false ∧ LegibleWay (pathNames p) b.root.toTree then some inode
      else none) := by
  obtain ⟨t, id, ht, hid, hget⟩ := hi
  obtain ⟨cur, hlaid⟩ := h.laid
  obtain ⟨hd, hc⟩ := ErofsTreeRelation.relDir_iff.mp h.rel
  have hsorted : (root.children.map (·.1)).Pairwise (· < ·) := by
    rw [hc.names_eq]
    exact hs.1
  obtain ⟨x, dirents, hroot, hdirents, hfind, habsent⟩ :=
    dir_search h.volume hd hlaid le_rfl h.linked hsorted h.rootId
  have hnames := lookupFrom_tree h.volume h.rel hlaid le_rfl h.linked hs ht h.rootId hroot hid hget
  rw [Erofs.lookup, Erofs.getRootInode, hroot]
  change lookupFrom fs _ (texts p) = _
  rw [texts_of_noParent hp]
  by_cases hslash : hasRoot p = true
  · have hnone : findDirent [slash] dirents = .ok none := by
      refine habsent _ fun c hm => ?_
      have hno : slash ∉ c.1 := by
        intro hin
        have hl := (OrderedMap.lookup_eq_some_iff c.1 c.2 root.children
          (List.pairwise_map.mp hsorted)).mpr hm
        rcases hc.lookup c.1 with ⟨hn, -⟩ | ⟨_, v, -, hl', -⟩
        · cases hl.symm.trans hn
        · cases (hk.slash c.1 hin).symm.trans hl'
      refine ⟨?_, ?_⟩
      · intro heq
        exact hno (by simp [heq])
      · intro heq
        exact hno (List.takeWhile_subset _ (show slash ∈ cut c.1 by simp [heq]))
    rw [if_pos hslash, if_neg (by simp [hslash])]
    exact lookupFrom_none hdirents hnone _
  rw [if_neg hslash]
  simp only [Bool.not_eq_true] at hslash
  simp only [hslash, true_and]
  by_cases hcur : includeCurDir p = true
  · have hself : OrderedMap.lookup [dot] root.children = some (.leaf .dot) := by
      rcases hc.lookup [dot] with ⟨-, hn⟩ | ⟨c, v, hl, hl', hr⟩
      · cases hk.dot.symm.trans hn
      · cases hk.dot.symm.trans hl'
        cases hr with
        | leaf hr =>
          cases hr with
          | item hy => cases hy
          | special => exact hl
    have hfound := hfind [dot] _ hself
    rw [if_pos (show Legible _ [dot] from fun h0 => absurd h0 (by decide))] at hfound
    rw [if_pos hcur]
    have hitem : fs.getInodeFromDirent
        (itemOf (some fs.sb.rootDiskId.toUInt32) none ([dot], .leaf .dot)) = .ok _ :=
      (getInodeFromDirent_eq fs _ _ _).trans hroot
    exact (lookupFrom_some hdirents hfound hitem _).trans hnames
  · rw [if_neg hcur]
    exact hnames

end Images

section Paths

theorem noParent_of_addLeaf {d d' : Dir Leaf DirInfo} {path : Bytes} {x : Leaf}
    (h : addLeaf ErofsBuilder.Dir.default path x d = .ok () d') : NoParent path := by
  by_contra hp
  obtain ⟨err, d'', hr⟩ := addLeaf_refused hp x
  cases h.symm.trans hr

/-- A call that succeeds has a path without `..`, or it is a link to resolve later. -/
theorem call_noParent {b b' : Builder} {c : Call} (h : c.run b = .ok () b') :
    NoParent (callPath c) ∨ ∃ l ∈ b'.links, l.1 = callPath c := by
  have he := call_effect b c
  rw [h] at he
  generalize hres : EStateM.Result.ok () b' = r at he
  cases he with
  | refused => cases hres
  | file hs hm =>
    obtain ⟨root, hr, rfl⟩ := onRoot_ok hres.symm
    exact Or.inl (noParent_of_addLeaf hr)
  | symlink hs hm =>
    obtain ⟨root, hr, rfl⟩ := onRoot_ok hres.symm
    exact Or.inl (noParent_of_addLeaf hr)
  | dir hm =>
    obtain ⟨root, hr, rfl⟩ := onRoot_ok hres.symm
    obtain ⟨dirs, last, -, -, hroute, -⟩ := lookupCreate_ok hr
    exact Or.inl (noParent_of_pathRoute hroute)
  | @link path target metadata =>
    cases hres
    exact Or.inr ⟨(path, target, metadata), by simp, rfl⟩

theorem call_links {b : Builder} {l : Link} (hl : l ∈ b.links) (c : Call) :
    l ∈ (stateAfter (c.run b)).links := by
  have hroot : ∀ act : EStateM ErofsTree.Error (Dir Leaf DirInfo) Unit,
      Keeps Builder.links (ErofsBuilder.onRoot act) := fun act => onRoot_keeps (fun _ _ => rfl) act
  have he := call_effect b c
  generalize c.run b = r at he
  cases he with
  | refused _ hs => exact hs.links.symm ▸ hl
  | file hs _ =>
    rw [hroot _ _, hs.links]
    exact hl
  | symlink hs _ =>
    rw [hroot _ _, hs.links]
    exact hl
  | dir =>
    rw [hroot _ _]
    exact hl
  | link => exact List.mem_append_left _ hl

theorem after_links {b : Builder} {l : Link} (hl : l ∈ b.links) (calls : List Call) :
    l ∈ (after b calls).links := by
  induction calls generalizing b with
  | nil => exact hl
  | cons c calls ih => exact ih (call_links hl c)

theorem resolveLinks_noParent {b b' : Builder} (h : resolveLinks b = .ok () b') {l : Link}
    (hl : l ∈ b.links) : NoParent l.1 := by
  obtain ⟨root, hloop, -⟩ := resolveLinks_ok h
  obtain ⟨front, back, hlinks⟩ := List.append_of_mem hl
  rw [hlinks, forM_append_eq_ok] at hloop
  obtain ⟨d, -, hloop⟩ := hloop
  obtain ⟨d', hl, -⟩ := forM_cons_eq_ok.mp hloop
  obtain ⟨_, d'', -, hadd⟩ := bind_eq_ok.mp hl
  exact noParent_of_addLeaf hadd

theorem resolveLinks_none {b b' : Builder} (h : resolveLinks b = .ok () b') (hn : b.links = []) :
    b'.root = b.root := by
  obtain ⟨root, hloop, rfl⟩ := resolveLinks_ok h
  rw [hn] at hloop
  cases hloop
  rfl

def Checked (c : Call) : Prop :=
  let b := stateAfter (c.run unlimited)
  result (c.run unlimited) = .ok () ∧ result (resolveLinks b) = .ok () ∧ result (finalize b) = .ok () ∧
    b.links.isEmpty ∧ (nodeAt b.root (pathNames (callPath c))).isSome ∧
    b.root.toTree.EachDir (fun _ cs => ∀ name ∈ cs.map (·.1), 12 + name.length ≤ blockSize) ∧
    Steady 0 (recordLens b.root) ∧ LegibleWay (pathNames (callPath c)) b.root.toTree

instance (c : Call) : Decidable (Checked c) := inferInstanceAs (Decidable (_ ∧ _))

theorem checked_builds {c : Call} (h : Checked c) :
    ∃ b₀ b₁ b' v, c.run unlimited = .ok () b₀ ∧ resolveLinks b₀ = .ok () b₁ ∧ b₁.root = b₀.root ∧
      nodeAt b₁.root (pathNames (callPath c)) = some v ∧ Fitting b₁.root ∧
      LegibleWay (pathNames (callPath c)) b₁.root.toTree ∧ finalize b₀ = .ok () b' := by
  obtain ⟨hrun, hlinks, hbuild, hnone, hentry, hnames, hsteady, hway⟩ := h
  have hroot := resolveLinks_none (ok_of_result hlinks) (List.isEmpty_iff.mp hnone)
  obtain ⟨v, hv⟩ := Option.isSome_iff_exists.mp hentry
  rw [← hroot] at hv hnames hsteady hway
  exact ⟨_, _, _, v, ok_of_result hrun, ok_of_result hlinks, hroot, hv, ⟨hnames, hsteady⟩, hway,
    ok_of_result hbuild⟩

theorem sorted_of_run {config : BuilderConfig} {calls : List Call} {c : Call} {b : Builder}
    (h : c.run (after (Builder.new config) calls) = .ok () b) : Sorted b.root := by
  have hs := call_sorted (c := c) (after_sorted (b := Builder.new config) sorted_default calls)
  rwa [h] at hs

/-- Looking up the path of a call that succeeded finds the inode of the entry
that is there, exactly if the path does not begin with a slash and no name on
it with a NUL is the last of its block. -/
theorem lookup_agrees_iff {config : BuilderConfig} {pre post : List Call} {c : Call}
    {b₀ b₁ b' : Builder} {v : Leaf ⊕ DirInfo} (hrun : c.run (after (Builder.new config) pre) = .ok () b₀)
    (hlinks : resolveLinks (after b₀ post) = .ok () b₁)
    (hkept : nodeAt b₁.root (pathNames (callPath c)) = some v) (hfit : Fitting b₁.root)
    (hbuild : finalize (after b₀ post) = .ok () b') :
    ∃ fs inode, Erofs.new b'.writer.data = .ok fs ∧
      InodeAt fs b'.root (pathNames (callPath c)) inode ∧
      (Erofs.lookup fs (callPath c) = .ok (some inode) ↔
        hasRoot (callPath c) = false ∧ LegibleWay (pathNames (callPath c)) b₁.root.toTree) := by
  have hk := after_kempt (kempt_of_run hrun) post
  have hp : NoParent (callPath c) := by
    rcases call_noParent hrun with hp | ⟨l, hl, hpath⟩
    · exact hp
    · exact hpath ▸ resolveLinks_noParent hlinks (after_links hl post)
  obtain ⟨metaBlock, limit, fs, hnew, himage⟩ :=
    finalize_layout hk.hasEntries hk.started hlinks hfit hbuild
  have hk₁ := resolveLinks_kempt hk hlinks
  obtain ⟨inode, hi⟩ := inodeAt_of_kept himage hk₁ hkept
  refine ⟨fs, inode, hnew, hi, ?_⟩
  have hs := resolveLinks_sorted (after_sorted (sorted_of_run hrun) post) hlinks
  rw [image_lookup himage hk₁ hs hp hi, Except.ok.injEq]
  simp

def dotted : Bytes := [dot, slash, 0x64, slash, slash, 0x61]

theorem dotted_path_found :
    ∃ b₀ b' fs inode, (emptyFile dotted).run unlimited = .ok () b₀ ∧ finalize b₀ = .ok () b' ∧
      Erofs.new b'.writer.data = .ok fs ∧ InodeAt fs b'.root (pathNames dotted) inode ∧
      Erofs.lookup fs dotted = .ok (some inode) := by
  have hchecked : Checked (emptyFile dotted) := by decide +kernel
  obtain ⟨b₀, b₁, b', v, hrun, hlinks, -, hkept, hfit, hway, hbuild⟩ := checked_builds hchecked
  obtain ⟨fs, inode, hnew, hi, hiff⟩ := @lookup_agrees_iff ⟨none, none⟩ [] [] (emptyFile dotted) b₀ b₁ b' v
    hrun hlinks hkept hfit hbuild
  exact ⟨b₀, b', fs, inode, hrun, hbuild, hnew, hi, hiff.mpr ⟨by decide, hway⟩⟩

def rooted : Bytes := [slash, 0x61]

/-- The builder takes the path `/a`, and the reader finds nothing under it. -/
theorem rooted_path_not_found :
    ∃ b₀ b' fs inode, (emptyFile rooted).run unlimited = .ok () b₀ ∧ finalize b₀ = .ok () b' ∧
      Erofs.new b'.writer.data = .ok fs ∧ InodeAt fs b'.root (pathNames rooted) inode ∧
      Erofs.lookup fs rooted = .ok none := by
  have hchecked : Checked (emptyFile rooted) := by decide +kernel
  obtain ⟨b₀, b₁, b', v, hrun, hlinks, -, hkept, hfit, -, hbuild⟩ := checked_builds hchecked
  have hk : Kempt b₀ := @kempt_of_run ⟨none, none⟩ [] _ _ hrun
  obtain ⟨metaBlock, limit, fs, hnew, himage⟩ :=
    finalize_layout hk.hasEntries hk.started hlinks hfit hbuild
  have hk₁ := resolveLinks_kempt hk hlinks
  obtain ⟨inode, hi⟩ := inodeAt_of_kept himage hk₁ hkept
  refine ⟨b₀, b', fs, inode, hrun, hbuild, hnew, hi, ?_⟩
  have hs : Sorted b₀.root := @sorted_of_run ⟨none, none⟩ [] _ _ hrun
  have hread : Erofs.lookup fs rooted = _ :=
    image_lookup himage hk₁ (resolveLinks_sorted hs hlinks) (by decide) hi
  rw [hread, if_neg]
  exact fun h => absurd h.1 (by decide)

end Paths

section Symlinks

variable {metaBlock limit : ℕ} {fs : Erofs}

theorem getSymlink_eq_ok {inode : Inode} (hf : inode.fileType = .symlink) {target : Bytes} :
    Erofs.getSymlink fs inode = .ok target ↔ fs.getData inode = .ok ([], target) := by
  unfold Erofs.getSymlink
  rw [if_neg (not_not.mpr hf)]
  change (fs.getData inode >>= _) = _ ↔ _
  rw [except_bind_eq_ok]
  constructor
  · rintro ⟨⟨block, tail⟩, hd, h⟩
    simp only at h
    split_ifs at h with hb
    · cases h
    · cases h
      rw [hd, not_not.mp hb]
  · exact fun hd => ⟨_, hd, rfl⟩

structure MadeFor (s : Symlink) (link : Bytes) : Prop where
  len : s.len = link.length
  tail : s.tail = linkTail (sizeTailLen link.length).2.1 (sizeTailLen link.length).2.2 link
  start : (sizeTailLen link.length).2.1 = 0 → s.startBlock = erofsNullAddr

theorem addSymlink_entry {b b' : Builder} {path link : Bytes} {metadata : Meta}
    (h : addSymlink path link metadata b = .ok () b') :
    ∃ s, nodeAt b'.root (pathNames path) = some (.inl (.symlink s)) ∧ MadeFor s link := by
  obtain ⟨start, m, root, hstart, -, hr, rfl⟩ := addSymlink_ok h
  refine ⟨⟨m, start, 1, link.length, linkTail _ _ link, none⟩, ?_, rfl, rfl, fun h0 => ?_⟩
  · rw [(addLeaf_ok bare_default hr).2, withLeaf, if_pos rfl]
  · rw [NextBlock, h0] at hstart
    exact (Except.ok.inj hstart).symm

theorem sizeTailLen_small {len : ℕ} (h : len ≤ blockSize / 2) : sizeTailLen len = (0, 0, len) := by
  have hmod : len % blockSize = len := Nat.mod_eq_of_lt (by simp only [blockSize] at *; omega)
  have hdiv : len / blockSize = 0 := Nat.div_eq_of_lt (by simp only [blockSize] at *; omega)
  rw [sizeTailLen, hmod, if_neg (by omega), hdiv, Nat.zero_mul]

variable (hv : Volume metaBlock fs)
include hv

/-- What stands behind the inode is less than a block, and nothing in a plain layout. -/
theorem getData_tail {inode : Inode} {block tail : Bytes} (h : fs.getData inode = .ok (block, tail)) :
    inode.layout = .ok .flatPlain ∧ tail = [] ∨
      inode.layout = .ok .flatInline ∧ tail.length < blockSize := by
  unfold Erofs.getData at h
  obtain ⟨layout, hl, h⟩ := except_bind_eq_ok.mp h
  cases layout with
  | flatPlain =>
    refine Or.inl ⟨hl, ?_⟩
    simp only at h
    split_ifs at h
    · cases h
      rfl
    · obtain ⟨start, -, h⟩ := except_bind_eq_ok.mp h
      obtain ⟨stop, -, h⟩ := except_bind_eq_ok.mp h
      obtain ⟨block', -, h⟩ := except_bind_eq_ok.mp h
      cases h
      rfl
  | flatInline =>
    refine Or.inr ⟨hl, ?_⟩
    obtain ⟨size, hsize, h⟩ := except_bind_eq_ok.mp h
    cases (blockSize_eq hv).symm.trans hsize
    obtain ⟨start, -, h⟩ := except_bind_eq_ok.mp h
    obtain ⟨stop, hstop, h⟩ := except_bind_eq_ok.mp h
    obtain ⟨tail', hslice, h⟩ := except_bind_eq_ok.mp h
    have htail : tail' = tail := by
      split_ifs at h
      · cases h
      · cases h
        rfl
      · obtain ⟨begin, -, h⟩ := except_bind_eq_ok.mp h
        obtain ⟨stop', -, h⟩ := except_bind_eq_ok.mp h
        obtain ⟨block', -, h⟩ := except_bind_eq_ok.mp h
        cases h
        rfl
    subst htail
    obtain ⟨-, hlen⟩ := slice_eq_some (okOr_eq_some hslice)
    unfold add64 at hstop
    split_ifs at hstop
    cases hstop
    change start + tail'.length = start + (inode.dataSize - inode.dataSize / 4096 * 4096) at hlen
    have hmod := Nat.mod_lt inode.dataSize (show 4096 > 0 by norm_num)
    simp only [blockSize]
    omega
  | _ => cases h

omit hv in
/-- A target over half a block and under a whole one leaves no tail. -/
theorem tail_none_of_long {s : Symlink} {link : Bytes} (hs : MadeFor s link)
    (hlong : ¬link.length ≤ blockSize / 2) (hlt : link.length < blockSize) : s.tail = none := by
  have hsplit : sizeTailLen link.length = (link.length / blockSize + 1, link.length, 0) := by
    rw [sizeTailLen, Nat.mod_eq_of_lt hlt, if_pos (by omega)]
  rw [hs.tail, linkTail, hsplit]
  rfl

/-- A target comes back exactly if it is no longer than half a block. -/
theorem symlink_data_iff {s : Symlink} {link : Bytes} (hs : MadeFor s link) {id : UInt32}
    {x : InodeExtended}
    (hl : getLayout x.formatLayout =
      some (if s.tail.isSome then Layout.flatInline else Layout.flatPlain))
    (hinfo : x.info = s.startBlock) (hsize : x.size = UInt64.ofNat s.len)
    (hat : HasAt fs.data (inodeAddress metaBlock id + 64 + xattrCountToLen x.xattrCount)
      (s.tail.getD [])) :
    fs.getData (.extended id x) = .ok ([], link) ↔ link.length ≤ blockSize / 2 := by
  constructor
  · intro hd
    by_contra hlong
    rcases getData_tail hv hd with ⟨-, rfl⟩ | ⟨hlay, hlt⟩
    · simp at hlong
    -- a longer target shorter than a block has no tail, so the layout is plain
    rw [Inode.layout, Inode.formatLayout, hl, tail_none_of_long hs hlong hlt] at hlay
    cases hlay
  · intro hshort
    have hsplit := sizeTailLen_small hshort
    have hnull := hs.start (by rw [hsplit])
    have htail := hs.tail
    rw [hsplit, linkTail] at htail
    have hlen : x.size.toNat = link.length := by
      rw [hsize, hs.len, UInt64.toNat_ofNat']
      simp only [blockSize] at hshort
      omega
    by_cases hnil : link = []
    · subst hnil
      rw [htail] at hl
      exact getData_plain hv hl hlen fun h => absurd rfl h
    · have hpos : link.length > 0 := List.length_pos_of_ne_nil hnil
      rw [if_pos hpos, List.drop_zero] at htail
      rw [htail] at hl hat
      have hzero : link.length / blockSize = 0 :=
        Nat.div_eq_of_lt (by simp only [blockSize] at *; omega)
      have hread : fs.getData (.extended id x) =
          .ok (link.take (link.length / blockSize * blockSize), link) :=
        getData_inline hv hl hlen (by simp [hzero]) hnil hat (by simp [hinfo, hnull, hzero])
          (fun h => absurd hzero h) (by simp only [blockSize] at hshort; omega)
      simpa [hzero] using hread

end Symlinks

theorem image_symlink {metaBlock limit : ℕ} {fs : Erofs} {root e : Dir Leaf DirInfo}
    (h : Image metaBlock limit fs root e) {names : List Bytes} {s : Symlink}
    (hs : nodeAt e names = some (.inl (.symlink s))) {link : Bytes} (hmade : MadeFor s link) :
    ∃ inode, InodeAt fs root names inode ∧
      (Erofs.getSymlink fs inode = .ok link ↔ link.length ≤ blockSize / 2) := by
  obtain ⟨u, hu, hnode⟩ := treeAt_of_nodeAt hs
  obtain ⟨name, t, ht, hrel⟩ := image_treeAt h hu
  cases hrel with
  | dir => cases hnode
  | @leaf _ x y hl =>
    cases hnode
    cases hl with
    | special hx => cases hx
    | @item _ i id inode hy hx hmake hr =>
      cases hy
      obtain ⟨z, hget, hattrs, hlay, hinfo, hsize, hat⟩ :=
        recorded_reads h.volume (Or.inr (Or.inl rfl)) hmake hr
      refine ⟨_, ⟨_, id, ht, childDiskId_item hx none none, hget⟩, ?_⟩
      rw [getSymlink_eq_ok (congrArg Attrs.fileType hattrs)]
      exact symlink_data_iff h.volume hmade hlay hinfo hsize hat

/-- The target of a symlink that is still there when the image is written is
read back exactly if it is no longer than half a block. -/
theorem symlink_readback_iff {config : BuilderConfig} {pre post : List Call} {path link : Bytes}
    {metadata : Meta} {b₀ b₁ b' : Builder} {s : Symlink} {n : UInt32}
    (hadd : addSymlink path link metadata (after (Builder.new config) pre) = .ok () b₀)
    (hentry : nodeAt b₀.root (pathNames path) = some (.inl (.symlink s)))
    (hlinks : resolveLinks (after b₀ post) = .ok () b₁)
    (hkept : nodeAt b₁.root (pathNames path) = some (.inl (.symlink { s with nLinks := n })))
    (hfit : Fitting b₁.root) (hbuild : finalize (after b₀ post) = .ok () b') :
    ∃ fs inode, Erofs.new b'.writer.data = .ok fs ∧ InodeAt fs b'.root (pathNames path) inode ∧
      (Erofs.getSymlink fs inode = .ok link ↔ link.length ≤ blockSize / 2) := by
  have hk := after_kempt (kempt_of_run (c := .addSymlink path link metadata) hadd) post
  obtain ⟨metaBlock, limit, fs, hnew, himage⟩ :=
    finalize_layout hk.hasEntries hk.started hlinks hfit hbuild
  obtain ⟨s', hentry', hmade⟩ := addSymlink_entry hadd
  cases hentry.symm.trans hentry'
  obtain ⟨inode, hi, hiff⟩ := image_symlink himage hkept ⟨hmade.len, hmade.tail, hmade.start⟩
  exact ⟨fs, inode, hnew, hi, hiff⟩

def symlinkTo (target : Bytes) : Call := .addSymlink [0x73] target Meta.default

/-- A symlink `s` to `x`. -/
theorem short_target_read :
    ∃ b₀ b' fs inode, (symlinkTo [0x78]).run unlimited = .ok () b₀ ∧ finalize b₀ = .ok () b' ∧
      Erofs.new b'.writer.data = .ok fs ∧ InodeAt fs b'.root (pathNames [0x73]) inode ∧
      Erofs.getSymlink fs inode = .ok [0x78] := by
  have hchecked : Checked (symlinkTo [0x78]) := by decide +kernel
  obtain ⟨b₀, b₁, b', v, hrun, hlinks, hroot, -, hfit, -, hbuild⟩ := checked_builds hchecked
  obtain ⟨s, hentry, -⟩ := addSymlink_entry hrun
  have hkept : nodeAt b₁.root (pathNames [0x73]) = some (.inl (.symlink s)) := by
    rw [hroot]
    exact hentry
  obtain ⟨fs, inode, hnew, hi, hiff⟩ := @symlink_readback_iff ⟨none, none⟩ [] [] [0x73] [0x78]
    Meta.default b₀ b₁ b' s s.nLinks hrun hentry hlinks hkept hfit hbuild
  exact ⟨b₀, b', fs, inode, hrun, hbuild, hnew, hi, hiff.mpr (by decide)⟩

def longTarget : Bytes := List.replicate 2049 0x61

/-- A target of 2049 bytes is accepted, and the image does not give it back. -/
theorem long_target_lost :
    ∃ b₀ b' fs inode, (symlinkTo longTarget).run unlimited = .ok () b₀ ∧ finalize b₀ = .ok () b' ∧
      Erofs.new b'.writer.data = .ok fs ∧ InodeAt fs b'.root (pathNames [0x73]) inode ∧
      Erofs.getSymlink fs inode ≠ .ok longTarget := by
  have hchecked : Checked (symlinkTo longTarget) := by decide +kernel
  obtain ⟨b₀, b₁, b', v, hrun, hlinks, hroot, -, hfit, -, hbuild⟩ := checked_builds hchecked
  obtain ⟨s, hentry, hmade⟩ := addSymlink_entry hrun
  rw [← hroot] at hentry
  have hk : Kempt b₀ := @kempt_of_run ⟨none, none⟩ [] _ _ hrun
  obtain ⟨metaBlock, limit, fs, hnew, himage⟩ :=
    finalize_layout hk.hasEntries hk.started hlinks hfit hbuild
  obtain ⟨inode, hi, hiff⟩ := image_symlink himage hentry hmade
  refine ⟨b₀, b', fs, inode, hrun, hbuild, hnew, hi, fun hread => ?_⟩
  have hshort := hiff.mp hread
  rw [longTarget, List.length_replicate] at hshort
  exact absurd hshort (by decide)

end ProgramExplorer.ErofsLookup
