import ProgramExplorer.ErofsAdds
import ProgramExplorer.ErofsOwners

/-!
# How the entries of a directory are split into blocks

`prepare_dirent_data` opens a new block whenever the next entry does not fit
the one at hand, and does not ask whether it fits a block at all. The pass
that writes the entries goes by the counts alone. So the split is what it
should be exactly if every name fits: a longer one gets a block to itself
that runs into the next, and an empty block is left before it if it comes
first.
-/

set_option autoImplicit false

namespace ProgramExplorer.ErofsPacking
open ByteStrings OrderedMap UnixPath FileTree StateRules ErofsTree ErofsTreeRelation
open ErofsDisk ErofsBuilder ErofsCursor ErofsContents ErofsCalls ErofsLinks ErofsDirents
open ErofsWalk ErofsPasses ErofsDirentPass ErofsFinalize ErofsOwners ErofsAdds

section Unpacked

/-- Whether a leaf is a file or a symlink, which is all that links ask. -/
def IsItem (_ : Bytes) (x : Leaf) (y : Bool) : Prop := (item x).isSome = y

def Unpacked (_ : Bytes) (names : List Bytes) (info : DirInfo) (_ : Unit) : Prop :=
  info.nDirentsPerBlock = [] ∧ names ≠ []

def bareDir : Dir Bool Unit where
  info := ()
  children := [([dot], .leaf false), ([dot, dot], .leaf false)]

def HasEntries (b : Builder) : Prop := ∃ e, RelDir IsItem Unpacked [] b.root e

def linkable (y : Bool) : Option Unit := if y then some () else none

/-- A property of leaves and directories that asks for nothing but the kind of
a leaf and the blocks of a directory, under the names that paths have. -/
structure Shape (ok : Bytes → Prop) (L : Bytes → Leaf → Bool → Prop)
    (D : Bytes → List Bytes → DirInfo → Unit → Prop) : Prop where
  grows : Grows ok D
  fresh : ∀ name, ok name → RelDir L D name Dir.default bareDir
  item : ∀ name x, ok name → (item x).isSome → L name x true
  linked : Linkable L (fun _ _ => True) linkable
  metadata : ∀ name ns d m u, D name ns d u → D name ns { d with metadata := m } u
  names : ∀ path name, .normal name ∈ components path → ok name

section Shape

variable {ok : Bytes → Prop} {L : Bytes → Leaf → Bool → Prop}
  {D : Bytes → List Bytes → DirInfo → Unit → Prop} (hs : Shape ok L D) {b : Builder}
include hs

theorem Shape.addLeaf (path : Bytes) {x : Leaf} (hx : (ErofsContents.item x).isSome) :
    RelAct L D (fun _ _ => True) (ErofsTree.addLeaf Dir.default path x)
      (ErofsTree.addLeaf bareDir path true) :=
  relAct_addLeaf hs.grows hs.fresh (hs.names path) fun name hok => hs.item name x hok hx

theorem Shape.call {e : Dir Bool Unit} (h : RelDir L D [] b.root e) (c : Call) :
    ∃ e', RelDir L D [] (stateAfter (c.run b)).root e' := by
  have hroot : ∀ {b' : Builder} {act : EStateM Error (Dir Leaf DirInfo) Unit}
      {act' : EStateM Error (Dir Bool Unit) Unit}, RelAct L D (fun _ _ => True) act act' →
      RelDir L D [] b'.root e → ∃ e', RelDir L D [] (stateAfter (onRoot act b')).root e' := by
    intro b' act act' hact hb
    have hr := (hact [] b'.root e hb).stateAfter
    refine ⟨stateAfter (act' e), ?_⟩
    unfold onRoot
    cases ha : act b'.root with
    | ok a root =>
      rw [ha] at hr
      exact hr
    | error err root =>
      rw [ha] at hr
      exact hr
  have he := call_effect b c
  generalize c.run b = r at he
  cases he with
  | refused _ hsame => exact ⟨e, hsame.root.symm ▸ h⟩
  | file hsame _ => exact hroot (hs.addLeaf _ rfl) (hsame.root.symm ▸ h)
  | symlink hsame _ => exact hroot (hs.addLeaf _ rfl) (hsame.root.symm ▸ h)
  | @dir path _ m _ =>
    have hact : RelAct L D (fun _ _ => True)
        (ErofsTree.upsertDir Dir.default path fun d => { d with metadata := m })
        (ErofsTree.upsertDir bareDir path id) :=
      relAct_upsertDir hs.grows hs.fresh (hs.names path) fun name ns d u => hs.metadata name ns d m u
    exact hroot hact h
  | link => exact ⟨e, h⟩

theorem Shape.after {e : Dir Bool Unit} (h : RelDir L D [] b.root e) (calls : List Call) :
    ∃ e', RelDir L D [] (ErofsCursor.after b calls).root e' := by
  induction calls generalizing b e with
  | nil => exact ⟨e, h⟩
  | cons c calls ih =>
    obtain ⟨e', he'⟩ := hs.call h c
    exact ih he'

theorem Shape.resolveLinks {e : Dir Bool Unit} {b' : Builder} (h : RelDir L D [] b.root e)
    (hrun : ErofsBuilder.resolveLinks b = .ok () b') : ∃ e', RelDir L D [] b'.root e' := by
  obtain ⟨root, hloop, rfl⟩ := resolveLinks_ok hrun
  have hlink : ∀ l : Link, RelAct L D (fun _ _ => True) (resolveLink l)
      (linkAct bareDir linkable (fun _ _ => true) l) := fun l =>
    relAct_resolveLink hs.grows hs.fresh hs.linked (hs.names l.1) (hs.names l.2.1)
      fun _ _ name _ hok => hs.item name _ hok rfl
  have hforM := relRun_forM b.links (fun l _ => hlink l [])
  obtain ⟨_, e', -, -, hrel⟩ := (hforM b.root e h).ok_of_ok hloop
  exact ⟨e', hrel⟩

end Shape

theorem default_unpacked (name : Bytes) : RelDir IsItem Unpacked name Dir.default bareDir :=
  .dir ⟨rfl, by simp [Dir.default]⟩ (.cons (.leaf rfl) (.cons (.leaf rfl) .nil))

theorem isItem_linkable : Linkable IsItem (fun _ _ => True) linkable where
  file := by
    rintro name f y rfl
    exact ⟨(), rfl, trivial, rfl⟩
  symlink := by
    rintro name s y rfl
    exact ⟨(), rfl, trivial, rfl⟩
  dot := by
    rintro name y rfl
    rfl
  dotDot := by
    rintro name y rfl
    rfl

theorem unpacked_shape : Shape (fun _ => True) IsItem Unpacked where
  grows _ _ _ _ _ h hne _ := ⟨h.1, hne⟩
  fresh name _ := default_unpacked name
  item _ _ _ h := h
  linked := isItem_linkable
  metadata _ _ _ _ _ h := h
  names _ _ _ := trivial

theorem after_hasEntries {b : Builder} (hb : HasEntries b) (calls : List Call) :
    HasEntries (after b calls) := by
  obtain ⟨e, he⟩ := hb
  exact unpacked_shape.after he calls

theorem resolveLinks_hasEntries {b b' : Builder} (hb : HasEntries b)
    (h : resolveLinks b = .ok () b') : HasEntries b' := by
  obtain ⟨e, he⟩ := hb
  exact unpacked_shape.resolveLinks he h

end Unpacked

section Passes

def Fits (names : List Bytes) : Prop := ∀ name ∈ names, 12 + name.length ≤ blockSize

/-- From where the seek to its first block leaves the writer, the last pass
writes as many blocks as were reserved. -/
def WritesReserved (info : DirInfo) (cs : List Child) : Prop :=
  ∀ s info' s', writeDirents.onDirEnter info cs s = .ok info' s' →
    ∃ b, seekBlock info.startBlock.toNat s.1 = .ok () b ∧
      s'.1.writer.pos = b.writer.pos + info.nDirentsPerBlock.length * blockSize ∧
      s'.1.curDataBlock = b.curDataBlock + info.nDirentsPerBlock.length

theorem packed_fits {names : List Bytes} {counts : List ℕ} {total : ℕ}
    (h : Packed names counts total) : Fits names := by
  obtain ⟨front, last, rfl, -, -, hb⟩ := h
  intro name hm
  obtain ⟨block, hblock, hname⟩ := List.mem_flatten.mp hm
  obtain ⟨a, c, rfl⟩ := List.append_of_mem hname
  have hle := (hb _ hblock).2
  rw [need_append, need_cons] at hle
  omega

theorem packed_writes {info : DirInfo} {cs : List Child}
    (h : Packed (namesOf cs) info.nDirentsPerBlock info.totalSize) : WritesReserved info cs := by
  intro s info' s' hs
  obtain ⟨b₁, b₂, id, -, -, hseek, hwrite, rfl⟩ := writeDirents_enter hs
  obtain ⟨blocks, hcs, hcounts, -, hb, -⟩ := packed_children h
  rw [hcounts, hcs] at hwrite
  obtain ⟨hpos, hcur⟩ := writeDirentBlocks_moves blocks hb hwrite
  refine ⟨b₁, hseek, ?_, ?_⟩
  · rw [hpos, hcounts, List.length_map]
  · rw [hcur, hcounts, List.length_map]

theorem prepareDirents_packs {names : List Bytes} {d d' : DirInfo}
    (h : NamedDirStep prepareDirents names d d') (h0 : d.nDirentsPerBlock = []) (hne : names ≠ [])
    (hf : Fits names) : Packed names d'.nDirentsPerBlock d'.totalSize := by
  obtain ⟨cs, s, s₁, d₁, s₂, s', rfl, henter, hexit⟩ := h
  obtain ⟨rfl, -⟩ := pure_eq_ok.mp hexit
  obtain ⟨hprep, -⟩ := prepareDirents_ok henter
  exact (prepareDirentData_ok hprep h0 hf hne).2.1

def SameBlocks (d d' : DirInfo) : Prop :=
  d'.startBlock = d.startBlock ∧ d'.nDirentsPerBlock = d.nDirentsPerBlock ∧ d'.totalSize = d.totalSize

theorem writeDirInodes_sameBlocks {d d' : DirInfo} (h : DirStep writeDirInodes d d') :
    SameBlocks d d' := by
  obtain ⟨inode, id, -, rfl⟩ := writeDirInodes_dirStep h
  exact ⟨rfl, rfl, rfl⟩

def IsPacked (d : DirInfo) (names : List Bytes) : Prop := Packed names d.nDirentsPerBlock d.totalSize

def AllFit (_ : DirInfo) (names : List Bytes) : Prop := Fits names

def NotYetPacked (d : DirInfo) (names : List Bytes) : Prop := d.nDirentsPerBlock = [] ∧ names ≠ []

theorem packed_later {L : Bytes → Leaf → Leaf → Prop} {D : DirInfo → DirInfo → Prop}
    (hD : ∀ d d', D d d' → SameBlocks d d') {t t' : Dirent} (hr : Rel L (fun _ _ => D) [] t t')
    (h : t.EachDir (onNames IsPacked)) : t'.EachDir (onNames IsPacked) := by
  refine hr.eachDir ?_ h
  intro n ns d d' hd hp
  obtain ⟨-, hn, ht⟩ := hD d d' hd
  rw [IsPacked, hn, ht]
  exact hp

/-- The names in the directories are the same before and after a walk. -/
theorem fits_before {L : Bytes → Leaf → Leaf → Prop}
    {D : Bytes → List Bytes → DirInfo → DirInfo → Prop} {t t' : Dirent} (hr : Rel L D [] t t')
    (h : t'.EachDir (onNames AllFit)) : t.EachDir (onNames AllFit) := by
  refine hr.symm.eachDir ?_ h
  exact fun _ _ _ _ _ hp => hp

/-- Writing the tree out lays the directories next to each other, and packs
them if their names fit. -/
theorem writeTree_packs {b b' : Builder} (hb : HasEntries b) (h : writeTree b = .ok () b') :
    (∃ hi, Laid b.curDataBlock b'.root.toTree hi) ∧
      (b'.root.toTree.EachDir (onNames AllFit) → b'.root.toTree.EachDir (onNames IsPacked)) := by
  obtain ⟨root₁, b₁, root₂, b₂, root₃, b₃, root₄, b₄, parents, hw₁, hw₂, hw₃, hw₄, rfl⟩ :=
    writeTree_ok h
  obtain ⟨e, he⟩ := hb
  have hr₁ := walkTree_steps (n := []) _ hw₁
  have hr₂ := walkTree_nodes (n := []) _ hw₂
  have hr₃ := walkTree_nodes (n := []) _ hw₃
  have hr₄ := walkTree_nodes (n := []) _ hw₄
  have hwi : ∀ d d', DirStep writeInodes d d' → SameBlocks d d' := by
    intro d d' hd
    rw [writeInodes_dir hd]
    exact ⟨rfl, rfl, rfl⟩
  have hwd : ∀ d d', DirStep writeDirents d d' → SameBlocks d d' := by
    intro d d' hd
    rw [writeDirents_dir hd]
    exact ⟨rfl, rfl, rfl⟩
  constructor
  · have hlaid := prepareDirents_lays hw₁
    have h₂ := hlaid.of_rel (fun _ _ _ _ => writeDirInodes_blocks) hr₂
    have h₃ := h₂.of_rel (fun _ _ _ _ => writeInodes_blocks) hr₃
    exact ⟨_, h₃.of_rel (fun _ _ d d' hd => ⟨(hwd d d' hd).1, (hwd d d' hd).2.1⟩) hr₄⟩
  · intro hfits
    have hfresh : b.root.toTree.EachDir (onNames NotYetPacked) := by
      refine Rel.eachDir_left ?_ he
      exact fun _ _ _ _ h => h
    have hfits₀ := fits_before hr₁ (fits_before hr₂ (fits_before hr₃ (fits_before hr₄ hfits)))
    have hready : b.root.toTree.EachDir (onNames fun d ns => NotYetPacked d ns ∧ AllFit d ns) :=
      hfresh.imp (fun _ _ h h' => ⟨h, h'⟩) hfits₀
    have hp₁ : root₁.toTree.EachDir (onNames IsPacked) := by
      refine hr₁.eachDir ?_ hready
      rintro n ns d d' hd ⟨hn, hf⟩
      exact prepareDirents_packs hd hn.1 hn.2 hf
    exact packed_later hwd hr₄ (packed_later hwi hr₃
      (packed_later (fun _ _ => writeDirInodes_sameBlocks) hr₂ hp₁))

end Passes

section Claim

theorem finalize_packs {b b' : Builder} (hb : HasEntries b) (h : finalize b = .ok () b') :
    (∃ hi, Laid b.curDataBlock b'.root.toTree hi) ∧
      (b'.root.toTree.EachDir (onNames AllFit) → b'.root.toTree.EachDir (onNames IsPacked)) := by
  rw [finalize, bind_eq_ok] at h
  obtain ⟨_, b₁, hlinks, h1⟩ := h
  obtain ⟨_, b₂, htree, hsuper⟩ := bind_eq_ok.mp h1
  have hb₁ := resolveLinks_hasEntries hb hlinks
  obtain ⟨root, -, rfl⟩ := resolveLinks_ok hlinks
  have hpacks := writeTree_packs hb₁ htree
  rw [writeSuperblock_root hsuper]
  exact hpacks

/-- In a build that succeeds, the entries of every directory are split in
order into blocks that are not empty and not overfull, as many as are
reserved and written, if and only if every name fits a block. -/
theorem dirents_packed_iff (config : BuilderConfig) (calls : List Call) (b' : Builder)
    (h : finalize (after (Builder.new config) calls) = .ok () b') :
    (b'.root.toTree.EachDir (fun d cs => Packed (cs.map (·.1)) d.nDirentsPerBlock d.totalSize ∧
        WritesReserved d cs) ∧
      ∃ hi, Laid (after (Builder.new config) calls).curDataBlock b'.root.toTree hi) ↔
      b'.root.toTree.EachDir (fun _ cs => ∀ name ∈ cs.map (·.1), 12 + name.length ≤ blockSize) := by
  have hnew : HasEntries (Builder.new config) := ⟨bareDir, default_unpacked []⟩
  obtain ⟨hlaid, hpacks⟩ := finalize_packs (after_hasEntries hnew calls) h
  constructor
  · rintro ⟨hpacked, -⟩
    exact hpacked.imp (fun _ _ hp _ => packed_fits hp.1) hpacked
  · intro hfits
    have hpacked := hpacks hfits
    exact ⟨hpacked.imp (fun _ _ hp _ => ⟨hp, packed_writes hp⟩) hpacked, hlaid⟩

/-- A build with a file `a`. -/
theorem dirents_packed_small :
    ∃ b', finalize (after unlimited [emptyFile [0x61]]) = .ok () b' ∧
      b'.root.toTree.EachDir (fun d cs => Packed (cs.map (·.1)) d.nDirentsPerBlock d.totalSize ∧
        WritesReserved d cs) := by
  have hok : result (finalize (after unlimited [emptyFile [0x61]])) = .ok () := by decide +kernel
  refine ⟨_, ok_of_result hok, ?_⟩
  exact ((dirents_packed_iff ⟨none, none⟩ [emptyFile [0x61]] _ (ok_of_result hok)).mpr
    (by decide +kernel)).1

def longName : Bytes := List.replicate 4085 0x61

/-- A build with a file whose name is too long for a block succeeds. -/
theorem long_name_overfull :
    ∃ b', finalize (after unlimited [emptyFile longName]) = .ok () b' ∧
      ¬ b'.root.toTree.EachDir fun d cs => Packed (cs.map (·.1)) d.nDirentsPerBlock d.totalSize := by
  have hok : result (finalize (after unlimited [emptyFile longName])) = .ok () := by decide +kernel
  have hlong : (stateAfter (finalize (after unlimited [emptyFile longName]))).root.children.any
      (fun c => 4085 ≤ c.1.length) = true := by decide +kernel
  refine ⟨_, ok_of_result hok, ?_⟩
  intro h
  obtain ⟨c, hc, hlen⟩ := List.any_eq_true.mp hlong
  have hfits := packed_fits h.1 c.1 (List.mem_map_of_mem hc)
  have hlen := of_decide_eq_true hlen
  simp only [blockSize] at hfits
  omega

end Claim

end ProgramExplorer.ErofsPacking
