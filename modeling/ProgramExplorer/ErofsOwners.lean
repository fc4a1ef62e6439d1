import ProgramExplorer.ErofsFinalize
import ProgramExplorer.ErofsLinks

/-!
# Who owns the inodes

The builder adds a fixed number to the owner of what it is given. The tree of
owners that the callers named is compared with the owners in the inodes that
are made at the end. They differ by that number except where an inode comes
from no call that adds it: a directory that no one has described, and the
file that stands for a hard link.
-/

set_option autoImplicit false

namespace ProgramExplorer.ErofsOwners
open ByteStrings UnixPath StateRules FileTree ErofsTree ErofsTreeRelation ErofsDisk
open ErofsBuilder ErofsCursor ErofsContents ErofsCalls ErofsLinks ErofsWalk ErofsPasses
open ErofsDirentPass ErofsFinalize ErofsPlacement

structure Ids where
  uid : ℕ
  gid : ℕ
  deriving DecidableEq

def Ids.add (ids : Ids) (k : ℕ) : Ids := ⟨ids.uid + k, ids.gid + k⟩

theorem Ids.add_eq_self {ids : Ids} {k : ℕ} : ids.add k = ids ↔ k = 0 := by
  cases ids
  simp [Ids.add]

def idsOf (metadata : Meta) : Ids := ⟨metadata.uid.toNat, metadata.gid.toNat⟩

inductive Owner where
  | caller (ids : Ids)
  | link (ids : Ids)
  | special

section Named

def unnamed : Dir Owner (Option Ids) where
  info := none
  children := [([dot], .leaf .special), ([dot, dot], .leaf .special)]

def nameCall : Call → EStateM Error (Dir Owner (Option Ids)) Unit
  | .addFile path metadata _ _ => addLeaf unnamed path (.caller (idsOf metadata))
  | .addSymlink path _ metadata => addLeaf unnamed path (.caller (idsOf metadata))
  | .upsertDir path metadata => ErofsTree.upsertDir unnamed path fun _ => some (idsOf metadata)
  | .addLink _ _ _ => pure ()

def isTarget : Owner → Option Unit
  | .caller _ | .link _ => some ()
  | .special => none

def nameLink : Link → EStateM Error (Dir Owner (Option Ids)) Unit :=
  linkAct unnamed isTarget fun metadata _ => .link (idsOf metadata)

def named (calls : List Call) : Dir Owner (Option Ids) :=
  stateAfter ((do
    calls.forM nameCall
    (calls.filterMap linkOf).forM nameLink : EStateM Error (Dir Owner (Option Ids)) Unit) unnamed)

/-- The owner an inode should have: what the caller gave plus `k`, where a
directory that was made on the way counts as given with zeros. -/
def wanted (k : UInt32) : Owner → Option Ids
  | .caller ids | .link ids => some (ids.add k.toNat)
  | .special => none

def wantedDir (k : UInt32) (ids : Option Ids) : Option Ids := some ((ids.getD ⟨0, 0⟩).add k.toNat)

def inodeIds (inode : InodeExtended) : Ids := ⟨inode.uid.toNat, inode.gid.toNat⟩

def leafIds (x : Leaf) : Option Ids := do
  let i ← item x
  let inode ← (makeInode i.fileType i.len i.startBlock i.metadata i.tail i.nLinks).toOption
  some (inodeIds inode)

def dirIds (info : DirInfo) : Option Ids := do
  let inode ← (makeInode .directory info.totalSize info.startBlock info.metadata none 1).toOption
  some (inodeIds inode)

end Named

section Relation

def found (k : UInt32) : Owner → Option Ids
  | .caller ids => some (ids.add k.toNat)
  | .link ids => some ids
  | .special => none

def foundDir (k : UInt32) : Option Ids → Ids
  | some ids => ids.add k.toNat
  | none => ⟨0, 0⟩

def leafMeta (x : Leaf) : Option Meta := (item x).map (·.metadata)

/-- The owner stored in the tree is the one that the run of calls leaves. -/
def LeafOwn (k : UInt32) (_ : Bytes) (x : Leaf) (o : Owner) : Prop :=
  (leafMeta x).map idsOf = found k o

def DirOwn (k : UInt32) (_ : Bytes) (_ : List Bytes) (info : DirInfo) (g : Option Ids) : Prop :=
  idsOf info.metadata = foundDir k g

theorem dirOwn_grows (k : UInt32) : Grows (fun _ => True) (DirOwn k) := fun _ _ _ _ _ h _ _ => h

theorem default_owned (k : UInt32) (name : Bytes) :
    RelDir (LeafOwn k) (DirOwn k) name Dir.default unnamed :=
  .dir rfl (.cons (.leaf rfl) (.cons (.leaf rfl) .nil))

theorem hooked_ids {k : UInt32} {metadata m : Meta} (h : hooked (some k) metadata = .ok m) :
    idsOf m = (idsOf metadata).add k.toNat := by
  obtain ⟨uid, hu, h⟩ := except_bind_eq_ok.mp h
  obtain ⟨gid, hg, h⟩ := except_bind_eq_ok.mp h
  cases h
  simp only [idsOf, Ids.add, toU32_ok hu, toU32_ok hg]

theorem onRoot_result {α : Type} {act : EStateM Error (Dir Leaf DirInfo) α} {a : α} {b b' : Builder}
    (h : onRoot act b = .ok a b') :
    act b.root = .ok a b'.root ∧ b'.links = b.links ∧ b'.incrementUidGid = b.incrementUidGid := by
  obtain ⟨root, hr, rfl⟩ := onRoot_ok h
  exact ⟨hr, rfl, rfl⟩

structure Owned (k : UInt32) (b : Builder) (e : Dir Owner (Option Ids)) (links : List Link) : Prop where
  increment : b.incrementUidGid = some k
  links : b.links = links
  root : RelDir (LeafOwn k) (DirOwn k) [] b.root e

end Relation

section Run

variable {k : UInt32}

theorem own_addLeaf {b b₁ b' : Builder} {e : Dir Owner (Option Ids)} {links : List Link}
    (h : Owned k b e links) (hs : Same b b₁) {path : Bytes} {x : Leaf} {o : Owner}
    (hx : LeafOwn k [] x o) (hok : onRoot (addLeaf Dir.default path x) b₁ = .ok () b') :
    ∃ e', addLeaf unnamed path o e = .ok () e' ∧ Owned k b' e' links := by
  obtain ⟨hr, hl, hi⟩ := onRoot_result hok
  rw [hs.root] at hr
  have hact : RelAct (LeafOwn k) (DirOwn k) (fun _ _ => True) (addLeaf Dir.default path x)
      (addLeaf unnamed path o) :=
    relAct_addLeaf (dirOwn_grows k) (fun name _ => default_owned k name) (fun _ _ => trivial)
      (fun _ _ => hx)
  obtain ⟨_, e', he, -, hrel⟩ := (hact [] b.root e h.root).ok_of_ok hr
  exact ⟨e', he, hi.trans (hs.increment.trans h.increment), hl.trans (hs.links.trans h.links), hrel⟩

theorem own_upsertDir {b b' : Builder} {e : Dir Owner (Option Ids)} {links : List Link}
    (h : Owned k b e links) {path : Bytes} {m : Meta} {ids : Ids} (hm : idsOf m = ids.add k.toNat)
    (hok : onRoot (ErofsTree.upsertDir Dir.default path fun d => { d with metadata := m }) b =
      .ok () b') :
    ∃ e', ErofsTree.upsertDir unnamed path (fun _ => some ids) e = .ok () e' ∧ Owned k b' e' links := by
  obtain ⟨hr, hl, hi⟩ := onRoot_result hok
  have hact : RelAct (LeafOwn k) (DirOwn k) (fun _ _ => True)
      (ErofsTree.upsertDir Dir.default path fun d => { d with metadata := m })
      (ErofsTree.upsertDir unnamed path fun _ => some ids) :=
    relAct_upsertDir (dirOwn_grows k) (fun name _ => default_owned k name) (fun _ _ => trivial)
      (fun _ _ _ _ _ => hm)
  obtain ⟨_, e', he, -, hrel⟩ := (hact [] b.root e h.root).ok_of_ok hr
  exact ⟨e', he, hi.trans h.increment, hl.trans h.links, hrel⟩

theorem owned_call {b b' : Builder} {e : Dir Owner (Option Ids)} {links : List Link}
    (h : Owned k b e links) {c : Call} (hok : c.run b = .ok () b') :
    ∃ e', nameCall c e = .ok () e' ∧ Owned k b' e' (links ++ (linkOf c).toList) := by
  have heff := call_effect b c
  generalize c.run b = r at heff hok
  cases heff with
  | refused => cases hok
  | @file path metadata len contents f _ hs hm =>
    rw [h.increment] at hm
    have hx : LeafOwn k [] (.file f) (.caller (idsOf metadata)) := congrArg some (hooked_ids hm)
    simp only [linkOf, Option.toList_none, List.append_nil]
    exact own_addLeaf h hs hx hok
  | @symlink path link metadata s _ hs hm =>
    rw [h.increment] at hm
    have hx : LeafOwn k [] (.symlink s) (.caller (idsOf metadata)) := congrArg some (hooked_ids hm)
    simp only [linkOf, Option.toList_none, List.append_nil]
    exact own_addLeaf h hs hx hok
  | dir hm =>
    rw [h.increment] at hm
    simp only [linkOf, Option.toList_none, List.append_nil]
    exact own_upsertDir h (hooked_ids hm) hok
  | link =>
    cases hok
    exact ⟨e, rfl, h.increment, by rw [h.links]; rfl, h.root⟩

theorem owned_run {b : Builder} {e : Dir Owner (Option Ids)} {links : List Link}
    (h : Owned k b e links) (cs : List Call) (hok : AllOk b cs) :
    ∃ e', cs.forM nameCall e = .ok () e' ∧ Owned k (after b cs) e' (links ++ cs.filterMap linkOf) := by
  induction cs generalizing b e links with
  | nil => exact ⟨e, rfl, by simpa [after] using h⟩
  | cons c cs ih =>
    obtain ⟨e₁, he₁, h₁⟩ := owned_call h (ok_of_result hok.1)
    obtain ⟨e₂, he₂, h₂⟩ := ih h₁ hok.2
    refine ⟨e₂, bind_eq_ok.mpr ⟨(), e₁, he₁, he₂⟩, ?_⟩
    cases hl : linkOf c with
    | none => simpa [hl, after] using h₂
    | some l => simpa [hl, after] using h₂

theorem leafOwn_linkable (k : UInt32) : Linkable (LeafOwn k) (fun _ _ => True) isTarget where
  file := by
    intro name f y h
    cases y with
    | special => cases h
    | caller ids => exact ⟨(), rfl, trivial, h⟩
    | link ids => exact ⟨(), rfl, trivial, h⟩
  symlink := by
    intro name s y h
    cases y with
    | special => cases h
    | caller ids => exact ⟨(), rfl, trivial, h⟩
    | link ids => exact ⟨(), rfl, trivial, h⟩
  dot := by
    intro name y h
    cases y with
    | special => rfl
    | caller ids => cases h
    | link ids => cases h
  dotDot := by
    intro name y h
    cases y with
    | special => rfl
    | caller ids => cases h
    | link ids => cases h

theorem owned_links {root root' : Dir Leaf DirInfo} {e : Dir Owner (Option Ids)} {links : List Link}
    (h : RelDir (LeafOwn k) (DirOwn k) [] root e) (hok : links.forM resolveLink root = .ok () root') :
    ∃ e', links.forM nameLink e = .ok () e' ∧ RelDir (LeafOwn k) (DirOwn k) [] root' e' := by
  have hact : RelRun (RelDir (LeafOwn k) (DirOwn k) []) (fun _ _ => True) (links.forM resolveLink)
      (links.forM nameLink) := by
    refine relRun_forM links fun link _ => ?_
    have hstep : RelAct (LeafOwn k) (DirOwn k) (fun _ _ => True) (resolveLink link) (nameLink link) :=
      relAct_resolveLink (dirOwn_grows k) (fun name _ => default_owned k name)
        (leafOwn_linkable k) (fun _ _ => trivial) (fun _ _ => trivial) (fun _ _ _ _ _ => rfl)
    exact hstep []
  obtain ⟨_, e', he, -, hrel⟩ := (hact root e h).ok_of_ok hok
  exact ⟨e', he, hrel⟩

end Run

section Passes

def leafOwner (x : Leaf) : Option Ids := (leafMeta x).map idsOf

def dirOwner (info : DirInfo) : Option Ids := some (idsOf info.metadata)

def LeafMade (x : Leaf) : Prop := leafIds x = leafOwner x

def DirMade (info : DirInfo) : Prop := dirIds info = dirOwner info

theorem made_ids {fileType : FileType} {size : ℕ} {startBlock : UInt32} {metadata : Meta}
    {tail : Option Bytes} {nLinks : UInt32} {inode : InodeExtended}
    (h : makeInode fileType size startBlock metadata tail nLinks = .ok inode) :
    inodeIds inode = idsOf metadata := by
  obtain ⟨-, -, -, -, -, huid, hgid, -⟩ := makeInode_ok h
  rw [inodeIds, idsOf, huid, hgid]

theorem prepareDirents_leaf {x x' : Leaf} (h : LeafStep prepareDirents x x') : x' = x := by
  obtain ⟨s, s', hw⟩ := h
  cases x <;> cases hw <;> rfl

theorem writeDirInodes_leaf {x x' : Leaf} (h : LeafStep writeDirInodes x x') : x' = x := by
  obtain ⟨s, s', hw⟩ := h
  cases x <;> cases hw <;> rfl

theorem writeDirents_leaf {x x' : Leaf} (h : LeafStep writeDirents x x') : x' = x := by
  obtain ⟨s, s', hw⟩ := h
  cases x <;> cases hw <;> rfl

theorem writeInodes_special {x x' : Leaf} (hi : item x = none) (h : LeafStep writeInodes x x') :
    x' = x := by
  obtain ⟨s, s', hw⟩ := h
  cases x with
  | file f => cases hi
  | symlink f => cases hi
  | dot =>
    cases hw
    rfl
  | dotDot =>
    cases hw
    rfl

theorem writeInodes_owner {x x' : Leaf} (h : LeafStep writeInodes x x') :
    leafOwner x' = leafOwner x ∧ LeafMade x' := by
  cases hi : item x with
  | none =>
    rw [writeInodes_special hi h]
    exact ⟨rfl, by simp [LeafMade, leafIds, leafOwner, leafMeta, hi]⟩
  | some i =>
    obtain ⟨s, s', hw⟩ := h
    obtain ⟨stats, inode, id, hmake, -, hx⟩ := writeInodes_leaf hi hw
    have howner : leafOwner x' = some (idsOf i.metadata) := by simp [leafOwner, leafMeta, hx]
    refine ⟨by rw [howner]; simp [leafOwner, leafMeta, hi], ?_⟩
    rw [LeafMade, howner, leafIds, hx]
    simp only [Option.bind_eq_bind, Option.bind_some, hmake, Except.toOption, made_ids hmake]

theorem prepareDirents_dir {d d' : DirInfo} (h : DirStep prepareDirents d d') :
    d'.metadata = d.metadata := by
  obtain ⟨cs, s, s₁, d₁, s₂, s', henter, hexit⟩ := h
  obtain ⟨rfl, -⟩ := pure_eq_ok.mp hexit
  obtain ⟨hprep, -⟩ := prepareDirents_ok henter
  obtain ⟨start, -, hprep⟩ := except_bind_eq_ok.mp hprep
  simp only at hprep
  split_ifs at hprep
  cases hprep
  rfl

theorem writeDirInodes_dir {d d' : DirInfo} (h : DirStep writeDirInodes d d') :
    d'.metadata = d.metadata ∧ DirMade d' := by
  obtain ⟨inode, id, hmake, rfl⟩ := writeDirInodes_dirStep h
  refine ⟨rfl, ?_⟩
  simp only [DirMade, dirIds, hmake, Except.toOption, Option.bind_eq_bind, Option.bind_some,
    made_ids hmake, dirOwner]

theorem writeDirents_dir {d d' : DirInfo} (h : DirStep writeDirents d d') : d' = d := by
  obtain ⟨cs, s, s₁, d₁, s₂, s', henter, hexit⟩ := h
  obtain ⟨b₁, b₂, id, rfl, -⟩ := writeDirents_enter henter
  cases hexit
  rfl

/-- Writing the tree out keeps whatever the passes that place the nodes leave alone. -/
theorem writeTree_map_eq {φ δ : Type} {f : Leaf → φ} {g : DirInfo → δ} {b b' : Builder}
    (hf : ∀ x x', LeafStep writeInodes x x' → f x' = f x)
    (hp : ∀ d d', DirStep prepareDirents d d' → g d' = g d)
    (hg : ∀ d d', DirStep writeDirInodes d d' → g d' = g d) (h : writeTree b = .ok () b') :
    b'.root.toTree.map f g = b.root.toTree.map f g := by
  obtain ⟨root₁, b₁, root₂, b₂, root₃, b₃, root₄, b₄, parents, hw₁, hw₂, hw₃, hw₄, rfl⟩ :=
    writeTree_ok h
  have h₁ : root₁.toTree.map f g = b.root.toTree.map f g := by
    refine ((walkTree_nodes (n := []) _ hw₁).map_eq (fun _ _ _ h => ?_) fun _ _ _ _ h => ?_).symm
    · rw [prepareDirents_leaf h]
    · exact (hp _ _ h).symm
  have h₂ : root₂.toTree.map f g = root₁.toTree.map f g := by
    refine ((walkTree_nodes (n := []) _ hw₂).map_eq (fun _ _ _ h => ?_) fun _ _ _ _ h => ?_).symm
    · rw [writeDirInodes_leaf h]
    · exact (hg _ _ h).symm
  have h₃ : root₃.toTree.map f g = root₂.toTree.map f g := by
    refine ((walkTree_nodes (n := []) _ hw₃).map_eq (fun _ _ _ h => ?_) fun _ _ _ _ h => ?_).symm
    · exact (hf _ _ h).symm
    · rw [writeInodes_dir h]
  have h₄ : root₄.toTree.map f g = root₃.toTree.map f g := by
    refine ((walkTree_nodes (n := []) _ hw₄).map_eq (fun _ _ _ h => ?_) fun _ _ _ _ h => ?_).symm
    · rw [writeDirents_leaf h]
    · rw [writeDirents_dir h]
  exact h₄.trans (h₃.trans (h₂.trans h₁))

/-- Writing the tree out keeps the owners and makes an inode for every node. -/
theorem writeTree_owners {b b' : Builder} (h : writeTree b = .ok () b') :
    b'.root.toTree.map leafOwner dirOwner = b.root.toTree.map leafOwner dirOwner ∧
      b'.root.toTree.All LeafMade DirMade := by
  constructor
  · refine writeTree_map_eq (fun _ _ hx => (writeInodes_owner hx).1) (fun _ _ hd => ?_) (fun _ _ hd => ?_) h
    · rw [dirOwner, dirOwner, prepareDirents_dir hd]
    · rw [dirOwner, dirOwner, (writeDirInodes_dir hd).1]
  · obtain ⟨root₁, b₁, root₂, b₂, root₃, b₃, root₄, b₄, parents, hw₁, hw₂, hw₃, hw₄, rfl⟩ :=
      writeTree_ok h
    have hr₂ := walkTree_nodes (n := []) _ hw₂
    have hr₃ := walkTree_nodes (n := []) _ hw₃
    have hr₄ := walkTree_nodes (n := []) _ hw₄
    have h₂ : root₂.toTree.All (fun _ => True) DirMade := by
      refine hr₂.all (Q := fun _ => True) (fun _ _ _ _ _ => trivial) ?_ (Tree.all_true _)
      exact fun _ _ _ _ _ h => (writeDirInodes_dir h).2
    have h₃ : root₃.toTree.All LeafMade DirMade := by
      refine hr₃.all (P := fun _ => True) (Q := DirMade) ?_ ?_ h₂
      · intro _ x x' _ h
        exact (writeInodes_owner h).2
      · intro _ _ d d' hd h
        rwa [writeInodes_dir h]
    refine hr₄.all (P := LeafMade) (Q := DirMade) ?_ ?_ h₃
    · intro _ x x' hx h
      rwa [writeDirents_leaf h]
    · intro _ _ d d' hd h
      rwa [writeDirents_dir h]

end Passes

section Survival

variable {φ δ : Type} {P : φ → Prop} {Q : δ → Prop} {p : Prop}

def Plants (P : φ → Prop) (Q : δ → Prop) (p : Prop) (act : EStateM Error (Dir φ δ) Unit) : Prop :=
  ∀ d d', act d = .ok () d' → d'.toTree.All P Q → p

theorem allList_upsert {name : Bytes} {t : Tree φ δ} {cs : List (Bytes × Tree φ δ)}
    (h : AllList P Q (OrderedMap.upsertList name (fun _ => t) cs)) : t.All P Q := by
  induction cs with
  | nil => exact h.1
  | cons c cs ih =>
    rw [OrderedMap.upsertList] at h
    split_ifs at h
    · exact h.1
    · exact h.1
    · exact ih h.2

theorem all_of_setChild {name : Bytes} {t : Tree φ δ} {d : Dir φ δ}
    (h : (setChild name t d).toTree.All P Q) : t.All P Q := allList_upsert h.2

theorem plants_getOrCreateDir {dflt : Dir φ δ} {name : Bytes} {act : EStateM Error (Dir φ δ) Unit}
    (h : Plants P Q p act) : Plants P Q p (getOrCreateDir dflt name act) := by
  have hzoom : ∀ child d d', zoom name child d act = .ok () d' → d'.toTree.All P Q → p := by
    intro child d d' hz hall
    unfold zoom at hz
    split at hz
    · rename_i child' hact
      cases hz
      exact h child child' hact (all_of_setChild hall)
    · cases hz
  intro d d' hr hall
  unfold getOrCreateDir at hr
  split at hr
  · exact hzoom _ _ _ hr hall
  · cases hr
  · exact hzoom _ _ _ hr hall

theorem plants_throw (e : Error) : Plants P Q p (throw e : EStateM Error (Dir φ δ) Unit) :=
  fun _ _ h => nomatch h

theorem plants_lookupLoop {dflt : Dir φ δ} {k : Option Bytes → EStateM Error (Dir φ δ) Unit}
    (hk : ∀ o, Plants P Q p (k o)) (cs : List Component) :
    Plants P Q p (lookupLoop (getOrCreateDir dflt) k cs) := by
  induction cs with
  | nil => exact hk none
  | cons c cs ih =>
    cases cs with
    | nil =>
      cases c with
      | normal name => exact hk (some name)
      | curDir => exact hk none
      | rootDir => exact plants_throw _
      | parentDir => exact plants_throw _
    | cons c' cs =>
      cases c with
      | normal name => exact plants_getOrCreateDir ih
      | curDir => exact ih
      | rootDir => exact ih
      | parentDir => exact plants_throw _

theorem plants_addLeaf (dflt : Dir φ δ) (path : Bytes) (x : φ) :
    Plants P Q (P x) (addLeaf dflt path x) := by
  unfold addLeaf ErofsTree.insert lookupCreate lookupImpl
  split_ifs
  · exact plants_throw _
  · exact plants_throw _
  · exact plants_throw _
  · refine plants_lookupLoop (fun o => ?_) _
    cases o with
    | none => exact plants_throw _
    | some name =>
      intro d d' hr hall
      obtain rfl := modify_eq_ok.mp hr
      exact all_of_setChild hall

end Survival

section Links

def NotLink : Owner → Prop
  | .link _ => False
  | _ => True

/-- Once a link is resolved its leaf stays or gives way to a later link. -/
theorem links_survive {links : List Link} {e e' : Dir Owner (Option Ids)}
    (h : links.forM nameLink e = .ok () e') (hall : e'.toTree.All NotLink fun _ => True) :
    links = [] := by
  induction links generalizing e with
  | nil => rfl
  | cons link links ih =>
    obtain ⟨_, e₁, h1, h2⟩ := bind_eq_ok.mp h
    have hnil := ih h2
    rw [hnil] at h2
    obtain ⟨-, rfl⟩ := pure_eq_ok.mp h2
    obtain ⟨_, e₂, -, hadd⟩ := bind_eq_ok.mp h1
    exact absurd (plants_addLeaf _ _ _ e₂ _ hadd hall) id

theorem nameCall_notLink (c : Call) {e e' : Dir Owner (Option Ids)}
    (hall : e.toTree.All NotLink fun _ => True) (h : nameCall c e = .ok () e') :
    e'.toTree.All NotLink fun _ => True := by
  have hdflt : unnamed.toTree.All NotLink fun _ => True := ⟨trivial, trivial, trivial, trivial⟩
  have hafter : (stateAfter (nameCall c e)).toTree.All NotLink fun _ => True := by
    cases c with
    | addFile path metadata len contents => exact addLeaf_all hdflt trivial hall
    | addSymlink path link metadata => exact addLeaf_all hdflt trivial hall
    | upsertDir path metadata =>
      unfold nameCall
      exact upsertDir_all hdflt hall
    | addLink path target metadata => exact hall
  rw [h] at hafter
  exact hafter

theorem calls_notLink {cs : List Call} {e e' : Dir Owner (Option Ids)}
    (hall : e.toTree.All NotLink fun _ => True) (h : cs.forM nameCall e = .ok () e') :
    e'.toTree.All NotLink fun _ => True := by
  induction cs generalizing e with
  | nil =>
    obtain ⟨-, rfl⟩ := pure_eq_ok.mp h
    exact hall
  | cons c cs ih =>
    obtain ⟨_, e₁, h1, h2⟩ := bind_eq_ok.mp h
    exact ih (nameCall_notLink c hall h1) h2

end Links

section Offset

variable {k : UInt32}

theorem writeSuperblock_root {b b' : Builder} (h : writeSuperblock b = .ok () b') :
    b'.root = b.root := by
  rw [writeSuperblock, bind_eq_ok] at h
  obtain ⟨b₁, b₂, hget, h1⟩ := h
  obtain ⟨rfl, rfl⟩ := get_eq_ok.mp hget
  obtain ⟨m, b₃, hmeta, h2⟩ := bind_eq_ok.mp h1
  obtain ⟨-, rfl⟩ := check_eq_ok.mp hmeta
  obtain ⟨addr, b₄, haddr, h3⟩ := bind_eq_ok.mp h2
  obtain ⟨-, rfl⟩ := check_eq_ok.mp haddr
  obtain ⟨id, b₅, hid, h4⟩ := bind_eq_ok.mp h3
  obtain ⟨-, rfl⟩ := check_eq_ok.mp hid
  obtain ⟨_, b₆, hreq, h5⟩ := bind_eq_ok.mp h4
  obtain ⟨-, rfl⟩ := require_eq_ok.mp hreq
  obtain rfl := set_eq_ok.mp h5
  rfl

/-- The inodes made at the end have the owners that the calls leave. -/
theorem finalize_owners {b b' : Builder} {e : Dir Owner (Option Ids)} {links : List Link}
    (h : Owned k b e links) (hfin : finalize b = .ok () b') :
    ∃ e', links.forM nameLink e = .ok () e' ∧
      b'.root.toTree.map leafIds dirIds = e'.toTree.map (found k) (fun g => some (foundDir k g)) := by
  rw [finalize, bind_eq_ok] at hfin
  obtain ⟨_, b₁, hlinks, h1⟩ := hfin
  obtain ⟨_, b₂, htree, h2⟩ := bind_eq_ok.mp h1
  obtain ⟨root, hresolve, rfl⟩ := resolveLinks_ok hlinks
  rw [h.links] at hresolve
  obtain ⟨e', he', hrel⟩ := owned_links h.root hresolve
  obtain ⟨howners, hmade⟩ := writeTree_owners htree
  refine ⟨e', he', ?_⟩
  rw [writeSuperblock_root h2]
  have hids : b₂.root.toTree.map leafIds dirIds = b₂.root.toTree.map leafOwner dirOwner :=
    (Tree.map_eq_map_iff _).mpr hmade
  have hfound : root.toTree.map leafOwner dirOwner =
      e'.toTree.map (found k) fun g => some (foundDir k g) :=
    hrel.map_eq (fun _ _ _ hx => hx) fun _ _ _ _ hd => congrArg some hd
  exact hids.trans (howners.trans hfound)

theorem found_eq_wanted {o : Owner} : found k o = wanted k o ↔ k = 0 ∨ NotLink o := by
  cases o with
  | caller ids => simp [found, wanted, NotLink]
  | special => simp [found, wanted, NotLink]
  | link ids =>
    have hk : k.toNat = 0 ↔ k = 0 := by
      rw [← UInt32.toNat_inj]
      rfl
    simp [found, wanted, NotLink, eq_comm (a := ids), Ids.add_eq_self, hk]

theorem foundDir_eq_wantedDir {g : Option Ids} :
    some (foundDir k g) = wantedDir k g ↔ k = 0 ∨ g.isSome := by
  cases g with
  | some ids => simp [foundDir, wantedDir]
  | none =>
    have hk : k.toNat = 0 ↔ k = 0 := by
      rw [← UInt32.toNat_inj]
      rfl
    simp [foundDir, wantedDir, eq_comm (a := (⟨0, 0⟩ : Ids)), Ids.add_eq_self, hk]

theorem all_or {φ δ : Type} {p : Prop} {P : φ → Prop} {Q : δ → Prop} (t : Tree φ δ) :
    t.All (fun x => p ∨ P x) (fun d => p ∨ Q d) ↔ p ∨ t.All P Q := by
  by_cases hp : p
  · simp only [hp, true_or, iff_true]
    exact t.all_true
  · simp only [hp, false_or]

/-- The links of the calls are the only leaves of the tree that a caller did
not have raised. -/
theorem named_notLink_iff {calls : List Call} {e₁ e₂ : Dir Owner (Option Ids)}
    (hcalls : calls.forM nameCall unnamed = .ok () e₁)
    (hlinks : (calls.filterMap linkOf).forM nameLink e₁ = .ok () e₂) :
    (e₂.toTree.All NotLink fun _ => True) ↔ ∀ c ∈ calls, linkOf c = none := by
  rw [← List.filterMap_eq_nil_iff]
  constructor
  · exact links_survive hlinks
  · intro hnil
    rw [hnil] at hlinks
    obtain ⟨-, rfl⟩ := pure_eq_ok.mp hlinks
    have hunnamed : unnamed.toTree.All NotLink fun _ => True := ⟨trivial, trivial, trivial, trivial⟩
    exact calls_notLink hunnamed hcalls

/-- After calls that all succeed and an `into_inner` that succeeds, every
inode has the owner that was asked for plus `k` exactly when `k` is zero, or
no call was a link and every directory was described by a call. -/
theorem id_offset_iff (maxFileSize : Option UInt64) (k : UInt32) (calls : List Call)
    (hok : AllOk (Builder.new ⟨maxFileSize, some k⟩) calls) (b : Builder)
    (hfin : finalize (after (Builder.new ⟨maxFileSize, some k⟩) calls) = .ok () b) :
    b.root.toTree.map leafIds dirIds = (named calls).toTree.map (wanted k) (wantedDir k) ↔
      k = 0 ∨ (∀ c ∈ calls, linkOf c = none) ∧
        (named calls).toTree.All (fun _ => True) fun ids => ids.isSome := by
  have hnew : Owned k (Builder.new ⟨maxFileSize, some k⟩) unnamed [] :=
    ⟨rfl, rfl, default_owned k []⟩
  obtain ⟨e₁, hcalls, howned⟩ := owned_run hnew calls hok
  obtain ⟨e₂, hlinks, hfound⟩ := finalize_owners howned hfin
  rw [List.nil_append] at hlinks
  have hnamed : named calls = e₂ := by
    rw [named, bind_eq_ok.mpr ⟨(), e₁, hcalls, hlinks⟩]
    rfl
  rw [hnamed, hfound, Tree.map_eq_map_iff, ← named_notLink_iff hcalls hlinks,
    ← Tree.all_iff_leaves_dirs, ← all_or]
  simp only [found_eq_wanted, foundDir_eq_wantedDir]

end Offset

section Cases

def withIds (uid gid : UInt32) : Meta := { Meta.default with uid := uid, gid := gid }

def describedRoot : List Call :=
  [.upsertDir [dot] (withIds 5 6), .addFile [0x61] (withIds 7 8) 1 ⟨[9], false⟩]

theorem id_offset_described_root :
    ∃ b, finalize (after (Builder.new ⟨none, some 1000⟩) describedRoot) = .ok () b ∧
      b.root.toTree.map leafIds dirIds =
        .dir (some ⟨1005, 1006⟩) [([dot], .leaf none), ([dot, dot], .leaf none),
          ([0x61], .leaf (some ⟨1007, 1008⟩))] := by
  have hok : AllOk (Builder.new ⟨none, some 1000⟩) describedRoot :=
    ⟨by decide +kernel, by decide +kernel, trivial⟩
  have hfin : result (finalize (after (Builder.new ⟨none, some 1000⟩) describedRoot)) = .ok () := by
    decide +kernel
  refine ⟨_, ok_of_result hfin, ?_⟩
  have hnamed : named describedRoot = ⟨some ⟨5, 6⟩, [([dot], .leaf .special),
    ([dot, dot], .leaf .special), ([0x61], .leaf (.caller ⟨7, 8⟩))]⟩ := rfl
  rw [(id_offset_iff none 1000 describedRoot hok _ (ok_of_result hfin)).mpr, hnamed]
  · rfl
  · refine Or.inr ⟨by simp [describedRoot, linkOf], ?_⟩
    rw [hnamed]
    exact ⟨rfl, trivial, trivial, trivial, trivial⟩

def linkedFile : List Call :=
  [.addFile [0x64, slash, 0x61] (withIds 7 8) 1 ⟨[9], false⟩,
    .addLink [0x62] [0x64, slash, 0x61] (withIds 7 8)]

def linkedFileIds (r : EStateM.Result Error Builder Unit) : List (Option Ids) :=
  match r with
  | .ok _ b => [dirIds b.root.info, match OrderedMap.lookup [0x62] b.root.children with
    | some (.leaf x) => leafIds x
    | _ => none]
  | .error _ _ => []

/-- The root, which nobody described, and the hard link keep their ids. -/
theorem id_offset_missed :
    AllOk (Builder.new ⟨none, some 1000⟩) linkedFile ∧
      linkedFileIds (finalize (after (Builder.new ⟨none, some 1000⟩) linkedFile)) =
        [some ⟨0, 0⟩, some ⟨7, 8⟩] ∧
      wantedDir 1000 (named linkedFile).info = some ⟨1000, 1000⟩ ∧
      (OrderedMap.lookup [0x62] (named linkedFile).children).map (·.map (wanted 1000) id) =
        some (.leaf (some ⟨1007, 1008⟩)) :=
  ⟨⟨by decide +kernel, by decide +kernel, trivial⟩, by decide +kernel, rfl, rfl⟩

end Cases

end ProgramExplorer.ErofsOwners
