import ProgramExplorer.ArchiveToDir
import ProgramExplorer.InsertionMap
import ProgramExplorer.Utf16

/-!
# The encoder of the browser

`packArchiveV1` of `pefrontend/src/pearchive.ts` puts the files of a request
into nested maps, one level for each name of a path, and writes the archive
from them. A file that is set where a map was replaces the map with all that
is in it, and a path through a file throws.
-/

set_option autoImplicit false

namespace ProgramExplorer.ArchiveFrontend
open ByteStrings LittleEndian UnixPath ArchiveFormat ArchivePack ArchiveUnpack
open ArchiveToDir Utf16

section Encoder

inductive Content where
  | text (s : JsString)
  | buffer (bytes : Bytes)
  deriving DecidableEq

def Content.bytes : Content → Bytes
  | .text s => textEncode s
  | .buffer bytes => bytes

structure File where
  path : JsString
  data : Content

def slashUnit : UInt16 := 0x2f

def dotUnit : UInt16 := 0x2e

def IsJunk (part : JsString) : Prop := part = [] ∨ part = [dotUnit] ∨ part = [dotUnit, dotUnit]

instance (part : JsString) : Decidable (IsJunk part) := inferInstanceAs (Decidable (_ ∨ _))

inductive Hierarchy where
  | file (f : File)
  | map (entries : List (JsString × Hierarchy))

abbrev Entries := List (JsString × Hierarchy)

/-- The inner loop of `makeHiearachy` from one of the maps on, for the parts before the last. A file
has neither `get` nor `set`, so going on from one throws. -/
def place (file : File) (name : JsString) : List JsString → Entries → Option Entries
  | [], cur => if IsJunk name then none else some (InsertionMap.set name (.file file) cur)
  | part :: parts, cur =>
    if IsJunk part then place file name parts cur
    else
      match InsertionMap.get cur part with
      | none => (place file name parts []).map fun x => InsertionMap.set part (.map x) cur
      | some (.map x) => (place file name parts x).map fun x => InsertionMap.set part (.map x) cur
      | some (.file _) => none

def addFile (ret : Entries) (file : File) : Option Entries :=
  let parts := file.path.splitOn slashUnit
  match parts.getLast? with
  | none => some ret
  | some name => place file name parts.dropLast ret

def makeHiearachy (files : List File) : Option Entries := files.foldlM addFile []

mutual
def encodeNode (name : JsString) : Hierarchy → Bytes
  | .map entries =>
    [ArchiveFormat1Tag.dir.toByte] ++ textEncode name ++ [0] ++ encodeHierarchy entries ++
      [ArchiveFormat1Tag.pop.toByte]
  | .file f =>
    [ArchiveFormat1Tag.file.toByte] ++ textEncode name ++ [0] ++
      u32 (UInt32.ofNat f.data.bytes.length) ++ f.data.bytes

def encodeHierarchy : Entries → Bytes
  | [] => []
  | (name, node) :: rest => encodeNode name node ++ encodeHierarchy rest
end

def packArchiveV1 (files : List File) : Option Bytes := (makeHiearachy files).map encodeHierarchy

def File.names (file : File) : List JsString := (file.path.splitOn slashUnit).filter (¬ IsJunk ·)

end Encoder

section Lookup

def nodeAt : Hierarchy → List JsString → Option Hierarchy
  | t, [] => some t
  | .map entries, n :: ns => (InsertionMap.get entries n).bind (nodeAt · ns)
  | .file _, _ :: _ => none

def fileAt (entries : Entries) (names : List JsString) : Option File :=
  match nodeAt (.map entries) names with
  | some (.file f) => some f
  | _ => none

theorem fileAt_eq_some {entries : Entries} {names : List JsString} {f : File} :
    fileAt entries names = some f ↔ nodeAt (.map entries) names = some (.file f) := by
  unfold fileAt
  split
  · rename_i g h
    rw [h]
    simp
  · rename_i h
    simp only [reduceCtorEq, false_iff]
    exact h f

@[simp] theorem fileAt_nil (entries : Entries) : fileAt entries [] = none := rfl

theorem fileAt_empty (names : List JsString) : fileAt [] names = none := by
  cases names <;> rfl

theorem fileAt_cons (entries : Entries) (n : JsString) (ns : List JsString) :
    fileAt entries (n :: ns) =
      match InsertionMap.get entries n with
      | none => none
      | some (.file f) => if ns = [] then some f else none
      | some (.map sub) => fileAt sub ns := by
  unfold fileAt
  rw [nodeAt]
  cases InsertionMap.get entries n with
  | none => rfl
  | some t =>
    cases t with
    | file f => cases ns <;> rfl
    | map sub => rfl

theorem place_fileAt {file : File} {name : JsString} {parts : List JsString} {cur cur' : Entries}
    (h : place file name parts cur = some cur') (names : List JsString) :
    fileAt cur' names =
      if names = parts.filter (¬ IsJunk ·) ++ [name] then some file
      else if parts.filter (¬ IsJunk ·) ++ [name] <+: names then none
      else fileAt cur names := by
  induction parts generalizing cur cur' names with
  | nil =>
    rw [place] at h
    split_ifs at h with hjunk
    cases h
    cases names with
    | nil => simp
    | cons n ns =>
      rw [fileAt_cons, InsertionMap.get_set, List.filter_nil, List.nil_append]
      by_cases hn : n = name
      · subst hn
        simp
      · simp [hn, Ne.symm hn, fileAt_cons]
  | cons part parts ih =>
    rw [place] at h
    split_ifs at h with hjunk
    · rw [ih h]
      simp [hjunk]
    · have hfilter : (part :: parts).filter (¬ IsJunk ·) = part :: parts.filter (¬ IsJunk ·) := by
        simp [hjunk]
      rw [hfilter]
      -- the map that the loop goes on with, new or not
      obtain ⟨x, x', hx, hplace, rfl⟩ : ∃ x x', (∀ ns, fileAt cur (part :: ns) = fileAt x ns) ∧
          place file name parts x = some x' ∧ cur' = InsertionMap.set part (.map x') cur := by
        split at h
        · rename_i hget
          obtain ⟨x', hx', rfl⟩ := Option.map_eq_some_iff.mp h
          exact ⟨[], x', fun ns => by rw [fileAt_cons, hget, fileAt_empty], hx', rfl⟩
        · rename_i x hget
          obtain ⟨x', hx', rfl⟩ := Option.map_eq_some_iff.mp h
          exact ⟨x, x', fun ns => by rw [fileAt_cons, hget], hx', rfl⟩
        · cases h
      cases names with
      | nil => simp
      | cons n ns =>
        rw [fileAt_cons, InsertionMap.get_set]
        by_cases hn : n = part
        · subst hn
          rw [if_pos rfl, hx]
          refine (ih hplace ns).trans ?_
          simp
        · simp [hn, Ne.symm hn, fileAt_cons]

end Lookup

section Runs

theorem place_name {file : File} {name : JsString} {parts : List JsString} {cur cur' : Entries}
    (h : place file name parts cur = some cur') : ¬ IsJunk name := by
  induction parts generalizing cur cur' with
  | nil =>
    rw [place] at h
    split_ifs at h with hjunk
    exact hjunk
  | cons part parts ih =>
    rw [place] at h
    split_ifs at h
    · exact ih h
    · split at h
      · obtain ⟨x, hx, -⟩ := Option.map_eq_some_iff.mp h
        exact ih hx
      · obtain ⟨x, hx, -⟩ := Option.map_eq_some_iff.mp h
        exact ih hx
      · cases h

theorem addFile_ok {ret ret' : Entries} {file : File} (h : addFile ret file = some ret') :
    ∃ name parts, file.path.splitOn slashUnit = parts ++ [name] ∧
      place file name parts ret = some ret' ∧
      file.names = parts.filter (¬ IsJunk ·) ++ [name] := by
  obtain ⟨parts, name, hsplit⟩ := List.eq_nil_or_concat (file.path.splitOn slashUnit) |>.resolve_left
    (List.splitOn_ne_nil _ _)
  rw [List.concat_eq_append] at hsplit
  simp only [addFile, hsplit, List.getLast?_concat, List.dropLast_concat] at h
  refine ⟨name, parts, hsplit, h, ?_⟩
  rw [File.names, hsplit, List.filter_append]
  simp [place_name h]

theorem addFile_fileAt {ret ret' : Entries} {file : File} (h : addFile ret file = some ret')
    (names : List JsString) :
    fileAt ret' names =
      if names = file.names then some file
      else if file.names <+: names then none
      else fileAt ret names := by
  obtain ⟨name, parts, -, hplace, hnames⟩ := addFile_ok h
  rw [hnames]
  exact place_fileAt hplace names

theorem fileAt_below {entries : Entries} {p q : List JsString} {f : File} (h : fileAt entries p = some f)
    (hpq : p <+: q) (hne : q ≠ p) : fileAt entries q = none := by
  induction p generalizing entries q with
  | nil => cases h
  | cons n p ih =>
    obtain ⟨r, rfl⟩ := hpq
    rw [fileAt_cons] at h
    rw [List.cons_append, fileAt_cons]
    cases hget : InsertionMap.get entries n with
    | none => rfl
    | some t =>
      rw [hget] at h
      cases t with
      | file g =>
        refine if_neg fun hr => hne ?_
        obtain ⟨rfl, rfl⟩ := List.append_eq_nil_iff.mp hr
        rfl
      | map sub => exact ih h (List.prefix_append p r) fun he => hne (by rw [List.cons_append, he])

def lastAt (files : List File) (names : List JsString) : Option File :=
  (files.filter (·.names = names)).getLast?

theorem lastAt_concat (files : List File) (file : File) (names : List JsString) :
    lastAt (files ++ [file]) names = if names = file.names then some file else lastAt files names := by
  unfold lastAt
  rw [List.filter_append]
  by_cases h : names = file.names
  · simp [h]
  · simp [h, Ne.symm h]

theorem mem_of_lastAt {files : List File} {names : List JsString} {f : File}
    (h : lastAt files names = some f) : f ∈ files ∧ f.names = names := by
  have := List.mem_of_getLast? h
  simpa using this

/-- What the maps hold after a list of files: every path is there up to a file that cut it off, and
each file is the last one of its path. -/
structure Holds (files : List File) (entries : Entries) : Prop where
  covered : ∀ f ∈ files, ∃ p, p <+: f.names ∧ (fileAt entries p).isSome
  last : ∀ names, fileAt entries names = none ∨ fileAt entries names = lastAt files names

theorem holds_step {files : List File} {file : File} {ret ret' : Entries} (h : Holds files ret)
    (hadd : addFile ret file = some ret') : Holds (files ++ [file]) ret' where
  covered := by
    intro f hf
    rcases List.mem_append.mp hf with hf | hf
    · obtain ⟨p, hp, hsome⟩ := h.covered f hf
      by_cases hcut : file.names <+: p
      · refine ⟨file.names, hcut.trans hp, ?_⟩
        rw [addFile_fileAt hadd, if_pos rfl]
        rfl
      · refine ⟨p, hp, ?_⟩
        rw [addFile_fileAt hadd, if_neg (fun he : p = file.names => hcut (he ▸ List.prefix_rfl)),
          if_neg hcut]
        exact hsome
    · obtain rfl := List.mem_singleton.mp hf
      refine ⟨f.names, List.prefix_rfl, ?_⟩
      rw [addFile_fileAt hadd, if_pos rfl]
      rfl
  last := by
    intro names
    rw [addFile_fileAt hadd, lastAt_concat]
    split_ifs with h₁ h₂
    · exact Or.inr rfl
    · exact Or.inl rfl
    · exact h.last names

theorem holds_nil : Holds [] [] where
  covered := by simp
  last := fun names => Or.inl (fileAt_empty names)

theorem makeHiearachy_concat {files : List File} {file : File} {t : Entries}
    (h : makeHiearachy (files ++ [file]) = some t) :
    ∃ ret, makeHiearachy files = some ret ∧ addFile ret file = some t := by
  rw [makeHiearachy, List.foldlM_append] at h
  obtain ⟨ret, hret, hadd⟩ := Option.bind_eq_some_iff.mp h
  refine ⟨ret, hret, ?_⟩
  simpa using hadd

theorem makeHiearachy_holds {files : List File} {t : Entries} (h : makeHiearachy files = some t) :
    Holds files t := by
  induction files using List.reverseRecOn generalizing t with
  | nil =>
    cases h
    exact holds_nil
  | append_singleton files file ih =>
    obtain ⟨ret, hret, hadd⟩ := makeHiearachy_concat h
    exact holds_step (ih hret) hadd

def NoneBelow (files : List File) : Prop :=
  ∀ f ∈ files, ∀ g ∈ files, f.names <+: g.names → f.names = g.names

theorem fileAt_eq_lastAt {files : List File} {t : Entries} (h : Holds files t) (hb : NoneBelow files)
    (names : List JsString) : fileAt t names = lastAt files names := by
  refine (h.last names).elim (fun hnone => ?_) id
  cases hlast : lastAt files names with
  | none => exact hnone
  | some f =>
    obtain ⟨hf, rfl⟩ := mem_of_lastAt hlast
    obtain ⟨p, hp, hsome⟩ := h.covered f hf
    obtain ⟨g, hg⟩ := Option.isSome_iff_exists.mp hsome
    have hat := (h.last p).resolve_left (by simp [hg])
    obtain ⟨hgm, rfl⟩ := mem_of_lastAt (hat.symm.trans hg)
    rw [hb g hgm f hf hp, hnone] at hg
    cases hg

theorem prefix_eq {files : List File} {t : Entries} (h : Holds files t) {f g : File}
    (hf : f ∈ files) (hg : (fileAt t g.names).isSome) (hfg : f.names <+: g.names) :
    f.names = g.names := by
  obtain ⟨p, hp, hsome⟩ := h.covered f hf
  obtain ⟨x, hx⟩ := Option.isSome_iff_exists.mp hsome
  have heq : g.names = p := by
    by_contra hne
    rw [fileAt_below hx (hp.trans hfg) hne] at hg
    cases hg
  exact hfg.eq_of_length (le_antisymm hfg.length_le (heq ▸ hp.length_le))

end Runs

section Archive

mutual
def nodeMessages (name : JsString) : Hierarchy → List Message
  | .map entries => .dir (textEncode name) :: (mapMessages entries ++ [.pop])
  | .file f => [.file (textEncode name) f.data.bytes]

def mapMessages : Entries → List Message
  | [] => []
  | (name, node) :: rest => nodeMessages name node ++ mapMessages rest
end

mutual
theorem encodeNode_eq (name : JsString) : ∀ node : Hierarchy,
    encodeNode name node = encodeAll (nodeMessages name node)
  | .map entries => by
    simp [encodeNode, nodeMessages, Message.encode, Message.tag, Message.body,
      encodeHierarchy_eq entries]
  | .file f => by
    simp [encodeNode, nodeMessages, Message.encode, Message.tag, Message.body]

theorem encodeHierarchy_eq : ∀ entries : Entries,
    encodeHierarchy entries = encodeAll (mapMessages entries)
  | [] => rfl
  | (name, node) :: rest => by
    rw [encodeHierarchy, mapMessages, encodeAll_append, encodeNode_eq name node, encodeHierarchy_eq rest]
end

mutual
def nodeLeaves (path : List JsString) : Hierarchy → List (List JsString × File)
  | .map entries => mapLeaves path entries
  | .file f => [(path, f)]

def mapLeaves (path : List JsString) : Entries → List (List JsString × File)
  | [] => []
  | (name, node) :: rest => nodeLeaves (path ++ [name]) node ++ mapLeaves path rest
end

def archived (leaf : List JsString × File) : List Bytes × Bytes :=
  (leaf.1.map textEncode, leaf.2.data.bytes)

theorem filesOf_cons (x : Placed) (xs : List Placed) :
    filesOf (x :: xs) = (match x.entry with
      | .file data => [(x.path, data)]
      | .dir => []) ++ filesOf xs := by
  unfold filesOf
  rw [List.filterMap_cons]
  cases x.entry <;> rfl

mutual
theorem filesOf_node (name : JsString) (path : List JsString) (ms : List Message) : ∀ node : Hierarchy,
    filesOf (placed (path.map textEncode) (nodeMessages name node ++ ms)) =
      (nodeLeaves (path ++ [name]) node).map archived ++ filesOf (placed (path.map textEncode) ms)
  | .map entries => by
    have hpath : path.map textEncode ++ [textEncode name] = (path ++ [name]).map textEncode := by simp
    rw [nodeMessages, List.cons_append, List.append_assoc, placed, filesOf_cons, hpath,
      filesOf_map (path ++ [name]) _ entries, nodeLeaves, ← hpath]
    simp [placed]
  | .file f => by
    simp [nodeMessages, placed, filesOf_cons, nodeLeaves, archived, Placed.path]

theorem filesOf_map (path : List JsString) (ms : List Message) : ∀ entries : Entries,
    filesOf (placed (path.map textEncode) (mapMessages entries ++ ms)) =
      (mapLeaves path entries).map archived ++ filesOf (placed (path.map textEncode) ms)
  | [] => rfl
  | (name, node) :: rest => by
    rw [mapMessages, List.append_assoc, filesOf_node name path _ node, filesOf_map path ms rest, mapLeaves,
      List.map_append, List.append_assoc]
end

mutual
theorem depthAfter_node (name : JsString) (ms : List Message) (depth : ℕ) : ∀ node : Hierarchy,
    depthAfter (nodeMessages name node ++ ms) depth = depthAfter ms depth
  | .map entries => by
    rw [nodeMessages, List.cons_append, List.append_assoc, depthAfter,
      depthAfter_map _ (depth + 1) entries]
    rfl
  | .file f => rfl

theorem depthAfter_map (ms : List Message) (depth : ℕ) : ∀ entries : Entries,
    depthAfter (mapMessages entries ++ ms) depth = depthAfter ms depth
  | [] => rfl
  | (name, node) :: rest => by
    rw [mapMessages, List.append_assoc, depthAfter_node name _ depth node, depthAfter_map ms depth rest]
end

mutual
/-- The keys of each map are distinct and satisfy one predicate, the files another. -/
def Hierarchy.All (P : JsString → Prop) (Q : File → Prop) : Hierarchy → Prop
  | .map entries => AllEntries P Q entries
  | .file f => Q f

def AllEntries (P : JsString → Prop) (Q : File → Prop) : Entries → Prop
  | [] => True
  | (name, node) :: rest =>
    name ∉ rest.map (·.1) ∧ P name ∧ node.All P Q ∧ AllEntries P Q rest
end

variable {P : JsString → Prop} {Q : File → Prop}

theorem allEntries_iff {entries : Entries} : AllEntries P Q entries ↔
    InsertionMap.Unique entries ∧ ∀ e ∈ entries, P e.1 ∧ e.2.All P Q := by
  induction entries with
  | nil => simp [AllEntries, InsertionMap.Unique]
  | cons e entries ih =>
    rw [AllEntries, ih]
    unfold InsertionMap.Unique
    rw [List.map_cons, List.nodup_cons, List.forall_mem_cons]
    tauto

theorem allEntries_set {entries : Entries} (h : AllEntries P Q entries) {name : JsString}
    {node : Hierarchy} (hname : P name) (hnode : node.All P Q) :
    AllEntries P Q (InsertionMap.set name node entries) := by
  obtain ⟨hunique, hall⟩ := allEntries_iff.mp h
  refine allEntries_iff.mpr ⟨InsertionMap.unique_set hunique name node, ?_⟩
  intro e he
  rcases InsertionMap.mem_set he with rfl | he
  · exact ⟨hname, hnode⟩
  · exact hall e he

theorem place_all {file : File} {name : JsString} {parts : List JsString} {cur cur' : Entries}
    (h : place file name parts cur = some cur') (hcur : AllEntries P Q cur)
    (hparts : ∀ part ∈ parts, ¬ IsJunk part → P part) (hname : P name) (hfile : Q file) :
    AllEntries P Q cur' := by
  induction parts generalizing cur cur' with
  | nil =>
    rw [place] at h
    split_ifs at h
    cases h
    exact allEntries_set hcur hname hfile
  | cons part parts ih =>
    have hrest : ∀ part ∈ parts, ¬ IsJunk part → P part := fun p hp => hparts p (by simp [hp])
    rw [place] at h
    split_ifs at h with hjunk
    · exact ih h hcur hrest
    · have hpart := hparts part (by simp) hjunk
      split at h
      · obtain ⟨x, hx, rfl⟩ := Option.map_eq_some_iff.mp h
        exact allEntries_set hcur hpart (ih hx trivial hrest)
      · rename_i x₀ hget
        obtain ⟨x, hx, rfl⟩ := Option.map_eq_some_iff.mp h
        obtain ⟨hunique, hall⟩ := allEntries_iff.mp hcur
        have hx₀ : AllEntries P Q x₀ :=
          (hall _ ((InsertionMap.get_eq_some_iff hunique).mp hget)).2
        exact allEntries_set hcur hpart (ih hx hx₀ hrest)
      · cases h

theorem makeHiearachy_all {files : List File} {t : Entries} (h : makeHiearachy files = some t)
    (hP : ∀ f ∈ files, ∀ n ∈ f.names, P n) (hQ : ∀ f ∈ files, Q f) : AllEntries P Q t := by
  induction files using List.reverseRecOn generalizing t with
  | nil =>
    cases h
    trivial
  | append_singleton files file ih =>
    obtain ⟨ret, hret, hadd⟩ := makeHiearachy_concat h
    obtain ⟨name, parts, -, hplace, hnames⟩ := addFile_ok hadd
    have hfile := hP file (by simp)
    rw [hnames] at hfile
    refine place_all hplace (ih hret (fun f hf => hP f (by simp [hf])) fun f hf => hQ f (by simp [hf]))
      (fun part hpart hjunk => hfile part (by simp [hpart, hjunk])) (hfile name (by simp))
      (hQ file (by simp))

mutual
theorem mem_nodeLeaves (path names : List JsString) (f : File) : ∀ node : Hierarchy, node.All P Q →
    ((names, f) ∈ nodeLeaves path node ↔
      ∃ r, names = path ++ r ∧ nodeAt node r = some (.file f))
  | .map entries, hall => by
    rw [nodeLeaves, mem_mapLeaves path names f entries hall]
    obtain ⟨hunique, -⟩ := allEntries_iff.mp hall
    constructor
    · rintro ⟨name, node, r, hmem, rfl, hat⟩
      refine ⟨name :: r, rfl, ?_⟩
      rw [nodeAt, (InsertionMap.get_eq_some_iff hunique).mpr hmem]
      exact hat
    · rintro ⟨r, rfl, hat⟩
      cases r with
      | nil => cases hat
      | cons name r =>
        obtain ⟨node, hget, hat⟩ := Option.bind_eq_some_iff.mp hat
        exact ⟨name, node, r, (InsertionMap.get_eq_some_iff hunique).mp hget, rfl, hat⟩
  | .file g, _ => by
    rw [nodeLeaves, List.mem_singleton]
    constructor
    · intro he
      obtain ⟨rfl, rfl⟩ := Prod.mk.inj he
      exact ⟨[], (List.append_nil _).symm, rfl⟩
    · rintro ⟨r, rfl, hat⟩
      cases r with
      | nil =>
        cases hat
        rw [List.append_nil]
      | cons n r => cases hat

theorem mem_mapLeaves (path names : List JsString) (f : File) : ∀ entries : Entries,
    AllEntries P Q entries → ((names, f) ∈ mapLeaves path entries ↔
      ∃ name node r, (name, node) ∈ entries ∧ names = path ++ name :: r ∧
        nodeAt node r = some (.file f))
  | [], _ => by simp [mapLeaves]
  | (name, node) :: rest, hall => by
    obtain ⟨-, -, hnode, hrest⟩ := hall
    rw [mapLeaves, List.mem_append, mem_nodeLeaves (path ++ [name]) names f node hnode,
      mem_mapLeaves path names f rest hrest]
    constructor
    · rintro (⟨r, rfl, hat⟩ | ⟨n, t, r, hmem, rfl, hat⟩)
      · exact ⟨name, node, r, by simp, by simp, hat⟩
      · exact ⟨n, t, r, by simp [hmem], rfl, hat⟩
    · rintro ⟨n, t, r, hmem, rfl, hat⟩
      rcases List.mem_cons.mp hmem with he | hmem
      · obtain ⟨rfl, rfl⟩ := Prod.mk.inj he
        exact Or.inl ⟨r, by simp, hat⟩
      · exact Or.inr ⟨n, t, r, hmem, rfl, hat⟩
end

theorem mem_leaves {t : Entries} (h : AllEntries P Q t) {names : List JsString} {f : File} :
    (names, f) ∈ mapLeaves [] t ↔ fileAt t names = some f := by
  have hnode := mem_nodeLeaves [] names f (.map t) h
  rw [nodeLeaves] at hnode
  rw [hnode, fileAt_eq_some]
  simp

end Archive

section Paths

def SoundPath (path : Bytes) : Prop := ∀ n ∈ parts path, n.length ≤ maxNameLen ∧ (0 : UInt8) ∉ n.tail

theorem mem_of_mem_infix_tail {α : Type} {n name : List α} (h : n <:+: name) {x : α} (hx : x ∈ n.tail) :
    x ∈ name.tail := by
  obtain ⟨l, r, rfl⟩ := h
  cases l with
  | nil =>
    cases n with
    | nil => cases hx
    | cons c n => exact List.mem_append_left _ hx
  | cons c l =>
    have hn : x ∈ n := List.mem_of_mem_tail hx
    simp [hn]

theorem soundPath_name {name : Bytes} (h : ReadName name) : SoundPath name := by
  intro n hn
  have hwithin := infix_of_mem_parts hn
  exact ⟨hwithin.length_le.trans h.short, fun h0 => h.noNul (mem_of_mem_infix_tail hwithin h0)⟩

theorem soundPath_append {a b : Bytes} : SoundPath (a ++ slash :: b) ↔ SoundPath a ∧ SoundPath b := by
  simp only [SoundPath, parts_append, List.mem_append, or_imp, forall_and]
  tauto

theorem soundPath_front {a b : Bytes} (h : SoundPath (a ++ b)) : SoundPath a := by
  intro n hn
  obtain ⟨n', hn', hpre⟩ := prefix_of_mem_parts hn (b := b)
  obtain ⟨hlen, hnul⟩ := h n' hn'
  exact ⟨hpre.length_le.trans hlen, fun h0 => hnul (mem_of_mem_infix_tail hpre.isInfix h0)⟩

theorem soundPath_push {path name : Bytes} (hp : SoundPath path) (hn : ReadName name) :
    SoundPath (push path name) := by
  unfold push
  split_ifs with hroot hsep
  · exact soundPath_name hn
  · exact soundPath_append.mpr ⟨hp, soundPath_name hn⟩
  · by_cases hnil : path = []
    · rw [hnil, List.nil_append]
      exact soundPath_name hn
    · have hlast : path.getLast? = some slash := by
        by_contra hne
        exact hsep ⟨hnil, hne⟩
      obtain ⟨a, rfl⟩ : ∃ a, path = a ++ [slash] :=
        ⟨path.dropLast, (List.dropLast_append_getLast? slash hlast).symm⟩
      rw [List.append_assoc]
      exact soundPath_append.mpr ⟨soundPath_front hp, soundPath_name hn⟩

theorem soundPath_pop {path : Bytes} (h : SoundPath path) : SoundPath (pop path) := by
  unfold pop
  split
  · rename_i q hq
    refine soundPath_front (b := path.drop q.length) ?_
    rwa [List.take_append_drop]
  · exact h

def SoundMap (map : List (Bytes × Bytes)) : Prop := ∀ e ∈ map, SoundPath e.1

theorem soundMap_insertPath {map : List (Bytes × Bytes)} (h : SoundMap map) {path : Bytes}
    (hp : SoundPath path) (data : Bytes) : SoundMap (insertPath path data map) := by
  intro e he
  unfold insertPath at he
  split_ifs at he
  · obtain ⟨kv, hkv, rfl⟩ := List.mem_map.mp he
    split_ifs
    · exact h kv hkv
    · exact h kv hkv
  · rcases List.mem_append.mp he with he | he
    · exact h e he
    · obtain rfl := List.mem_singleton.mp he
      exact hp

/-- Whatever the bytes are, the keys that come out are made of names as the reader accepts them. -/
theorem visitMessages_sound {e : Option Error} {ms : List Message} (hms : ∀ m ∈ ms, m.Readable)
    {path : Bytes} (hp : SoundPath path) {depth : ℕ} {map map' : List (Bytes × Bytes)}
    (hmap : SoundMap map)
    (h : visited (visitMessages (continuing insertPath) e ms path depth map) = some map') :
    SoundMap map' := by
  induction ms generalizing path depth map with
  | nil =>
    simp only [visitMessages] at h
    split at h
    · cases h
    · split_ifs at h
      · cases h
        exact hmap
      · cases h
  | cons m ms ih =>
    have hrest : ∀ m ∈ ms, m.Readable := fun m' hm => hms m' (by simp [hm])
    have hm := hms m (by simp)
    cases m with
    | file name data =>
      have hpush := soundPath_push hp hm.1
      exact ih hrest (soundPath_pop hpush) (soundMap_insertPath hmap hpush data) h
    | dir name => exact ih hrest (soundPath_push hp hm) hmap h
    | pop =>
      simp only [visitMessages] at h
      split_ifs at h
      · cases h
      · exact ih hrest (soundPath_pop hp) hmap h

theorem unpackToHashmap_sound {data : Bytes} {map : List (Bytes × Bytes)}
    (h : unpackToHashmap data = some map) : SoundMap map := by
  have hreads := messages_reads data
  rw [unpackToHashmap, unpackVisitor_eq _ hreads] at h
  refine visitMessages_sound (reads_readable hreads) ?_ (by simp [SoundMap]) h
  intro n hn
  obtain rfl : n = [] := by simpa [parts] using hn
  exact ⟨Nat.zero_le _, by simp⟩

end Paths

section ReadBack

theorem plain_textEncode {file : File} {n : JsString} (h : n ∈ file.names) : PlainName (textEncode n) := by
  obtain ⟨hmem, hjunk⟩ := List.mem_filter.mp h
  have hjunk : ¬ IsJunk n := by simpa using hjunk
  refine ⟨fun he => hjunk ?_, fun hs => ?_, fun he => hjunk ?_, fun he => hjunk ?_⟩
  · exact Or.inl (eq_of_textEncode_ascii (by simp) he)
  · exact not_mem_of_mem_splitOn hmem (unit_of_ascii hs (by decide))
  · exact Or.inr (Or.inl (eq_of_textEncode_ascii (by simp [dot]) he))
  · exact Or.inr (Or.inr (eq_of_textEncode_ascii (by simp [dot]) he))

/-- What a request says about a path: the bytes of the last file that has it. -/
def expected (files : List File) (path : List Bytes) : Option Bytes :=
  (writesAt (files.map fun f => archived (f.names, f)) path).getLast?

/-- The map has an entry for each path of the request and no other. Its keys are compared by their
components. -/
structure ReadBack (files : List File) (map : List (Bytes × Bytes)) : Prop where
  found : ∀ path data, expected files path = some data →
    ∃ key, (key, data) ∈ map ∧ components key = path.map .normal
  noOther : ∀ key data, (key, data) ∈ map →
    ∃ path, components key = path.map .normal ∧ expected files path = some data

def DistinctPaths (files : List File) : Prop :=
  ∀ f ∈ files, ∀ g ∈ files, f.names.map textEncode = g.names.map textEncode → f.names = g.names

def ReadNames (files : List File) : Prop := ∀ f ∈ files, ∀ n ∈ f.names, ReadName (textEncode n)

variable {files : List File} {t : Entries}

theorem expected_eq (files : List File) (path : List Bytes) : expected files path =
    ((files.filter (·.names.map textEncode = path)).getLast?).map (·.data.bytes) := by
  unfold expected writesAt
  rw [List.filter_map, List.map_map, List.getLast?_map]
  rfl

theorem expected_of_mem {f : File} (hf : f ∈ files) :
    ∃ data, expected files (f.names.map textEncode) = some data := by
  rw [expected_eq]
  cases hl : (files.filter (·.names.map textEncode = f.names.map textEncode)).getLast? with
  | none =>
    have hnil := List.getLast?_eq_none_iff.mp hl
    have hmem : f ∈ files.filter (·.names.map textEncode = f.names.map textEncode) := by simp [hf]
    rw [hnil] at hmem
    cases hmem
  | some g => exact ⟨_, rfl⟩

theorem expected_eq_some (hd : DistinctPaths files) {path : List Bytes} {data : Bytes} :
    expected files path = some data ↔
      ∃ names f, lastAt files names = some f ∧ names.map textEncode = path ∧ data = f.data.bytes := by
  have hfilter : ∀ f ∈ files, files.filter (·.names.map textEncode = f.names.map textEncode) =
      files.filter (·.names = f.names) := by
    intro f hf
    apply List.filter_congr
    intro g hg
    have : g.names.map textEncode = f.names.map textEncode ↔ g.names = f.names :=
      ⟨hd g hg f hf, fun he => by rw [he]⟩
    simp only [this]
  rw [expected_eq, Option.map_eq_some_iff]
  constructor
  · rintro ⟨f, hlast, rfl⟩
    obtain ⟨hf, hpath⟩ : f ∈ files ∧ f.names.map textEncode = path := by
      simpa using List.mem_of_getLast? hlast
    refine ⟨f.names, f, ?_, hpath, rfl⟩
    rw [lastAt, ← hfilter f hf, hpath]
    exact hlast
  · rintro ⟨names, f, hlast, rfl, rfl⟩
    obtain ⟨hf, rfl⟩ := mem_of_lastAt hlast
    exact ⟨f, by rw [hfilter f hf]; exact hlast, rfl⟩

theorem leaf_of_files (h : Holds files t) {names : List JsString} {f : File} (hat : fileAt t names = some f) :
    f ∈ files ∧ f.names = names :=
  mem_of_lastAt (((h.last names).resolve_left (by simp [hat])).symm.trans hat)

theorem written_eq_some (h : Holds files t) (hd : DistinctPaths files) {P : JsString → Prop}
    {Q : File → Prop} (hall : AllEntries P Q t) {path : List Bytes} {data : Bytes} :
    (writesAt ((mapLeaves [] t).map archived) path).getLast? = some data ↔
      ∃ names f, fileAt t names = some f ∧ names.map textEncode = path ∧ data = f.data.bytes := by
  have hmem : ∀ bytes, bytes ∈ writesAt ((mapLeaves [] t).map archived) path ↔
      ∃ names f, fileAt t names = some f ∧ names.map textEncode = path ∧ bytes = f.data.bytes := by
    intro bytes
    simp only [writesAt, List.mem_map, List.mem_filter, Prod.exists, archived, decide_eq_true_eq]
    constructor
    · rintro ⟨p, b, ⟨⟨names, f, hleaf, he⟩, rfl⟩, rfl⟩
      obtain ⟨rfl, rfl⟩ := Prod.mk.inj he
      exact ⟨names, f, (mem_leaves hall).mp hleaf, rfl, rfl⟩
    · rintro ⟨names, f, hat, rfl, rfl⟩
      exact ⟨_, _, ⟨⟨names, f, (mem_leaves hall).mpr hat, rfl⟩, rfl⟩, rfl⟩
  constructor
  · intro hlast
    exact (hmem data).mp (List.mem_of_getLast? hlast)
  · rintro ⟨names, f, hat, rfl, rfl⟩
    have hin := (hmem f.data.bytes).mpr ⟨names, f, hat, rfl, rfl⟩
    cases hl : (writesAt ((mapLeaves [] t).map archived) (names.map textEncode)).getLast? with
    | none =>
      rw [List.getLast?_eq_none_iff.mp hl] at hin
      cases hin
    | some bytes =>
      -- another leaf with the same encoded path is the same leaf
      obtain ⟨names', f', hat', he, rfl⟩ := (hmem bytes).mp (List.mem_of_getLast? hl)
      obtain ⟨hf, rfl⟩ := leaf_of_files h hat
      obtain ⟨hf', rfl⟩ := leaf_of_files h hat'
      rw [hd f' hf' f hf he, hat] at hat'
      cases hat'
      rfl

/-- A name of the hierarchy that can be read back and is one component. -/
def GoodName (n : JsString) : Prop := ReadName (textEncode n) ∧ PlainName (textEncode n)

def SmallFile (f : File) : Prop := f.data.bytes.length < 2 ^ 32

mutual
theorem nodeMessages_good (name : JsString) (hname : GoodName name) : ∀ node : Hierarchy,
    node.All GoodName SmallFile → ∀ m ∈ nodeMessages name node, m.Readable ∧ PlainMessage m
  | .map entries, hall => by
    intro m hm
    rw [nodeMessages, List.mem_cons, List.mem_append, List.mem_singleton] at hm
    rcases hm with rfl | hm | rfl
    · exact hname
    · exact mapMessages_good entries hall m hm
    · exact ⟨trivial, trivial⟩
  | .file f, hall => by
    intro m hm
    obtain rfl := List.mem_singleton.mp hm
    exact ⟨⟨hname.1, hall⟩, hname.2⟩

theorem mapMessages_good : ∀ entries : Entries, AllEntries GoodName SmallFile entries →
    ∀ m ∈ mapMessages entries, m.Readable ∧ PlainMessage m
  | [], _ => by simp [mapMessages]
  | (name, node) :: rest, hall => by
    obtain ⟨-, hname, hnode, hrest⟩ := hall
    intro m hm
    rw [mapMessages, List.mem_append] at hm
    exact hm.elim (nodeMessages_good name hname node hnode m) (mapMessages_good rest hrest m)
end

theorem unpackToHashmap_hierarchy (hall : AllEntries GoodName SmallFile t) :
    unpackToHashmap (encodeHierarchy t) =
      some (visitFiles insertPath ((mapLeaves [] t).map archived) []) := by
  have hgood := mapMessages_good t hall
  have hreads : Reads (encodeHierarchy t) (mapMessages t) none :=
    reads_end_iff.mpr ⟨encodeHierarchy_eq t, fun m hm => (hgood m hm).1⟩
  have hfiles := filesOf_map [] [] t
  have hdepth := depthAfter_map [] 0 t
  have hvisit := visitMessages_visited insertPath none (mapMessages t) (fun m hm => (hgood m hm).2) []
    (by simp) []
  simp only [List.append_nil, List.map_nil] at hfiles hdepth
  rw [unpackToHashmap, unpackVisitor_eq _ hreads]
  refine hvisit.trans ?_
  rw [if_pos ⟨rfl, hdepth⟩, hfiles, placed]
  simp [filesOf]

theorem maps_hierarchy (hfiles : ∀ f ∈ files, SmallFile f) (ht : makeHiearachy files = some t)
    (hnames : ReadNames files) :
    ∃ map, unpackToHashmap (encodeHierarchy t) = some map ∧
      Maps map fun path => (writesAt ((mapLeaves [] t).map archived) path).getLast? := by
  have hall : AllEntries GoodName SmallFile t :=
    makeHiearachy_all ht (fun f hf n hn => ⟨hnames f hf n hn, plain_textEncode hn⟩) hfiles
  refine ⟨_, unpackToHashmap_hierarchy hall, ?_⟩
  have hempty : Maps [] fun _ => none := by simp [Maps]
  have hplain : ∀ file ∈ (mapLeaves [] t).map archived, ∀ n ∈ file.1, PlainName n := by
    intro file hfile n hn
    obtain ⟨⟨names, f⟩, hleaf, rfl⟩ := List.mem_map.mp hfile
    obtain ⟨m, hm, rfl⟩ := List.mem_map.mp hn
    obtain ⟨-, rfl⟩ := leaf_of_files (makeHiearachy_holds ht) ((mem_leaves hall).mp hleaf)
    exact plain_textEncode hm
  simpa using visitFiles_maps hplain hempty

theorem plain_path {f : File} : ∀ n ∈ f.names.map textEncode, PlainName n := by
  intro n hn
  obtain ⟨m, hm, rfl⟩ := List.mem_map.mp hn
  exact plain_textEncode hm

theorem readBack_of_good (hfiles : ∀ f ∈ files, SmallFile f) (hd : DistinctPaths files)
    (ht : makeHiearachy files = some t) (hnames : ReadNames files) (hbelow : NoneBelow files) :
    ∃ map, unpackToHashmap (encodeHierarchy t) = some map ∧ ReadBack files map := by
  have hholds := makeHiearachy_holds ht
  have hall : AllEntries (fun _ => True) (fun _ => True) t :=
    makeHiearachy_all ht (fun _ _ _ _ => trivial) fun _ _ => trivial
  obtain ⟨map, hmap, hmaps⟩ := maps_hierarchy hfiles ht hnames
  have hexpected : ∀ path data, (writesAt ((mapLeaves [] t).map archived) path).getLast? = some data ↔
      expected files path = some data := by
    intro path data
    rw [written_eq_some hholds hd hall, expected_eq_some hd]
    simp only [fileAt_eq_lastAt hholds hbelow]
  refine ⟨map, hmap, ?_, ?_⟩
  · intro path data he
    have hplain : ∀ n ∈ path, PlainName n := by
      obtain ⟨names, f, hlast, rfl, -⟩ := (expected_eq_some hd).mp he
      obtain ⟨-, rfl⟩ := mem_of_lastAt hlast
      exact plain_path
    exact ⟨joined path, (hmaps _ _).mpr ⟨path, hplain, rfl, (hexpected path data).mpr he⟩,
      components_joined hplain⟩
  · intro key data hmem
    obtain ⟨path, hplain, rfl, hlast⟩ := (hmaps key data).mp hmem
    exact ⟨path, components_joined hplain, (hexpected path data).mp hlast⟩

theorem readNames_of_readBack {data : Bytes} {map : List (Bytes × Bytes)}
    (hmap : unpackToHashmap data = some map) (h : ReadBack files map) : ReadNames files := by
  intro f hf n hn
  obtain ⟨bytes, he⟩ := expected_of_mem hf
  obtain ⟨key, hkey, hcomp⟩ := h.found _ _ he
  have hmem : .normal (textEncode n) ∈ components key := by
    rw [hcomp]
    exact List.mem_map_of_mem (List.mem_map_of_mem hn)
  obtain ⟨hshort, hnul⟩ := unpackToHashmap_sound hmap _ hkey _ (normal_mem_parts hmem)
  exact ⟨(plain_textEncode hn).nonempty, hshort, hnul⟩

theorem noneBelow_of_readBack (hfiles : ∀ f ∈ files, SmallFile f) (hd : DistinctPaths files)
    (ht : makeHiearachy files = some t) {map : List (Bytes × Bytes)}
    (hmap : unpackToHashmap (encodeHierarchy t) = some map) (h : ReadBack files map) :
    NoneBelow files := by
  have hholds := makeHiearachy_holds ht
  have hall : AllEntries (fun _ => True) (fun _ => True) t :=
    makeHiearachy_all ht (fun _ _ _ _ => trivial) fun _ _ => trivial
  obtain ⟨map', hmap', hmaps⟩ := maps_hierarchy hfiles ht (readNames_of_readBack hmap h)
  rw [hmap] at hmap'
  cases hmap'
  intro f hf g hg hfg
  refine prefix_eq hholds hf ?_ hfg
  obtain ⟨bytes, he⟩ := expected_of_mem hg
  obtain ⟨key, hkey, hcomp⟩ := h.found _ _ he
  obtain ⟨path, hplain, rfl, hlast⟩ := (hmaps key bytes).mp hkey
  obtain ⟨names, x, hat, rfl, -⟩ := (written_eq_some hholds hd hall).mp hlast
  have heq : names.map textEncode = g.names.map textEncode := by
    rw [components_joined hplain] at hcomp
    exact List.map_injective_iff.mpr (fun _ _ hc => by injection hc) hcomp
  obtain ⟨hx, rfl⟩ := leaf_of_files hholds hat
  rw [← hd x hx g hg heq, hat]
  rfl

/-- What the browser packs is read back, exactly when every name of a path has at most 255 bytes and
no NUL after its first byte, and no file stands above another. -/
theorem packed_read_back_iff (files : List File) (bytes : Bytes)
    (hpack : packArchiveV1 files = some bytes) (hsmall : ∀ f ∈ files, f.data.bytes.length < 2 ^ 32)
    (hdistinct : DistinctPaths files) :
    (∃ map, unpackToHashmap bytes = some map ∧ ReadBack files map) ↔
      ReadNames files ∧ NoneBelow files := by
  obtain ⟨t, ht, rfl⟩ := Option.map_eq_some_iff.mp hpack
  constructor
  · rintro ⟨map, hmap, h⟩
    exact ⟨readNames_of_readBack hmap h, noneBelow_of_readBack hsmall hdistinct ht hmap h⟩
  · rintro ⟨hnames, hbelow⟩
    exact readBack_of_good hsmall hdistinct ht hnames hbelow

end ReadBack

section Cases

instance (name : Bytes) : Decidable (ReadName name) :=
  decidable_of_iff (name ≠ [] ∧ name.length ≤ maxNameLen ∧ (0 : UInt8) ∉ name.tail)
    ⟨fun h => ⟨h.1, h.2.1, h.2.2⟩, fun h => ⟨h.nonempty, h.short, h.noNul⟩⟩

instance (files : List File) : Decidable (ReadNames files) :=
  inferInstanceAs (Decidable (∀ f ∈ files, ∀ n ∈ f.names, ReadName (textEncode n)))

instance (files : List File) : Decidable (NoneBelow files) :=
  inferInstanceAs (Decidable (∀ f ∈ files, ∀ g ∈ files, f.names <+: g.names → f.names = g.names))

instance (files : List File) : Decidable (DistinctPaths files) :=
  inferInstanceAs (Decidable (∀ f ∈ files, ∀ g ∈ files,
    f.names.map textEncode = g.names.map textEncode → f.names = g.names))

/-- The first and the last file share a path; the second has a binary content. -/
def sharedPath : List File :=
  [⟨[0x64, slashUnit, slashUnit, 0x61], .text [0x31]⟩,
    ⟨[dotUnit, slashUnit, 0x64, slashUnit, 0xe9], .buffer [0xff]⟩,
    ⟨[0x64, slashUnit, 0x61], .text [0x32]⟩]

theorem packed_read_back_shared :
    ∃ bytes, packArchiveV1 sharedPath = some bytes ∧
      ∃ map, unpackToHashmap bytes = some map ∧ ReadBack sharedPath map := by
  have hsome : (packArchiveV1 sharedPath).isSome := by decide +kernel
  obtain ⟨bytes, hpack⟩ := Option.isSome_iff_exists.mp hsome
  refine ⟨bytes, hpack, (packed_read_back_iff sharedPath bytes hpack ?_ ?_).mpr ⟨?_, ?_⟩⟩
  · decide +kernel
  · decide +kernel
  · decide +kernel
  · decide +kernel

/-- The file `a` takes the place of the directory `a` with the file `b` in it, and a name of 256
letters is packed but not read. -/
theorem packed_not_read_back :
    (packArchiveV1 [⟨[0x61, slashUnit, 0x62], .text [0x31]⟩, ⟨[0x61], .text [0x32]⟩]).bind
        unpackToHashmap = some [([0x61], [0x32])] ∧
      (packArchiveV1 [⟨List.replicate 256 0x61, .text []⟩]).map unpackToHashmap = some none := by
  decide +kernel

-- Two surrogates that stand alone are different keys of the map and the same name in the archive.
example : (packArchiveV1 [⟨[0xd800], .text [0x31]⟩, ⟨[0xd801], .text [0x32]⟩,
    ⟨[0xd800], .text [0x33]⟩]).bind unpackToHashmap = some [([0xef, 0xbf, 0xbd], [0x32])] := by
  decide +kernel

end Cases

end ProgramExplorer.ArchiveFrontend
