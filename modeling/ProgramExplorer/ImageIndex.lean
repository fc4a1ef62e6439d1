import ProgramExplorer.ImageTrailer
import ProgramExplorer.IoFile
import ProgramExplorer.KeyedInserts
import ProgramExplorer.UnixPath

/-!
# The index over several image files

`PEImageMultiIndex` of `peimage/src/index.rs` maps the images of several files
to the file each one is in. `add_path` looks for the name of an image in the
map and then inserts the image under a key of the type that the index was made
for, which is a name for one of the three types only. The images go in one
after the other, so that a duplicate is found after some of them are in.
-/

set_option autoImplicit false

namespace ProgramExplorer.ImageIndex
open ByteStrings UnixPath StateRules KeyedInserts
open ImageTrailer (IoError fromFile)
open IoFile (RootfsKind)

section Index

structure PEImageId where
  digest : List Char
  repository : List Char
  registry : List Char
  tag : List Char
  deriving DecidableEq

def PEImageId.name (id : PEImageId) : List Char :=
  id.registry ++ ['/'] ++ id.repository ++ [':'] ++ id.tag

/-- An image, with `χ` and `μ` for what its configuration and its manifest hold. -/
structure PEImageIndexEntry (χ μ : Type) where
  rootfs : List Char
  config : χ
  manifest : μ
  id : PEImageId
  deriving DecidableEq

structure PEImageIndex (χ μ : Type) where
  images : List (PEImageIndexEntry χ μ)

structure PEImageMultiIndexEntry (χ μ : Type) where
  path : Bytes
  image : PEImageIndexEntry χ μ
  rootfsKind : RootfsKind
  deriving DecidableEq

inductive PEImageMultiIndexKeyType where
  | name
  | digestWithSlash
  | digest
  deriving DecidableEq

def PEImageMultiIndexKeyType.key (keyType : PEImageMultiIndexKeyType) (id : PEImageId) : List Char :=
  match keyType with
  | .name => id.name
  | .digestWithSlash => id.digest.map fun c => if c = ':' then '/' else c
  | .digest => id.digest

structure PEImageMultiIndex (χ μ : Type) where
  map : List Char → Option (PEImageMultiIndexEntry χ μ)
  keyType : PEImageMultiIndexKeyType

variable {χ μ : Type}

def PEImageMultiIndex.new (keyType : PEImageMultiIndexKeyType) : PEImageMultiIndex χ μ :=
  ⟨fun _ => none, keyType⟩

def PEImageMultiIndex.insert (self : PEImageMultiIndex χ μ) (id : PEImageId)
    (entry : PEImageMultiIndexEntry χ μ) : PEImageMultiIndex χ μ :=
  { self with map := Function.update self.map (self.keyType.key id) (some entry) }

/-- `Path::extension`: what follows the last dot of the file name, if something stands before that dot. -/
def extension (p : Bytes) : Option Bytes := do
  let file ← fileName p
  match (file.splitOn dot).reverse with
  | after :: before => if before = [] ∨ before = [[]] then none else some after
  | [] => none

def tryFromPathName (p : Bytes) : Option RootfsKind := do
  let e ← extension p
  if e = Utf8.encode ['s', 'q', 'f', 's'] then some .sqfs
  else if e = Utf8.encode ['e', 'r', 'o', 'f', 's'] then some .erofs
  else none

inductive Error where
  | notOpened
  | io (e : IoError)
  deriving DecidableEq

/-- A call of `add_path`, with what the file at the path holds, if it can be opened. -/
structure Call where
  path : Bytes
  file : Option Bytes

variable (fromSlice : Bytes → Option (PEImageIndex χ μ))

/-- `PEImageIndex::from_path`, with `fromSlice` for the parser of the JSON. -/
def fromPath (call : Call) : Except Error (PEImageIndex χ μ) := do
  let f ← okOr call.file .notOpened
  (fromFile fromSlice f).mapError .io

def addImage (path : Bytes) (rootfsKind : RootfsKind) (image : PEImageIndexEntry χ μ) :
    EStateM Error (PEImageMultiIndex χ μ) Unit := do
  let self ← get
  require (self.map image.id.name = none) (.io (.invalidData "duplicate image id name"))
  set (self.insert image.id ⟨path, image, rootfsKind⟩)

def addPath (call : Call) : EStateM Error (PEImageMultiIndex χ μ) Unit := do
  let idx ← check (fromPath fromSlice call)
  let rootfsKind ← check
    (okOr (tryFromPathName call.path) (.io (.invalidData "couldn't determine rootfs kind")))
  idx.images.forM (addImage call.path rootfsKind)

def afterCalls (keyType : PEImageMultiIndexKeyType) (calls : List Call) : PEImageMultiIndex χ μ :=
  calls.foldl (fun self call => stateAfter (addPath fromSlice call self)) (.new keyType)

end Index

section Steps

variable {χ μ : Type} {fromSlice : Bytes → Option (PEImageIndex χ μ)} {call : Call}
  {self self' : PEImageMultiIndex χ μ} {entries : List (PEImageMultiIndexEntry χ μ)}
  {entry : PEImageMultiIndexEntry χ μ} {keyType : PEImageMultiIndexKeyType} {calls : List Call}

def entriesAt (path : Bytes) (rootfsKind : RootfsKind) (images : List (PEImageIndexEntry χ μ)) :
    List (PEImageMultiIndexEntry χ μ) :=
  images.map fun image => ⟨path, image, rootfsKind⟩

def entriesOf (fromSlice : Bytes → Option (PEImageIndex χ μ)) (call : Call) :
    Except Error (List (PEImageMultiIndexEntry χ μ)) := do
  let idx ← fromPath fromSlice call
  let rootfsKind ← okOr (tryFromPathName call.path) (.io (.invalidData "couldn't determine rootfs kind"))
  pure (entriesAt call.path rootfsKind idx.images)

def entryKey (keyType : PEImageMultiIndexKeyType) (entry : PEImageMultiIndexEntry χ μ) : List Char :=
  keyType.key entry.image.id

def added (keyType : PEImageMultiIndexKeyType) (m : List Char → Option (PEImageMultiIndexEntry χ μ)) :
    List (PEImageMultiIndexEntry χ μ) → List (PEImageMultiIndexEntry χ μ)
  | [] => []
  | entry :: entries =>
    if m entry.image.id.name = none then
      entry :: added keyType (Function.update m (entryKey keyType entry) (some entry)) entries
    else []

def PEImageMultiIndex.insertAll (self : PEImageMultiIndex χ μ)
    (entries : List (PEImageMultiIndexEntry χ μ)) : PEImageMultiIndex χ μ :=
  { self with map := KeyedInserts.insertAll (entryKey self.keyType) self.map entries }

theorem addImage_run (path : Bytes) (rootfsKind : RootfsKind) (image : PEImageIndexEntry χ μ)
    (self : PEImageMultiIndex χ μ) :
    addImage path rootfsKind image self =
      if self.map image.id.name = none then .ok () (self.insertAll [⟨path, image, rootfsKind⟩])
      else .error (.io (.invalidData "duplicate image id name")) self := by
  by_cases h : self.map image.id.name = none
  · rw [if_pos h, addImage, bind_of_ok (get_run self), bind_of_ok (require_of h _ self)]
    rfl
  · rw [if_neg h, addImage, bind_of_ok (get_run self), bind_of_error (require_of_not h _ self)]

/-- The loop puts in what comes before the first duplicate, and fails if there is one. -/
theorem forM_addImage (path : Bytes) (rootfsKind : RootfsKind) (images : List (PEImageIndexEntry χ μ))
    (self : PEImageMultiIndex χ μ) :
    let entries := entriesAt path rootfsKind images
    let front := added self.keyType self.map entries
    (front = entries ∧ images.forM (addImage path rootfsKind) self = .ok () (self.insertAll front)) ∨
      (front ≠ entries ∧ images.forM (addImage path rootfsKind) self =
        .error (.io (.invalidData "duplicate image id name")) (self.insertAll front)) := by
  intro entries front
  induction images generalizing self with
  | nil => exact .inl ⟨rfl, rfl⟩
  | cons image images ih =>
    have hcons : (image :: images).forM (addImage path rootfsKind) self =
        (addImage path rootfsKind image >>= fun _ => images.forM (addImage path rootfsKind)) self := rfl
    have hrun := addImage_run path rootfsKind image self
    by_cases h : self.map image.id.name = none
    · have hfront : front = ⟨path, image, rootfsKind⟩ :: added self.keyType
          (self.insertAll [⟨path, image, rootfsKind⟩]).map (entriesAt path rootfsKind images) := if_pos h
      rw [if_pos h] at hrun
      rw [hcons, bind_of_ok hrun, hfront]
      rcases ih (self.insertAll [⟨path, image, rootfsKind⟩]) with ⟨hall, hok⟩ | ⟨hall, herror⟩
      · exact .inl ⟨congrArg _ hall, hok⟩
      · exact .inr ⟨fun heq => hall (List.cons.inj heq).2, herror⟩
    · have hfront : front = [] := if_neg h
      rw [if_neg h] at hrun
      rw [hcons, bind_of_error hrun, hfront]
      exact .inr ⟨(List.cons_ne_nil _ _).symm, rfl⟩

theorem addPath_of_error {e : Error} (h : entriesOf fromSlice call = .error e)
    (self : PEImageMultiIndex χ μ) : addPath fromSlice call self = .error e self := by
  unfold entriesOf at h
  unfold addPath
  cases hidx : fromPath fromSlice call with
  | error e' =>
    rw [hidx] at h
    cases h
    rfl
  | ok idx =>
    rw [hidx] at h
    cases hkind : tryFromPathName call.path with
    | none =>
      rw [hkind] at h
      cases h
      rfl
    | some rootfsKind =>
      rw [hkind] at h
      cases h

theorem addPath_of_ok (h : entriesOf fromSlice call = .ok entries) (self : PEImageMultiIndex χ μ) :
    (added self.keyType self.map entries = entries ∧
      addPath fromSlice call self = .ok () (self.insertAll entries)) ∨
    (added self.keyType self.map entries ≠ entries ∧ ∃ e, addPath fromSlice call self =
      .error e (self.insertAll (added self.keyType self.map entries))) := by
  unfold entriesOf at h
  obtain ⟨idx, hidx, h⟩ := except_bind_eq_ok.mp h
  obtain ⟨rootfsKind, hkind, h⟩ := except_bind_eq_ok.mp h
  cases h
  have hloop : addPath fromSlice call self = idx.images.forM (addImage call.path rootfsKind) self := by
    rw [addPath, hidx, hkind]
    rfl
  rw [hloop]
  rcases forM_addImage call.path rootfsKind idx.images self with ⟨hall, hok⟩ | ⟨hall, herror⟩
  · refine .inl ⟨hall, ?_⟩
    rw [hok, hall]
  · exact .inr ⟨hall, _, herror⟩

def inserted (fromSlice : Bytes → Option (PEImageIndex χ μ)) (self : PEImageMultiIndex χ μ) (call : Call) :
    List (PEImageMultiIndexEntry χ μ) :=
  match entriesOf fromSlice call with
  | .ok entries => added self.keyType self.map entries
  | .error _ => []

theorem inserted_of_ok (h : entriesOf fromSlice call = .ok entries) (self : PEImageMultiIndex χ μ) :
    inserted fromSlice self call = added self.keyType self.map entries := by
  rw [inserted, h]

theorem stateAfter_addPath (call : Call) (self : PEImageMultiIndex χ μ) :
    stateAfter (addPath fromSlice call self) = self.insertAll (inserted fromSlice self call) := by
  cases h : entriesOf fromSlice call with
  | error e =>
    rw [addPath_of_error h, inserted, h]
    rfl
  | ok entries =>
    rw [inserted_of_ok h]
    rcases addPath_of_ok h self with ⟨hall, hok⟩ | ⟨-, e, herror⟩
    · rw [hok, hall]
      rfl
    · rw [herror]
      rfl

theorem inserted_of_result (h : result (addPath fromSlice call self) = .ok ()) :
    entriesOf fromSlice call = .ok (inserted fromSlice self call) := by
  cases hentries : entriesOf fromSlice call with
  | error e =>
    rw [addPath_of_error hentries] at h
    cases h
  | ok entries =>
    rw [inserted_of_ok hentries]
    rcases addPath_of_ok hentries self with ⟨hall, -⟩ | ⟨-, e, herror⟩
    · rw [hall]
    · rw [herror] at h
      cases h

theorem afterCalls_concat (calls : List Call) (call : Call) :
    afterCalls fromSlice keyType (calls ++ [call]) =
      (afterCalls fromSlice keyType calls).insertAll
        (inserted fromSlice (afterCalls fromSlice keyType calls) call) := by
  rw [← stateAfter_addPath]
  exact List.foldl_concat ..

theorem keyType_afterCalls (calls : List Call) :
    (afterCalls fromSlice keyType calls).keyType = keyType := by
  induction calls using List.reverseRecOn with
  | nil => rfl
  | append_singleton calls call ih =>
    rw [afterCalls_concat]
    exact ih

theorem map_afterCalls_concat (calls : List Call) (call : Call) :
    (afterCalls fromSlice keyType (calls ++ [call])).map =
      insertAll (entryKey keyType) (afterCalls fromSlice keyType calls).map
        (inserted fromSlice (afterCalls fromSlice keyType calls) call) := by
  rw [afterCalls_concat, PEImageMultiIndex.insertAll, keyType_afterCalls]

end Steps

section Calls

variable {χ μ : Type} (fromSlice : Bytes → Option (PEImageIndex χ μ))
  (keyType : PEImageMultiIndexKeyType) (calls : List Call)

def Accepted (entry : PEImageMultiIndexEntry χ μ) : Prop :=
  ∃ front call back entries, calls = front ++ call :: back ∧
    result (addPath fromSlice call (afterCalls fromSlice keyType front)) = .ok () ∧
    entriesOf fromSlice call = .ok entries ∧ entry ∈ entries

/-- Every image of a call that returned `Ok` is in the index, and a call that
failed left the index as it was. -/
structure NeverOverwrites : Prop where
  found : ∀ entry, Accepted fromSlice keyType calls entry →
    (afterCalls fromSlice keyType calls).map (keyType.key entry.image.id) = some entry
  unchanged : ∀ front call back e self, calls = front ++ call :: back →
    addPath fromSlice call (afterCalls fromSlice keyType front) = .error e self →
    self = afterCalls fromSlice keyType front

variable {fromSlice keyType calls} {front : List Call} {call : Call} {entry : PEImageMultiIndexEntry χ μ}
  {entries : List (PEImageMultiIndexEntry χ μ)}

theorem insertAll_unchanged_iff :
    (afterCalls fromSlice keyType front).insertAll entries = afterCalls fromSlice keyType front ↔
      ∀ k x, latest (entryKey keyType) entries k = some x →
        (afterCalls fromSlice keyType front).map k = some x := by
  rw [← insertAll_eq_self_iff, PEImageMultiIndex.insertAll, keyType_afterCalls]
  constructor
  · intro h
    exact congrArg PEImageMultiIndex.map h
  · intro h
    rw [h]
    exact congrArg _ (keyType_afterCalls front).symm

theorem not_accepted_nil : ¬ Accepted fromSlice keyType [] entry := by
  rintro ⟨front, call, back, entries, hsplit, -⟩
  simp at hsplit

theorem accepted_of_concat (h : Accepted fromSlice keyType (calls ++ [call]) entry) :
    Accepted fromSlice keyType calls entry ∨
      result (addPath fromSlice call (afterCalls fromSlice keyType calls)) = .ok () ∧
        entry ∈ inserted fromSlice (afterCalls fromSlice keyType calls) call := by
  obtain ⟨front, call', back, entries, hsplit, hok, hentries, hmem⟩ := h
  rcases List.eq_nil_or_concat back with rfl | ⟨back, last, rfl⟩
  · obtain ⟨rfl, hcall⟩ := List.append_inj' hsplit rfl
    cases hcall
    rw [inserted_of_result hok] at hentries
    cases hentries
    exact .inr ⟨hok, hmem⟩
  · rw [List.concat_eq_append, ← List.cons_append, ← List.append_assoc] at hsplit
    exact .inl ⟨front, call', back, entries, (List.append_inj' hsplit rfl).1, hok, hentries, hmem⟩

theorem accepted_append (h : Accepted fromSlice keyType calls entry) (back : List Call) :
    Accepted fromSlice keyType (calls ++ back) entry := by
  obtain ⟨front, call, back', entries, rfl, hok, hentries, hmem⟩ := h
  exact ⟨front, call, back' ++ back, entries, by simp, hok, hentries, hmem⟩

/-- The name of no image is a key of the map, or the key of an image before it. -/
def NoDuplicate (keyType : PEImageMultiIndexKeyType) (m : List Char → Option (PEImageMultiIndexEntry χ μ))
    (entries : List (PEImageMultiIndexEntry χ μ)) : Prop :=
  ∀ pre x post, entries = pre ++ x :: post →
    m x.image.id.name = none ∧ ∀ y ∈ pre, entryKey keyType y ≠ x.image.id.name

/-- If no duplicate is found, the images have keys of their own, which are free or
already stand for them. Up to the first duplicate, the last image of each key is
the one that the map has under it. -/
structure Clean (keyType : PEImageMultiIndexKeyType) (m : List Char → Option (PEImageMultiIndexEntry χ μ))
    (entries : List (PEImageMultiIndexEntry χ μ)) : Prop where
  distinct : NoDuplicate keyType m entries →
    ∀ x ∈ entries, ∀ y ∈ entries, entryKey keyType x = entryKey keyType y → x = y
  untaken : NoDuplicate keyType m entries →
    ∀ x ∈ entries, m (entryKey keyType x) = none ∨ m (entryKey keyType x) = some x
  stopped : ∀ pre x post, entries = pre ++ x :: post → NoDuplicate keyType m pre →
    (m x.image.id.name ≠ none ∨ ∃ y ∈ pre, entryKey keyType y = x.image.id.name) →
    ∀ k y, latest (entryKey keyType) pre k = some y → m k = some y

section Duplicates

variable {m : List Char → Option (PEImageMultiIndexEntry χ μ)} {pre : List (PEImageMultiIndexEntry χ μ)}
  {x : PEImageMultiIndexEntry χ μ}

theorem noDuplicate_tail (h : NoDuplicate keyType m (entry :: pre)) :
    NoDuplicate keyType (Function.update m (entryKey keyType entry) (some entry)) pre := by
  rintro front y post rfl
  obtain ⟨hfree, hkeys⟩ := h (entry :: front) y post rfl
  refine ⟨?_, fun z hz => hkeys z (by simp [hz])⟩
  rw [Function.update_of_ne (hkeys entry (by simp)).symm, hfree]

theorem added_of_noDuplicate (h : NoDuplicate keyType m entries) : added keyType m entries = entries := by
  induction entries generalizing m with
  | nil => rfl
  | cons e entries ih => rw [added, if_pos (h [] e entries rfl).1, ih (noDuplicate_tail h)]

theorem added_of_duplicate (h : NoDuplicate keyType m pre)
    (hx : m x.image.id.name ≠ none ∨ ∃ y ∈ pre, entryKey keyType y = x.image.id.name)
    (post : List (PEImageMultiIndexEntry χ μ)) : added keyType m (pre ++ x :: post) = pre := by
  induction pre generalizing m with
  | nil => exact if_neg (hx.resolve_right (by simp))
  | cons e pre ih =>
    rw [List.cons_append, added, if_pos (h [] e pre rfl).1, ih (noDuplicate_tail h)]
    by_cases hkey : entryKey keyType e = x.image.id.name
    · exact .inl (by simp [hkey])
    · rcases hx with hx | ⟨y, hy, heq⟩
      · exact .inl (by rwa [Function.update_of_ne (Ne.symm hkey)])
      · rcases List.mem_cons.mp hy with rfl | hy
        · exact absurd heq hkey
        · exact .inr ⟨y, hy, heq⟩

theorem exists_first_duplicate (h : ¬ NoDuplicate keyType m entries) : ∃ pre x post,
    entries = pre ++ x :: post ∧ NoDuplicate keyType m pre ∧
      (m x.image.id.name ≠ none ∨ ∃ y ∈ pre, entryKey keyType y = x.image.id.name) := by
  induction entries using List.reverseRecOn with
  | nil => exact absurd (fun pre x post hsplit => by simp at hsplit) h
  | append_singleton front last ih =>
    by_cases hfront : NoDuplicate keyType m front
    · refine ⟨front, last, [], rfl, hfront, ?_⟩
      by_contra hlast
      push Not at hlast
      refine h fun pre x post hsplit => ?_
      rcases List.eq_nil_or_concat post with rfl | ⟨post, y, rfl⟩
      · obtain ⟨rfl, hx⟩ := List.append_inj' hsplit rfl
        cases hx
        exact hlast
      · rw [List.concat_eq_append, ← List.cons_append, ← List.append_assoc] at hsplit
        exact hfront pre x post (List.append_inj' hsplit rfl).1
    · obtain ⟨pre, x, post, rfl, hpre, hx⟩ := ih hfront
      exact ⟨pre, x, post ++ [last], by simp, hpre, hx⟩

end Duplicates

theorem addPath_of_noDuplicate (h : entriesOf fromSlice call = .ok entries)
    (hno : NoDuplicate keyType (afterCalls fromSlice keyType front).map entries) :
    result (addPath fromSlice call (afterCalls fromSlice keyType front)) = .ok () := by
  rcases addPath_of_ok h (afterCalls fromSlice keyType front) with ⟨-, hok⟩ | ⟨hne, -⟩
  · rw [hok]
    rfl
  · rw [keyType_afterCalls] at hne
    exact absurd (added_of_noDuplicate hno) hne

theorem addPath_of_duplicate {pre post : List (PEImageMultiIndexEntry χ μ)}
    {x : PEImageMultiIndexEntry χ μ} (h : entriesOf fromSlice call = .ok (pre ++ x :: post))
    (hno : NoDuplicate keyType (afterCalls fromSlice keyType front).map pre)
    (hx : (afterCalls fromSlice keyType front).map x.image.id.name ≠ none ∨
      ∃ y ∈ pre, entryKey keyType y = x.image.id.name) :
    ∃ e, addPath fromSlice call (afterCalls fromSlice keyType front) =
      .error e ((afterCalls fromSlice keyType front).insertAll pre) := by
  have hpre := added_of_duplicate hno hx post
  rcases addPath_of_ok h (afterCalls fromSlice keyType front) with ⟨hall, -⟩ | ⟨-, e, herror⟩
  · rw [keyType_afterCalls, hpre] at hall
    simp at hall
  · rw [keyType_afterCalls, hpre] at herror
    exact ⟨e, herror⟩

/-- While calls that fail change nothing, the index holds what was accepted. -/
theorem accepted_of_map (hunchanged : ∀ front call back e self, calls = front ++ call :: back →
      addPath fromSlice call (afterCalls fromSlice keyType front) = .error e self →
      self = afterCalls fromSlice keyType front) {k : List Char}
    (h : (afterCalls fromSlice keyType calls).map k = some entry) :
    Accepted fromSlice keyType calls entry := by
  induction calls using List.reverseRecOn with
  | nil => cases h
  | append_singleton calls call ih =>
    have hbefore : (afterCalls fromSlice keyType calls).map k = some entry →
        Accepted fromSlice keyType (calls ++ [call]) entry := fun hk => by
      refine accepted_append (ih (fun front call' back e self hsplit => ?_) hk) _
      exact hunchanged front call' (back ++ [call]) e self (by simp [hsplit])
    cases hres : result (addPath fromSlice call (afterCalls fromSlice keyType calls)) with
    | error e =>
      rw [afterCalls_concat, ← stateAfter_addPath,
        hunchanged calls call [] e _ rfl (error_of_result hres)] at h
      exact hbefore h
    | ok u =>
      rw [map_afterCalls_concat, insertAll_apply] at h
      rcases Option.or_eq_some_iff.mp h with hlatest | ⟨-, hk⟩
      · exact ⟨calls, call, [], _, rfl, hres, inserted_of_result hres, (latest_eq_some hlatest).1⟩
      · exact hbefore hk

theorem key_of_afterCalls {k : List Char} (h : (afterCalls fromSlice keyType calls).map k = some entry) :
    entryKey keyType entry = k := by
  induction calls using List.reverseRecOn with
  | nil => cases h
  | append_singleton calls call ih =>
    rw [map_afterCalls_concat, insertAll_apply] at h
    rcases Option.or_eq_some_iff.mp h with hlatest | ⟨-, hbefore⟩
    · exact (latest_eq_some hlatest).2
    · exact ih hbefore

theorem clean_of_neverOverwrites {back : List Call}
    (h : NeverOverwrites fromSlice keyType (front ++ call :: back))
    (hentries : entriesOf fromSlice call = .ok entries) :
    Clean keyType (afterCalls fromSlice keyType front).map entries := by
  have hnew : NoDuplicate keyType (afterCalls fromSlice keyType front).map entries → ∀ x ∈ entries,
      Accepted fromSlice keyType (front ++ call :: back) x := fun hno x hx =>
    ⟨front, call, back, entries, rfl, addPath_of_noDuplicate hentries hno, hentries, hx⟩
  have hunique : ∀ x y, Accepted fromSlice keyType (front ++ call :: back) x →
      Accepted fromSlice keyType (front ++ call :: back) y →
      entryKey keyType x = entryKey keyType y → x = y := by
    intro x y hx hy hkey
    have hfound := h.found x hx
    rw [show keyType.key x.image.id = keyType.key y.image.id from hkey, h.found y hy] at hfound
    exact (Option.some.inj hfound).symm
  refine ⟨fun hno x hx y hy => hunique x y (hnew hno x hx) (hnew hno y hy), fun hno x hx => ?_, ?_⟩
  · cases hz : (afterCalls fromSlice keyType front).map (entryKey keyType x) with
    | none => exact .inl rfl
    | some z =>
      have hacc : Accepted fromSlice keyType front z := by
        refine accepted_of_map (fun front' call' back' e self hsplit => ?_) hz
        exact h.unchanged front' call' (back' ++ call :: back) e self (by simp [hsplit])
      exact .inr (congrArg some (hunique z x (accepted_append hacc _) (hnew hno x hx) (key_of_afterCalls hz)))
  · rintro pre x post rfl hno hx
    obtain ⟨e, herror⟩ := addPath_of_duplicate hentries hno hx
    exact insertAll_unchanged_iff.mp (h.unchanged front call back e _ rfl herror)

theorem unchanged_of_clean {e : Error} {self : PEImageMultiIndex χ μ}
    (h : ∀ entries, entriesOf fromSlice call = .ok entries →
      Clean keyType (afterCalls fromSlice keyType front).map entries)
    (herror : addPath fromSlice call (afterCalls fromSlice keyType front) = .error e self) :
    self = afterCalls fromSlice keyType front := by
  cases hentries : entriesOf fromSlice call with
  | error e' =>
    rw [addPath_of_error hentries] at herror
    cases herror
    rfl
  | ok entries =>
    by_cases hno : NoDuplicate keyType (afterCalls fromSlice keyType front).map entries
    · have hok := addPath_of_noDuplicate hentries hno
      rw [herror] at hok
      cases hok
    · obtain ⟨pre, x, post, rfl, hpre, hx⟩ := exists_first_duplicate hno
      obtain ⟨e', herror'⟩ := addPath_of_duplicate hentries hpre hx
      rw [herror'] at herror
      cases herror
      exact insertAll_unchanged_iff.mpr ((h _ hentries).stopped pre x post rfl hpre hx)

theorem found_concat (hclean : ∀ entries, entriesOf fromSlice call = .ok entries →
      Clean keyType (afterCalls fromSlice keyType calls).map entries)
    (hfound : ∀ entry, Accepted fromSlice keyType calls entry →
      (afterCalls fromSlice keyType calls).map (keyType.key entry.image.id) = some entry)
    (h : Accepted fromSlice keyType (calls ++ [call]) entry) :
    (afterCalls fromSlice keyType (calls ++ [call])).map (keyType.key entry.image.id) = some entry := by
  cases hres : result (addPath fromSlice call (afterCalls fromSlice keyType calls)) with
  | error e =>
    rw [afterCalls_concat, ← stateAfter_addPath, unchanged_of_clean hclean (error_of_result hres)]
    rcases accepted_of_concat h with hbefore | ⟨hok, -⟩
    · exact hfound entry hbefore
    · rw [hres] at hok
      cases hok
  | ok u =>
    have hentries := inserted_of_result hres
    have hno : NoDuplicate keyType (afterCalls fromSlice keyType calls).map
        (inserted fromSlice (afterCalls fromSlice keyType calls) call) := by
      by_contra hdup
      obtain ⟨pre, x, post, hsplit, hpre, hx⟩ := exists_first_duplicate hdup
      rw [hsplit] at hentries
      obtain ⟨e, herror⟩ := addPath_of_duplicate hentries hpre hx
      rw [herror] at hres
      cases hres
    have hc := hclean _ hentries
    rw [map_afterCalls_concat]
    rcases accepted_of_concat h with hbefore | ⟨-, hmem⟩
    · have hkey := hfound entry hbefore
      refine insertAll_of_alone (fun y hy heq => ?_) (.inr hkey)
      rcases hc.untaken hno y hy with hnone | hsome
      · rw [heq, show entryKey keyType entry = keyType.key entry.image.id from rfl, hkey] at hnone
        cases hnone
      · rw [heq, show entryKey keyType entry = keyType.key entry.image.id from rfl, hkey] at hsome
        exact (Option.some.inj hsome).symm
    · exact insertAll_of_alone (fun y hy heq => hc.distinct hno y hy entry hmem heq) (.inl hmem)

/-- An index never overwrites exactly if the images of each file are clean for
the keys that the index has before the call. -/
theorem neverOverwrites_iff :
    NeverOverwrites fromSlice keyType calls ↔
      ∀ front call back entries, calls = front ++ call :: back → entriesOf fromSlice call = .ok entries →
        Clean keyType (afterCalls fromSlice keyType front).map entries := by
  constructor
  · rintro h front call back entries rfl hentries
    exact clean_of_neverOverwrites h hentries
  · intro h
    refine ⟨?_, fun front call back e self hsplit herror => ?_⟩
    · -- by induction on the calls made so far
      suffices hfront : ∀ front back, calls = front ++ back → ∀ entry,
          Accepted fromSlice keyType front entry →
          (afterCalls fromSlice keyType front).map (keyType.key entry.image.id) = some entry from
        hfront calls [] (List.append_nil _).symm
      intro front
      induction front using List.reverseRecOn with
      | nil => exact fun back _ entry h => absurd h not_accepted_nil
      | append_singleton front call ih =>
        intro back hsplit entry hentry
        have hsplit' : calls = front ++ call :: back := by simpa using hsplit
        exact found_concat (fun entries => h front call back entries hsplit') (ih _ hsplit') hentry
    · exact unchanged_of_clean (fun entries => h front call back entries hsplit) herror

def fileOf (b : UInt8) : Bytes := ImageTrailer.trailer [b]

def busybox : PEImageIndexEntry Unit Unit := ⟨['r'], (), (), ⟨['d'], ['b'], ['q'], ['1']⟩⟩

def renamed : PEImageIndexEntry Unit Unit := ⟨['r'], (), (), ⟨['d'], ['b'], ['q'], ['2']⟩⟩

def parseByte : Bytes → Option (PEImageIndex Unit Unit)
  | [1] => some ⟨[busybox]⟩
  | [2] => some ⟨[renamed]⟩
  | [3] => some ⟨[renamed, busybox]⟩
  | _ => none

def pathA : Bytes := Utf8.encode ['a', '.', 's', 'q', 'f', 's']

def pathB : Bytes := Utf8.encode ['b', '.', 's', 'q', 'f', 's']

def first : Call := ⟨pathA, some (fileOf 1)⟩

def second : Call := ⟨pathB, some (fileOf 2)⟩

def third : Call := ⟨pathB, some (fileOf 3)⟩

theorem second_replaces_first :
    result (addPath parseByte first (afterCalls parseByte .digest [])) = .ok () ∧
      result (addPath parseByte second (afterCalls parseByte .digest [first])) = .ok () ∧
      entriesOf parseByte first = .ok [⟨pathA, busybox, .sqfs⟩] ∧
      (afterCalls parseByte .digest [first, second]).map ['d'] = some ⟨pathB, renamed, .sqfs⟩ := by
  decide +kernel

theorem third_left_behind :
    result (addPath parseByte third (afterCalls parseByte .name [first])) =
        .error (.io (.invalidData "duplicate image id name")) ∧
      (afterCalls parseByte .name [first]).map renamed.id.name = none ∧
      (stateAfter (addPath parseByte third (afterCalls parseByte .name [first]))).map renamed.id.name =
        some ⟨pathB, renamed, .sqfs⟩ := by
  decide +kernel

/-- By digest a second image replaces the first, and by name a call that fails
leaves an image behind. -/
theorem index_overwrites :
    ¬ NeverOverwrites parseByte .digest [first, second] ∧
      ¬ NeverOverwrites parseByte .name [first, third] := by
  constructor
  · intro h
    obtain ⟨hok, -, hentries, hmap⟩ := second_replaces_first
    have hfound := h.found ⟨pathA, busybox, .sqfs⟩
      ⟨[], first, [second], _, rfl, hok, hentries, List.mem_singleton.mpr rfl⟩
    rw [show PEImageMultiIndexKeyType.key .digest busybox.id = ['d'] from rfl, hmap] at hfound
    exact absurd hfound (by decide)
  · intro h
    obtain ⟨herror, hbefore, hafter⟩ := third_left_behind
    have hsame := h.unchanged [first] third [] _ _ rfl (error_of_result herror)
    rw [hsame, hbefore] at hafter
    cases hafter

end Calls

section KeyTypes

variable {χ μ : Type} {fromSlice : Bytes → Option (PEImageIndex χ μ)} {calls : List Call} {call : Call}
  {keyType : PEImageMultiIndexKeyType} {m : List Char → Option (PEImageMultiIndexEntry χ μ)}
  {entries : List (PEImageMultiIndexEntry χ μ)} {x entry : PEImageMultiIndexEntry χ μ} {k : List Char}

/-- By name the check looks for the key itself, so nothing is replaced. -/
theorem added_name_keeps (h : m k = some x) (entries : List (PEImageMultiIndexEntry χ μ)) :
    insertAll (entryKey .name) m (added .name m entries) k = some x := by
  induction entries generalizing m with
  | nil => exact h
  | cons e entries ih =>
    rw [added]
    split_ifs with hnone
    · have hne : k ≠ entryKey .name e := by
        rintro rfl
        rw [show m (entryKey .name e) = none from hnone] at h
        cases h
      have hup : Function.update m (entryKey .name e) (some e) k = some x := by
        rw [Function.update_of_ne hne, h]
      exact ih hup
    · exact h

theorem added_name_found (h : x ∈ added .name m entries) :
    insertAll (entryKey .name) m (added .name m entries) (entryKey .name x) = some x := by
  induction entries generalizing m with
  | nil => cases h
  | cons e entries ih =>
    rw [added] at h ⊢
    split_ifs at h ⊢ with hnone
    · rcases List.mem_cons.mp h with rfl | h
      · exact added_name_keeps (Function.update_self ..) entries
      · exact ih h
    · cases h

theorem inserted_cases (fromSlice : Bytes → Option (PEImageIndex χ μ)) (keyType : PEImageMultiIndexKeyType)
    (calls : List Call) (call : Call) :
    ∃ entries, inserted fromSlice (afterCalls fromSlice keyType calls) call =
      added keyType (afterCalls fromSlice keyType calls).map entries := by
  cases h : entriesOf fromSlice call with
  | error e => exact ⟨[], by rw [inserted, h]; rfl⟩
  | ok entries => exact ⟨entries, by rw [inserted_of_ok h, keyType_afterCalls]⟩

/-- An index by name holds every image of every call that returned `Ok`. -/
theorem found_by_name (h : Accepted fromSlice .name calls entry) :
    (afterCalls fromSlice .name calls).map entry.image.id.name = some entry := by
  induction calls using List.reverseRecOn with
  | nil => exact absurd h not_accepted_nil
  | append_singleton calls call ih =>
    obtain ⟨entries, hins⟩ := inserted_cases fromSlice .name calls call
    rw [map_afterCalls_concat, hins]
    rcases accepted_of_concat h with hbefore | ⟨-, hmem⟩
    · exact added_name_keeps (ih hbefore) entries
    · rw [hins] at hmem
      exact added_name_found hmem

/-- The first image is still there after a second one of its digest. -/
theorem busybox_found_by_name :
    (afterCalls parseByte .name [first, second]).map busybox.id.name = some ⟨pathA, busybox, .sqfs⟩ :=
  found_by_name ⟨[], first, [second], [⟨pathA, busybox, .sqfs⟩], rfl, by decide +kernel, by decide +kernel,
    List.mem_singleton.mpr rfl⟩

theorem colon_not_mem_slash_key (id : PEImageId) :
    ':' ∉ PEImageMultiIndexKeyType.key .digestWithSlash id := by
  intro h
  obtain ⟨c, -, hc⟩ := List.mem_map.mp h
  split_ifs at hc with hcolon
  · exact absurd hc (by decide)
  · exact hcolon hc

theorem added_slash (h : ∀ k x, m k = some x → ':' ∉ k) (entries : List (PEImageMultiIndexEntry χ μ)) :
    added .digestWithSlash m entries = entries := by
  induction entries generalizing m with
  | nil => rfl
  | cons e entries ih =>
    have hname : ':' ∈ e.image.id.name := by simp [PEImageId.name]
    have hnone : m e.image.id.name = none := by
      by_contra hsome
      obtain ⟨x, hx⟩ := Option.ne_none_iff_exists'.mp hsome
      exact h _ x hx hname
    rw [added, if_pos hnone, ih]
    intro k x hx
    by_cases hk : k = entryKey .digestWithSlash e
    · exact hk ▸ colon_not_mem_slash_key e.image.id
    · rw [Function.update_of_ne hk] at hx
      exact h k x hx

/-- With slashes in the keys no duplicate is found. -/
theorem ok_with_slash (h : entriesOf fromSlice call = .ok entries) :
    result (addPath fromSlice call (afterCalls fromSlice .digestWithSlash calls)) = .ok () := by
  have hcolon : ∀ k x, (afterCalls fromSlice .digestWithSlash calls).map k = some x → ':' ∉ k := by
    intro k x hx
    rw [← key_of_afterCalls hx]
    exact colon_not_mem_slash_key x.image.id
  rcases addPath_of_ok h (afterCalls fromSlice .digestWithSlash calls) with ⟨-, hok⟩ | ⟨hne, -⟩
  · rw [hok]
    rfl
  · rw [keyType_afterCalls] at hne
    exact absurd (added_slash hcolon entries) hne

/-- The call that an index by name turns down. -/
theorem third_ok_with_slash :
    result (addPath parseByte third (afterCalls parseByte .digestWithSlash [first])) = .ok () := by
  have hentries : entriesOf parseByte third = .ok [⟨pathB, renamed, .sqfs⟩, ⟨pathB, busybox, .sqfs⟩] := by
    decide +kernel
  exact ok_with_slash hentries

end KeyTypes

end ProgramExplorer.ImageIndex
