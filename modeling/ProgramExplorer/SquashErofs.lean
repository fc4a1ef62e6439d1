import ProgramExplorer.ErofsCursor
import ProgramExplorer.SquashHistory

/-!
# Squashing into an image

`SquashToErofs` of `peimage/src/squash.rs`: each entry that the squasher hands
on becomes one call of the image builder. A hard link is only queued by that
call; `into_inner` resolves the queue when all layers are read. What the tar
crate returns for an entry is a parameter.
-/

set_option autoImplicit false

namespace ProgramExplorer.SquashErofs
open ByteStrings OrderedMap StateRules
open ErofsTree (Meta Mode XattrMap)
open ErofsBuilder (Builder Reader intoInner)
open SquashDeletions SquashMachine SquashHistory

/-- An entry of an archive with the header fields that `on_entry` asks for. A
number or an extension that the tar crate cannot read is `none`. -/
structure TarEntry where
  path : Bytes
  entryType : EntryType
  uid : Option UInt64
  gid : Option UInt64
  mtime : Option UInt64
  mode : Option UInt32
  size : Option UInt64
  linkName : Option Bytes
  paxExtensions : Option (List (Option (Bytes × Bytes)))
  contents : Reader

def tryU32 (n : UInt64) (e : Error) : Except Error UInt32 :=
  if n.toNat < 2 ^ 32 then .ok n.toUInt32 else .error e

def headerToMeta (entry : TarEntry) (xattrs : XattrMap) : Except Error Meta := do
  let uid ← okOr entry.uid .io
  let uid ← tryU32 uid .uidTooBig
  let gid ← okOr entry.gid .io
  let gid ← tryU32 gid .gidTooBig
  let mtime ← okOr entry.mtime .io
  let mode ← okOr entry.mode .io
  pure ⟨uid, gid, mtime, Mode.fromRawMode mode, xattrs⟩

def addExtension (xattrs : XattrMap) (extension : Option (Bytes × Bytes)) : Except Error XattrMap := do
  let extension ← okOr extension .io
  pure (xattrs.upsert extension.1 fun _ => extension.2)

def paxXattrs (entry : TarEntry) : Except Error XattrMap := do
  let extensions ← okOr entry.paxExtensions .io
  extensions.foldlM addExtension OrdMap.empty

def entryCall (entry : TarEntry) : Except Error ErofsCursor.Call := do
  let xattrs ← paxXattrs entry
  let metadata ← headerToMeta entry xattrs
  match entry.entryType with
  | .regular => do
    let size ← okOr entry.size .io
    pure (.addFile entry.path metadata size.toNat entry.contents)
  | .directory => pure (.upsertDir entry.path metadata)
  | .symlink => do
    let link ← okOr entry.linkName .hardlinkNoLink
    pure (.addSymlink entry.path link metadata)
  | .link => do
    let link ← okOr entry.linkName .hardlinkNoLink
    pure (.addLink entry.path link metadata)
  | t => .error (.unhandledEntryType t)

def onEntry (entry : TarEntry) : EStateM Error Builder Unit := fun b =>
  match entryCall entry with
  | .error e => .error e b
  | .ok call =>
    match call.run b with
    | .ok _ b' => .ok () b'
    | .error e b' => .error (.erofs e) b'

/-- The source drops the writer that `into_inner` returns; here it is the image. -/
def squashToErofs (layers : List (List (Except Error TarEntry))) (builder : Builder) :
    Except Error (Stats × ErofsBuilder.Stats × Bytes) :=
  match squashCb TarEntry.path onEntry layers builder with
  | .error e _ => .error e
  | .ok stats b =>
    match intoInner b with
    | .ok (erofsStats, image) => .ok (stats, erofsStats, image)
    | .error e => .error (.erofs e)

section Calls

variable {entry : TarEntry} {call : ErofsCursor.Call}

/-- The call has the metadata of the header and the xattrs of the extensions. -/
theorem entryCall_ok (h : entryCall entry = .ok call) : ∃ xattrs metadata,
    paxXattrs entry = .ok xattrs ∧ headerToMeta entry xattrs = .ok metadata ∧
    ((entry.entryType = .regular ∧ ∃ size, entry.size = some size ∧
        call = .addFile entry.path metadata size.toNat entry.contents) ∨
      (entry.entryType = .directory ∧ call = .upsertDir entry.path metadata) ∨
      (entry.entryType = .symlink ∧ ∃ link, entry.linkName = some link ∧
        call = .addSymlink entry.path link metadata) ∨
      (entry.entryType = .link ∧ ∃ link, entry.linkName = some link ∧
        call = .addLink entry.path link metadata)) := by
  obtain ⟨xattrs, hx, h⟩ := except_bind_eq_ok.mp h
  obtain ⟨metadata, hm, h⟩ := except_bind_eq_ok.mp h
  refine ⟨xattrs, metadata, hx, hm, ?_⟩
  cases ht : entry.entryType with
  | regular =>
    rw [ht] at h
    obtain ⟨size, hs, h⟩ := except_bind_eq_ok.mp h
    obtain rfl := except_pure_eq_ok.mp h
    exact Or.inl ⟨rfl, size, okOr_eq_ok.mp hs, rfl⟩
  | directory =>
    rw [ht] at h
    obtain rfl := except_pure_eq_ok.mp h
    exact Or.inr (Or.inl ⟨rfl, rfl⟩)
  | symlink =>
    rw [ht] at h
    obtain ⟨link, hl, h⟩ := except_bind_eq_ok.mp h
    obtain rfl := except_pure_eq_ok.mp h
    exact Or.inr (Or.inr (Or.inl ⟨rfl, link, okOr_eq_ok.mp hl, rfl⟩))
  | link =>
    rw [ht] at h
    obtain ⟨link, hl, h⟩ := except_bind_eq_ok.mp h
    obtain rfl := except_pure_eq_ok.mp h
    exact Or.inr (Or.inr (Or.inr ⟨rfl, link, okOr_eq_ok.mp hl, rfl⟩))
  | char | block | fifo | continuous | gnuLongName | gnuLongLink | gnuSparse | xGlobalHeader
  | xHeader | other =>
    rw [ht] at h
    cases h

end Calls

section PaxRecords

def schilyXattr : Bytes :=
  [0x53, 0x43, 0x48, 0x49, 0x4c, 0x59, 0x2e, 0x78, 0x61, 0x74, 0x74, 0x72, 0x2e]

def callMeta : ErofsCursor.Call → Meta
  | .addFile _ metadata _ _ => metadata
  | .addSymlink _ _ metadata => metadata
  | .upsertDir _ metadata => metadata
  | .addLink _ _ metadata => metadata

def IsXattrsOf (xattrs : XattrMap) (records : List (Bytes × Bytes)) : Prop :=
  ∀ key value, xattrs.get? key = some value ↔ (schilyXattr ++ key, value) ∈ records

theorem foldlM_addExtension {extensions : List (Option (Bytes × Bytes))} {xattrs₀ xattrs : XattrMap}
    (h : extensions.foldlM addExtension xattrs₀ = .ok xattrs) :
    ∃ records : List (Bytes × Bytes), extensions = records.map some ∧ ∀ key,
      (xattrs.get? key).isSome ↔ (xattrs₀.get? key).isSome ∨ ∃ value, (key, value) ∈ records := by
  induction extensions generalizing xattrs₀ with
  | nil =>
    cases h
    exact ⟨[], rfl, by simp⟩
  | cons extension rest ih =>
    rw [List.foldlM_cons] at h
    obtain ⟨xattrs₁, h₁, h⟩ := except_bind_eq_ok.mp h
    obtain ⟨record, hr, h₁⟩ := except_bind_eq_ok.mp h₁
    obtain rfl := okOr_eq_ok.mp hr
    obtain rfl := except_pure_eq_ok.mp h₁
    obtain ⟨records, rfl, hkeys⟩ := ih h
    refine ⟨record :: records, rfl, fun key => ?_⟩
    rw [hkeys key, OrdMap.get?_upsert]
    by_cases hk : key = record.1
    · subst hk
      exact iff_of_true (Or.inl (by simp)) (Or.inr ⟨record.2, by simp⟩)
    · have hmem : ∀ value, (key, value) ∈ record :: records ↔ (key, value) ∈ records := by
        intro value
        rw [List.mem_cons, or_iff_right]
        exact fun heq => hk (congrArg Prod.fst heq)
      simp only [if_neg hk, hmem]

theorem headerToMeta_xattrs {entry : TarEntry} {xattrs : XattrMap} {metadata : Meta}
    (h : headerToMeta entry xattrs = .ok metadata) : metadata.xattrs = xattrs := by
  obtain ⟨_, -, h⟩ := except_bind_eq_ok.mp h
  obtain ⟨_, -, h⟩ := except_bind_eq_ok.mp h
  obtain ⟨_, -, h⟩ := except_bind_eq_ok.mp h
  obtain ⟨_, -, h⟩ := except_bind_eq_ok.mp h
  obtain ⟨_, -, h⟩ := except_bind_eq_ok.mp h
  obtain ⟨_, -, h⟩ := except_bind_eq_ok.mp h
  obtain rfl := except_pure_eq_ok.mp h
  rfl

theorem entryCall_records {entry : TarEntry} {call : ErofsCursor.Call}
    (h : entryCall entry = .ok call) :
    ∃ records : List (Bytes × Bytes), entry.paxExtensions = some (records.map some) ∧
      ∀ key, ((callMeta call).xattrs.get? key).isSome ↔ ∃ value, (key, value) ∈ records := by
  obtain ⟨xattrs, metadata, hx, hmeta, htype⟩ := entryCall_ok h
  have hcall : (callMeta call).xattrs = xattrs := by
    rw [← headerToMeta_xattrs hmeta]
    rcases htype with ⟨-, _, -, rfl⟩ | ⟨-, rfl⟩ | ⟨-, _, -, rfl⟩ | ⟨-, _, -, rfl⟩ <;> rfl
  obtain ⟨extensions, hext, hfold⟩ := except_bind_eq_ok.mp hx
  obtain ⟨records, rfl, hkeys⟩ := foldlM_addExtension hfold
  refine ⟨records, okOr_eq_ok.mp hext, fun key => ?_⟩
  rw [hcall, hkeys key]
  simp [OrdMap.empty, OrdMap.get?, lookup]

/-- The xattrs handed to the builder are those among the PAX records of the
entry only if there are no records at all: each record is stored under its own
key, and a record for that key as an xattr would have a longer one. -/
theorem pax_xattrs_iff {entry : TarEntry} {call : ErofsCursor.Call}
    (h : entryCall entry = .ok call) :
    ∃ records : List (Bytes × Bytes), entry.paxExtensions = some (records.map some) ∧
      (IsXattrsOf (callMeta call).xattrs records ↔ records = []) := by
  obtain ⟨records, hext, hkeys⟩ := entryCall_records h
  refine ⟨records, hext, fun hx => ?_, ?_⟩
  · by_contra hne
    obtain ⟨longest, hm, hmax⟩ := records.toFinset.exists_max_image (fun r => r.1.length)
      (List.toFinset_nonempty_iff _ |>.mpr hne)
    obtain ⟨value, hv⟩ := Option.isSome_iff_exists.mp
      ((hkeys longest.1).mpr ⟨longest.2, List.mem_toFinset.mp hm⟩)
    have hle := hmax _ (List.mem_toFinset.mpr ((hx longest.1 value).mp hv))
    rw [List.length_append] at hle
    have hpos : 0 < schilyXattr.length := by decide
    omega
  · rintro rfl key value
    have hnone := hkeys key
    simp only [List.not_mem_nil, exists_false, iff_false, Bool.not_eq_true,
      Option.isSome_eq_false_iff, Option.isNone_iff_eq_none] at hnone
    simp [hnone]

def paxFile (records : List (Bytes × Bytes)) : TarEntry :=
  ⟨[0x66], .regular, some 0, some 0, some 0, some 0o644, some 0, none, some (records.map some), ⟨[], false⟩⟩

theorem pax_xattrs_no_records : ∃ call records, entryCall (paxFile []) = .ok call ∧
    (paxFile []).paxExtensions = some (records.map some) ∧
    (IsXattrsOf (callMeta call).xattrs records ↔ records = []) := by
  obtain ⟨records, hext, hiff⟩ := @pax_xattrs_iff (paxFile []) _ rfl
  exact ⟨_, records, rfl, hext, hiff⟩

/-- `path = p` becomes an xattr, and `SCHILY.xattr.user.a = 1` is stored under
this name and not under `user.a`. -/
theorem pax_records_as_xattrs :
    let user : Bytes := [0x75, 0x73, 0x65, 0x72, 0x2e, 0x61]
    let records : List (Bytes × Bytes) :=
      [([0x70, 0x61, 0x74, 0x68], [0x70]), (schilyXattr ++ user, [0x31])]
    ∃ call, entryCall (paxFile records) = .ok call ∧
      (callMeta call).xattrs.get? [0x70, 0x61, 0x74, 0x68] = some [0x70] ∧
      (callMeta call).xattrs.get? (schilyXattr ++ user) = some [0x31] ∧
      (callMeta call).xattrs.get? user = none :=
  ⟨_, rfl, by decide, by decide, by decide⟩

end PaxRecords

end ProgramExplorer.SquashErofs
