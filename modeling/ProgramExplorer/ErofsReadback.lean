import ProgramExplorer.ErofsPlacement

/-!
# Reading inodes back

An inode whose bytes stand at the address of its id is what `get_inode`
returns. Offsets computed by the reader stay far below the word size.
-/

set_option autoImplicit false

namespace ProgramExplorer.ErofsReadback
open ByteStrings ByteStore LittleEndian StateRules ErofsDisk ErofsReader
open ErofsBuilder (DiskInode blockSize)
open ErofsPlacement (inodeAddress)

/-- The image has the block size of the builder and its meta area here. -/
structure Volume (metaBlock : ℕ) (fs : Erofs) : Prop where
  bits : fs.sb.blkszbits = 12
  metaAt : fs.sb.metaBlkaddr.toNat = metaBlock

def readAs (id : UInt32) : DiskInode → Inode
  | .compact x => .compact id x
  | .extended x => .extended id x

/-- The format field says which record follows, and its layout is known. -/
def WellTagged : DiskInode → Prop
  | .compact x => getFormat x.formatLayout = 0 ∧ (getLayout x.formatLayout).isSome
  | .extended x => getFormat x.formatLayout ≠ 0 ∧ (getLayout x.formatLayout).isSome

theorem wellTagged_withXattrCount {inode : DiskInode} (h : WellTagged inode) (count : UInt16) :
    WellTagged (inode.withXattrCount count) := by
  cases inode <;> exact h

theorem reader_okOr_some {α : Type} (a : α) (e : ErofsReader.Error) :
    ErofsReader.okOr (some a) e = .ok a := rfl

theorem inode_new {inode : DiskInode} (h : WellTagged inode) (id : UInt32) (rest : Bytes) :
    Inode.new id (inode.asBytes ++ rest) = .ok (readAs id inode) := by
  cases inode with
  | compact x =>
    obtain ⟨hf, hl⟩ := h
    obtain ⟨l, hl⟩ := Option.isSome_iff_exists.mp hl
    obtain ⟨r, htag⟩ : ∃ r, takeU16 (x.asBytes ++ rest) = some (x.formatLayout, r) :=
      ⟨_, by rw [InodeCompact.asBytes, List.append_assoc, takeU16_append]⟩
    simp only [Inode.new, DiskInode.asBytes, htag, InodeCompact.fromPrefix_asBytes,
      reader_okOr_some, bind, Except.bind, hl, hf, if_true]
    rfl
  | extended x =>
    obtain ⟨hf, hl⟩ := h
    obtain ⟨l, hl⟩ := Option.isSome_iff_exists.mp hl
    obtain ⟨r, htag⟩ : ∃ r, takeU16 (x.asBytes ++ rest) = some (x.formatLayout, r) :=
      ⟨_, by rw [InodeExtended.asBytes, List.append_assoc, takeU16_append]⟩
    simp only [Inode.new, DiskInode.asBytes, htag, InodeExtended.fromPrefix_asBytes,
      reader_okOr_some, bind, Except.bind, hl, hf, if_false]
    rfl

theorem asBytes_length (inode : DiskInode) (id : UInt32) :
    inode.asBytes.length = (readAs id inode).size := by
  cases inode with
  | compact x => exact x.asBytes_length
  | extended x => exact x.asBytes_length

theorem size_le (inode : Inode) : 32 ≤ inode.size ∧ inode.size ≤ 64 := by
  cases inode <;> simp [Inode.size]

section Reading

variable {metaBlock : ℕ} {fs : Erofs} (hv : Volume metaBlock fs)
include hv

theorem blockSize_eq : fs.blockSize = .ok 4096 := by
  rw [Erofs.blockSize, hv.bits]
  rfl

theorem blockOffset_eq (block : UInt32) : fs.blockOffset block = .ok (block.toNat * blockSize) := by
  have := block.toNat_lt
  rw [Erofs.blockOffset, hv.bits, shl64, if_pos (by decide)]
  congr 1
  exact Nat.mod_eq_of_lt (by simp; omega)

theorem inodeAddress_lt (id : UInt32) : inodeAddress metaBlock id < 2 ^ 45 := by
  have h1 := id.toNat_lt
  have h2 := fs.sb.metaBlkaddr.toNat_lt
  rw [hv.metaAt] at h2
  simp only [inodeAddress, blockSize, inodeAlignment]
  omega

theorem rawInodeOffset_eq (id : UInt32) : fs.rawInodeOffset id = .ok (inodeAddress metaBlock id) := by
  have hlt := inodeAddress_lt hv id
  simp only [Erofs.rawInodeOffset, blockOffset_eq hv, hv.metaAt, bind, Except.bind, add64]
  rw [if_pos]
  · rfl
  · simp only [inodeAddress, inodeAlignment] at hlt
    omega

theorem getInode_eq {inode : DiskInode} (hw : WellTagged inode) {id : UInt32}
    (h : HasAt fs.data (inodeAddress metaBlock id) inode.asBytes) :
    fs.getInode id = .ok (readAs id inode) := by
  have hne : inode.asBytes ≠ [] := by
    intro hn
    have h32 := (size_le (readAs id inode)).1
    rw [← asBytes_length, hn] at h32
    simp at h32
  obtain ⟨rest, hr⟩ := h.from? hne
  simp only [Erofs.getInode, rawInodeOffset_eq hv, bind, Except.bind, hr, reader_okOr_some]
  exact inode_new hw id rest

theorem getInode_oob {id : UInt32} (h : fs.data.length ≤ inodeAddress metaBlock id) (inode : Inode) :
    fs.getInode id ≠ .ok inode := by
  simp only [Erofs.getInode, rawInodeOffset_eq hv, bind, Except.bind, from?]
  split_ifs with hle
  · rw [List.drop_eq_nil_of_le h]
    intro hn
    cases hn
  · intro hn
    cases hn

end Reading

end ProgramExplorer.ErofsReadback
