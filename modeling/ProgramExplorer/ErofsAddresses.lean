import ProgramExplorer.ErofsReader
import ProgramExplorer.StateRules

/-!
# Addresses in an arbitrary image

The reader computes addresses in 64-bit words from fields that it does not
check. A shift by 64 or more and a sum that leaves the words panic; a shift
that loses bits does not, and what is read then lies elsewhere than the fields
say. Where neither happens, every slice lies at the address the fields denote.
-/

set_option autoImplicit false

namespace ProgramExplorer.ErofsAddresses
open ByteStrings ByteStore LittleEndian StateRules ErofsDisk ErofsReader
open ErofsTree (erofsNullAddr)

structure Dirents where
  data : Bytes × Bytes
  blockSize : ℕ

def direntsOf (fs : Erofs) (inode : Inode) : Except Error Dirents := do
  if inode.fileType ≠ .directory then throw .notDir
  pure ⟨← fs.getData inode, ← fs.blockSize⟩

section Parsing

theorem compact_fromPrefix {bs rest : Bytes} {x : InodeCompact}
    (h : InodeCompact.fromPrefix bs = some (x, rest)) :
    (∃ rest', takeU16 bs = some (x.formatLayout, rest')) ∧ bs.length = 32 + rest.length := by
  obtain ⟨⟨formatLayout, b₁⟩, h₁, h⟩ := Option.bind_eq_some_iff.mp h
  obtain ⟨⟨xattrCount, b₂⟩, h₂, h⟩ := Option.bind_eq_some_iff.mp h
  obtain ⟨⟨mode, b₃⟩, h₃, h⟩ := Option.bind_eq_some_iff.mp h
  obtain ⟨⟨nlink, b₄⟩, h₄, h⟩ := Option.bind_eq_some_iff.mp h
  obtain ⟨⟨size, b₅⟩, h₅, h⟩ := Option.bind_eq_some_iff.mp h
  obtain ⟨⟨reserved, b₆⟩, h₆, h⟩ := Option.bind_eq_some_iff.mp h
  obtain ⟨⟨info, b₇⟩, h₇, h⟩ := Option.bind_eq_some_iff.mp h
  obtain ⟨⟨ino, b₈⟩, h₈, h⟩ := Option.bind_eq_some_iff.mp h
  obtain ⟨⟨uid, b₉⟩, h₉, h⟩ := Option.bind_eq_some_iff.mp h
  obtain ⟨⟨gid, b₁₀⟩, h₁₀, h⟩ := Option.bind_eq_some_iff.mp h
  obtain ⟨⟨reserved2, b₁₁⟩, h₁₁, h⟩ := Option.bind_eq_some_iff.mp h
  cases h
  refine ⟨⟨b₁, h₁⟩, ?_⟩
  rw [takeU16_length h₁, takeU16_length h₂, takeU16_length h₃, takeU16_length h₄, takeU32_length h₅,
    takeU32_length h₆, takeU32_length h₇, takeU32_length h₈, takeU16_length h₉, takeU16_length h₁₀,
    takeU32_length h₁₁]
  simp only [← Nat.add_assoc, Nat.reduceAdd]

theorem extended_fromPrefix {bs rest : Bytes} {x : InodeExtended}
    (h : InodeExtended.fromPrefix bs = some (x, rest)) :
    (∃ rest', takeU16 bs = some (x.formatLayout, rest')) ∧ bs.length = 64 + rest.length := by
  obtain ⟨⟨formatLayout, b₁⟩, h₁, h⟩ := Option.bind_eq_some_iff.mp h
  obtain ⟨⟨xattrCount, b₂⟩, h₂, h⟩ := Option.bind_eq_some_iff.mp h
  obtain ⟨⟨mode, b₃⟩, h₃, h⟩ := Option.bind_eq_some_iff.mp h
  obtain ⟨⟨reserved, b₄⟩, h₄, h⟩ := Option.bind_eq_some_iff.mp h
  obtain ⟨⟨size, b₅⟩, h₅, h⟩ := Option.bind_eq_some_iff.mp h
  obtain ⟨⟨info, b₆⟩, h₆, h⟩ := Option.bind_eq_some_iff.mp h
  obtain ⟨⟨ino, b₇⟩, h₇, h⟩ := Option.bind_eq_some_iff.mp h
  obtain ⟨⟨uid, b₈⟩, h₈, h⟩ := Option.bind_eq_some_iff.mp h
  obtain ⟨⟨gid, b₉⟩, h₉, h⟩ := Option.bind_eq_some_iff.mp h
  obtain ⟨⟨mtime, b₁₀⟩, h₁₀, h⟩ := Option.bind_eq_some_iff.mp h
  obtain ⟨⟨mtimeNsec, b₁₁⟩, h₁₁, h⟩ := Option.bind_eq_some_iff.mp h
  obtain ⟨⟨nlink, b₁₂⟩, h₁₂, h⟩ := Option.bind_eq_some_iff.mp h
  obtain ⟨⟨reserved2, b₁₃⟩, h₁₃, h⟩ := Option.bind_eq_some_iff.mp h
  cases h
  refine ⟨⟨b₁, h₁⟩, ?_⟩
  rw [takeU16_length h₁, takeU16_length h₂, takeU16_length h₃, takeU16_length h₄, takeU64_length h₅,
    takeU32_length h₆, takeU32_length h₇, takeU32_length h₈, takeU32_length h₉, takeU64_length h₁₀,
    takeU32_length h₁₁, takeU32_length h₁₂, takeFixed_length h₁₃]
  simp only [← Nat.add_assoc, Nat.reduceAdd]

structure Parsed (id : UInt32) (data : Bytes) (inode : Inode) : Prop where
  diskId : inode.diskId = id
  size_le : inode.size ≤ data.length
  layout : ∃ l, inode.layout = .ok l

theorem inode_new_parsed {id : UInt32} {data : Bytes} {inode : Inode}
    (h : Inode.new id data = .ok inode) : Parsed id data inode := by
  obtain ⟨⟨formatLayout, b⟩, hf, h⟩ := except_bind_eq_ok.mp h
  obtain ⟨l, hl, h⟩ := except_bind_eq_ok.mp h
  have hf := okOr_eq_some hf
  have hl := okOr_eq_some hl
  change (if getFormat formatLayout = 0 then _ else _) = _ at h
  split_ifs at h
  · obtain ⟨⟨x, rest⟩, hx, h⟩ := except_bind_eq_ok.mp h
    obtain ⟨⟨rest', hx'⟩, hlen⟩ := compact_fromPrefix (okOr_eq_some hx)
    cases h
    rw [hf] at hx'
    cases hx'
    exact ⟨rfl, by simp [Inode.size, hlen], l, by rw [Inode.layout, Inode.formatLayout, hl]; rfl⟩
  · obtain ⟨⟨x, rest⟩, hx, h⟩ := except_bind_eq_ok.mp h
    obtain ⟨⟨rest', hx'⟩, hlen⟩ := extended_fromPrefix (okOr_eq_some hx)
    cases h
    rw [hf] at hx'
    cases hx'
    exact ⟨rfl, by simp [Inode.size, hlen], l, by rw [Inode.layout, Inode.formatLayout, hl]; rfl⟩

theorem okOr_ne_panicked {α : Type} {x : Option α} {e : Error} (he : e ≠ .panicked) :
    ErofsReader.okOr x e ≠ .error .panicked := by
  cases x with
  | none => simpa [ErofsReader.okOr] using he
  | some a => simp [ErofsReader.okOr]

theorem bind_ne_panicked {α β : Type} {x : Except Error α} {f : α → Except Error β}
    (hx : x ≠ .error .panicked) (hf : ∀ a, x = .ok a → f a ≠ .error .panicked) :
    (x >>= f) ≠ .error .panicked := by
  cases x with
  | error e => exact fun h => hx (by cases h; rfl)
  | ok a => exact hf a rfl

theorem inode_new_ne_panicked (id : UInt32) (data : Bytes) : Inode.new id data ≠ .error .panicked := by
  refine bind_ne_panicked (okOr_ne_panicked (by simp)) fun ⟨formatLayout, b⟩ _ => ?_
  refine bind_ne_panicked (okOr_ne_panicked (by simp)) fun l _ => ?_
  split_ifs
  · exact bind_ne_panicked (okOr_ne_panicked (by simp)) fun ⟨x, rest⟩ _ => fun h => by cases h
  · exact bind_ne_panicked (okOr_ne_panicked (by simp)) fun ⟨x, rest⟩ _ => fun h => by cases h

end Parsing

section Addresses

def blockStart (fs : Erofs) (block : UInt32) : ℕ := block.toNat * 2 ^ fs.sb.blkszbits.toNat

/-- What the shift leaves of the address of a block. -/
def shiftedStart (fs : Erofs) (block : UInt32) : ℕ := blockStart fs block % 2 ^ 64

def inodeStart (fs : Erofs) (id : UInt32) : ℕ := blockStart fs fs.sb.metaBlkaddr + 32 * id.toNat

def inodeStop (fs : Erofs) (inode : Inode) : ℕ :=
  inodeStart fs inode.diskId + inode.size + inode.xattrLen.getD 0

def inodeAt (fs : Erofs) (id : UInt32) : ℕ := shiftedStart fs fs.sb.metaBlkaddr + 32 * id.toNat

def inodeEndAt (fs : Erofs) (inode : Inode) : ℕ :=
  inodeAt fs inode.diskId + inode.size + inode.xattrLen.getD 0

def wholeBlocks (fs : Erofs) (inode : Inode) : ℕ :=
  inode.dataSize / 2 ^ fs.sb.blkszbits.toNat * 2 ^ fs.sb.blkszbits.toNat

theorem size_bounds (inode : Inode) : 32 ≤ inode.size ∧ inode.size ≤ 64 := by
  cases inode <;> simp [Inode.size]

theorem xattrLen_le (inode : Inode) : inode.xattrLen.getD 0 ≤ 262148 := by
  have hlt := inode.xattrCount.toNat_lt
  unfold Inode.xattrLen xattrCountToLen
  split_ifs with h₁ h₂ h₂
  · simp
  · simp
  · exact Nat.zero_le _
  · simp only [Option.getD_some]
    omega

theorem xattrLen_ge {inode : Inode} {size : ℕ} (h : inode.xattrLen = some size) : 12 ≤ size := by
  unfold Inode.xattrLen xattrCountToLen at h
  split_ifs at h
  · contradiction
  · cases h
    omega

variable {fs : Erofs}

theorem shiftedStart_eq {block : UInt32} (h : blockStart fs block < 2 ^ 64) :
    shiftedStart fs block = blockStart fs block := Nat.mod_eq_of_lt h

theorem inodeAt_eq (h : blockStart fs fs.sb.metaBlkaddr < 2 ^ 64) (id : UInt32) :
    inodeAt fs id = inodeStart fs id := by
  rw [inodeAt, shiftedStart_eq h, inodeStart]

theorem inodeEndAt_eq (h : blockStart fs fs.sb.metaBlkaddr < 2 ^ 64) (inode : Inode) :
    inodeEndAt fs inode = inodeStop fs inode := by
  rw [inodeEndAt, inodeAt_eq h, inodeStop]

theorem add64_of_lt {a b : ℕ} (h : a + b < 2 ^ 64) : add64 a b = .ok (a + b) := if_pos h

theorem add64_eq_ok {a b c : ℕ} : add64 a b = .ok c ↔ a + b < 2 ^ 64 ∧ c = a + b := by
  unfold add64
  split_ifs with h
  · rw [Except.ok.injEq, eq_comm]
    exact (and_iff_right h).symm
  · exact iff_of_false (by simp) fun hc => h hc.1

theorem add64_panics {a b : ℕ} : add64 a b = .error .panicked ↔ 2 ^ 64 ≤ a + b := by
  unfold add64
  split_ifs <;> simp <;> omega

theorem blockSize_ok (hb : fs.sb.blkszbits.toNat < 64) :
    fs.blockSize = .ok (2 ^ fs.sb.blkszbits.toNat) := by
  have hlt : 2 ^ fs.sb.blkszbits.toNat < 2 ^ 64 := Nat.pow_lt_pow_right (by norm_num) hb
  rw [Erofs.blockSize, shl64, if_pos hb, one_mul, Nat.mod_eq_of_lt hlt]

theorem blockOffset_ok (hb : fs.sb.blkszbits.toNat < 64) (block : UInt32) :
    fs.blockOffset block = .ok (shiftedStart fs block) := by
  rw [Erofs.blockOffset, shl64, if_pos hb]
  rfl

theorem rawInodeOffset_eq (hb : fs.sb.blkszbits.toNat < 64) (id : UInt32) :
    fs.rawInodeOffset id = add64 (shiftedStart fs fs.sb.metaBlkaddr) (32 * id.toNat) := by
  rw [Erofs.rawInodeOffset, blockOffset_ok hb]
  rfl

theorem getInode_eq (hb : fs.sb.blkszbits.toNat < 64) (id : UInt32) :
    fs.getInode id = (add64 (shiftedStart fs fs.sb.metaBlkaddr) (32 * id.toNat) >>= fun start =>
      ErofsReader.okOr (from? fs.data start) .oob >>= Inode.new id) := by
  rw [Erofs.getInode, rawInodeOffset_eq hb]

theorem getInode_shift (hb : ¬ fs.sb.blkszbits.toNat < 64) (id : UInt32) :
    fs.getInode id = .error .panicked := by
  have hshift : fs.blockOffset fs.sb.metaBlkaddr = .error .panicked := if_neg hb
  rw [Erofs.getInode, Erofs.rawInodeOffset, hshift]
  rfl

/-- An inode with where the reader has found it. -/
structure Readable (fs : Erofs) (id : UInt32) (inode : Inode) : Prop where
  bits : fs.sb.blkszbits.toNat < 64
  parsed : Inode.new id (fs.data.drop (inodeAt fs id)) = .ok inode
  inside : inodeAt fs id + inode.size ≤ fs.data.length
  diskId : inode.diskId = id
  layout : ∃ l, inode.layout = .ok l

theorem getInode_reads {id : UInt32} {inode : Inode} (h : fs.getInode id = .ok inode) :
    Readable fs id inode := by
  by_cases hb : fs.sb.blkszbits.toNat < 64
  · rw [getInode_eq hb] at h
    obtain ⟨start, hstart, h⟩ := except_bind_eq_ok.mp h
    obtain ⟨-, rfl⟩ := add64_eq_ok.mp hstart
    obtain ⟨data, hd, h⟩ := except_bind_eq_ok.mp h
    have hd := okOr_eq_some hd
    unfold from? at hd
    split_ifs at hd with hle
    cases hd
    have hp := inode_new_parsed h
    have hsize := hp.size_le
    rw [List.length_drop] at hsize
    refine ⟨hb, h, ?_, hp.diskId, hp.layout⟩
    unfold inodeAt
    omega
  · rw [getInode_shift hb] at h
    cases h

variable {id : UInt32} {inode : Inode} (hr : Readable fs id inode) (hlen : fs.data.length < 2 ^ 63)
include hr hlen

theorem inodeEndAt_lt : inodeEndAt fs inode < 2 ^ 63 + 2 ^ 19 := by
  have hin := hr.inside
  have hx := xattrLen_le inode
  rw [inodeEndAt, hr.diskId]
  omega

theorem rawInodeOffset_ok : fs.rawInodeOffset inode.diskId = .ok (inodeAt fs inode.diskId) := by
  have hin := hr.inside
  rw [rawInodeOffset_eq hr.bits, hr.diskId]
  refine add64_of_lt ?_
  unfold inodeAt at hin
  omega

theorem inodeEnd_ok : fs.inodeEnd inode = .ok (inodeEndAt fs inode) := by
  have hlt := inodeEndAt_lt hr hlen
  have hsum : inodeAt fs inode.diskId + inode.size ≤ inodeEndAt fs inode := Nat.le_add_right _ _
  rw [Erofs.inodeEnd, Erofs.inodeOffset, rawInodeOffset_ok hr hlen]
  change (add64 (inodeAt fs inode.diskId) inode.size >>= fun a => add64 a (inode.xattrLen.getD 0)) = _
  rw [add64_of_lt (by omega)]
  exact add64_of_lt (lt_trans hlt (by norm_num))

end Addresses

section Slices

theorem header_fromPrefix {data rest : Bytes} {header : XattrHeader}
    (h : XattrHeader.fromPrefix data = some (header, rest)) :
    ∃ front, data = front ++ rest ∧ front.length = 12 := by
  obtain ⟨⟨nameFilter, b₁⟩, h₁, h⟩ := Option.bind_eq_some_iff.mp h
  obtain ⟨⟨sharedCount, b₂⟩, h₂, h⟩ := Option.bind_eq_some_iff.mp h
  obtain ⟨⟨reserved, b₃⟩, h₃, h⟩ := Option.bind_eq_some_iff.mp h
  cases h
  obtain ⟨p, hp, hx⟩ := Option.map_eq_some_iff.mp h₂
  cases hx
  obtain ⟨⟨front, rest'⟩, hf, hv⟩ := Option.map_eq_some_iff.mp hp
  cases hv
  obtain ⟨rfl, hfront⟩ := takeBytes_eq_some hf
  unfold takeFixed at h₃
  split_ifs at h₃ with hle
  cases h₃
  change 7 ≤ rest'.length at hle
  refine ⟨u32 nameFilter ++ (front ++ rest'.take 7), ?_, ?_⟩
  · rw [takeU32_eq_some h₁, List.append_assoc, List.append_assoc, List.take_append_drop]
  · simp only [List.length_append, u32_length, hfront, List.length_take]
    omega

theorem header_of_length {data : Bytes} (h : 12 ≤ data.length) :
    ∃ header rest, XattrHeader.fromPrefix data = some (header, rest) := by
  have h₁ : 4 ≤ data.length := by omega
  have h₂ : 1 ≤ (data.drop 4).length := by
    rw [List.length_drop]
    omega
  have h₃ : 7 ≤ ((data.drop 4).drop 1).length := by
    rw [List.length_drop, List.length_drop]
    omega
  unfold XattrHeader.fromPrefix takeU32 takeU8 takeNat takeBytes
  rw [if_pos h₁]
  simp only [Option.map_some, Option.bind_eq_bind, Option.bind_some]
  rw [if_pos h₂]
  simp only [Option.map_some, Option.bind_some]
  rw [takeFixed, dif_pos h₃]
  exact ⟨_, _, rfl⟩

end Slices

section Data

variable {fs : Erofs} {inode : Inode}

/-- The end of the blocks is a 64-bit number, and the shift keeps the address
of bytes that are read. -/
def BlocksIn (fs : Erofs) (block : UInt32) (len : ℕ) : Prop :=
  shiftedStart fs block + len < 2 ^ 64 ∧
    (len = 0 ∨ fs.data.length < shiftedStart fs block + len ∨ blockStart fs block < 2 ^ 64)

/-- The addresses of the data are in range wherever they are computed: not for
an empty file, not without a block address, and not when the tail is already
beyond the image. -/
def InRange (fs : Erofs) (inode : Inode) : Prop :=
  match inode.layout with
  | .ok .flatPlain => inode.dataSize = 0 ∨ BlocksIn fs inode.rawBlockAddr inode.dataSize
  | .ok .flatInline =>
    inodeStop fs inode + (inode.dataSize - wholeBlocks fs inode) < 2 ^ 64 ∧
      (inode.rawBlockAddr = erofsNullAddr ∨
        fs.data.length < inodeStop fs inode + (inode.dataSize - wholeBlocks fs inode) ∨
        BlocksIn fs inode.rawBlockAddr (wholeBlocks fs inode))
  | _ => True

structure DataSafe (fs : Erofs) (inode : Inode) : Prop where
  noPanic : fs.getData inode ≠ .error .panicked
  placed : ∀ block tail, fs.getData inode = .ok (block, tail) →
    block.length + tail.length = inode.dataSize ∧
      HasAt fs.data (blockStart fs inode.rawBlockAddr) block ∧ HasAt fs.data (inodeStop fs inode) tail

theorem wholeBlocks_le : wholeBlocks fs inode ≤ inode.dataSize := Nat.div_mul_le_self _ _

theorem slice_le {data bs : Bytes} {a b : ℕ} (h : slice? data a b = some bs) : b ≤ data.length := by
  unfold slice? at h
  split_ifs at h with hle
  exact hle.2

theorem slice_none {data : Bytes} {a len : ℕ} (h : slice? data a (a + len) = none) :
    data.length < a + len := by
  unfold slice? at h
  split_ifs at h
  omega

inductive Outcome (fs : Erofs) (inode : Inode) : Except Error (Bytes × Bytes) → Prop
  | failed {e : Error} (he : e ≠ .panicked) (hr : InRange fs inode) : Outcome fs inode (.error e)
  | overflow (hr : ¬ InRange fs inode) : Outcome fs inode (.error .panicked)
  | misplaced {block tail : Bytes} (hr : ¬ InRange fs inode) (hne : block ≠ [])
      (hfar : fs.data.length ≤ blockStart fs inode.rawBlockAddr) : Outcome fs inode (.ok (block, tail))
  | placed {block tail : Bytes} (hr : InRange fs inode)
      (hlen : block.length + tail.length = inode.dataSize)
      (hblock : HasAt fs.data (blockStart fs inode.rawBlockAddr) block)
      (htail : HasAt fs.data (inodeStop fs inode) tail) : Outcome fs inode (.ok (block, tail))

variable (hlen : fs.data.length < 2 ^ 63)
include hlen

theorem outcome_block {len : ℕ} {tail : Bytes}
    (hr : InRange fs inode ↔ BlocksIn fs inode.rawBlockAddr len)
    (hsum : len + tail.length = inode.dataSize) (htail : HasAt fs.data (inodeStop fs inode) tail) :
    Outcome fs inode (add64 (shiftedStart fs inode.rawBlockAddr) len >>= fun stop =>
      ErofsReader.okOr (slice? fs.data (shiftedStart fs inode.rawBlockAddr) stop) .oob >>= fun block =>
        pure (block, tail)) := by
  unfold add64
  split_ifs with hlt
  · change Outcome fs inode (ErofsReader.okOr (slice? fs.data _ _) .oob >>= _)
    cases hs : slice? fs.data (shiftedStart fs inode.rawBlockAddr)
        (shiftedStart fs inode.rawBlockAddr + len) with
    | none => exact .failed (by simp) (hr.mpr ⟨hlt, Or.inr (Or.inl (slice_none hs))⟩)
    | some block =>
      obtain ⟨hat, hblock⟩ := slice_eq_some hs
      have hle := slice_le hs
      by_cases hin : len = 0 ∨ blockStart fs inode.rawBlockAddr < 2 ^ 64
      · refine .placed (hr.mpr ⟨hlt, hin.imp_right Or.inr⟩) (by omega) ?_ htail
        rcases hin with hzero | hstart
        · rw [List.length_eq_zero_iff.mp (show block.length = 0 by omega)]
          exact hasAt_nil _ _
        · rwa [shiftedStart_eq hstart] at hat
      · refine .misplaced (fun h => ?_) ?_ (by omega)
        · have hor := (hr.mp h).2
          omega
        · rintro rfl
          rw [List.length_nil] at hblock
          omega
  · exact .overflow fun h => hlt (hr.mp h).1

variable {id : UInt32} (hin : Readable fs id inode)
include hin

theorem plain_outcome (hl : inode.layout = .ok .flatPlain) : Outcome fs inode (fs.getData inode) := by
  rw [Erofs.getData, hl]
  change Outcome fs inode (if inode.dataSize = 0 then _ else _)
  split_ifs with hs
  · have hr : InRange fs inode := by
      rw [InRange, hl]
      exact Or.inl hs
    exact .placed hr (by simp [hs]) (hasAt_nil _ _) (hasAt_nil _ _)
  · rw [blockOffset_ok hin.bits]
    refine outcome_block hlen ?_ (by simp) (hasAt_nil _ _)
    rw [InRange, hl]
    simp [hs]

theorem inline_outcome (hmeta : blockStart fs fs.sb.metaBlkaddr < 2 ^ 64)
    (hl : inode.layout = .ok .flatInline) : Outcome fs inode (fs.getData inode) := by
  have hr : InRange fs inode ↔ inodeStop fs inode + (inode.dataSize - wholeBlocks fs inode) < 2 ^ 64 ∧
      (inode.rawBlockAddr = erofsNullAddr ∨
        fs.data.length < inodeStop fs inode + (inode.dataSize - wholeBlocks fs inode) ∨
        BlocksIn fs inode.rawBlockAddr (wholeBlocks fs inode)) := by
    rw [InRange, hl]
  rw [Erofs.getData, hl]
  change Outcome fs inode (fs.blockSize >>= _)
  rw [blockSize_ok hin.bits]
  change Outcome fs inode (fs.inodeEnd inode >>= _)
  rw [inodeEnd_ok hin hlen, inodeEndAt_eq hmeta]
  change Outcome fs inode (add64 (inodeStop fs inode) (inode.dataSize - wholeBlocks fs inode) >>= _)
  by_cases hlt : inodeStop fs inode + (inode.dataSize - wholeBlocks fs inode) < 2 ^ 64
  · rw [add64_of_lt hlt]
    change Outcome fs inode (ErofsReader.okOr (slice? fs.data (inodeStop fs inode)
      (inodeStop fs inode + (inode.dataSize - wholeBlocks fs inode))) .oob >>= _)
    cases hs : slice? fs.data (inodeStop fs inode)
        (inodeStop fs inode + (inode.dataSize - wholeBlocks fs inode)) with
    | none => exact .failed (by simp) (hr.mpr ⟨hlt, Or.inr (Or.inl (slice_none hs))⟩)
    | some tail =>
      obtain ⟨hat, htail⟩ := slice_eq_some hs
      have hle := slice_le hs
      have hsum : wholeBlocks fs inode + tail.length = inode.dataSize := by
        have hle := @wholeBlocks_le fs inode
        omega
      change Outcome fs inode (if inode.rawBlockAddr = erofsNullAddr then _ else _)
      split_ifs with hnull hzero
      · exact .failed (by simp) (hr.mpr ⟨hlt, Or.inl hnull⟩)
      · have hzero : wholeBlocks fs inode = 0 := not_not.mp hzero
        exact .placed (hr.mpr ⟨hlt, Or.inl hnull⟩) (by simpa [hzero] using hsum) (hasAt_nil _ _) hat
      · rw [blockOffset_ok hin.bits]
        refine @outcome_block fs inode hlen (wholeBlocks fs inode) tail ?_ hsum hat
        rw [hr]
        simp only [hnull, false_or, hlt, true_and, or_iff_right (not_lt.mpr hle)]
  · have hpanic : add64 (inodeStop fs inode) (inode.dataSize - wholeBlocks fs inode) =
        .error .panicked := if_neg hlt
    rw [hpanic]
    exact .overflow fun h => hlt (hr.mp h).1

theorem getData_outcome (hmeta : blockStart fs fs.sb.metaBlkaddr < 2 ^ 64) :
    Outcome fs inode (fs.getData inode) := by
  obtain ⟨l, hl⟩ := hin.layout
  cases l with
  | flatPlain => exact plain_outcome hlen hin hl
  | flatInline => exact inline_outcome hlen hin hmeta hl
  | _ =>
    rw [Erofs.getData, hl]
    exact .failed (by simp) (by rw [InRange, hl]; trivial)

/-- Reading the data is safe exactly if the addresses of its blocks are in
range. -/
theorem dataSafe_iff (hmeta : blockStart fs fs.sb.metaBlkaddr < 2 ^ 64) :
    DataSafe fs inode ↔ InRange fs inode := by
  have ho := getData_outcome hlen hin hmeta
  constructor
  · intro h
    generalize hres : fs.getData inode = r at ho
    cases ho with
    | failed he hr => exact hr
    | overflow hr => exact absurd hres h.noPanic
    | @misplaced block tail hr hne hfar =>
      have hle := (h.placed block tail hres).2.1.length_le hne
      have hpos := List.length_pos_of_ne_nil hne
      omega
    | placed hr => exact hr
  · intro hr
    constructor
    · intro h
      rw [h] at ho
      cases ho with
      | failed he => exact he rfl
      | overflow hn => exact hn hr
    · intro block tail h
      rw [h] at ho
      cases ho with
      | misplaced hn => exact absurd hr hn
      | placed hr hlen hblock htail => exact ⟨hlen, hblock, htail⟩

end Data

section Reads

variable {fs : Erofs} {inode : Inode}

structure DirentsSafe (fs : Erofs) (inode : Inode) : Prop where
  noPanic : direntsOf fs inode ≠ .error .panicked
  placed : ∀ d, direntsOf fs inode = .ok d →
    fs.getData inode = .ok d.data ∧ d.blockSize = 2 ^ fs.sb.blkszbits.toNat

structure XattrsSafe (fs : Erofs) (inode : Inode) : Prop where
  noPanic : fs.getXattrs inode ≠ .error .panicked
  placed : ∀ it, fs.getXattrs inode = .ok (some it) →
    inodeStart fs inode.diskId + inode.size + 12 + it.data.length = inodeStop fs inode ∧
      HasAt fs.data (inodeStart fs inode.diskId + inode.size + 12) it.data ∧
      HasAt fs.data (blockStart fs fs.sb.xattrBlkaddr) it.sharedData

/-- The shift keeps the address of the shared attributes, unless they are not
read or there is nothing to read. -/
def SharedIn (fs : Erofs) (inode : Inode) : Prop :=
  inode.xattrLen = none ∨ fs.data.length < inodeStop fs inode ∨
    fs.data.length ≤ shiftedStart fs fs.sb.xattrBlkaddr ∨ blockStart fs fs.sb.xattrBlkaddr < 2 ^ 64

theorem direntsSafe (hb : fs.sb.blkszbits.toNat < 64) (hd : DataSafe fs inode) : DirentsSafe fs inode := by
  by_cases ht : inode.fileType = .directory
  · have heq : direntsOf fs inode =
        fs.getData inode >>= fun data => .ok ⟨data, 2 ^ fs.sb.blkszbits.toNat⟩ := by
      rw [direntsOf, if_neg (by simp [ht]), blockSize_ok hb]
      rfl
    constructor
    · rw [heq]
      exact bind_ne_panicked hd.noPanic fun data _ h => by cases h
    · intro d h
      rw [heq] at h
      obtain ⟨data, hdata, h⟩ := except_bind_eq_ok.mp h
      cases h
      exact ⟨hdata, rfl⟩
  · have heq : direntsOf fs inode = .error .notDir := by
      rw [direntsOf, if_pos ht]
      rfl
    constructor
    · simp [heq]
    · intro d h
      rw [heq] at h
      cases h

variable {id : UInt32} (hin : Readable fs id inode) (hlen : fs.data.length < 2 ^ 63)
  (hmeta : blockStart fs fs.sb.metaBlkaddr < 2 ^ 64)
include hin hlen hmeta

theorem getXattrs_eq {size : ℕ} (hx : inode.xattrLen = some size) :
    fs.getXattrs inode =
      ErofsReader.okOr (slice? fs.data (inodeStart fs inode.diskId + inode.size) (inodeStop fs inode)) .oob
        >>= fun data =>
      ErofsReader.okOr (from? fs.data (shiftedStart fs fs.sb.xattrBlkaddr)) .oob >>= fun shared =>
      ErofsReader.okOr (XattrHeader.fromPrefix data) .badConversion >>= fun header =>
      pure (some ⟨header.2, shared, header.1.sharedCount.toNat⟩) := by
  have hlt := inodeEndAt_lt hin hlen
  rw [inodeEndAt_eq hmeta] at hlt
  have hstop : inodeStop fs inode = inodeStart fs inode.diskId + inode.size + size := by
    rw [inodeStop, hx]
    rfl
  rw [Erofs.getXattrs, hx]
  change (fs.rawInodeOffset inode.diskId >>= _) = _
  rw [rawInodeOffset_ok hin hlen, inodeAt_eq hmeta]
  change (add64 (inodeStart fs inode.diskId) inode.size >>= _) = _
  rw [add64_of_lt (by omega)]
  change (add64 (inodeStart fs inode.diskId + inode.size) size >>= _) = _
  rw [add64_of_lt (by omega), ← hstop, blockOffset_ok hin.bits]
  rfl

omit hlen hin hmeta in
theorem xattrsSafe_none (hx : inode.xattrLen = none) : XattrsSafe fs inode := by
  have heq : fs.getXattrs inode = .ok none := by
    rw [Erofs.getXattrs, hx]
    rfl
  constructor
  · simp [heq]
  · intro it h
    rw [heq] at h
    cases h

theorem xattrsSafe_of_shared (hs : SharedIn fs inode) : XattrsSafe fs inode := by
  cases hx : inode.xattrLen with
  | none => exact xattrsSafe_none hx
  | some size =>
    constructor
    · rw [getXattrs_eq hin hlen hmeta hx]
      refine bind_ne_panicked (okOr_ne_panicked (by simp)) fun data _ => ?_
      refine bind_ne_panicked (okOr_ne_panicked (by simp)) fun shared _ => ?_
      exact bind_ne_panicked (okOr_ne_panicked (by simp)) fun header _ h => by cases h
    · intro it h
      rw [getXattrs_eq hin hlen hmeta hx] at h
      obtain ⟨data, hd, h⟩ := except_bind_eq_ok.mp h
      obtain ⟨shared, hshared, h⟩ := except_bind_eq_ok.mp h
      obtain ⟨⟨header, rest⟩, hh, h⟩ := except_bind_eq_ok.mp h
      cases h
      obtain ⟨hat, hcount⟩ := slice_eq_some (okOr_eq_some hd)
      have hle := slice_le (okOr_eq_some hd)
      obtain ⟨front, rfl, hfront⟩ := header_fromPrefix (okOr_eq_some hh)
      rw [List.length_append, hfront] at hcount
      refine ⟨?_, ?_, ?_⟩
      · change _ + rest.length = _
        omega
      · rw [← hfront]
        exact ((hasAt_append _ _ front rest).mp hat).2
      · have hfrom := from_eq_some (okOr_eq_some hshared)
        rcases hs with hs | hs | hs | hs
        · rw [hx] at hs
          cases hs
        · omega
        · -- the shared attributes would begin at the end of the image
          have hnil : shared = [] := by
            by_contra hne
            have hend := hfrom.length_le hne
            have hpos := List.length_pos_of_ne_nil hne
            omega
          subst hnil
          exact hasAt_nil _ _
        · rwa [shiftedStart_eq hs] at hfrom

theorem shared_of_xattrsSafe (hs : XattrsSafe fs inode) : SharedIn fs inode := by
  by_contra hn
  simp only [SharedIn, not_or, not_lt, not_le] at hn
  obtain ⟨hsome, hstop, hshared, hfar⟩ := hn
  obtain ⟨size, hx⟩ := Option.ne_none_iff_exists'.mp hsome
  have hge := xattrLen_ge hx
  have hsum : inodeStop fs inode = inodeStart fs inode.diskId + inode.size + size := by
    rw [inodeStop, hx]
    rfl
  obtain ⟨header, rest, hheader⟩ := @header_of_length
    ((fs.data.drop (inodeStart fs inode.diskId + inode.size)).take
      (inodeStop fs inode - (inodeStart fs inode.diskId + inode.size))) (by
        rw [List.length_take, List.length_drop]
        omega)
  have hread : fs.getXattrs inode = .ok (some ⟨rest,
      fs.data.drop (shiftedStart fs fs.sb.xattrBlkaddr), header.sharedCount.toNat⟩) := by
    rw [getXattrs_eq hin hlen hmeta hx, slice?, if_pos ⟨by omega, hstop⟩, okOr_some_bind, from?,
      if_pos hshared.le, okOr_some_bind, hheader]
    rfl
  have hne : fs.data.drop (shiftedStart fs fs.sb.xattrBlkaddr) ≠ [] := by
    rw [Ne, List.drop_eq_nil_iff]
    omega
  have hle := (hs.placed _ hread).2.2.length_le hne
  change blockStart fs fs.sb.xattrBlkaddr + _ ≤ _ at hle
  omega

omit hin hlen hmeta

structure SafeReads (fs : Erofs) : Prop where
  noPanic : ∀ id, fs.getInode id ≠ .error .panicked
  placed : ∀ id inode, fs.getInode id = .ok inode →
    Inode.new id (fs.data.drop (inodeStart fs id)) = .ok inode ∧
      inodeStart fs id + inode.size ≤ fs.data.length
  data : ∀ id inode, fs.getInode id = .ok inode → DataSafe fs inode
  dirents : ∀ id inode, fs.getInode id = .ok inode → DirentsSafe fs inode
  xattrs : ∀ id inode, fs.getInode id = .ok inode → XattrsSafe fs inode

/-- The fields of the superblock and of every inode that can be read stay in
64-bit words. -/
structure Addressable (fs : Erofs) : Prop where
  shift : fs.sb.blkszbits.toNat < 64
  numbers : shiftedStart fs fs.sb.metaBlkaddr + 32 * (2 ^ 32 - 1) < 2 ^ 64
  table : ∀ id inode, fs.getInode id = .ok inode → blockStart fs fs.sb.metaBlkaddr < 2 ^ 64
  data : ∀ id inode, fs.getInode id = .ok inode → InRange fs inode
  shared : ∀ id inode, fs.getInode id = .ok inode → SharedIn fs inode

theorem new_data {image : Bytes} (h : Erofs.new image = .ok fs) : fs.data = image := by
  obtain ⟨rest, -, h⟩ := except_bind_eq_ok.mp h
  obtain ⟨⟨sb, b⟩, -, h⟩ := except_bind_eq_ok.mp h
  change (if sb.magic ≠ superMagic then _ else _) = _ at h
  split_ifs at h
  · cases h
  · cases h
    rfl

theorem getInode_ne_panicked (hb : fs.sb.blkszbits.toNat < 64)
    (hn : shiftedStart fs fs.sb.metaBlkaddr + 32 * (2 ^ 32 - 1) < 2 ^ 64) (id : UInt32) :
    fs.getInode id ≠ .error .panicked := by
  have hid := id.toNat_lt
  rw [getInode_eq hb, add64_of_lt (by omega)]
  refine bind_ne_panicked (by simp) fun start _ => ?_
  exact bind_ne_panicked (okOr_ne_panicked (by simp)) fun data _ => inode_new_ne_panicked id data

theorem SafeReads.addressable (hlen : fs.data.length < 2 ^ 63) (hs : SafeReads fs) : Addressable fs := by
  have hshift : fs.sb.blkszbits.toNat < 64 := by
    by_contra hb
    exact hs.noPanic 0 (getInode_shift hb 0)
  have htable (id : UInt32) (inode : Inode) (h : fs.getInode id = .ok inode) :
      blockStart fs fs.sb.metaBlkaddr < 2 ^ 64 := by
    have hle := (hs.placed id inode h).2
    unfold inodeStart at hle
    omega
  refine ⟨hshift, ?_, htable, fun id inode h => ?_, fun id inode h => ?_⟩
  · -- the number of the last inode overflows first
    by_contra hover
    refine hs.noPanic 4294967295 ?_
    have hpanic : add64 (shiftedStart fs fs.sb.metaBlkaddr) (32 * (4294967295 : UInt32).toNat) =
        .error .panicked := add64_panics.mpr (not_lt.mp hover)
    rw [getInode_eq hshift, hpanic]
    rfl
  · exact (dataSafe_iff hlen (getInode_reads h) (htable id inode h)).mp (hs.data id inode h)
  · exact shared_of_xattrsSafe (getInode_reads h) hlen (htable id inode h) (hs.xattrs id inode h)

theorem Addressable.safeReads (hlen : fs.data.length < 2 ^ 63) (ha : Addressable fs) : SafeReads fs := by
  have hdata (id : UInt32) (inode : Inode) (h : fs.getInode id = .ok inode) : DataSafe fs inode :=
    (dataSafe_iff hlen (getInode_reads h) (ha.table id inode h)).mpr (ha.data id inode h)
  refine ⟨getInode_ne_panicked ha.shift ha.numbers, fun id inode h => ?_, hdata,
    fun id inode h => direntsSafe ha.shift (hdata id inode h), fun id inode h => ?_⟩
  · have hr := getInode_reads h
    rw [← inodeAt_eq (ha.table id inode h)]
    exact ⟨hr.parsed, hr.inside⟩
  · exact xattrsSafe_of_shared (getInode_reads h) hlen (ha.table id inode h) (ha.shared id inode h)

/-- For an image no longer than a slice can be, reading is safe exactly if the
addresses that its fields denote stay in 64-bit words. -/
theorem reads_safe_iff {image : Bytes} (hnew : Erofs.new image = .ok fs) (hlen : image.length < 2 ^ 63) :
    fs.data = image ∧ (SafeReads fs ↔ Addressable fs) := by
  have hdata := new_data hnew
  subst hdata
  exact ⟨rfl, fun h => h.addressable hlen, fun h => h.safeReads hlen⟩

end Reads

section Images

def tinyImage (sb : Superblock) (record : Bytes) : Bytes :=
  List.replicate superOffset 0 ++ (sb.asBytes ++ record)

def tinySuper (bits : UInt8) (metaBlkaddr : UInt32) : Superblock :=
  { Superblock.zeroed with magic := superMagic, blkszbits := bits, metaBlkaddr := metaBlkaddr }

theorem new_tinyImage (bits : UInt8) (metaBlkaddr : UInt32) (record : Bytes) :
    Erofs.new (tinyImage (tinySuper bits metaBlkaddr) record) =
      .ok ⟨tinyImage (tinySuper bits metaBlkaddr) record, tinySuper bits metaBlkaddr⟩ := by
  have hfrom : from? (tinyImage (tinySuper bits metaBlkaddr) record) superOffset =
      some ((tinySuper bits metaBlkaddr).asBytes ++ record) := by
    unfold from? tinyImage
    rw [if_pos (by simp), List.drop_left' (by simp)]
  unfold Erofs.new
  rw [hfrom, okOr_some_bind, Superblock.fromPrefix_asBytes]
  rfl

def tinyInode : InodeCompact := ⟨formatLayout .compact .flatPlain, 0, 0o100644, 1, 4, 0, 0, 0, 0, 0, 0⟩

theorem tinyImage_length : (tinyImage (tinySuper 7 9) tinyInode.asBytes).length = 1184 := by decide +kernel

theorem tiny_inodes {id : UInt32} {inode : Inode}
    (h : Erofs.getInode ⟨tinyImage (tinySuper 7 9) tinyInode.asBytes, tinySuper 7 9⟩ id = .ok inode) :
    inode = .compact 0 tinyInode := by
  have hfits := (getInode_reads h).inside
  have hsize := (size_bounds inode).1
  have hzero : id = 0 := by
    have hstart : inodeAt ⟨tinyImage (tinySuper 7 9) tinyInode.asBytes, tinySuper 7 9⟩ id =
        1152 + 32 * id.toNat := rfl
    rw [hstart] at hfits
    change _ ≤ (tinyImage (tinySuper 7 9) tinyInode.asBytes).length at hfits
    rw [tinyImage_length] at hfits
    apply UInt32.toNat_inj.mp
    change id.toNat = 0
    omega
  subst hzero
  have hread : Erofs.getInode ⟨tinyImage (tinySuper 7 9) tinyInode.asBytes, tinySuper 7 9⟩ 0 =
      .ok (.compact 0 tinyInode) := by decide +kernel
  rw [hread] at h
  cases h
  rfl

theorem tiny_reads_safe :
    SafeReads ⟨tinyImage (tinySuper 7 9) tinyInode.asBytes, tinySuper 7 9⟩ := by
  refine (reads_safe_iff (new_tinyImage 7 9 tinyInode.asBytes) ?_).2.mpr
    ⟨by decide, by decide, fun id inode _ => by decide, fun id inode h => ?_, fun id inode h => ?_⟩
  · rw [tinyImage_length]
    norm_num
  · rw [tiny_inodes h]
    exact Or.inr ⟨by decide, Or.inr (Or.inr (by decide))⟩
  · rw [tiny_inodes h]
    exact Or.inl rfl

def hugeInode : InodeExtended :=
  { InodeExtended.zeroed with
    formatLayout := formatLayout .extended .flatPlain, size := 0xffffffffffffffff, info := 1 }

/-- A block size of 2⁶⁴ bytes, and a file of 2⁶⁴ - 1 bytes from block 1 on. -/
theorem addresses_overflow :
    (∃ fs, Erofs.new (tinyImage (tinySuper 64 0) []) = .ok fs ∧ fs.getInode 0 = .error .panicked) ∧
    ∃ fs, Erofs.new (tinyImage (tinySuper 12 0) hugeInode.asBytes) = .ok fs ∧
      fs.getInode 36 = .ok (.extended 36 hugeInode) ∧
      fs.getData (.extended 36 hugeInode) = .error .panicked := by
  refine ⟨⟨_, new_tinyImage 64 0 [], rfl⟩, _, new_tinyImage 12 0 _, ?_, ?_⟩
  · decide +kernel
  · decide +kernel

end Images

end ProgramExplorer.ErofsAddresses
