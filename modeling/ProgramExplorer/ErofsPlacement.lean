import ProgramExplorer.ErofsBuilder

/-!
# Where inodes are written

`write_inode` appends records to the meta area: an inode, its xattrs and its
tail, none of them across a block boundary. The address it tracks and the
position of the writer agree as long as no record fills a whole block at the
start of a block. There the address moves on by a block and the writer stays.
-/

set_option autoImplicit false

namespace ProgramExplorer.ErofsPlacement
open ByteStrings OrderedMap ByteStore StateRules ErofsTree ErofsDisk ErofsBuilder
open ErofsReader (xattrCountToLen roundUpTo)

structure Addressed (metaBlock : ℕ) (b : Builder) : Prop where
  isMeta : b.metaBlock = some metaBlock
  aligned : b.inodeAddr % inodeAlignment = 0
  above : metaBlock * blockSize ≤ b.inodeAddr

structure Placed (metaBlock : ℕ) (b : Builder) : Prop extends Addressed metaBlock b where
  pos : b.writer.pos = b.inodeAddr

structure Extends (b b' : Builder) : Prop where
  addr : b.inodeAddr ≤ b'.inodeAddr
  keeps : ∀ off bs, off + bs.length ≤ b.inodeAddr → HasAt b.writer.data off bs →
    HasAt b'.writer.data off bs

theorem Extends.refl (b : Builder) : Extends b b := ⟨le_refl _, fun _ _ _ h => h⟩

theorem Extends.trans {b b' b'' : Builder} (h : Extends b b') (h' : Extends b' b'') :
    Extends b b'' :=
  ⟨h.addr.trans h'.addr, fun off bs hle ha =>
    h'.keeps off bs (hle.trans h.addr) (h.keeps off bs hle ha)⟩

theorem hasAt_writeAll_before {w : Writer} {off : ℕ} {bs : Bytes} (h : HasAt w.data off bs)
    (hle : off + bs.length ≤ w.pos) (x : Bytes) : HasAt (w.writeAll x).data off bs :=
  h.overwrite (Or.inl hle)

theorem extends_append {b : Builder} (hp : b.writer.pos = b.inodeAddr) {b' : Builder} (bs : Bytes)
    (hw : b'.writer = b.writer.writeAll bs) (ha : b.inodeAddr ≤ b'.inodeAddr) : Extends b b' := by
  refine ⟨ha, fun off cs hle h => ?_⟩
  rw [hw]
  exact hasAt_writeAll_before h (by omega) bs

def skipped (totalLen : ℕ) (b : Builder) : Builder :=
  { b with
    writer := b.writer.writeAll (List.replicate (padding b.inodeAddr blockSize) 0)
    stats := { b.stats with
      blockEndPadding := b.stats.blockEndPadding + padding b.inodeAddr blockSize }
    inodeAddr := (b.inodeAddr + totalLen) / blockSize * blockSize }

theorem alignInode_eq (totalLen : ℕ) (b : Builder) :
    alignInode totalLen b = .ok ()
      (if b.inodeAddr / blockSize ≠ (b.inodeAddr + totalLen) / blockSize then skipped totalLen b
        else b) := by
  simp only [alignInode, bind, EStateM.bind, get_run]
  split_ifs <;> rfl

theorem alignInode_ok {metaBlock : ℕ} {b : Builder} (h : Placed metaBlock b) {totalLen : ℕ}
    (hle : totalLen ≤ blockSize)
    (hfull : ¬ (totalLen = blockSize ∧ b.inodeAddr % blockSize = 0)) :
    ∃ b', alignInode totalLen b = .ok () b' ∧ Placed metaBlock b' ∧ Extends b b' ∧
      b'.inodeAddr % blockSize + totalLen ≤ blockSize := by
  have hal := h.aligned
  have hab := h.above
  have heq := alignInode_eq totalLen b
  simp only [inodeAlignment, blockSize] at hal hab hle hfull
  by_cases hne : b.inodeAddr / blockSize ≠ (b.inodeAddr + totalLen) / blockSize
  · rw [if_pos hne] at heq
    simp only [blockSize] at hne
    refine ⟨_, heq, ⟨⟨h.isMeta, ?_, ?_⟩, ?_⟩, extends_append h.pos _ rfl ?_, ?_⟩
    rotate_left 2
    · have hpad : b.inodeAddr % 4096 + padding b.inodeAddr 4096 = 4096 := by
        have hmod : b.inodeAddr % 4096 ≠ 0 := by omega
        rw [padding, if_neg hmod]
        omega
      simp only [skipped, Writer.writeAll_pos, List.length_replicate, h.pos, blockSize]
      omega
    all_goals
      simp only [skipped, inodeAlignment, blockSize]
      omega
  · rw [if_neg hne] at heq
    simp only [blockSize] at hne ⊢
    exact ⟨b, heq, h, Extends.refl b, by omega⟩

theorem addrToDiskId_eq {metaBlock : ℕ} {b : Builder} (h : Addressed metaBlock b) :
    addrToDiskId b.inodeAddr b =
      check (toU32 ((b.inodeAddr - metaBlock * blockSize) / inodeAlignment) .diskIdTooBig) b := by
  have hal : (b.inodeAddr - metaBlock * blockSize) % inodeAlignment = 0 := by
    have := h.aligned
    have := h.above
    simp only [inodeAlignment, blockSize] at *
    omega
  simp only [addrToDiskId, bind, EStateM.bind, get_run,
    h.isMeta, okOr, check, require, h.above, hal, if_true]

theorem padding_aligned (n : ℕ) : (n + padding n inodeAlignment) % inodeAlignment = 0 := by
  unfold padding inodeAlignment
  split_ifs <;> omega

def recorded (record : Bytes) (tail : Option Bytes) (b : Builder) : Builder :=
  { b with
    writer := b.writer.writeAll (record ++ List.replicate (padding record.length inodeAlignment) 0)
    stats := { b.stats with
      tails := b.stats.tails + (if tail.isSome then 1 else 0)
      tailSize := b.stats.tailSize + (tail.getD []).length
      blockEndPadding := b.stats.blockEndPadding + padding record.length inodeAlignment }
    inodeAddr := b.inodeAddr + (record.length + padding record.length inodeAlignment) }

theorem writeRecord_eq {metaBlock : ℕ} {b b' : Builder} {data xattrs : Bytes} {tail : Option Bytes}
    {totalLen : ℕ} (hlen : totalLen = (data ++ xattrs ++ tail.getD []).length)
    (hle : totalLen ≤ blockSize) (ha : alignInode totalLen b = .ok () b')
    (hp : Addressed metaBlock b') :
    writeRecord data xattrs tail totalLen b =
      match toU32 ((b'.inodeAddr - metaBlock * blockSize) / inodeAlignment) .diskIdTooBig with
      | .ok id => .ok id (recorded (data ++ xattrs ++ tail.getD []) tail b')
      | .error e => .error e b' := by
  simp only [writeRecord, bind, EStateM.bind, require, hle, if_true, ha, get_run, addrToDiskId_eq hp, check]
  cases toU32 ((b'.inodeAddr - metaBlock * blockSize) / inodeAlignment) Error.diskIdTooBig with
  | error e => rfl
  | ok id =>
    cases tail with
    | none =>
      simp only [write, writeTail, pure, EStateM.pure, zeroFill, modify_run, Writer.writeAll_append,
        recorded, hlen]
      simp
    | some t =>
      simp only [write, writeTail, bind, EStateM.bind, pure, EStateM.pure, zeroFill, modify_run,
        Writer.writeAll_append, recorded, hlen]
      simp

theorem makeXattrEntry_ok {key value : Bytes} {e : ℕ × XattrEntry}
    (h : makeXattrEntry key value = .ok e) :
    e.1 = ((xattrBuiltinPrefix key).getD (0, 0)).2 ∧
      e.2.nameIndex = ((xattrBuiltinPrefix key).getD (0, 0)).1 ∧
      e.2.nameLen.toNat = (key.drop e.1).length ∧ e.2.valueSize.toNat = value.length := by
  unfold makeXattrEntry at h
  simp only at h
  split_ifs at h with hk hv
  cases h
  refine ⟨rfl, rfl, ?_, ?_⟩
  · simp only [List.length_drop, UInt8.toNat_ofNat']
    omega
  · simp only [UInt16.toNat_ofNat']
    omega

def xattrBody (entries : List (ℕ × XattrEntry)) (kvs : List (Bytes × Bytes)) : Bytes :=
  (entries.zip kvs).flatMap fun (e, kv) => e.2.asBytes ++ (kv.1.drop e.1 ++ kv.2)

theorem xattrBody_length {kvs : List (Bytes × Bytes)} {entries : List (ℕ × XattrEntry)}
    (h : makeXattrEntries kvs = .ok entries) :
    (xattrBody entries kvs).length = xattrsSize (entries.map (·.2)) := by
  induction kvs generalizing entries with
  | nil =>
    cases h
    rfl
  | cons kv kvs ih =>
    obtain ⟨e, he, h⟩ := except_bind_eq_ok.mp h
    obtain ⟨es, hes, h⟩ := except_bind_eq_ok.mp h
    cases h
    obtain ⟨-, -, hn, hv⟩ := makeXattrEntry_ok he
    have := ih hes
    simp only [xattrBody, xattrsSize, List.zip_cons_cons, List.flatMap_cons, List.length_append,
      List.map_cons, List.sum_cons, XattrEntry.asBytes_length] at this ⊢
    omega

theorem roundUpTo_four {n : ℕ} (h : n ≠ 0) : n ≤ roundUpTo 4 n ∧ roundUpTo 4 n % 4 = 0 := by
  rw [roundUpTo, if_neg h]
  omega

theorem makeXattrEntries_nil {kvs : List (Bytes × Bytes)} {entries : List (ℕ × XattrEntry)}
    (h : makeXattrEntries kvs = .ok entries) : kvs = [] ↔ xattrsSize (entries.map (·.2)) = 0 := by
  cases kvs with
  | nil =>
    cases h
    simp [xattrsSize]
  | cons kv kvs =>
    obtain ⟨e, he, h⟩ := except_bind_eq_ok.mp h
    obtain ⟨es, hes, h⟩ := except_bind_eq_ok.mp h
    cases h
    simp [xattrsSize]

theorem xattrsBytes_length {xattrs : XattrMap} {entries : List (ℕ × XattrEntry)}
    (h : makeXattrEntries xattrs.entries = .ok entries)
    (hc : (xattrCount (entries.map (·.2))).1 < 65536) :
    (xattrsBytes xattrs entries (xattrCount (entries.map (·.2))).2).length =
      xattrCountToLen (UInt16.ofNat (xattrCount (entries.map (·.2))).1) := by
  have hlen := xattrBody_length h
  have hnil := makeXattrEntries_nil h
  unfold xattrsBytes
  by_cases h0 : xattrs.entries = []
  · simp [h0, xattrCount, hnil.mp h0, xattrCountToLen]
  · have hs : xattrsSize (entries.map (·.2)) ≠ 0 := fun hz => h0 (hnil.mpr hz)
    have hr := roundUpTo_four hs
    simp only [xattrCount, if_neg hs] at hc ⊢
    have hne : UInt16.ofNat (roundUpTo 4 (xattrsSize (entries.map (·.2))) / 4 + 1) ≠ 0 := by
      intro hz
      have := congrArg UInt16.toNat hz
      simp only [UInt16.toNat_ofNat', UInt16.toNat_zero] at this
      omega
    rw [if_neg h0, xattrCountToLen, if_neg hne]
    simp only [List.length_append, XattrHeader.asBytes_length, List.length_replicate,
      UInt16.toNat_ofNat']
    change 12 + (xattrBody entries xattrs.entries).length + _ = _
    omega

def recordOf (inode : DiskInode) (tail : Option Bytes) (xattrs : XattrMap) : Except Error Bytes := do
  let entries ← makeXattrEntries xattrs.entries
  let count := xattrCount (entries.map (·.2))
  if count.1 < 65536 then
    .ok ((inode.withXattrCount (UInt16.ofNat count.1)).asBytes ++
      xattrsBytes xattrs entries count.2 ++ tail.getD [])
  else .error .tooManyXattrs

theorem recordOf_length_pos {inode : DiskInode} {tail : Option Bytes} {xattrs : XattrMap}
    {record : Bytes} (h : recordOf inode tail xattrs = .ok record) : 0 < record.length := by
  obtain ⟨entries, -, h⟩ := except_bind_eq_ok.mp h
  simp only at h
  split_ifs at h
  cases h
  cases inode with
  | compact x => simp [DiskInode.withXattrCount, DiskInode.asBytes, InodeCompact.asBytes_length]
  | extended x => simp [DiskInode.withXattrCount, DiskInode.asBytes, InodeExtended.asBytes_length]

def counted (b : Builder) : Builder := { b with nInodes := b.nInodes + 1 }

theorem writeInode_eq (inode : DiskInode) (tail : Option Bytes) (xattrs : XattrMap) (b : Builder) :
    (∃ e, recordOf inode tail xattrs = .error e ∧
      writeInode inode tail xattrs b = .error e (counted b)) ∨
    ∃ data xs, recordOf inode tail xattrs = .ok (data ++ xs ++ tail.getD []) ∧
      writeInode inode tail xattrs b =
        writeRecord data xs tail (data ++ xs ++ tail.getD []).length (counted b) := by
  have hstep : writeInode inode tail xattrs b =
      (check (makeXattrEntries xattrs.entries) >>= fun entries => do
        let count := xattrCount (entries.map (·.2))
        require (count.1 < 65536) .tooManyXattrs
        let data := (inode.withXattrCount (UInt16.ofNat count.1)).asBytes
        writeRecord data (xattrsBytes xattrs entries count.2) tail
          (data.length + xattrCountToLen (UInt16.ofNat count.1) + (tail.getD []).length))
        (counted b) := rfl
  rw [hstep]
  simp only [recordOf, bind, EStateM.bind, Except.bind, check]
  cases he : makeXattrEntries xattrs.entries with
  | error e => exact Or.inl ⟨e, rfl, rfl⟩
  | ok entries =>
    simp only [require]
    split_ifs with hc
    · refine Or.inr ⟨_, _, rfl, ?_⟩
      rw [List.length_append, List.length_append, xattrsBytes_length he hc]
    · exact Or.inl ⟨_, rfl, rfl⟩

def inodeAddress (metaBlock : ℕ) (id : UInt32) : ℕ := metaBlock * blockSize + inodeAlignment * id.toNat

/-- The record of this call stands at the address of its id, between the
tracked addresses before and after the call and within one block. -/
structure Stands (metaBlock : ℕ) (id : UInt32) (record : Bytes) (b b' : Builder) : Prop where
  after : b.inodeAddr ≤ inodeAddress metaBlock id
  before : inodeAddress metaBlock id + record.length ≤ b'.inodeAddr
  written : HasAt b'.writer.data (inodeAddress metaBlock id) record
  oneBlock : inodeAddress metaBlock id % blockSize + record.length ≤ blockSize

theorem toU32_ok {n : ℕ} {e : Error} {x : UInt32} (h : toU32 n e = .ok x) : x.toNat = n := by
  unfold toU32 at h
  split_ifs at h with hn
  cases h
  rw [UInt32.toNat_ofNat']
  omega

theorem recorded_placed {metaBlock : ℕ} {b : Builder} (h : Placed metaBlock b) (record : Bytes)
    (tail : Option Bytes) : Placed metaBlock (recorded record tail b) := by
  have hpad := padding_aligned record.length
  have hal := h.aligned
  have hab := h.above
  refine ⟨⟨h.isMeta, ?_, ?_⟩, ?_⟩
  · simp only [recorded, inodeAlignment] at *
    omega
  · simp only [recorded]
    omega
  · simp [recorded, h.pos]

theorem recorded_stands {metaBlock : ℕ} {b : Builder} (h : Placed metaBlock b) {id : UInt32}
    {e : Error} (hid : toU32 ((b.inodeAddr - metaBlock * blockSize) / inodeAlignment) e = .ok id)
    (record : Bytes) (tail : Option Bytes)
    (hfit : b.inodeAddr % blockSize + record.length ≤ blockSize) :
    Stands metaBlock id record b (recorded record tail b) := by
  have hal := h.aligned
  have hab := h.above
  have haddr : inodeAddress metaBlock id = b.inodeAddr := by
    rw [inodeAddress, toU32_ok hid]
    simp only [inodeAlignment, blockSize] at *
    omega
  refine ⟨by omega, ?_, ?_, by rw [haddr]; exact hfit⟩
  · simp only [haddr, recorded]
    omega
  · rw [haddr, ← h.pos]
    exact ((hasAt_append _ _ _ _).mp (b.writer.hasAt_writeAll _)).1

def Fits (b : Builder) (inode : DiskInode) (tail : Option Bytes) (xattrs : XattrMap) : Prop :=
  ∀ record, recordOf inode tail xattrs = .ok record →
    ¬ (record.length = blockSize ∧ b.inodeAddr % blockSize = 0)

theorem counted_placed {metaBlock : ℕ} {b : Builder} (h : Placed metaBlock b) :
    Placed metaBlock (counted b) := ⟨⟨h.isMeta, h.aligned, h.above⟩, h.pos⟩

theorem writeInode_step {metaBlock : ℕ} {b : Builder} (h : Placed metaBlock b) {inode : DiskInode}
    {tail : Option Bytes} {xattrs : XattrMap} (hfit : Fits b inode tail xattrs) :
    Placed metaBlock (stateAfter (writeInode inode tail xattrs b)) ∧
      Extends b (stateAfter (writeInode inode tail xattrs b)) ∧
      ∀ id, result (writeInode inode tail xattrs b) = .ok id →
        ∃ record, recordOf inode tail xattrs = .ok record ∧
          Stands metaBlock id record b (stateAfter (writeInode inode tail xattrs b)) := by
  have hcount : Extends b (counted b) := ⟨le_refl _, fun _ _ _ h => h⟩
  rcases writeInode_eq inode tail xattrs b with ⟨e, -, he⟩ | ⟨data, xs, hr, heq⟩
  · rw [he]
    exact ⟨counted_placed h, hcount, fun id hid => by cases hid⟩
  · rw [heq, hr]
    by_cases hle : (data ++ xs ++ tail.getD []).length ≤ blockSize
    · obtain ⟨b₁, ha, hp, hext, hin⟩ :=
        alignInode_ok (counted_placed h) hle (hfit _ hr)
      rw [writeRecord_eq rfl hle ha hp.toAddressed]
      cases hid : toU32 ((b₁.inodeAddr - metaBlock * blockSize) / inodeAlignment)
          Error.diskIdTooBig with
      | error e => exact ⟨hp, hcount.trans hext, fun id hid => by cases hid⟩
      | ok id =>
        have hs := recorded_stands hp hid (data ++ xs ++ tail.getD []) tail hin
        refine ⟨recorded_placed hp _ tail, ?_, ?_⟩
        · exact (hcount.trans hext).trans (extends_append hp.pos _ rfl (Nat.le_add_right _ _))
        · intro id' hid'
          cases hid'
          exact ⟨_, rfl, (hcount.trans hext).addr.trans hs.after, hs.before, hs.written, hs.oneBlock⟩
    · have hbig : writeRecord data xs tail (data ++ xs ++ tail.getD []).length (counted b) =
          .error .inodeTooBig (counted b) := by
        simp only [writeRecord, bind, EStateM.bind, require, if_neg hle]
      rw [hbig]
      exact ⟨counted_placed h, hcount, fun id hid => by cases hid⟩

/-- Where the address stands after a record of this length. -/
def nextAddr (addr len : ℕ) : ℕ :=
  (if addr / blockSize ≠ (addr + len) / blockSize then (addr + len) / blockSize * blockSize else addr) +
    (len + padding len inodeAlignment)

theorem writeInode_addr {metaBlock : ℕ} {b b' : Builder} (h : Placed metaBlock b) {inode : DiskInode}
    {tail : Option Bytes} {xattrs : XattrMap} (hfit : Fits b inode tail xattrs) {id : UInt32}
    (hw : writeInode inode tail xattrs b = .ok id b') :
    ∃ record, recordOf inode tail xattrs = .ok record ∧
      b'.inodeAddr = nextAddr b.inodeAddr record.length := by
  rcases writeInode_eq inode tail xattrs b with ⟨e, -, he⟩ | ⟨data, xs, hr, heq⟩
  · cases hw.symm.trans he
  · refine ⟨_, hr, ?_⟩
    rw [heq] at hw
    by_cases hle : (data ++ xs ++ tail.getD []).length ≤ blockSize
    · obtain ⟨b₁, ha, hp, -⟩ := alignInode_ok (counted_placed h) hle (hfit _ hr)
      rw [writeRecord_eq rfl hle ha hp.toAddressed] at hw
      have hat := (alignInode_eq _ (counted b)).symm.trans ha
      split at hw
      · cases hw
        cases hat
        have hsame : (counted b).inodeAddr = b.inodeAddr := rfl
        simp only [recorded, nextAddr, hsame]
        split_ifs <;> rfl
      · cases hw
    · have hbig : writeRecord data xs tail (data ++ xs ++ tail.getD []).length (counted b) =
          .error .inodeTooBig (counted b) := by
        simp only [writeRecord, bind, EStateM.bind, require, if_neg hle]
      cases hw.symm.trans hbig

structure InodeCall where
  inode : DiskInode
  tail : Option Bytes
  xattrs : XattrMap

def InodeCall.run (c : InodeCall) : EStateM Error Builder UInt32 := writeInode c.inode c.tail c.xattrs

def afterInodes (b : Builder) : List InodeCall → Builder
  | [] => b
  | c :: cs => afterInodes (stateAfter (c.run b)) cs

theorem afterInodes_append (b : Builder) (cs ds : List InodeCall) :
    afterInodes b (cs ++ ds) = afterInodes (afterInodes b cs) ds := by
  induction cs generalizing b with
  | nil => rfl
  | cons c cs ih => exact ih _

def AllFit (b : Builder) (cs : List InodeCall) : Prop :=
  ∀ pre c post, cs = pre ++ c :: post → Fits (afterInodes b pre) c.inode c.tail c.xattrs

theorem allFit_append {b : Builder} {cs ds : List InodeCall} (h : AllFit b (cs ++ ds)) :
    AllFit b cs ∧ AllFit (afterInodes b cs) ds := by
  constructor
  · intro pre c post hcs
    exact h pre c (post ++ ds) (by simp [hcs])
  · intro pre c post hds
    have := h (cs ++ pre) c post (by simp [hds])
    rwa [afterInodes_append] at this

theorem afterInodes_placed {metaBlock : ℕ} {b : Builder} (h : Placed metaBlock b)
    (cs : List InodeCall) (hf : AllFit b cs) :
    Placed metaBlock (afterInodes b cs) ∧ Extends b (afterInodes b cs) := by
  induction cs generalizing b with
  | nil => exact ⟨h, Extends.refl b⟩
  | cons c cs ih =>
    obtain ⟨hp, hext, -⟩ := writeInode_step h (hf [] c cs rfl)
    obtain ⟨hp', hext'⟩ := ih hp (@allFit_append _ [c] _ hf).2
    exact ⟨hp', hext.trans hext'⟩

/-- In a run in which no record fills a block from its start, the writer stays
at the tracked address, each record stands at the address of its id within
one block and is still there at the end, and no two records overlap. -/
theorem inode_placement (b : Builder) (metaBlock : ℕ) (hm : b.metaBlock = some metaBlock)
    (ha : b.inodeAddr = metaBlock * blockSize) (hp : b.writer.pos = b.inodeAddr)
    (cs : List InodeCall) (hf : AllFit b cs) (pre : List InodeCall) (c : InodeCall)
    (post : List InodeCall) (hcs : cs = pre ++ c :: post) (id : UInt32)
    (hid : result (c.run (afterInodes b pre)) = .ok id) :
    let b' := stateAfter (c.run (afterInodes b pre))
    b'.writer.pos = b'.inodeAddr ∧ b'.inodeAddr % inodeAlignment = 0 ∧
      ∃ record, recordOf c.inode c.tail c.xattrs = .ok record ∧
        HasAt b'.writer.data (inodeAddress metaBlock id) record ∧
        HasAt (afterInodes b cs).writer.data (inodeAddress metaBlock id) record ∧
        inodeAddress metaBlock id % blockSize + record.length ≤ blockSize ∧
        ∀ mid d post' id', post = mid ++ d :: post' →
          result (d.run (afterInodes b (pre ++ c :: mid))) = .ok id' →
            inodeAddress metaBlock id + record.length ≤ inodeAddress metaBlock id' ∧ id ≠ id' := by
  intro b'
  have h0 : Placed metaBlock b := by
    refine ⟨⟨hm, ?_, ha.ge⟩, hp⟩
    simp only [ha, inodeAlignment, blockSize]
    omega
  subst hcs
  obtain ⟨hf1, hf2⟩ := allFit_append hf
  obtain ⟨hpre, -⟩ := afterInodes_placed h0 pre hf1
  obtain ⟨hpl, hext, hrec⟩ := writeInode_step hpre (hf2 [] c post rfl)
  obtain ⟨record, hr, hs⟩ := hrec id hid
  have hb' : ∀ ds, afterInodes b (pre ++ c :: ds) = afterInodes b' ds :=
    fun ds => afterInodes_append b pre (c :: ds)
  have hfit : AllFit b' post := (@allFit_append _ [c] _ hf2).2
  refine ⟨hpl.pos, hpl.aligned, record, hr, hs.written, ?_, hs.oneBlock, ?_⟩
  · rw [hb']
    exact (afterInodes_placed hpl post hfit).2.keeps _ _ hs.before hs.written
  · intro mid d post' id' hpost hid'
    subst hpost
    obtain ⟨hm1, hm2⟩ := allFit_append hfit
    obtain ⟨hplm, hextm⟩ := afterInodes_placed hpl mid hm1
    rw [hb'] at hid'
    obtain ⟨-, -, hrec'⟩ := writeInode_step hplm (hm2 [] d post' rfl)
    obtain ⟨record'', -, hs'⟩ := hrec' id' hid'
    have hlt : inodeAddress metaBlock id + record.length ≤ inodeAddress metaBlock id' :=
      hs.before.trans (hextm.addr.trans hs'.after)
    refine ⟨hlt, fun heq => ?_⟩
    have := recordOf_length_pos hr
    rw [heq] at hlt
    omega

def emptyMeta : Builder := { Builder.new ⟨none, none⟩ with metaBlock := some 1, inodeAddr := 4096 }

def tailInode (len : ℕ) : InodeCall :=
  ⟨.extended InodeExtended.zeroed, some (List.replicate len 1), OrdMap.empty⟩

/-- The second record does not fit behind the first one and goes to the next block. -/
theorem inode_placement_skips :
    AllFit emptyMeta [tailInode 3000, tailInode 2000] ∧
      result ((tailInode 3000).run emptyMeta) = .ok 0 ∧
      let r := (tailInode 2000).run (afterInodes emptyMeta [tailInode 3000])
      result r = .ok 128 ∧ (stateAfter r).writer.pos = (stateAfter r).inodeAddr ∧
        ∃ record, HasAt (stateAfter r).writer.data (inodeAddress 1 128) record ∧
          recordOf (tailInode 2000).inode (tailInode 2000).tail (tailInode 2000).xattrs = .ok record := by
  have hfits : ∀ len, len ≠ 4032 → ∀ b,
      Fits b (tailInode len).inode (tailInode len).tail (tailInode len).xattrs := by
    intro len hlen b record hr hfull
    have hlength := hfull.1
    cases hr
    change (InodeExtended.zeroed.asBytes ++ List.replicate len 1).length = 4096 at hlength
    rw [List.length_append, InodeExtended.asBytes_length, List.length_replicate] at hlength
    omega
  have hf : AllFit emptyMeta [tailInode 3000, tailInode 2000] := by
    intro pre d post hc
    rcases pre with - | ⟨x, - | ⟨y, pre⟩⟩
    · obtain ⟨rfl, -⟩ := List.cons.inj hc
      exact hfits 3000 (by decide) _
    · obtain ⟨-, hc⟩ := List.cons.inj hc
      obtain ⟨rfl, -⟩ := List.cons.inj hc
      exact hfits 2000 (by decide) _
    · simp at hc
  have hok : result ((tailInode 2000).run (afterInodes emptyMeta [tailInode 3000])) = .ok 128 := by
    decide +kernel
  obtain ⟨hpos, -, record, hrecord, hat, -⟩ :=
    inode_placement emptyMeta 1 rfl rfl rfl _ hf [tailInode 3000] (tailInode 2000) [] rfl 128 hok
  exact ⟨hf, by decide +kernel, hok, hpos, record, hat, hrecord⟩

set_option maxRecDepth 20000 in
-- An inode with a tail of 4032 bytes fills the first block of the meta area: the address skips
-- a block that the writer does not skip.
theorem full_block_misplaced :
    let r := writeInode (.extended InodeExtended.zeroed) (some (List.replicate 4032 0))
      OrdMap.empty emptyMeta
    emptyMeta.inodeAddr = 1 * blockSize ∧ emptyMeta.writer.pos = emptyMeta.inodeAddr ∧
      result r = .ok 128 ∧ (stateAfter r).writer.pos = 8192 ∧ (stateAfter r).inodeAddr = 12288 := by
  decide

end ProgramExplorer.ErofsPlacement
