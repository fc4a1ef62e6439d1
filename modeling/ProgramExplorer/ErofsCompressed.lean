import ProgramExplorer.ErofsAddresses
import ProgramExplorer.InputLoop

/-!
# Decoding a compressed file

`get_compressed_data` of `peerofs/src/disk.rs`. The table of logical cluster
indices has one entry for each logical cluster. A span of the file begins at
an entry that is a head or plain and ends where the next one begins; the
length of a span is the difference of the two addresses, and the loop goes on
with the entry the span ends at. The decompressor is a parameter that gives at
most as many bytes as it is asked for. A sum, product or difference that
leaves the 64-bit words is a panic; the debug assertions are compiled in or
not.
-/

set_option autoImplicit false

namespace ProgramExplorer.ErofsCompressed
open ByteStrings ByteStore LittleEndian StateRules InputLoop ErofsDisk ErofsReader
open ErofsAddresses

section Model

def mul64 (a b : ℕ) : Except Error ℕ := if a * b < 2 ^ 64 then .ok (a * b) else .error .panicked

def sub64 (a b : ℕ) : Except Error ℕ := if b ≤ a then .ok (a - b) else .error .panicked

def roundUp64 (n x : ℕ) : Except Error ℕ :=
  if roundUpTo n x < 2 ^ 64 then .ok (roundUpTo n x) else .error .panicked

def compressionType1 (header : MapHeader) : Except Error CompressionType :=
  ErofsReader.okOr (CompressionType.tryFrom (header.algorithm &&& 15)) .unknownCompression

def getMapHeader (fs : Erofs) (inode : Inode) : Except Error MapHeader := do
  if (← inode.layout).isCompressed = false then throw .notCompressed
  let start ← roundUp64 8 (← fs.inodeEnd inode)
  let data ← ErofsReader.okOr (from? fs.data start) .oob
  let (header, _) ← ErofsReader.okOr (MapHeader.fromPrefix data) .badConversion
  pure header

def takeIndices : ℕ → Bytes → Option (List LogicalClusterIndex)
  | 0, _ => some []
  | n + 1, bs => do
    let (x, bs) ← LogicalClusterIndex.fromPrefix bs
    let xs ← takeIndices n bs
    pure (x :: xs)

def getLogicalClusterIndices (fs : Erofs) (inode : Inode) : Except Error (List LogicalClusterIndex) := do
  if (← inode.layout) ≠ .compressedFull then throw .notCompressedFull
  let blockSize ← fs.blockSize
  let n := (inode.dataSize + blockSize - 1) / blockSize
  let start ← add64 (← add64 (← roundUp64 8 (← fs.inodeEnd inode)) 8) 8
  let data ← ErofsReader.okOr (from? fs.data start) .oob
  ErofsReader.okOr (takeIndices n data) .badConversion

/-- `Decompressor::decompress` with the bytes it leaves in the buffer. -/
structure Decompressor where
  run : Bytes → ℕ → Option Bytes
  length_le : ∀ src n out, run src n = some out → out.length ≤ n

def getDecompressor (lz4 : Decompressor) : CompressionType → Except Error Decompressor
  | .lz4 => .ok lz4
  | t => .error (.compressionNotSupported t)

/-- `1usize << (blkszbits + cluster_size_bits)`, where the sum is a byte. -/
def clusterSize (fs : Erofs) (header : MapHeader) : Except Error ℕ :=
  if fs.sb.blkszbits.toNat + header.clusterSizeBits.toNat < 256 then
    shl64 1 (fs.sb.blkszbits + header.clusterSizeBits)
  else .error .panicked

def spanLen (blockLen i j : ℕ) (cur nextHead : LogicalClusterIndex) : Except Error ℕ := do
  let stop ← add64 (← mul64 (j - i) blockLen) nextHead.clusterOffset.toNat
  sub64 stop cur.clusterOffset.toNat

def pclusterLen (assertions : Bool) (lcis : List LogicalClusterIndex) (i blockLen fileSize : ℕ) :
    Except Error (Option ℕ × ℕ) := do
  let cur ← ErofsReader.okOr lcis[i]? .oob
  let next ← ErofsReader.okOr lcis[i + 1]? .oob
  if next.typ = .nonHead then
    let j := i + 1 + next.delta.2.toNat
    match lcis[j]? with
    | some nextHead =>
      -- debug_assert!(next_head.typ() != LogicalClusterType::NonHead)
      if assertions ∧ nextHead.typ = .nonHead then throw .panicked
      pure (some j, ← spanLen blockLen i j cur nextHead)
    | none =>
      -- it can be that there is no next head
      if j = lcis.length then
        let start ← add64 (← mul64 i blockLen) cur.clusterOffset.toNat
        if fileSize < start then throw .underflow
        pure (none, fileSize - start)
      else throw .oob
  else pure (some (i + 1), ← spanLen blockLen i (i + 1) cur next)

/-- What the loop of `get_compressed_data` reads. -/
structure Decoding where
  assertions : Bool
  dec : Decompressor
  fs : Erofs
  lcis : List LogicalClusterIndex
  blockLen : ℕ
  fileSize : ℕ

variable (x : Decoding)

def Decoding.decodeHead (i : ℕ) (cur : LogicalClusterIndex) : EStateM Error Bytes (Option ℕ) := do
  let dataBegin ← check (x.fs.blockOffset cur.blockAddr)
  let dataEnd ← check (add64 dataBegin x.blockLen)
  let data ← check (ErofsReader.okOr (slice? x.fs.data dataBegin dataEnd) .oob)
  let (next, len) ← check (pclusterLen x.assertions x.lcis i x.blockLen x.fileSize)
  let out ← check (ErofsReader.okOr (x.dec.run data len) .decompress)
  -- debug_assert!(decompressed_len == decompress_len)
  if x.assertions ∧ out.length ≠ len then throw .panicked
  modify (· ++ out)
  pure next

def Decoding.decodePlain (i : ℕ) (cur : LogicalClusterIndex) : EStateM Error Bytes (Option ℕ) :=
  if cur.blockAddr = 0 then
    if i + 1 = x.lcis.length then pure none else throw .lciMalformed
  else do
    let next ← check (ErofsReader.okOr x.lcis[i + 1]? .oob)
    let dataBegin ← check (x.fs.blockOffset cur.blockAddr)
    let dataLen ← check (spanLen x.blockLen i (i + 1) cur next)
    let dataEnd ← check (add64 dataBegin dataLen)
    let data ← check (ErofsReader.okOr (slice? x.fs.data dataBegin dataEnd) .oob)
    modify (· ++ data)
    pure (some (i + 1))

def Decoding.decodeEntry (i : ℕ) : EStateM Error Bytes (Option ℕ) := do
  let cur ← check (ErofsReader.okOr x.lcis[i]? .oob)
  match cur.typ with
  | .head1 => x.decodeHead i cur
  | .plain => x.decodePlain i cur
  | .head2 => throw .head2NotSupported
  | .nonHead => throw .lciMalformed

structure Progress where
  i : ℕ
  written : Bytes

def Decoding.decodeStep (s : Progress) : Next Progress (EStateM.Result Error Bytes Unit) :=
  match x.decodeEntry s.i s.written with
  | .ok (some i) written => .again ⟨i, written⟩
  | .ok none written => .done (.ok () written)
  | .error e written => .done (.error e written)

end Model

section Spans

def logicalAddr (blockLen i : ℕ) (c : LogicalClusterIndex) : ℕ := i * blockLen + c.clusterOffset.toNat

/-- Where the span of a compressed entry ends: the next entry, or what that
points to if it is no head. -/
def successor (lcis : List LogicalClusterIndex) (i : ℕ) : Option ℕ :=
  lcis[i + 1]?.map fun next =>
    if next.typ = .nonHead then i + 1 + next.delta.2.toNat else i + 1

variable {assertions : Bool} {lcis : List LogicalClusterIndex} {blockLen fileSize i j : ℕ}
  {cur next : LogicalClusterIndex}

theorem successor_gt (h : successor lcis i = some j) : i < j := by
  obtain ⟨next, -, hj⟩ := Option.map_eq_some_iff.mp h
  split_ifs at hj <;> omega

theorem mul64_of_lt {a b : ℕ} (h : a * b < 2 ^ 64) : mul64 a b = .ok (a * b) := if_pos h

theorem mul64_panics {a b : ℕ} (h : ¬ a * b < 2 ^ 64) : mul64 a b = .error .panicked := if_neg h

/-- The length of a span is the difference of the two addresses, computed from
the beginning of the first cluster. -/
theorem spanLen_eq (hij : i ≤ j) :
    spanLen blockLen i j cur next =
      if logicalAddr blockLen j next - i * blockLen < 2 ^ 64 ∧
          logicalAddr blockLen i cur ≤ logicalAddr blockLen j next then
        .ok (logicalAddr blockLen j next - logicalAddr blockLen i cur)
      else .error .panicked := by
  have hsplit : j * blockLen = i * blockLen + (j - i) * blockLen := by
    rw [← Nat.add_mul]
    congr 1
    omega
  have hstop : logicalAddr blockLen j next - i * blockLen =
      (j - i) * blockLen + next.clusterOffset.toNat := by
    unfold logicalAddr
    omega
  rw [hstop, spanLen]
  by_cases hmul : (j - i) * blockLen < 2 ^ 64
  · rw [mul64_of_lt hmul]
    change (add64 ((j - i) * blockLen) next.clusterOffset.toNat >>= _) = _
    by_cases hadd : (j - i) * blockLen + next.clusterOffset.toNat < 2 ^ 64
    · rw [add64_of_lt hadd]
      change sub64 _ _ = _
      unfold sub64 logicalAddr
      split_ifs with h₁ h₂ h₂
      · congr 1
        omega
      · omega
      · omega
      · rfl
    · rw [add64_panics.mpr (not_lt.mp hadd), if_neg fun h => hadd h.1]
      rfl
  · rw [mul64_panics hmul, if_neg (by omega)]
    rfl

theorem pclusterLen_span (hcur : lcis[i]? = some cur) (hj : successor lcis i = some j)
    (hnext : lcis[j]? = some next) :
    pclusterLen assertions lcis i blockLen fileSize =
      if assertions = true ∧ next.typ = .nonHead then .error .panicked
      else (spanLen blockLen i j cur next).map fun len => (some j, len) := by
  obtain ⟨next', hn, hjump⟩ := Option.map_eq_some_iff.mp hj
  unfold pclusterLen
  rw [hcur, hn]
  change (if next'.typ = .nonHead then _ else _) = _
  by_cases htyp : next'.typ = .nonHead
  · rw [if_pos htyp] at hjump ⊢
    rw [hjump, hnext]
    dsimp only
    split_ifs
    · rfl
    · cases spanLen blockLen i j cur next <;> rfl
  · rw [if_neg htyp] at hjump ⊢
    subst hjump
    rw [hn] at hnext
    cases hnext
    rw [if_neg fun h => htyp h.2]
    cases spanLen blockLen i (i + 1) cur next <;> rfl

theorem pclusterLen_beyond (hcur : lcis[i]? = some cur) (hj : successor lcis i = some j)
    (hnext : lcis[j]? = none) :
    pclusterLen assertions lcis i blockLen fileSize =
      if j = lcis.length then do
        let start ← add64 (← mul64 i blockLen) cur.clusterOffset.toNat
        if fileSize < start then throw .underflow
        pure (none, fileSize - start)
      else .error .oob := by
  obtain ⟨next, hn, hjump⟩ := Option.map_eq_some_iff.mp hj
  unfold pclusterLen
  rw [hcur, hn]
  change (if next.typ = .nonHead then _ else _) = _
  by_cases htyp : next.typ = .nonHead
  · rw [if_pos htyp] at hjump ⊢
    rw [hjump, hnext]
    rfl
  · rw [if_neg htyp] at hjump
    rw [hjump, hnext] at hn
    cases hn

theorem pclusterLen_tail (hcur : lcis[i]? = some cur) (hj : successor lcis i = some lcis.length) :
    pclusterLen assertions lcis i blockLen fileSize =
      if logicalAddr blockLen i cur < 2 ^ 64 then
        if logicalAddr blockLen i cur ≤ fileSize then .ok (none, fileSize - logicalAddr blockLen i cur)
        else .error .underflow
      else .error .panicked := by
  rw [pclusterLen_beyond hcur hj (by simp), if_pos rfl]
  by_cases hmul : i * blockLen < 2 ^ 64
  · rw [mul64_of_lt hmul]
    change (add64 (i * blockLen) cur.clusterOffset.toNat >>= _) = _
    by_cases hadd : logicalAddr blockLen i cur < 2 ^ 64
    · rw [add64_of_lt hadd, if_pos hadd]
      change (if fileSize < logicalAddr blockLen i cur then _ else _) = _
      split_ifs
      · omega
      · rfl
      · rfl
      · omega
    · rw [add64_panics.mpr (not_lt.mp hadd), if_neg hadd]
      rfl
  · rw [mul64_panics hmul, if_neg (by unfold logicalAddr; omega)]
    rfl

theorem pclusterLen_last (hcur : lcis[i]? = some cur) (hj : successor lcis i = none) :
    pclusterLen assertions lcis i blockLen fileSize = .error .oob := by
  have hnext : lcis[i + 1]? = none := Option.map_eq_none_iff.mp hj
  unfold pclusterLen
  rw [hcur, hnext]
  rfl

end Spans

section Ends

variable (x : Decoding)

def Decoding.blockOf (c : LogicalClusterIndex) : Option Bytes :=
  slice? x.fs.data (shiftedStart x.fs c.blockAddr) (shiftedStart x.fs c.blockAddr + x.blockLen)

def Decoding.spanBytes (c : LogicalClusterIndex) (len : ℕ) : Option Bytes :=
  if c.typ = .head1 then (x.blockOf c).bind fun data => x.dec.run data len
  else slice? x.fs.data (shiftedStart x.fs c.blockAddr) (shiftedStart x.fs c.blockAddr + len)

/-- The span of entry `i` ends at the entry with number `j`, whose address is
`stop`, or at the end of the table and of the file. -/
inductive SpanEnd (x : Decoding) (i : ℕ) (cur : LogicalClusterIndex) : ℕ → ℕ → Prop
  | head {j : ℕ} {next : LogicalClusterIndex} (htyp : cur.typ = .head1) (hdata : (x.blockOf cur).isSome)
      (hj : successor x.lcis i = some j) (hnext : x.lcis[j]? = some next) :
      SpanEnd x i cur j (logicalAddr x.blockLen j next)
  | plain {next : LogicalClusterIndex} (htyp : cur.typ = .plain) (haddr : cur.blockAddr ≠ 0)
      (hnext : x.lcis[i + 1]? = some next) : SpanEnd x i cur (i + 1) (logicalAddr x.blockLen (i + 1) next)
  | tail (htyp : cur.typ = .head1) (hdata : (x.blockOf cur).isSome)
      (hj : successor x.lcis i = some x.lcis.length) : SpanEnd x i cur x.lcis.length x.fileSize

/-- The length of a span that ends so is a 64-bit number, and so are the sums
on the way to it; the debug assertions hold. -/
structure EndFits (x : Decoding) (i : ℕ) (cur : LogicalClusterIndex) (j stop : ℕ) : Prop where
  words : j < x.lcis.length → stop - i * x.blockLen < 2 ^ 64
  ordered : j < x.lcis.length → logicalAddr x.blockLen i cur ≤ stop
  start : j = x.lcis.length → logicalAddr x.blockLen i cur < 2 ^ 64
  plain : cur.typ = .plain →
    shiftedStart x.fs cur.blockAddr + (stop - logicalAddr x.blockLen i cur) < 2 ^ 64
  head : x.assertions = true → cur.typ = .head1 → ∀ next, x.lcis[j]? = some next → next.typ ≠ .nonHead
  full : x.assertions = true → cur.typ = .head1 → logicalAddr x.blockLen i cur ≤ stop →
    ∀ out, x.spanBytes cur (stop - logicalAddr x.blockLen i cur) = some out →
      out.length = stop - logicalAddr x.blockLen i cur

structure Fits (x : Decoding) (i : ℕ) (cur : LogicalClusterIndex) : Prop where
  block : cur.typ = .head1 → shiftedStart x.fs cur.blockAddr + x.blockLen < 2 ^ 64
  ends : ∀ j stop, SpanEnd x i cur j stop → EndFits x i cur j stop

variable {x} {i j stop : ℕ} {cur : LogicalClusterIndex}

theorem SpanEnd.unique {j' stop' : ℕ} (h : SpanEnd x i cur j stop) (h' : SpanEnd x i cur j' stop') :
    j' = j ∧ stop' = stop := by
  cases h with
  | head htyp hdata hj hnext =>
    cases h' with
    | head htyp' hdata' hj' hnext' =>
      rw [hj] at hj'
      cases hj'
      rw [hnext] at hnext'
      cases hnext'
      exact ⟨rfl, rfl⟩
    | plain htyp' =>
      rw [htyp] at htyp'
      cases htyp'
    | tail htyp' hdata' hj' =>
      rw [hj] at hj'
      cases hj'
      simp at hnext
  | plain htyp haddr hnext =>
    cases h' with
    | plain htyp' haddr' hnext' =>
      rw [hnext] at hnext'
      cases hnext'
      exact ⟨rfl, rfl⟩
    | head htyp' =>
      rw [htyp] at htyp'
      cases htyp'
    | tail htyp' =>
      rw [htyp] at htyp'
      cases htyp'
  | tail htyp hdata hj =>
    cases h' with
    | head htyp' hdata' hj' hnext' =>
      rw [hj] at hj'
      cases hj'
      simp at hnext'
    | plain htyp' =>
      rw [htyp] at htyp'
      cases htyp'
    | tail => exact ⟨rfl, rfl⟩

theorem SpanEnd.gt (h : SpanEnd x i cur j stop) : i < j := by
  cases h with
  | head htyp hdata hj => exact successor_gt hj
  | plain => exact Nat.lt_succ_self i
  | tail htyp hdata hj => exact successor_gt hj

theorem SpanEnd.last (h : SpanEnd x i cur j stop) (hj : ¬ j < x.lcis.length) :
    j = x.lcis.length ∧ stop = x.fileSize := by
  cases h with
  | head htyp hdata hj' hnext => exact absurd (List.getElem?_eq_some_iff.mp hnext).1 hj
  | plain htyp haddr hnext => exact absurd (List.getElem?_eq_some_iff.mp hnext).1 hj
  | tail => exact ⟨rfl, rfl⟩

theorem SpanEnd.tail_of_last (h : SpanEnd x i cur j stop) (hj : ¬ j < x.lcis.length) :
    cur.typ = .head1 ∧ successor x.lcis i = some x.lcis.length := by
  cases h with
  | head htyp hdata hj' hnext => exact absurd (List.getElem?_eq_some_iff.mp hnext).1 hj
  | plain htyp haddr hnext => exact absurd (List.getElem?_eq_some_iff.mp hnext).1 hj
  | tail htyp hdata hsucc => exact ⟨htyp, hsucc⟩

theorem SpanEnd.fits (hblock : cur.typ = .head1 →
      shiftedStart x.fs cur.blockAddr + x.blockLen < 2 ^ 64) (h : SpanEnd x i cur j stop)
    (hf : EndFits x i cur j stop) : Fits x i cur := by
  refine ⟨hblock, fun j' stop' h' => ?_⟩
  obtain ⟨rfl, rfl⟩ := h.unique h'
  exact hf

theorem blockOf_fits (hlen : x.fs.data.length < 2 ^ 63) (h : (x.blockOf cur).isSome) :
    shiftedStart x.fs cur.blockAddr + x.blockLen < 2 ^ 64 := by
  obtain ⟨data, hdata⟩ := Option.isSome_iff_exists.mp h
  have hle := slice_le hdata
  omega

end Ends

section Entries

variable {x : Decoding} {i j stop : ℕ} {cur next : LogicalClusterIndex} {w : Bytes}
variable (hcur : x.lcis[i]? = some cur)
include hcur

theorem cur_ok : check (ErofsReader.okOr x.lcis[i]? Error.oob) w = .ok cur w := by
  rw [hcur]
  rfl

theorem decodeEntry_head2 (htyp : cur.typ = .head2) : x.decodeEntry i w = .error .head2NotSupported w := by
  rw [Decoding.decodeEntry, bind_of_ok (cur_ok hcur)]
  simp only [htyp]
  rfl

theorem decodeEntry_nonHead (htyp : cur.typ = .nonHead) : x.decodeEntry i w = .error .lciMalformed w := by
  rw [Decoding.decodeEntry, bind_of_ok (cur_ok hcur)]
  simp only [htyp]
  rfl

theorem decodeEntry_marker (htyp : cur.typ = .plain) (haddr : cur.blockAddr = 0) :
    x.decodeEntry i w = if i + 1 = x.lcis.length then .ok none w else .error .lciMalformed w := by
  rw [Decoding.decodeEntry, bind_of_ok (cur_ok hcur)]
  simp only [htyp, Decoding.decodePlain, if_pos haddr]
  split_ifs <;> rfl

theorem decodePlain_last (htyp : cur.typ = .plain) (haddr : cur.blockAddr ≠ 0)
    (hnext : x.lcis[i + 1]? = none) : x.decodeEntry i w = .error .oob w := by
  rw [Decoding.decodeEntry, bind_of_ok (cur_ok hcur)]
  simp only [htyp, Decoding.decodePlain, if_neg haddr]
  rw [hnext]
  rfl

variable (hb : x.fs.sb.blkszbits.toNat < 64)
include hb

theorem decodeHead_overflow (htyp : cur.typ = .head1)
    (h : ¬ shiftedStart x.fs cur.blockAddr + x.blockLen < 2 ^ 64) :
    x.decodeEntry i w = .error .panicked w := by
  rw [Decoding.decodeEntry, bind_of_ok (cur_ok hcur)]
  simp only [htyp]
  rw [Decoding.decodeHead, blockOffset_ok hb]
  change (check (add64 (shiftedStart x.fs cur.blockAddr) x.blockLen) >>= _ : EStateM _ _ _) w = _
  rw [add64_panics.mpr (not_lt.mp h)]
  rfl

theorem decodeHead_eq (htyp : cur.typ = .head1)
    (h : shiftedStart x.fs cur.blockAddr + x.blockLen < 2 ^ 64) :
    x.decodeEntry i w =
      (do
        let data ← check (ErofsReader.okOr (x.blockOf cur) .oob)
        let span ← check (pclusterLen x.assertions x.lcis i x.blockLen x.fileSize)
        let out ← check (ErofsReader.okOr (x.dec.run data span.2) .decompress)
        if x.assertions ∧ out.length ≠ span.2 then throw .panicked
        modify (· ++ out)
        pure span.1 : EStateM Error Bytes (Option ℕ)) w := by
  rw [Decoding.decodeEntry, bind_of_ok (cur_ok hcur)]
  simp only [htyp]
  rw [Decoding.decodeHead, blockOffset_ok hb]
  change (check (add64 (shiftedStart x.fs cur.blockAddr) x.blockLen) >>= _ : EStateM _ _ _) w = _
  rw [add64_of_lt h]
  rfl

theorem decodePlain_eq (htyp : cur.typ = .plain) (haddr : cur.blockAddr ≠ 0)
    (hnext : x.lcis[i + 1]? = some next) :
    x.decodeEntry i w =
      (do
        let len ← check (spanLen x.blockLen i (i + 1) cur next)
        let dataEnd ← check (add64 (shiftedStart x.fs cur.blockAddr) len)
        let data ← check (ErofsReader.okOr (slice? x.fs.data (shiftedStart x.fs cur.blockAddr) dataEnd) .oob)
        modify (· ++ data)
        pure (some (i + 1)) : EStateM Error Bytes (Option ℕ)) w := by
  have hnextOk : check (ErofsReader.okOr x.lcis[i + 1]? Error.oob) w = .ok next w := by
    rw [hnext]
    rfl
  rw [Decoding.decodeEntry, bind_of_ok (cur_ok hcur)]
  simp only [htyp, Decoding.decodePlain, if_neg haddr]
  rw [bind_of_ok hnextOk, blockOffset_ok hb]
  rfl

variable (hlen : x.fs.data.length < 2 ^ 63)
include hlen

theorem decodeHead_error (htyp : cur.typ = .head1) (hdata : (x.blockOf cur).isSome) {e : Error}
    (h : pclusterLen x.assertions x.lcis i x.blockLen x.fileSize = .error e) :
    x.decodeEntry i w = .error e w := by
  rw [decodeHead_eq hcur hb htyp (blockOf_fits hlen hdata)]
  obtain ⟨data, hdata⟩ := Option.isSome_iff_exists.mp hdata
  rw [hdata, h]
  rfl

/-- The block is decompressed once the length of the span is known. -/
theorem decodeHead_run (htyp : cur.typ = .head1) (hdata : (x.blockOf cur).isSome) {next : Option ℕ} {len : ℕ}
    (h : pclusterLen x.assertions x.lcis i x.blockLen x.fileSize = .ok (next, len)) :
    x.decodeEntry i w =
      match x.spanBytes cur len with
      | none => .error .decompress w
      | some out =>
        if x.assertions ∧ out.length ≠ len then .error .panicked w else .ok next (w ++ out) := by
  rw [decodeHead_eq hcur hb htyp (blockOf_fits hlen hdata), Decoding.spanBytes, if_pos htyp]
  obtain ⟨data, hdata⟩ := Option.isSome_iff_exists.mp hdata
  rw [hdata, h, Option.bind_some]
  change (check (ErofsReader.okOr (x.dec.run data len) .decompress) >>= _ : EStateM _ _ _) w = _
  cases x.dec.run data len with
  | none => rfl
  | some out =>
    change (if x.assertions ∧ out.length ≠ len then _ else _ : EStateM _ _ _) w = _
    dsimp only
    split_ifs <;> rfl

end Entries

section Outcomes

variable {x : Decoding} {i j stop : ℕ} {cur : LogicalClusterIndex} {w : Bytes}

inductive Decoded (x : Decoding) (i : ℕ) (cur : LogicalClusterIndex) (w : Bytes) :
    EStateM.Result Error Bytes (Option ℕ) → Prop
  | failed {e : Error} (he : e ≠ .panicked)
      (hno : ∀ j stop out, SpanEnd x i cur j stop → logicalAddr x.blockLen i cur ≤ stop →
        x.spanBytes cur (stop - logicalAddr x.blockLen i cur) ≠ some out)
      (hno' : ¬ (cur.typ = .plain ∧ cur.blockAddr = 0 ∧ i + 1 = x.lcis.length))
      (hf : Fits x i cur) : Decoded x i cur w (.error e w)
  | unfit (hf : ¬ Fits x i cur) : Decoded x i cur w (.error .panicked w)
  | span {j stop : ℕ} {out : Bytes} (hend : SpanEnd x i cur j stop)
      (hle : logicalAddr x.blockLen i cur ≤ stop)
      (hout : x.spanBytes cur (stop - logicalAddr x.blockLen i cur) = some out) (hf : Fits x i cur) :
      Decoded x i cur w (.ok (if j < x.lcis.length then some j else none) (w ++ out))
  | marker (htyp : cur.typ = .plain) (haddr : cur.blockAddr = 0) (hlast : i + 1 = x.lcis.length)
      (hf : Fits x i cur) : Decoded x i cur w (.ok none w)

/-- An entry whose span has no end fails. -/
theorem decoded_endless {e : Error} (he : e ≠ .panicked)
    (hblock : cur.typ = .head1 → shiftedStart x.fs cur.blockAddr + x.blockLen < 2 ^ 64)
    (hno : ∀ j stop, ¬ SpanEnd x i cur j stop)
    (hno' : ¬ (cur.typ = .plain ∧ cur.blockAddr = 0 ∧ i + 1 = x.lcis.length)) :
    Decoded x i cur w (.error e w) :=
  .failed he (fun j stop _ h => absurd h (hno j stop)) hno' ⟨hblock, fun j stop h => absurd h (hno j stop)⟩

variable (hcur : x.lcis[i]? = some cur) (hb : x.fs.sb.blkszbits.toNat < 64)
  (hlen : x.fs.data.length < 2 ^ 63)
include hcur hb hlen

theorem decodeEntry_head_end (htyp : cur.typ = .head1) (hdata : (x.blockOf cur).isSome)
    (hend : SpanEnd x i cur j stop) (hle : logicalAddr x.blockLen i cur ≤ stop)
    (hfits : (x.assertions = true → ∀ out,
        x.spanBytes cur (stop - logicalAddr x.blockLen i cur) = some out →
        out.length = stop - logicalAddr x.blockLen i cur) → EndFits x i cur j stop)
    (h : pclusterLen x.assertions x.lcis i x.blockLen x.fileSize =
      .ok (if j < x.lcis.length then some j else none, stop - logicalAddr x.blockLen i cur)) :
    Decoded x i cur w (x.decodeEntry i w) := by
  have hblock (_ : cur.typ = .head1) := blockOf_fits hlen hdata
  rw [decodeHead_run hcur hb hlen htyp hdata h]
  cases hout : x.spanBytes cur (stop - logicalAddr x.blockLen i cur) with
  | none =>
    refine .failed (by simp) ?_ (by simp [htyp]) ?_
    · intro j' stop' out hend' _ hout'
      obtain ⟨rfl, rfl⟩ := hend.unique hend'
      rw [hout] at hout'
      cases hout'
    · refine hend.fits hblock (hfits fun _ out hout' => ?_)
      rw [hout] at hout'
      cases hout'
  | some out =>
    dsimp only
    split_ifs with hassert hj
    · refine .unfit fun hf => hassert.2 ?_
      exact (hf.ends j stop hend).full hassert.1 htyp hle out hout
    all_goals
      have hf : Fits x i cur := by
        refine hend.fits hblock (hfits fun ha out' hout' => ?_)
        rw [hout] at hout'
        cases hout'
        by_contra hne
        exact hassert ⟨ha, hne⟩
      have hspan := Decoded.span (w := w) hend hle hout hf
    · rwa [if_pos hj] at hspan
    · rwa [if_neg hj] at hspan

theorem decodeEntry_head_span (htyp : cur.typ = .head1) (hdata : (x.blockOf cur).isSome)
    (hj : successor x.lcis i = some j) {next : LogicalClusterIndex} (hnext : x.lcis[j]? = some next) :
    Decoded x i cur w (x.decodeEntry i w) := by
  have hend : SpanEnd x i cur j (logicalAddr x.blockLen j next) := .head htyp hdata hj hnext
  have hlt : j < x.lcis.length := (List.getElem?_eq_some_iff.mp hnext).1
  have hspan := @pclusterLen_span x.assertions x.lcis x.blockLen x.fileSize i j cur next hcur hj hnext
  by_cases hassert : x.assertions = true ∧ next.typ = .nonHead
  · rw [if_pos hassert] at hspan
    rw [decodeHead_error hcur hb hlen htyp hdata hspan]
    exact .unfit fun hf => (hf.ends _ _ hend).head hassert.1 htyp next hnext hassert.2
  · rw [if_neg hassert, spanLen_eq hend.gt.le] at hspan
    split_ifs at hspan with hfit
    · refine decodeEntry_head_end hcur hb hlen htyp hdata hend hfit.2 (fun hfull => ?_) ?_
      · refine ⟨fun _ => hfit.1, fun _ => hfit.2, fun h => absurd h hlt.ne, ?_, ?_, fun ha _ _ => hfull ha⟩
        · simp [htyp]
        · intro ha _ next' hnext' hnon
          rw [hnext] at hnext'
          cases hnext'
          exact hassert ⟨ha, hnon⟩
      · rw [hspan, if_pos hlt]
        rfl
    · rw [decodeHead_error hcur hb hlen htyp hdata hspan]
      refine .unfit fun hf => hfit ?_
      exact ⟨(hf.ends _ _ hend).words hlt, (hf.ends _ _ hend).ordered hlt⟩

theorem decodeEntry_head_tail (htyp : cur.typ = .head1) (hdata : (x.blockOf cur).isSome)
    (hj : successor x.lcis i = some x.lcis.length) : Decoded x i cur w (x.decodeEntry i w) := by
  have hend : SpanEnd x i cur x.lcis.length x.fileSize := .tail htyp hdata hj
  have hblock (_ : cur.typ = .head1) := blockOf_fits hlen hdata
  have htail := @pclusterLen_tail x.assertions x.lcis x.blockLen x.fileSize i cur hcur hj
  have hfits (hstart : logicalAddr x.blockLen i cur < 2 ^ 64)
      (hfull : x.assertions = true → logicalAddr x.blockLen i cur ≤ x.fileSize → ∀ out,
        x.spanBytes cur (x.fileSize - logicalAddr x.blockLen i cur) = some out →
        out.length = x.fileSize - logicalAddr x.blockLen i cur) :
      EndFits x i cur x.lcis.length x.fileSize :=
    ⟨fun h => absurd h (lt_irrefl _), fun h => absurd h (lt_irrefl _), fun _ => hstart, by simp [htyp],
      by simp, fun ha _ => hfull ha⟩
  split_ifs at htail with hstart hle
  · refine decodeEntry_head_end hcur hb hlen htyp hdata hend hle
      (fun hfull => hfits hstart fun ha _ => hfull ha) ?_
    rw [htail, if_neg (lt_irrefl _)]
  · rw [decodeHead_error hcur hb hlen htyp hdata htail]
    refine .failed (by simp) ?_ (by simp [htyp]) (hend.fits hblock (hfits hstart fun _ h => absurd h hle))
    intro j stop out hend' hle'
    obtain ⟨rfl, rfl⟩ := hend.unique hend'
    exact absurd hle' hle
  · rw [decodeHead_error hcur hb hlen htyp hdata htail]
    exact .unfit fun hf => hstart ((hf.ends _ _ hend).start rfl)

theorem decodeEntry_head_decoded (htyp : cur.typ = .head1) : Decoded x i cur w (x.decodeEntry i w) := by
  by_cases hfit : shiftedStart x.fs cur.blockAddr + x.blockLen < 2 ^ 64
  · by_cases hdata : (x.blockOf cur).isSome
    · cases hj : successor x.lcis i with
      | none =>
        rw [decodeHead_error hcur hb hlen htyp hdata (pclusterLen_last hcur hj)]
        refine decoded_endless (by simp) (fun _ => hfit) (fun j stop h => ?_) (by simp [htyp])
        cases h <;> simp_all
      | some j =>
        cases hnext : x.lcis[j]? with
        | some next => exact decodeEntry_head_span hcur hb hlen htyp hdata hj hnext
        | none =>
          by_cases hlast : j = x.lcis.length
          · subst hlast
            exact decodeEntry_head_tail hcur hb hlen htyp hdata hj
          · have hbeyond := @pclusterLen_beyond x.assertions x.lcis x.blockLen x.fileSize i j cur hcur hj hnext
            rw [if_neg hlast] at hbeyond
            rw [decodeHead_error hcur hb hlen htyp hdata hbeyond]
            refine decoded_endless (by simp) (fun _ => hfit) (fun j stop h => ?_) (by simp [htyp])
            cases h <;> simp_all
    · rw [decodeHead_eq hcur hb htyp hfit, Option.not_isSome_iff_eq_none.mp hdata]
      refine decoded_endless (by simp) (fun _ => hfit) (fun j stop h => ?_) (by simp [htyp])
      cases h <;> simp_all
  · rw [decodeHead_overflow hcur hb htyp hfit]
    exact .unfit fun hf => hfit (hf.block htyp)

omit hlen in
theorem decodeEntry_plain_span (htyp : cur.typ = .plain) (haddr : cur.blockAddr ≠ 0)
    {next : LogicalClusterIndex} (hnext : x.lcis[i + 1]? = some next) :
    Decoded x i cur w (x.decodeEntry i w) := by
  have hend : SpanEnd x i cur (i + 1) (logicalAddr x.blockLen (i + 1) next) := .plain htyp haddr hnext
  have hlt : i + 1 < x.lcis.length := (List.getElem?_eq_some_iff.mp hnext).1
  have hblock (h : cur.typ = .head1) : shiftedStart x.fs cur.blockAddr + x.blockLen < 2 ^ 64 := by
    rw [htyp] at h
    cases h
  rw [decodePlain_eq hcur hb htyp haddr hnext, spanLen_eq hend.gt.le]
  split_ifs with hspan
  · obtain ⟨hwords, hle⟩ := hspan
    change Decoded x i cur w ((check (add64 (shiftedStart x.fs cur.blockAddr)
      (logicalAddr x.blockLen (i + 1) next - logicalAddr x.blockLen i cur)) >>= _ : EStateM _ _ _) w)
    by_cases hstop : shiftedStart x.fs cur.blockAddr +
        (logicalAddr x.blockLen (i + 1) next - logicalAddr x.blockLen i cur) < 2 ^ 64
    · rw [add64_of_lt hstop]
      change Decoded x i cur w ((check (ErofsReader.okOr (slice? x.fs.data _ _) .oob) >>= _ : EStateM _ _ _) w)
      have hbytes (len : ℕ) : x.spanBytes cur len = slice? x.fs.data (shiftedStart x.fs cur.blockAddr)
          (shiftedStart x.fs cur.blockAddr + len) := if_neg (by simp [htyp])
      have hf : Fits x i cur := hend.fits hblock
        ⟨fun _ => hwords, fun _ => hle, fun h => absurd h hlt.ne, fun _ => hstop, by simp [htyp], by simp [htyp]⟩
      rw [← hbytes]
      cases hout : x.spanBytes cur
          (logicalAddr x.blockLen (i + 1) next - logicalAddr x.blockLen i cur) with
      | none =>
        refine .failed (by simp) ?_ (fun h => haddr h.2.1) hf
        intro j stop out hend' _ hout'
        obtain ⟨rfl, rfl⟩ := hend.unique hend'
        rw [hout] at hout'
        cases hout'
      | some out =>
        have hspan := Decoded.span (w := w) hend hle hout hf
        rwa [if_pos hlt] at hspan
    · rw [add64_panics.mpr (not_lt.mp hstop)]
      exact .unfit fun hf => hstop ((hf.ends _ _ hend).plain htyp)
  · refine .unfit fun hf => hspan ?_
    exact ⟨(hf.ends _ _ hend).words hlt, (hf.ends _ _ hend).ordered hlt⟩

omit hlen in
theorem decodeEntry_plain_decoded (htyp : cur.typ = .plain) : Decoded x i cur w (x.decodeEntry i w) := by
  have hblock (h : cur.typ = .head1) : shiftedStart x.fs cur.blockAddr + x.blockLen < 2 ^ 64 := by
    rw [htyp] at h
    cases h
  by_cases haddr : cur.blockAddr = 0
  · have hno (j stop : ℕ) (h : SpanEnd x i cur j stop) : False := by
      cases h <;> simp_all
    rw [decodeEntry_marker hcur htyp haddr]
    split_ifs with hlast
    · exact .marker htyp haddr hlast ⟨hblock, fun j stop h => absurd h (hno j stop)⟩
    · exact decoded_endless (by simp) hblock hno fun h => hlast h.2.2
  · cases hnext : x.lcis[i + 1]? with
    | some next => exact decodeEntry_plain_span hcur hb htyp haddr hnext
    | none =>
      rw [decodePlain_last hcur htyp haddr hnext]
      refine decoded_endless (by simp) hblock (fun j stop h => ?_) fun h => haddr h.2.1
      cases h <;> simp_all

/-- What the loop does at an entry, with the reason. -/
theorem decodeEntry_decoded : Decoded x i cur w (x.decodeEntry i w) := by
  have hno (hhead : cur.typ ≠ .head1) (hplain : cur.typ ≠ .plain) (j stop : ℕ) :
      ¬ SpanEnd x i cur j stop := by
    rintro (⟨htyp, -⟩ | ⟨htyp, -⟩ | ⟨htyp, -⟩)
    · exact hhead htyp
    · exact hplain htyp
    · exact hhead htyp
  cases htyp : cur.typ with
  | head1 => exact decodeEntry_head_decoded hcur hb hlen htyp
  | plain => exact decodeEntry_plain_decoded hcur hb htyp
  | head2 =>
    rw [decodeEntry_head2 hcur htyp]
    exact decoded_endless (by simp) (by simp [htyp]) (hno (by simp [htyp]) (by simp [htyp])) (by simp [htyp])
  | nonHead =>
    rw [decodeEntry_nonHead hcur htyp]
    exact decoded_endless (by simp) (by simp [htyp]) (hno (by simp [htyp]) (by simp [htyp])) (by simp [htyp])

/-- An entry that fits and whose span can be read is written. -/
theorem decodeEntry_span (hf : Fits x i cur) (hend : SpanEnd x i cur j stop)
    (hle : logicalAddr x.blockLen i cur ≤ stop) {out : Bytes}
    (hout : x.spanBytes cur (stop - logicalAddr x.blockLen i cur) = some out) :
    x.decodeEntry i w = .ok (if j < x.lcis.length then some j else none) (w ++ out) := by
  have hd := @decodeEntry_decoded x i cur w hcur hb hlen
  generalize x.decodeEntry i w = r at hd ⊢
  cases hd with
  | failed he hno => exact absurd hout (hno j stop out hend hle)
  | unfit hn => exact absurd hf hn
  | span hend' hle' hout' =>
    obtain ⟨rfl, rfl⟩ := hend.unique hend'
    rw [hout] at hout'
    cases hout'
    rfl
  | marker htyp haddr => cases hend <;> simp_all

theorem decodeEntry_ok {next : Option ℕ} {w' : Bytes} (h : x.decodeEntry i w = .ok next w') :
    (∃ j stop out, SpanEnd x i cur j stop ∧ logicalAddr x.blockLen i cur ≤ stop ∧
        x.spanBytes cur (stop - logicalAddr x.blockLen i cur) = some out ∧
        next = (if j < x.lcis.length then some j else none) ∧ w' = w ++ out) ∨
      cur.typ = .plain ∧ cur.blockAddr = 0 ∧ i + 1 = x.lcis.length ∧ next = none ∧ w' = w := by
  have hd := @decodeEntry_decoded x i cur w hcur hb hlen
  generalize hr : x.decodeEntry i w = r at hd
  rw [h] at hr
  cases hd with
  | failed => cases hr
  | unfit => cases hr
  | @span j stop out hend hle hout hf =>
    cases hr
    exact Or.inl ⟨j, stop, out, hend, hle, hout, rfl, rfl⟩
  | marker htyp haddr hlast =>
    cases hr
    exact Or.inr ⟨htyp, haddr, hlast, rfl, rfl⟩

theorem decodeEntry_again {w' : Bytes} (h : x.decodeEntry i w = .ok (some j) w') :
    ∃ stop out, SpanEnd x i cur j stop ∧ j < x.lcis.length ∧ logicalAddr x.blockLen i cur ≤ stop ∧
      x.spanBytes cur (stop - logicalAddr x.blockLen i cur) = some out ∧ w' = w ++ out := by
  rcases decodeEntry_ok hcur hb hlen h with ⟨j', stop, out, hend, hle, hout, hnext, hw⟩ | ⟨-, -, -, hnext, -⟩
  · split_ifs at hnext with hj
    cases hnext
    exact ⟨stop, out, hend, hj, hle, hout, hw⟩
  · cases hnext

theorem decodeEntry_done {w' : Bytes} (h : x.decodeEntry i w = .ok none w') :
    (∃ out, SpanEnd x i cur x.lcis.length x.fileSize ∧ logicalAddr x.blockLen i cur ≤ x.fileSize ∧
        x.spanBytes cur (x.fileSize - logicalAddr x.blockLen i cur) = some out ∧ w' = w ++ out) ∨
      cur.typ = .plain ∧ cur.blockAddr = 0 ∧ i + 1 = x.lcis.length ∧ w' = w := by
  rcases decodeEntry_ok hcur hb hlen h with
    ⟨j, stop, out, hend, hle, hout, hnext, hw⟩ | ⟨htyp, haddr, hlast, -, hw⟩
  · split_ifs at hnext with hj
    obtain ⟨rfl, rfl⟩ := hend.last hj
    exact Or.inl ⟨out, hend, hle, hout, hw⟩
  · exact Or.inr ⟨htyp, haddr, hlast, hw⟩

theorem fits_of_ne_panicked (h : x.decodeEntry i w ≠ .error .panicked w) : Fits x i cur := by
  have hd := @decodeEntry_decoded x i cur w hcur hb hlen
  generalize x.decodeEntry i w = r at hd h
  cases hd with
  | failed he hno hno' hf => exact hf
  | unfit => exact absurd rfl h
  | span hend hle hout hf => exact hf
  | marker htyp haddr hlast hf => exact hf

end Outcomes

section Loop

theorem pclusterLen_gt {assertions : Bool} {lcis : List LogicalClusterIndex} {blockLen fileSize i j len : ℕ}
    (h : pclusterLen assertions lcis i blockLen fileSize = .ok (some j, len)) : i < j := by
  obtain ⟨cur, -, h⟩ := except_bind_eq_ok.mp h
  obtain ⟨next, -, h⟩ := except_bind_eq_ok.mp h
  split_ifs at h
  · cases hn : lcis[i + 1 + next.delta.2.toNat]? with
    | some nextHead =>
      simp only [hn] at h
      split_ifs at h
      · cases h
      · obtain ⟨_, -, h⟩ := except_bind_eq_ok.mp h
        cases h
        omega
    | none =>
      simp only [hn] at h
      split_ifs at h
      obtain ⟨_, -, h⟩ := except_bind_eq_ok.mp h
      obtain ⟨_, -, h⟩ := except_bind_eq_ok.mp h
      split_ifs at h
      · cases h
      · cases h
  · obtain ⟨_, -, h⟩ := except_bind_eq_ok.mp h
    cases h
    exact Nat.lt_succ_self i

variable (x : Decoding)

theorem decodeEntry_gt {i j : ℕ} {w w' : Bytes} (h : x.decodeEntry i w = .ok (some j) w') :
    i < x.lcis.length ∧ i < j := by
  obtain ⟨cur, w₁, hget, h⟩ := bind_eq_ok.mp h
  obtain ⟨hcur, -⟩ := check_eq_ok.mp hget
  obtain ⟨hi, -⟩ := List.getElem?_eq_some_iff.mp (okOr_eq_some hcur)
  refine ⟨hi, ?_⟩
  cases htyp : cur.typ with
  | head1 =>
    simp only [htyp, Decoding.decodeHead] at h
    obtain ⟨_, _, -, h⟩ := bind_eq_ok.mp h
    obtain ⟨_, _, -, h⟩ := bind_eq_ok.mp h
    obtain ⟨_, _, -, h⟩ := bind_eq_ok.mp h
    obtain ⟨⟨stop, len⟩, _, hget', h⟩ := bind_eq_ok.mp h
    obtain ⟨hlen, -⟩ := check_eq_ok.mp hget'
    obtain ⟨_, _, -, h⟩ := bind_eq_ok.mp h
    dsimp only at h
    split_ifs at h
    · cases h
    · obtain ⟨_, _, -, h⟩ := bind_eq_ok.mp h
      obtain ⟨rfl, -⟩ := pure_eq_ok.mp h
      exact pclusterLen_gt hlen
  | plain =>
    simp only [htyp, Decoding.decodePlain] at h
    split_ifs at h
    · cases h
    · cases h
    · obtain ⟨_, _, -, h⟩ := bind_eq_ok.mp h
      obtain ⟨_, _, -, h⟩ := bind_eq_ok.mp h
      obtain ⟨_, _, -, h⟩ := bind_eq_ok.mp h
      obtain ⟨_, _, -, h⟩ := bind_eq_ok.mp h
      obtain ⟨_, _, -, h⟩ := bind_eq_ok.mp h
      obtain ⟨_, _, -, h⟩ := bind_eq_ok.mp h
      obtain ⟨hj, -⟩ := pure_eq_ok.mp h
      cases hj
      exact Nat.lt_succ_self i
  | head2 =>
    simp only [htyp] at h
    cases h
  | nonHead =>
    simp only [htyp] at h
    cases h

theorem decodeStep_again {s s' : Progress} (h : x.decodeStep s = .again s') :
    x.decodeEntry s.i s.written = .ok (some s'.i) s'.written := by
  unfold Decoding.decodeStep at h
  cases hd : x.decodeEntry s.i s.written with
  | error e w =>
    rw [hd] at h
    cases h
  | ok stop w =>
    rw [hd] at h
    cases stop with
    | none => cases h
    | some j =>
      cases h
      rfl

theorem decodeStep_decreases : Decreases (fun s : Progress => x.lcis.length - s.i) x.decodeStep := by
  intro s s' h
  obtain ⟨hi, hj⟩ := decodeEntry_gt x (decodeStep_again x h)
  dsimp only
  omega

def Decoding.decodeAll : EStateM Error Bytes Unit := fun written =>
  run (decodeStep_decreases x) ⟨0, written⟩

end Loop

def getCompressedData (assertions : Bool) (lz4 : Decompressor) (fs : Erofs) (inode : Inode) :
    EStateM Error Bytes Unit := do
  let header ← check (getMapHeader fs inode)
  let compressionType ← check (compressionType1 header)
  let dec ← check (getDecompressor lz4 compressionType)
  let blockLen ← check (clusterSize fs header)
  let lcis ← check (getLogicalClusterIndices fs inode)
  if lcis = [] then pure () else Decoding.decodeAll ⟨assertions, dec, fs, lcis, blockLen, inode.dataSize⟩

end ProgramExplorer.ErofsCompressed
