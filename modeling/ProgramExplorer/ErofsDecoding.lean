import ProgramExplorer.ErofsCompressed

/-!
# What decoding a compressed file writes

The loop follows the spans of the table from its first entry on. Which entries
it comes to, and how many bytes stand before them, can be read off the table:
the next entry is where a span ends, as long as the block of the span is in
the image and can be decompressed. Decoding is sound exactly if the numbers at
those entries fit and the spans add up to the size of the file.
-/

set_option autoImplicit false

namespace ProgramExplorer.ErofsDecoding
open ByteStrings ByteStore StateRules InputLoop ErofsDisk ErofsReader ErofsAddresses
open ErofsCompressed

section Tables

structure Table (fs : Erofs) (inode : Inode) (lcis : List LogicalClusterIndex) (blockLen : ℕ) : Prop where
  header : ∃ header, getMapHeader fs inode = .ok header ∧ compressionType1 header = .ok .lz4 ∧
    clusterSize fs header = .ok blockLen
  indices : getLogicalClusterIndices fs inode = .ok lcis

theorem takeIndices_length {n : ℕ} {bs : Bytes} {lcis : List LogicalClusterIndex}
    (h : takeIndices n bs = some lcis) : lcis.length = n := by
  induction n generalizing bs lcis with
  | zero =>
    cases h
    rfl
  | succ n ih =>
    obtain ⟨⟨x, bs'⟩, -, h⟩ := Option.bind_eq_some_iff.mp h
    obtain ⟨xs, hxs, h⟩ := Option.bind_eq_some_iff.mp h
    cases h
    rw [List.length_cons, ih hxs]

variable {fs : Erofs} {inode : Inode} {lcis : List LogicalClusterIndex} {blockLen : ℕ}

def decodingOf (assertions : Bool) (lz4 : Decompressor) (fs : Erofs) (inode : Inode)
    (lcis : List LogicalClusterIndex) (blockLen : ℕ) : Decoding :=
  ⟨assertions, lz4, fs, lcis, blockLen, inode.dataSize⟩

/-- What `get_compressed_data` reads before the loop. -/
def openTable (lz4 : Decompressor) (fs : Erofs) (inode : Inode) :
    Except Error (Decompressor × ℕ × List LogicalClusterIndex) := do
  let header ← getMapHeader fs inode
  let compressionType ← compressionType1 header
  let dec ← getDecompressor lz4 compressionType
  let blockLen ← clusterSize fs header
  let lcis ← getLogicalClusterIndices fs inode
  pure (dec, blockLen, lcis)

theorem openTable_of_table (lz4 : Decompressor) (ht : Table fs inode lcis blockLen) :
    openTable lz4 fs inode = .ok (lz4, blockLen, lcis) := by
  obtain ⟨header, hheader, htype, hsize⟩ := ht.header
  rw [openTable, hheader, ht.indices]
  change (compressionType1 header >>= _) = _
  rw [htype]
  change (clusterSize fs header >>= _) = _
  rw [hsize]
  rfl

theorem table_of_openTable {lz4 dec : Decompressor} (h : openTable lz4 fs inode = .ok (dec, blockLen, lcis)) :
    dec = lz4 ∧ Table fs inode lcis blockLen := by
  obtain ⟨header, hheader, h⟩ := except_bind_eq_ok.mp h
  obtain ⟨type, htype, h⟩ := except_bind_eq_ok.mp h
  obtain ⟨dec', hdec, h⟩ := except_bind_eq_ok.mp h
  obtain ⟨blockLen', hsize, h⟩ := except_bind_eq_ok.mp h
  obtain ⟨lcis', hind, h⟩ := except_bind_eq_ok.mp h
  cases h
  cases type <;> cases hdec
  exact ⟨rfl, ⟨header, hheader, htype, hsize⟩, hind⟩

theorem getCompressedData_eq (assertions : Bool) (lz4 : Decompressor) (fs : Erofs) (inode : Inode) :
    getCompressedData assertions lz4 fs inode = check (openTable lz4 fs inode) >>= fun t =>
      if t.2.2 = [] then pure () else (Decoding.mk assertions t.1 fs t.2.2 t.2.1 inode.dataSize).decodeAll := by
  simp only [getCompressedData, openTable, check_bind, bind_assoc, check_pure, pure_bind]

theorem clusterSizeBits_le (header : MapHeader) : header.clusterSizeBits.toNat ≤ 7 := by
  rw [MapHeader.clusterSizeBits, UInt8.toNat_and]
  exact Nat.and_le_right

theorem clusterSize_eq (hb : fs.sb.blkszbits.toNat < 64) (header : MapHeader) :
    clusterSize fs header =
      if fs.sb.blkszbits.toNat + header.clusterSizeBits.toNat < 64 then
        .ok (2 ^ (fs.sb.blkszbits.toNat + header.clusterSizeBits.toNat))
      else .error .panicked := by
  have hc := clusterSizeBits_le header
  have hsum : (fs.sb.blkszbits + header.clusterSizeBits).toNat =
      fs.sb.blkszbits.toNat + header.clusterSizeBits.toNat := by
    rw [UInt8.toNat_add, Nat.mod_eq_of_lt (by omega)]
  rw [clusterSize, if_pos (by omega), shl64, hsum]
  split_ifs with h
  · have hlt : 2 ^ (fs.sb.blkszbits.toNat + header.clusterSizeBits.toNat) < 2 ^ 64 :=
      Nat.pow_lt_pow_right (by norm_num) h
    rw [one_mul, Nat.mod_eq_of_lt hlt]
  · rfl

def countOf (size blockLen : ℕ) : ℕ := (size + blockLen - 1) / blockLen

theorem size_of_countOf_zero {size blockLen : ℕ} (hpos : 0 < blockLen) (h : countOf size blockLen = 0) :
    size = 0 := by
  rw [countOf, Nat.div_eq_zero_iff] at h
  omega

variable {id : UInt32} (hin : Readable fs id inode) (hlen : fs.data.length < 2 ^ 63)
include hin hlen

theorem roundUp_ok :
    roundUp64 8 (inodeEndAt fs inode) = .ok (roundUpTo 8 (inodeEndAt fs inode)) ∧
      roundUpTo 8 (inodeEndAt fs inode) < 2 ^ 63 + 2 ^ 20 := by
  have hstop := inodeEndAt_lt hin hlen
  have hround : roundUpTo 8 (inodeEndAt fs inode) < 2 ^ 63 + 2 ^ 20 := by
    unfold roundUpTo
    split_ifs <;> omega
  exact ⟨if_pos (by omega), hround⟩

theorem getMapHeader_ne_panicked : getMapHeader fs inode ≠ .error .panicked := by
  obtain ⟨l, hl⟩ := hin.layout
  unfold getMapHeader
  rw [hl, inodeEnd_ok hin hlen]
  change (if l.isCompressed = false then _ else _) ≠ _
  split_ifs
  · exact fun h => by cases h
  · change (roundUp64 8 (inodeEndAt fs inode) >>= _) ≠ _
    rw [(roundUp_ok hin hlen).1]
    refine bind_ne_panicked (by simp) fun start _ => ?_
    refine bind_ne_panicked (okOr_ne_panicked (by simp)) fun data _ => ?_
    exact bind_ne_panicked (okOr_ne_panicked (by simp)) fun _ _ h => by cases h

/-- The table is read from behind the header, with an entry for each block of
the file. -/
theorem getLogicalClusterIndices_eq :
    inode.layout ≠ .ok .compressedFull ∧ getLogicalClusterIndices fs inode = .error .notCompressedFull ∨
      inode.layout = .ok .compressedFull ∧ getLogicalClusterIndices fs inode =
        (ErofsReader.okOr (from? fs.data (roundUpTo 8 (inodeEndAt fs inode) + 8 + 8)) .oob >>= fun data =>
          ErofsReader.okOr (takeIndices (countOf inode.dataSize (2 ^ fs.sb.blkszbits.toNat)) data)
            .badConversion) := by
  obtain ⟨l, hl⟩ := hin.layout
  obtain ⟨hround, hlt⟩ := roundUp_ok hin hlen
  unfold getLogicalClusterIndices
  rw [hl, blockSize_ok hin.bits, inodeEnd_ok hin hlen]
  by_cases hfull : l = .compressedFull
  · subst hfull
    refine Or.inr ⟨rfl, ?_⟩
    change (roundUp64 8 (inodeEndAt fs inode) >>= _) = _
    rw [hround]
    change (add64 (roundUpTo 8 (inodeEndAt fs inode)) 8 >>= _) = _
    rw [add64_of_lt (by omega)]
    change (add64 (roundUpTo 8 (inodeEndAt fs inode) + 8) 8 >>= _) = _
    rw [add64_of_lt (by omega)]
    rfl
  · exact Or.inl ⟨by simpa using hfull, if_pos hfull⟩

theorem getLogicalClusterIndices_ne_panicked : getLogicalClusterIndices fs inode ≠ .error .panicked := by
  rcases getLogicalClusterIndices_eq hin hlen with ⟨-, h⟩ | ⟨-, h⟩
  · rw [h]
    simp
  · rw [h]
    exact bind_ne_panicked (okOr_ne_panicked (by simp)) fun _ _ => okOr_ne_panicked (by simp)

theorem indices_length (h : getLogicalClusterIndices fs inode = .ok lcis) :
    lcis.length = countOf inode.dataSize (2 ^ fs.sb.blkszbits.toNat) := by
  rcases getLogicalClusterIndices_eq hin hlen with ⟨-, heq⟩ | ⟨-, heq⟩
  · rw [heq] at h
    cases h
  · rw [heq] at h
    obtain ⟨data, -, h⟩ := except_bind_eq_ok.mp h
    exact takeIndices_length (okOr_eq_some h)

omit hin hlen in
/-- The shift that gives the size of a cluster is by less than 64. -/
def HeaderFits (fs : Erofs) (inode : Inode) : Prop :=
  ∀ header, getMapHeader fs inode = .ok header → compressionType1 header = .ok .lz4 →
    fs.sb.blkszbits.toNat + header.clusterSizeBits.toNat < 64

theorem openTable_ne_panicked (lz4 : Decompressor) (h : HeaderFits fs inode) :
    openTable lz4 fs inode ≠ .error .panicked := by
  refine bind_ne_panicked (getMapHeader_ne_panicked hin hlen) fun header hheader => ?_
  refine bind_ne_panicked (okOr_ne_panicked (by simp)) fun type htype => ?_
  cases type with
  | lz4 =>
    change (clusterSize fs header >>= _) ≠ _
    rw [clusterSize_eq hin.bits, if_pos (h header hheader htype)]
    refine bind_ne_panicked (by simp) fun blockLen _ => ?_
    exact bind_ne_panicked (getLogicalClusterIndices_ne_panicked hin hlen) fun lcis _ h => by cases h
  | lzma => exact fun h => by cases h
  | deflate => exact fun h => by cases h
  | zstd => exact fun h => by cases h

omit hlen in
theorem openTable_panics (lz4 : Decompressor) (h : ¬ HeaderFits fs inode) :
    openTable lz4 fs inode = .error .panicked := by
  simp only [HeaderFits, not_forall] at h
  obtain ⟨header, hheader, htype, hfit⟩ := h
  rw [openTable, hheader]
  change (compressionType1 header >>= _) = _
  rw [htype]
  change (clusterSize fs header >>= _) = _
  rw [clusterSize_eq hin.bits, if_neg hfit]
  rfl

end Tables

section Sound

variable {x : Decoding} {s : Progress} {w : Bytes}

theorem decodeStep_ends (h : x.decodeEntry s.i s.written = .ok none w) :
    x.decodeStep s = .done (.ok () w) := by
  rw [Decoding.decodeStep, h]

theorem decodeStep_fails {e : Error} (h : x.decodeEntry s.i s.written = .error e w) :
    x.decodeStep s = .done (.error e w) := by
  rw [Decoding.decodeStep, h]

theorem decodeStep_goes {j : ℕ} (h : x.decodeEntry s.i s.written = .ok (some j) w) :
    x.decodeStep s = .again ⟨j, w⟩ := by
  rw [Decoding.decodeStep, h]

theorem decodeStep_done {r : EStateM.Result Error Bytes Unit} (h : x.decodeStep s = .done r) :
    (∃ w, x.decodeEntry s.i s.written = .ok none w ∧ r = .ok () w) ∨
      ∃ e w, x.decodeEntry s.i s.written = .error e w ∧ r = .error e w := by
  unfold Decoding.decodeStep at h
  cases hd : x.decodeEntry s.i s.written with
  | error e w =>
    rw [hd] at h
    cases h
    exact Or.inr ⟨e, w, rfl, rfl⟩
  | ok stop w =>
    rw [hd] at h
    cases stop with
    | some j => cases h
    | none =>
      cases h
      exact Or.inl ⟨w, rfl, rfl⟩

/-- The spans from the first entry on lead to entry `i`, with `n` bytes before
it. -/
inductive Chain (x : Decoding) : ℕ → ℕ → Prop
  | start : Chain x 0 0
  | next {i n j stop : ℕ} {cur : LogicalClusterIndex} {out : Bytes} (h : Chain x i n)
      (hcur : x.lcis[i]? = some cur) (hend : SpanEnd x i cur j stop) (hj : j < x.lcis.length)
      (hle : logicalAddr x.blockLen i cur ≤ stop)
      (hout : x.spanBytes cur (stop - logicalAddr x.blockLen i cur) = some out) : Chain x j (n + out.length)

/-- Where the spans end, there are as many bytes as the file has. -/
structure EndsAt (x : Decoding) (i n : ℕ) (cur : LogicalClusterIndex) : Prop where
  tail : SpanEnd x i cur x.lcis.length x.fileSize → logicalAddr x.blockLen i cur ≤ x.fileSize →
    ∀ out, x.spanBytes cur (x.fileSize - logicalAddr x.blockLen i cur) = some out →
      n + out.length = x.fileSize
  marker : cur.typ = .plain → cur.blockAddr = 0 → i + 1 = x.lcis.length → n = x.fileSize

def SoundTable (x : Decoding) : Prop :=
  ∀ i n cur, Chain x i n → x.lcis[i]? = some cur → Fits x i cur ∧ EndsAt x i n cur

structure Good (fileSize : ℕ) (r : EStateM.Result Error Bytes Unit) : Prop where
  safe : ∀ w, r ≠ .error .panicked w
  length : ∀ w, r = .ok () w → w.length = fileSize

theorem good_error {fileSize : ℕ} {e : Error} : Good fileSize (.error e w) ↔ e ≠ .panicked := by
  constructor
  · rintro h rfl
    exact h.safe w rfl
  · intro he
    refine ⟨fun w' h => ?_, fun w' h => by cases h⟩
    cases h
    exact he rfl

theorem good_ok {fileSize : ℕ} : Good fileSize (.ok () w) ↔ w.length = fileSize := by
  constructor
  · exact fun h => h.length w rfl
  · intro h
    refine ⟨fun w' h' => (by cases h'), fun w' h' => ?_⟩
    cases h'
    exact h

variable (hb : x.fs.sb.blkszbits.toNat < 64) (hlen : x.fs.data.length < 2 ^ 63)
include hb hlen

/-- What is good to the end is good from every state the loop comes to. -/
theorem fits_of_good (hr : Reached x.decodeStep ⟨0, []⟩ s) (h : Good x.fileSize (x.decodeAll []))
    {cur : LogicalClusterIndex} (hcur : x.lcis[s.i]? = some cur) :
    Fits x s.i cur ∧ EndsAt x s.i s.written.length cur := by
  have hrun : x.decodeAll [] = run (decodeStep_decreases x) s := hr.run_eq _
  have hf : Fits x s.i cur := by
    refine fits_of_ne_panicked (w := s.written) hcur hb hlen fun herr => ?_
    rw [hrun, run_done _ (decodeStep_fails herr), good_error] at h
    exact h rfl
  refine ⟨hf, fun hend hle out hout => ?_, fun htyp haddr hlast => ?_⟩
  · have hentry := decodeEntry_span (w := s.written) hcur hb hlen hf hend hle hout
    rw [if_neg (lt_irrefl _)] at hentry
    rw [hrun, run_done _ (decodeStep_ends hentry), good_ok, List.length_append] at h
    exact h
  · have hentry := decodeEntry_marker (w := s.written) hcur htyp haddr
    rw [if_pos hlast] at hentry
    rw [hrun, run_done _ (decodeStep_ends hentry), good_ok] at h
    exact h

theorem reached_of_chain (h : Good x.fileSize (x.decodeAll [])) {i n : ℕ} (hc : Chain x i n) :
    ∃ written, written.length = n ∧ Reached x.decodeStep ⟨0, []⟩ ⟨i, written⟩ := by
  induction hc with
  | start => exact ⟨[], rfl, .start⟩
  | @next i n j stop cur out hc hcur hend hj hle hout ih =>
    obtain ⟨written, rfl, hr⟩ := ih
    have hf := (fits_of_good hb hlen hr h hcur).1
    have hentry := decodeEntry_span (w := written) hcur hb hlen hf hend hle hout
    rw [if_pos hj] at hentry
    exact ⟨written ++ out, List.length_append, hr.again (decodeStep_goes hentry)⟩

theorem good_of_sound (hne : x.lcis ≠ []) (h : SoundTable x) : Good x.fileSize (x.decodeAll []) := by
  refine run_rule (decodeStep_decreases x)
    (fun s => Chain x s.i s.written.length ∧ s.i < x.lcis.length) (Good x.fileSize) ?_ ?_
    ⟨.start, List.length_pos_of_ne_nil hne⟩
  · rintro s s' ⟨hc, hi⟩ hs
    have hcur := List.getElem?_eq_getElem hi
    obtain ⟨stop, out, hend, hj, hle, hout, hw⟩ := decodeEntry_again hcur hb hlen (decodeStep_again x hs)
    rw [hw, List.length_append]
    exact ⟨hc.next hcur hend hj hle hout, hj⟩
  · rintro s r ⟨hc, hi⟩ hs
    have hcur := List.getElem?_eq_getElem hi
    obtain ⟨hf, hends⟩ := h s.i s.written.length _ hc hcur
    rcases decodeStep_done hs with ⟨w, hentry, rfl⟩ | ⟨e, w, hentry, rfl⟩
    · rw [good_ok]
      rcases decodeEntry_done hcur hb hlen hentry with
        ⟨out, hend, hle, hout, rfl⟩ | ⟨htyp, haddr, hlast, rfl⟩
      · rw [List.length_append]
        exact hends.tail hend hle out hout
      · exact hends.marker htyp haddr hlast
    · rw [good_error]
      rintro rfl
      have hd := @decodeEntry_decoded x s.i _ s.written hcur hb hlen
      rw [hentry] at hd
      cases hd with
      | failed he => exact he rfl
      | unfit hn => exact hn hf

theorem good_iff (hne : x.lcis ≠ []) : Good x.fileSize (x.decodeAll []) ↔ SoundTable x := by
  refine ⟨fun h i n cur hc hcur => ?_, good_of_sound hb hlen hne⟩
  obtain ⟨written, rfl, hr⟩ := reached_of_chain hb hlen h hc
  exact fits_of_good hb hlen hr h hcur

end Sound

/-- Decoding any table is safe and gives the size of the file exactly if the
cluster size is a 64-bit number, the numbers fit at every entry that the spans
lead to, and where they end there are as many bytes as the file has. -/
theorem decoding_sound_iff (assertions : Bool) (lz4 : Decompressor) {image : Bytes} {fs : Erofs} {id : UInt32}
    {inode : Inode} (hnew : Erofs.new image = .ok fs) (hlen : image.length < 2 ^ 63)
    (hget : fs.getInode id = .ok inode) :
    Good inode.dataSize (getCompressedData assertions lz4 fs inode []) ↔
      HeaderFits fs inode ∧ ∀ lcis blockLen, Table fs inode lcis blockLen →
        SoundTable (decodingOf assertions lz4 fs inode lcis blockLen) := by
  have hin := getInode_reads hget
  rw [← new_data hnew] at hlen
  rw [getCompressedData_eq]
  cases hopen : openTable lz4 fs inode with
  | error e =>
    have hno (lcis : List LogicalClusterIndex) (blockLen : ℕ) : ¬ Table fs inode lcis blockLen := fun h => by
      rw [openTable_of_table lz4 h] at hopen
      cases hopen
    refine good_error.trans ⟨fun he => ⟨?_, fun lcis blockLen h => absurd h (hno lcis blockLen)⟩, ?_⟩
    · by_contra hfit
      rw [openTable_panics hin lz4 hfit] at hopen
      cases hopen
      exact he rfl
    · rintro ⟨hfit, -⟩ rfl
      exact openTable_ne_panicked hin hlen lz4 hfit hopen
  | ok t =>
    obtain ⟨dec, blockLen, lcis⟩ := t
    obtain ⟨rfl, ht⟩ := table_of_openTable hopen
    have hfit : HeaderFits fs inode := by
      by_contra hfit
      rw [openTable_panics hin dec hfit] at hopen
      cases hopen
    have hsame (lcis' : List LogicalClusterIndex) (blockLen' : ℕ) (h : Table fs inode lcis' blockLen') :
        lcis' = lcis ∧ blockLen' = blockLen := by
      rw [openTable_of_table dec h] at hopen
      cases hopen
      exact ⟨rfl, rfl⟩
    have hone : (∀ lcis' blockLen', Table fs inode lcis' blockLen' →
          SoundTable (decodingOf assertions dec fs inode lcis' blockLen')) ↔
        SoundTable (decodingOf assertions dec fs inode lcis blockLen) := by
      refine ⟨fun h => h lcis blockLen ht, fun h lcis' blockLen' ht' => ?_⟩
      obtain ⟨rfl, rfl⟩ := hsame lcis' blockLen' ht'
      exact h
    rw [and_iff_right hfit, hone]
    change Good inode.dataSize ((if lcis = [] then pure () else _ : EStateM _ _ _) []) ↔ _
    split_ifs with hnil
    · subst hnil
      have hsize := size_of_countOf_zero (by positivity) (indices_length hin hlen ht.indices).symm
      refine iff_of_true (good_ok.mpr hsize.symm) fun i n cur _ hcur => ?_
      cases hcur
    · exact @good_iff (decodingOf assertions dec fs inode lcis blockLen) hin.bits hlen hnil

section Images

def zeros : Decompressor where
  run _ n := some (List.replicate n 0)
  length_le := by
    rintro src n _ ⟨⟩
    rw [List.length_replicate]

def halves : Decompressor where
  run _ n := some (List.replicate (n / 2) 0)
  length_le := by
    rintro src n _ ⟨⟩
    rw [List.length_replicate]
    omega

def clusterInode (size : UInt32) : InodeCompact :=
  { tinyInode with formatLayout := formatLayout .compact .compressedFull, size := size }

def clusterImage (size : UInt32) (lcis : List LogicalClusterIndex) : Bytes :=
  tinyImage (tinySuper 7 9) ((clusterInode size).asBytes ++
    (MapHeader.asBytes ⟨0, 0, 0, 0⟩ ++ (List.replicate 8 0 ++ lcis.flatMap LogicalClusterIndex.asBytes)))

def clusterFs (size : UInt32) (lcis : List LogicalClusterIndex) : Erofs :=
  ⟨clusterImage size lcis, tinySuper 7 9⟩

def twoEntries : List LogicalClusterIndex := [⟨1, 0, 1⟩, ⟨2, 0, 65536⟩]

theorem twoEntries_table {lcis : List LogicalClusterIndex} {blockLen : ℕ}
    (h : Table (clusterFs 256 twoEntries) (.compact 0 (clusterInode 256)) lcis blockLen) :
    lcis = twoEntries ∧ blockLen = 128 := by
  have hind : getLogicalClusterIndices (clusterFs 256 twoEntries) (.compact 0 (clusterInode 256)) =
      .ok twoEntries := by decide +kernel
  have hheader : getMapHeader (clusterFs 256 twoEntries) (.compact 0 (clusterInode 256)) =
      .ok ⟨0, 0, 0, 0⟩ := by decide +kernel
  obtain ⟨header, hh, -, hc⟩ := h.header
  rw [hheader] at hh
  cases hh
  have hlcis := h.indices
  rw [hind] at hlcis
  cases hlcis
  cases hc
  exact ⟨rfl, rfl⟩

def twoDecoding : Decoding :=
  decodingOf true zeros (clusterFs 256 twoEntries) (.compact 0 (clusterInode 256)) twoEntries 128

theorem twoDecoding_end : SpanEnd twoDecoding 0 ⟨1, 0, 1⟩ 2 256 := by
  have hdata : (twoDecoding.blockOf ⟨1, 0, 1⟩).isSome = true := by decide +kernel
  exact .tail rfl hdata rfl

theorem twoDecoding_full {len : ℕ} {out : Bytes} (h : twoDecoding.spanBytes ⟨1, 0, 1⟩ len = some out) :
    out.length = len := by
  rw [Decoding.spanBytes, if_pos (by decide)] at h
  obtain ⟨data, -, hrun⟩ := Option.bind_eq_some_iff.mp h
  rw [← Option.some.inj hrun, List.length_replicate]

theorem twoDecoding_fits : Fits twoDecoding 0 ⟨1, 0, 1⟩ := by
  refine twoDecoding_end.fits (fun _ => ?_) ?_
  · change 1 * 2 ^ 7 % 2 ^ 64 + 128 < 2 ^ 64
    norm_num
  constructor
  case words => exact fun h => absurd h (lt_irrefl _)
  case ordered => exact fun h => absurd h (lt_irrefl _)
  case start => exact fun _ => by decide
  case plain => exact fun h => absurd h (by decide)
  case head =>
    intro _ _ next h
    cases h
  case full => exact fun _ _ _ out hout => twoDecoding_full hout

-- the first span goes to the end of the file
theorem twoDecoding_chain {i n : ℕ} (h : Chain twoDecoding i n) : i = 0 ∧ n = 0 := by
  induction h with
  | start => exact ⟨rfl, rfl⟩
  | next _ hcur hend hj _ _ ih =>
    obtain ⟨rfl, rfl⟩ := ih
    cases hcur
    obtain ⟨rfl, rfl⟩ := twoDecoding_end.unique hend
    exact absurd hj (lt_irrefl _)

theorem two_entries_sound :
    Good 256 (getCompressedData true zeros (clusterFs 256 twoEntries) (.compact 0 (clusterInode 256)) []) := by
  have hget : (clusterFs 256 twoEntries).getInode 0 = .ok (.compact 0 (clusterInode 256)) := by
    decide +kernel
  have hlen : (clusterImage 256 twoEntries).length = 1216 := by decide +kernel
  refine (decoding_sound_iff true zeros (new_tinyImage 7 9 _) (lt_of_eq_of_lt hlen (by norm_num)) hget).mpr
    ⟨fun header hheader _ => ?_, fun lcis blockLen ht => ?_⟩
  · have hc := clusterSizeBits_le header
    change 7 + _ < 64
    omega
  · obtain ⟨rfl, rfl⟩ := twoEntries_table ht
    intro i n cur hc hcur
    obtain ⟨rfl, rfl⟩ := twoDecoding_chain hc
    cases hcur
    refine ⟨twoDecoding_fits, fun _ _ out hout => ?_, fun h => absurd h (by decide)⟩
    rw [twoDecoding_full hout]
    rfl

/-- An address that goes down, a marker in place of the data, and a
decompressor that stops early. -/
theorem decoding_unsound :
    (∃ fs inode, Erofs.new (clusterImage 256 [⟨0, 200, 1⟩, ⟨0, 0, 1⟩]) = .ok fs ∧
      fs.getInode 0 = .ok inode ∧ result (getCompressedData false zeros fs inode []) = .error .panicked) ∧
    (∃ fs inode, Erofs.new (clusterImage 128 [⟨0, 0, 0⟩]) = .ok fs ∧ fs.getInode 0 = .ok inode ∧
      inode.dataSize = 128 ∧ result (getCompressedData false zeros fs inode []) = .ok () ∧
      stateAfter (getCompressedData false zeros fs inode []) = []) ∧
    ∃ fs inode, Erofs.new (clusterImage 256 twoEntries) = .ok fs ∧ fs.getInode 0 = .ok inode ∧
      inode.dataSize = 256 ∧ result (getCompressedData false halves fs inode []) = .ok () ∧
      (stateAfter (getCompressedData false halves fs inode [])).length = 128 ∧
      result (getCompressedData true halves fs inode []) = .error .panicked := by
  refine ⟨⟨_, .compact 0 (clusterInode 256), new_tinyImage _ _ _, ?_, ?_⟩,
    ⟨_, .compact 0 (clusterInode 128), new_tinyImage _ _ _, ?_, rfl, ?_, ?_⟩,
    _, .compact 0 (clusterInode 256), new_tinyImage _ _ _, ?_, rfl, ?_, ?_, ?_⟩
  all_goals decide +kernel

end Images

end ProgramExplorer.ErofsDecoding
