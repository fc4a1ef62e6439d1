import ProgramExplorer.ArchiveUnpack
import ProgramExplorer.Bincode

/-!
# The io file

One file carries the request into the guest and the response out of it. The
host writes a configuration and an archive and seals the file at a multiple of
2 MiB; the guest reads them, then writes its response over them from the start
and lets the packer append an archive and patch its size into the first word.
Nothing is truncated in between: what keeps the old bytes out of the response
is only that every reader stops where the sizes say.
-/

set_option autoImplicit false

namespace ProgramExplorer.IoFile
open ByteStrings ByteStore LittleEndian StateRules Bincode

section Configuration

structure Duration where
  secs : UInt64
  nanos : UInt32
  subsec : nanos.toNat < 1000000000
  deriving DecidableEq

inductive RootfsKind where
  | sqfs
  | erofs
  deriving DecidableEq

inductive ResponseFormat where
  | peArchiveV1
  | jsonV1
  deriving DecidableEq

structure Config where
  ociRuntimeConfig : Text
  timeout : Duration
  stdin : Option Text
  strace : Bool
  crunDebug : Bool
  rootfsDir : Option Text
  rootfsKind : RootfsKind
  responseFormat : ResponseFormat
  kernelInspect : Bool
  manifestDigest : Text
  deriving DecidableEq

def newDuration (x : UInt64 × UInt32) : Option Duration :=
  if x.1.toNat + x.2.toNat / 1000000000 < 2 ^ 64 then
    some ⟨x.1 + UInt64.ofNat (x.2.toNat / 1000000000), UInt32.ofNat (x.2.toNat % 1000000000), by
      rw [UInt32.toNat_ofNat']
      omega⟩
  else none

theorem newDuration_parts (d : Duration) : newDuration (d.secs, d.nanos) = some d := by
  obtain ⟨secs, nanos, hlt⟩ := d
  have hzero : nanos.toNat / 1000000000 = 0 := by omega
  have hmod : nanos.toNat % 1000000000 = nanos.toNat := Nat.mod_eq_of_lt hlt
  have hsecs := secs.toNat_lt
  simp [newDuration, hzero, hmod, hsecs]

def durationCodec : Codec Duration :=
  (u64.pair u32).refine newDuration (fun d => (d.secs, d.nanos)) newDuration_parts

def rootfsKindCodec : Codec RootfsKind :=
  twoVariants .sqfs .erofs (· = .sqfs) (fun | .sqfs => rfl | .erofs => rfl)

def responseFormatCodec : Codec ResponseFormat :=
  twoVariants .peArchiveV1 .jsonV1 (· = .peArchiveV1) (fun | .peArchiveV1 => rfl | .jsonV1 => rfl)

def configCodec : Codec Config :=
  (text.pair <| durationCodec.pair <| text.option.pair <| bool.pair <| bool.pair <|
    text.option.pair <| rootfsKindCodec.pair <| responseFormatCodec.pair <| bool.pair text).imap
    (fun (oci, timeout, stdin, strace, debug, dir, kind, format, inspect, digest) =>
      ⟨oci, timeout, stdin, strace, debug, dir, kind, format, inspect, digest⟩)
    (fun c => (c.ociRuntimeConfig, c.timeout, c.stdin, c.strace, c.crunDebug, c.rootfsDir,
      c.rootfsKind, c.responseFormat, c.kernelInspect, c.manifestDigest))
    fun _ => rfl

theorem four_le_length_config (c : Config) : 4 ≤ (configCodec.encode c).length := by
  have hkind : 0 < (rootfsKindCodec.encode c.rootfsKind).length := length_encode_variant_pos (by decide) _
  simp only [configCodec, encode_imap, encode_pair, List.length_append, length_encode_bool]
  omega

/-- `bincode` on the type of configurations: it reads back what it writes, and
it writes something for each of the ten fields. -/
structure ConfigFormat where
  encode : Config → Bytes
  decode : Bytes → Option (Config × Bytes)
  decode_encode : ∀ config, decode (encode config) = some (config, [])
  four_le_length : ∀ config, 4 ≤ (encode config).length

def standardFormat : ConfigFormat :=
  ⟨configCodec.encode, configCodec.decode, configCodec.decode_exact, four_le_length_config⟩

end Configuration

section File

inductive Error where
  | io
  | ser
  | panicked
  deriving DecidableEq

abbrev Io (α : Type) := EStateM Error Writer α

def growing (bs : Bytes) : Io Unit := modify fun w => w.writeAll bs

/-- `write_all` to the sealed file, or to the device that the guest has of it:
only what fits is written. -/
def sealed (bs : Bytes) : Io Unit := fun w =>
  if w.pos + bs.length ≤ w.data.length then .ok () (w.writeAll bs)
  else .error .io (w.writeAll (bs.take (w.data.length - w.pos)))

def seekStart : Io Unit := modify fun w => w.seek 0

def readExact (n : ℕ) : Io Bytes := fun w =>
  if w.pos + n ≤ w.data.length then .ok ((w.data.drop w.pos).take n) (w.seek (w.pos + n))
  else .error .io (w.seek (max w.pos w.data.length))

def unwrapU32 (n : ℕ) : Io UInt32 := do
  require (n < 2 ^ 32) .panicked
  pure (UInt32.ofNat n)

def writeU32LeSlice (write : Bytes → Io Unit) (xs : List UInt32) : Io Unit :=
  xs.forM fun x => write (LittleEndian.u32 x)

def readU32LePair : Io (UInt32 × UInt32) := do
  let buf ← readExact 8
  pure (UInt32.ofNat (leNat (buf.take 4)), UInt32.ofNat (leNat (buf.drop 4)))

variable (bincode : ConfigFormat)

def writeIoFileConfig (write : Bytes → Io Unit) (config : Config) (archiveSize : UInt32) : Io Unit := do
  let configBytes := bincode.encode config
  let configSize ← unwrapU32 configBytes.length
  writeU32LeSlice write [archiveSize, configSize]
  write configBytes

def readIoFileConfig : Io (UInt32 × Config) := do
  let (archiveSize, responseSize) ← readU32LePair
  let buf ← readExact responseSize.toNat
  let (config, _) ← check (okOr (bincode.decode buf) .ser)
  pure (archiveSize, config)

/-- `serde_json` on the type of responses: it reads back what it writes. -/
structure Json (Response : Type) where
  toVec : Response → Bytes
  fromSlice : Bytes → Option Response
  fromSlice_toVec : ∀ response, fromSlice (toVec response) = some response

variable {Response : Type} (json : Json Response)

def writeIoFileResponse (write : Bytes → Io Unit) (response : Response) : Io Unit := do
  let responseBytes := json.toVec response
  let responseSize ← unwrapU32 responseBytes.length
  writeU32LeSlice write [0, responseSize]
  write responseBytes

def readIoFileResponseBytes : Io (UInt32 × Bytes) := do
  seekStart
  let (archiveSize, responseSize) ← readU32LePair
  let ret ← readExact responseSize.toNat
  pure (archiveSize, ret)

/-- The buffer of `size` zeros, grown by the cursor where it has no room for the
word, and then all of it behind the word read from the file. -/
def fillBuffer (size responseSize : UInt32) : Io Bytes := do
  let ret := overwrite (List.replicate size.toNat 0) 0 (LittleEndian.u32 responseSize)
  let tail ← readExact (ret.length - 4)
  pure (ret.take 4 ++ tail)

def readIoFileResponseArchiveBytes : Io Bytes := do
  seekStart
  let (archiveSize, responseSize) ← readU32LePair
  fillBuffer (4 + responseSize + archiveSize) responseSize

def addChecked (a b : UInt32) : Io UInt32 := do
  require (a.toNat + b.toNat < 2 ^ 32) .panicked
  pure (a + b)

/-- The same in a build with overflow checks, as `scripts/build.sh` makes it
unless it is asked for a release. -/
def readIoFileResponseArchiveBytesChecked : Io Bytes := do
  seekStart
  let (archiveSize, responseSize) ← readU32LePair
  let size ← addChecked 4 responseSize
  let size ← addChecked size archiveSize
  fillBuffer size responseSize

def readIoFileResponse : Io (UInt32 × Response) := do
  let (archiveSize, responseBytes) ← readIoFileResponseBytes
  let response ← check (okOr (json.fromSlice responseBytes) .ser)
  pure (archiveSize, response)

def parseResponse (body : Bytes) : Option (Response × Bytes) :=
  if body.length < 4 then none
  else do
    let jsonSize := leNat (body.take 4)
    let slice ← slice? body 4 (4 + jsonSize)
    let response ← json.fromSlice slice
    let rem ← from? body (4 + jsonSize)
    pure (response, rem)

end File

section Host

def pmemAlignSize : ℕ := 0x200000

def roundUpTo (n x : ℕ) : ℕ := if x = 0 then n else (x + n - 1) / n * n

def ftruncate (w : Writer) (len : ℕ) : Writer :=
  { w with data := w.data.take len ++ List.replicate (len - w.data.length) 0 }

def roundUpFileToPmemSize (w : Writer) : Writer :=
  let newlen := roundUpTo pmemAlignSize w.data.length
  if w.data.length ≠ newlen then ftruncate w newlen else w

/-- The body of a request: only one of its two forms brings an archive. -/
inductive Content where
  | applicationJson
  | peArchiveV1 (archive : Bytes)

def Content.archive : Content → Bytes
  | .applicationJson => []
  | .peArchiveV1 archive => archive

variable (bincode : ConfigFormat)

def writeInput (config : Config) : Content → Io Unit
  | .applicationJson => writeIoFileConfig bincode growing config 0
  | .peArchiveV1 archive => do
    require (archive.length < 2 ^ 32) .io
    writeIoFileConfig bincode growing config (UInt32.ofNat archive.length)
    growing archive

def ioFile (config : Config) (content : Content) : Except Error Writer :=
  match writeInput bincode config content ⟨[], 0⟩ with
  | .ok _ w => .ok (roundUpFileToPmemSize w)
  | .error e _ => .error e

end Host

section Guest

/-- A packer that writes to a file of fixed length has made no write past its
end when, with room to grow, it would have left the length as it is. -/
def onSealed (pack : Writer → Except ArchiveFormat.Error Writer) : Io Unit := fun w =>
  match pack w with
  | .error _ => .error .panicked w
  | .ok w' => if w'.data.length = w.data.length then .ok () w' else .error .panicked w

def packfd (pack : Writer → Except ArchiveFormat.Error Writer) : Io Unit := do
  let offset := (← get).pos
  onSealed pack
  let endingOffset := (← get).pos
  require (endingOffset > offset) .panicked
  let encodedSize ← unwrapU32 (endingOffset - offset)
  seekStart
  sealed (LittleEndian.u32 encodedSize)

end Guest

section Layout

def record (first : UInt32) (body : Bytes) : Bytes :=
  LittleEndian.u32 first ++ (LittleEndian.u32 (UInt32.ofNat body.length) ++ body)

@[simp] theorem length_record (first : UInt32) (body : Bytes) :
    (record first body).length = 8 + body.length := by
  simp [record]
  omega

def Accepts (write : Bytes → Io Unit) (w : Writer) (n : ℕ) : Prop :=
  ∀ a b : Bytes, a.length + b.length ≤ n → write b (w.writeAll a) = .ok () (w.writeAll (a ++ b))

theorem accepts_growing (w : Writer) (n : ℕ) : Accepts growing w n := fun a b _ =>
  congrArg (EStateM.Result.ok ()) (w.writeAll_append a b)

theorem accepts_sealed {w : Writer} {n : ℕ} (h : w.pos + n ≤ w.data.length) : Accepts sealed w n := by
  intro a b hn
  have hlen := length_overwrite w.data w.pos a
  rw [sealed, if_pos, Writer.writeAll_append]
  rw [Writer.writeAll_pos, Writer.writeAll]
  simp only [hlen]
  split_ifs <;> omega

theorem unwrapU32_eq {n : ℕ} (h : n < 2 ^ 32) (w : Writer) :
    unwrapU32 n w = .ok (UInt32.ofNat n) w :=
  bind_eq_ok.mpr ⟨(), w, require_eq_ok.mpr ⟨h, rfl⟩, rfl⟩

theorem writeRecord_eq {write : Bytes → Io Unit} {w : Writer} (first : UInt32) {body : Bytes}
    (hw : Accepts write w (8 + body.length)) :
    (do writeU32LeSlice write [first, UInt32.ofNat body.length]; write body : Io Unit) w =
      .ok () (w.writeAll (record first body)) := by
  have h₁ := hw [] (LittleEndian.u32 first) (by simp; omega)
  rw [List.nil_append, BufferedWriter.writeAll_nil] at h₁
  have h₂ := hw (LittleEndian.u32 first) (LittleEndian.u32 (UInt32.ofNat body.length)) (by simp)
  have h₃ := hw (LittleEndian.u32 first ++ LittleEndian.u32 (UInt32.ofNat body.length)) body (by simp)
  rw [List.append_assoc] at h₃
  exact bind_eq_ok.mpr ⟨(), _, bind_eq_ok.mpr ⟨(), _, h₁, bind_eq_ok.mpr ⟨(), _, h₂, rfl⟩⟩, h₃⟩

variable {bincode : ConfigFormat}

theorem writeIoFileConfig_eq {write : Bytes → Io Unit} {w : Writer} {config : Config}
    (archiveSize : UInt32) (hw : Accepts write w (8 + (bincode.encode config).length))
    (hc : (bincode.encode config).length < 2 ^ 32) :
    writeIoFileConfig bincode write config archiveSize w =
      .ok () (w.writeAll (record archiveSize (bincode.encode config))) :=
  bind_eq_ok.mpr ⟨_, w, unwrapU32_eq hc w, writeRecord_eq archiveSize hw⟩

theorem writeIoFileResponse_eq {Response : Type} (json : Json Response) {write : Bytes → Io Unit}
    {w : Writer} {response : Response} (hw : Accepts write w (8 + (json.toVec response).length))
    (hr : (json.toVec response).length < 2 ^ 32) :
    writeIoFileResponse json write response w = .ok () (w.writeAll (record 0 (json.toVec response))) :=
  bind_eq_ok.mpr ⟨_, w, unwrapU32_eq hr w, writeRecord_eq 0 hw⟩

theorem readExact_eq {w : Writer} {bs : Bytes} (h : HasAt w.data w.pos bs)
    (hl : w.pos + bs.length ≤ w.data.length) :
    readExact bs.length w = .ok bs (w.seek (w.pos + bs.length)) := by
  rw [readExact, if_pos hl, h.slice_eq]

theorem readU32LePair_eq {w : Writer} {a b : UInt32}
    (h : HasAt w.data w.pos (LittleEndian.u32 a ++ LittleEndian.u32 b)) :
    readU32LePair w = .ok (a, b) (w.seek (w.pos + 8)) := by
  have hread := readExact_eq h (h.length_le (by simp [LittleEndian.u32, leBytes]))
  rw [List.length_append, u32_length, u32_length] at hread
  refine bind_eq_ok.mpr ⟨_, _, hread, ?_⟩
  rw [List.take_left' (u32_length a), List.drop_left' (u32_length a)]
  rw [leNat_u32, leNat_u32, UInt32.ofNat_toNat, UInt32.ofNat_toNat]
  rfl

theorem toNat_ofNat_length {bs : Bytes} (h : bs.length < 2 ^ 32) :
    (UInt32.ofNat bs.length).toNat = bs.length := by
  rw [UInt32.toNat_ofNat', Nat.mod_eq_of_lt h]

/-- A record that stands at the start of a file is read from there. -/
theorem readRecord_eq {data : Bytes} {first : UInt32} {body : Bytes}
    (h : HasAt data 0 (record first body)) (hb : body.length < 2 ^ 32) :
    readU32LePair ⟨data, 0⟩ = .ok (first, UInt32.ofNat body.length) ⟨data, 8⟩ ∧
      readExact (UInt32.ofNat body.length).toNat ⟨data, 8⟩ = .ok body ⟨data, 8 + body.length⟩ := by
  have hlen := h.length_le (by simp [← List.length_eq_zero_iff])
  rw [length_record] at hlen
  rw [record, ← List.append_assoc] at h
  obtain ⟨hwords, hbody⟩ := (hasAt_append data 0 _ body).mp h
  refine ⟨readU32LePair_eq hwords, ?_⟩
  rw [toNat_ofNat_length hb]
  exact readExact_eq (w := ⟨data, 8⟩) (by simpa using hbody) (by simp only; omega)

theorem readIoFileConfig_eq {data : Bytes} {archiveSize : UInt32} {config : Config}
    (h : HasAt data 0 (record archiveSize (bincode.encode config)))
    (hc : (bincode.encode config).length < 2 ^ 32) :
    readIoFileConfig bincode ⟨data, 0⟩ =
      .ok (archiveSize, config) ⟨data, 8 + (bincode.encode config).length⟩ := by
  obtain ⟨hpair, hbody⟩ := readRecord_eq h hc
  refine bind_eq_ok.mpr ⟨_, _, hpair, bind_eq_ok.mpr ⟨_, _, hbody,
    bind_eq_ok.mpr ⟨(config, []), _, ?_, rfl⟩⟩⟩
  exact check_eq_ok.mpr ⟨okOr_eq_ok.mpr (bincode.decode_encode config), rfl⟩

theorem readIoFileResponseBytes_eq {data : Bytes} {archiveSize : UInt32} {body : Bytes}
    (h : HasAt data 0 (record archiveSize body)) (hb : body.length < 2 ^ 32) (pos : ℕ) :
    readIoFileResponseBytes ⟨data, pos⟩ = .ok (archiveSize, body) ⟨data, 8 + body.length⟩ := by
  obtain ⟨hpair, hbody⟩ := readRecord_eq h hb
  exact bind_eq_ok.mpr ⟨_, _, rfl, bind_eq_ok.mpr ⟨_, _, hpair, bind_eq_ok.mpr ⟨_, _, hbody, rfl⟩⟩⟩

/-- The four bytes of the length are replaced in the buffer, and the rest of
it is what follows the record's two words. -/
theorem readIoFileResponseArchiveBytes_eq {data body archive : Bytes}
    (h : HasAt data 0 (record (UInt32.ofNat archive.length) body ++ archive))
    (hsum : 4 + body.length + archive.length < 2 ^ 32) (pos : ℕ) :
    readIoFileResponseArchiveBytes ⟨data, pos⟩ =
      .ok (LittleEndian.u32 (UInt32.ofNat body.length) ++ (body ++ archive))
        ⟨data, 8 + (body ++ archive).length⟩ := by
  have hparts := (hasAt_append data 0 _ _).mp h
  have hlen := h.length_le (by simp [← List.length_eq_zero_iff])
  obtain ⟨hpair, -⟩ := readRecord_eq hparts.1 (by omega)
  have hsize : (4 + UInt32.ofNat body.length + UInt32.ofNat archive.length).toNat =
      4 + (body ++ archive).length := by
    rw [UInt32.toNat_add, UInt32.toNat_add, toNat_ofNat_length (by omega), toNat_ofNat_length (by omega),
      List.length_append]
    simp only [UInt32.reduceToNat]
    omega
  have htail : HasAt data 8 (body ++ archive) := by
    rw [record, List.append_assoc, List.append_assoc] at h
    have h₁ := ((hasAt_append _ _ _ _).mp h).2
    simpa using ((hasAt_append _ _ _ _).mp h₁).2
  have hret : overwrite (List.replicate (4 + (body ++ archive).length) 0) 0
      (LittleEndian.u32 (UInt32.ofNat body.length)) =
      LittleEndian.u32 (UInt32.ofNat body.length) ++ List.replicate (body ++ archive).length 0 := by
    rw [overwrite, if_neg (by simp [← List.length_eq_zero_iff])]
    simp
  have hread := readExact_eq (w := ⟨data, 8⟩) htail (by
    simp only [List.length_append, length_record] at hlen ⊢
    omega)
  refine bind_eq_ok.mpr ⟨_, _, rfl, bind_eq_ok.mpr ⟨_, _, hpair,
    bind_eq_ok.mpr ⟨body ++ archive, ⟨data, 8 + (body ++ archive).length⟩, ?_, ?_⟩⟩⟩
  · rw [hsize, hret, List.length_append, u32_length, List.length_replicate, Nat.add_sub_cancel_left]
    exact hread
  · rw [hsize, hret, List.take_left' (u32_length _)]
    rfl

theorem parseResponse_eq {Response : Type} (json : Json Response) (response : Response) (archive : Bytes)
    (hr : (json.toVec response).length < 2 ^ 32) :
    parseResponse json (LittleEndian.u32 (UInt32.ofNat (json.toVec response).length) ++
      (json.toVec response ++ archive)) = some (response, archive) := by
  generalize hbytes : json.toVec response = bytes at hr
  generalize hword : LittleEndian.u32 (UInt32.ofNat bytes.length) = word
  have hword4 : word.length = 4 := by rw [← hword, u32_length]
  have hsize : leNat ((word ++ (bytes ++ archive)).take 4) = bytes.length := by
    rw [List.take_left' hword4, ← hword, leNat_u32, toNat_ofNat_length hr]
  have hslice := (hasAt_middle word bytes archive).slice? (by simp)
  have hrem : from? (word ++ (bytes ++ archive)) (4 + bytes.length) = some archive := by
    rw [from?, if_pos (by simp [hword4]), ← List.append_assoc,
      List.drop_left' (by rw [List.length_append, hword4])]
  rw [hword4] at hslice
  have hjson := json.fromSlice_toVec response
  rw [hbytes] at hjson
  rw [parseResponse, if_neg (by simp [hword4])]
  simp [hsize, hslice, hrem, hjson]

end Layout

section Exchange

theorem le_roundUpTo {n : ℕ} (hn : 0 < n) (x : ℕ) : x ≤ roundUpTo n x := by
  unfold roundUpTo
  split_ifs with h
  · omega
  · have hdiv := Nat.div_add_mod (x + n - 1) n
    have hmod := Nat.mod_lt (x + n - 1) hn
    rw [Nat.mul_comm] at hdiv
    omega

theorem roundUpFileToPmemSize_data (w : Writer) :
    (roundUpFileToPmemSize w).data =
      w.data ++ List.replicate (roundUpTo pmemAlignSize w.data.length - w.data.length) 0 := by
  have hle := le_roundUpTo (n := pmemAlignSize) (by decide) w.data.length
  unfold roundUpFileToPmemSize
  simp only
  split_ifs with h
  · rw [ftruncate, List.take_of_length_le hle]
  · rw [← not_not.mp h]
    simp

variable (bincode : ConfigFormat)

def inputBytes (config : Config) (content : Content) : Bytes :=
  record (UInt32.ofNat content.archive.length) (bincode.encode config) ++ content.archive

theorem writeInput_eq {config : Config} {content : Content}
    (hc : (bincode.encode config).length < 2 ^ 32) (ha : content.archive.length < 2 ^ 32) :
    writeInput bincode config content ⟨[], 0⟩ =
      .ok () (Writer.writeAll ⟨[], 0⟩ (inputBytes bincode config content)) := by
  cases content with
  | applicationJson =>
    rw [inputBytes, Content.archive, List.append_nil]
    exact writeIoFileConfig_eq 0 (accepts_growing _ _) hc
  | peArchiveV1 archive =>
    have hwrite := writeIoFileConfig_eq (UInt32.ofNat archive.length) (accepts_growing ⟨[], 0⟩ _) hc
    rw [inputBytes, ← Writer.writeAll_append]
    exact bind_eq_ok.mpr ⟨(), _, require_eq_ok.mpr ⟨ha, rfl⟩, bind_eq_ok.mpr ⟨(), _, hwrite, rfl⟩⟩

theorem ioFile_eq (config : Config) (content : Content)
    (hc : (bincode.encode config).length < 2 ^ 32) (ha : content.archive.length < 2 ^ 32) :
    ∃ file zeros, ioFile bincode config content = .ok file ∧
      file.data = inputBytes bincode config content ++ List.replicate zeros 0 ∧
      file.data.length = roundUpTo pmemAlignSize (inputBytes bincode config content).length := by
  have hle := le_roundUpTo (n := pmemAlignSize) (by decide) (inputBytes bincode config content).length
  have hdata := roundUpFileToPmemSize_data (Writer.writeAll ⟨[], 0⟩ (inputBytes bincode config content))
  have hwritten : (Writer.writeAll ⟨[], 0⟩ (inputBytes bincode config content)).data =
      inputBytes bincode config content := by
    simp only [Writer.writeAll, overwrite_nil_zero]
  rw [hwritten] at hdata
  refine ⟨roundUpFileToPmemSize (Writer.writeAll ⟨[], 0⟩ (inputBytes bincode config content)), _,
    ?_, hdata, ?_⟩
  · simp only [ioFile, writeInput_eq bincode hc ha]
  · rw [hdata, List.length_append, List.length_replicate]
    omega

variable {pack : Writer → Except ArchiveFormat.Error Writer} {w : Writer} {archive : Bytes}

theorem packfd_eq (hpack : pack w = .ok (w.writeAll archive)) (hne : archive ≠ [])
    (ha : archive.length < 2 ^ 32) (hroom : 4 ≤ w.data.length)
    (hfit : w.pos + archive.length ≤ w.data.length) :
    packfd pack w =
      .ok () (((w.writeAll archive).seek 0).writeAll (LittleEndian.u32 (UInt32.ofNat archive.length))) := by
  have hpos : 0 < archive.length := List.length_pos_of_ne_nil hne
  have hlen : (w.writeAll archive).data.length = w.data.length := by
    rw [Writer.writeAll, length_overwrite, if_neg hne]
    omega
  have hsealed : onSealed pack w = .ok () (w.writeAll archive) := by
    simp only [onSealed, hpack, if_pos hlen]
  have hgrew : (w.writeAll archive).pos > w.pos := by
    rw [Writer.writeAll_pos]
    omega
  have hsize : unwrapU32 ((w.writeAll archive).pos - w.pos) (w.writeAll archive) =
      .ok (UInt32.ofNat archive.length) (w.writeAll archive) := by
    rw [Writer.writeAll_pos, Nat.add_sub_cancel_left, unwrapU32_eq ha]
  have hword : sealed (LittleEndian.u32 (UInt32.ofNat archive.length)) ((w.writeAll archive).seek 0) =
      .ok () (((w.writeAll archive).seek 0).writeAll (LittleEndian.u32 (UInt32.ofNat archive.length))) := by
    rw [sealed, if_pos]
    rw [Writer.seek_pos, Writer.seek_data, u32_length, hlen]
    omega
  exact bind_eq_ok.mpr ⟨_, _, rfl, bind_eq_ok.mpr ⟨_, _, hsealed, bind_eq_ok.mpr ⟨_, _, rfl,
    bind_eq_ok.mpr ⟨(), _, require_eq_ok.mpr ⟨hgrew, rfl⟩, bind_eq_ok.mpr ⟨_, _, hsize,
      bind_eq_ok.mpr ⟨_, _, rfl, hword⟩⟩⟩⟩⟩⟩

theorem hasAt_packed {body : Bytes} (hw : HasAt w.data 0 (record 0 body)) (hpos : w.pos = 8 + body.length) :
    HasAt (((w.writeAll archive).seek 0).writeAll (LittleEndian.u32 (UInt32.ofNat archive.length))).data 0
      (record (UInt32.ofNat archive.length) body ++ archive) := by
  rw [record, List.append_assoc]
  have hold : HasAt w.data 4 (LittleEndian.u32 (UInt32.ofNat body.length) ++ body) := by
    simpa using ((hasAt_append _ _ _ _).mp hw).2
  have hkept : HasAt (w.writeAll archive).data 4 (LittleEndian.u32 (UInt32.ofNat body.length) ++ body) :=
    hold.overwrite (Or.inl (by simp [hpos]; omega))
  have htail : HasAt (w.writeAll archive).data 4
      (LittleEndian.u32 (UInt32.ofNat body.length) ++ body ++ archive) := by
    refine (hasAt_append _ _ _ _).mpr ⟨hkept, ?_⟩
    have hnew := w.hasAt_writeAll archive
    rwa [hpos, show 8 + body.length =
      4 + (LittleEndian.u32 (UInt32.ofNat body.length) ++ body).length by simp; omega] at hnew
  refine (hasAt_append _ 0 (LittleEndian.u32 (UInt32.ofNat archive.length)) _).mpr
    ⟨Writer.hasAt_writeAll _ _, ?_⟩
  rw [u32_length, Nat.zero_add]
  have hword : 0 + (LittleEndian.u32 (UInt32.ofNat archive.length)).length ≤ 4 := by
    rw [u32_length]
  exact htail.overwrite (Or.inr hword)

/-- The guest finds the request, and the host finds the response and the
archive and nothing else, whatever the request was. -/
theorem io_file_exchange {Response : Type} (json : Json Response) (config : Config) (content : Content)
    (response : Response) (archiveOut : Bytes) {pack : Writer → Except ArchiveFormat.Error Writer}
    (hpack : ∀ w, pack w = .ok (w.writeAll archiveOut)) (hne : archiveOut ≠ [])
    (hsum : (bincode.encode config).length + content.archive.length +
      (json.toVec response).length + archiveOut.length < 2 ^ 32)
    (hfit : 8 + (json.toVec response).length + archiveOut.length ≤
      roundUpTo pmemAlignSize (inputBytes bincode config content).length) :
    ∃ file, ioFile bincode config content = .ok file ∧
      readIoFileConfig bincode ⟨file.data, 0⟩ = .ok (UInt32.ofNat content.archive.length, config)
        ⟨file.data, 8 + (bincode.encode config).length⟩ ∧
      (∃ zeros, file.data.drop (8 + (bincode.encode config).length) =
        content.archive ++ List.replicate zeros 0) ∧
      ∃ answered, writeIoFileResponse json sealed response ⟨file.data, 0⟩ = .ok () answered ∧
        (∀ pos, ∃ w, readIoFileResponseBytes ⟨answered.data, pos⟩ = .ok (0, json.toVec response) w) ∧
        ∃ packed, packfd pack answered = .ok () packed ∧ ∀ pos, ∃ body w,
          readIoFileResponseArchiveBytes ⟨packed.data, pos⟩ = .ok body w ∧
          body = LittleEndian.u32 (UInt32.ofNat (json.toVec response).length) ++
            (json.toVec response ++ archiveOut) ∧
          parseResponse json body = some (response, archiveOut) := by
  have hconfig := bincode.four_le_length config
  obtain ⟨file, zeros, hfile, hdata, hlen⟩ := ioFile_eq bincode config content (by omega) (by omega)
  have hinput : HasAt file.data 0 (record (UInt32.ofNat content.archive.length) (bincode.encode config)) := by
    have hat := hasAt_middle [] (inputBytes bincode config content) (List.replicate zeros 0)
    rw [List.nil_append, ← hdata] at hat
    exact ((hasAt_append _ _ _ _).mp hat).1
  have hwrite : writeIoFileResponse json sealed response ⟨file.data, 0⟩ =
      .ok () (Writer.writeAll ⟨file.data, 0⟩ (record 0 (json.toVec response))) :=
    writeIoFileResponse_eq json (accepts_sealed (by simp only; omega)) (by omega)
  have hresponse := Writer.hasAt_writeAll ⟨file.data, 0⟩ (record 0 (json.toVec response))
  have hpos : (Writer.writeAll ⟨file.data, 0⟩ (record 0 (json.toVec response))).pos =
      8 + (json.toVec response).length := by
    simp
  have hroom : (Writer.writeAll ⟨file.data, 0⟩ (record 0 (json.toVec response))).data.length =
      file.data.length := by
    rw [Writer.writeAll, length_overwrite, if_neg (by simp [← List.length_eq_zero_iff]), length_record]
    simp only
    omega
  refine ⟨file, hfile, readIoFileConfig_eq hinput (by omega), ⟨zeros, ?_⟩, _, hwrite, ?_, _,
    packfd_eq (hpack _) hne (by omega) (by omega) (by omega), ?_⟩
  · rw [hdata, inputBytes, List.append_assoc, List.drop_left' (length_record _ _)]
  · intro pos
    exact ⟨_, readIoFileResponseBytes_eq hresponse (by omega) pos⟩
  · intro pos
    exact ⟨_, _, readIoFileResponseArchiveBytes_eq (hasAt_packed hresponse hpos) (by omega) pos, rfl,
      parseResponse_eq json response archiveOut (by omega)⟩

def rawJson : Json Bytes := ⟨id, some, fun _ => rfl⟩

def sampleConfig : Config where
  ociRuntimeConfig := ⟨['{', '}'], by decide⟩
  timeout := ⟨30, 0, by decide⟩
  stdin := none
  strace := false
  crunDebug := false
  rootfsDir := none
  rootfsKind := .erofs
  responseFormat := .peArchiveV1
  kernelInspect := false
  manifestDigest := ⟨['s', 'h', 'a'], by decide⟩

/-- A request that is longer than the response, and an output directory with
one file. -/
theorem io_file_exchange_longer_request :
    ∃ file, ioFile standardFormat sampleConfig (.peArchiveV1 (List.replicate 100 7)) = .ok file ∧
      ∃ answered, writeIoFileResponse rawJson sealed [123, 125] ⟨file.data, 0⟩ = .ok () answered ∧
        ∃ packed, packfd (ArchivePack.packDirToWriter ArchiveUnpack.slowKernel
            [([97], .leaf (.regularFile [104, 105]))]) answered = .ok () packed ∧
          ∀ pos, ∃ body w, readIoFileResponseArchiveBytes ⟨packed.data, pos⟩ = .ok body w ∧
            parseResponse rawJson body = some ([123, 125], [1, 97, 0, 2, 0, 0, 0, 104, 105]) := by
  have hname : ArchivePack.FileName [97] :=
    ⟨by simp, by simp [ArchiveFormat.maxNameLen], by decide, by decide, by decide⟩
  have hpack : ∀ w, ArchivePack.packDirToWriter ArchiveUnpack.slowKernel
      [([97], .leaf (.regularFile [104, 105]))] w =
      .ok (w.writeAll [1, 97, 0, 2, 0, 0, 0, 104, 105]) :=
    ArchivePack.packDirToWriter_eq (fun _ len h => ⟨1, rfl, h⟩) ⟨⟨hname, by decide⟩, trivial⟩
  obtain ⟨file, hfile, -, -, answered, hanswered, -, packed, hpacked, hread⟩ :=
    io_file_exchange standardFormat rawJson sampleConfig (.peArchiveV1 (List.replicate 100 7)) [123, 125] _ hpack
      (by decide) (by decide) (by decide)
  refine ⟨file, hfile, answered, hanswered, packed, hpacked, fun pos => ?_⟩
  obtain ⟨body, w, hbody, -, hparse⟩ := hread pos
  exact ⟨body, w, hbody, hparse⟩

end Exchange

section Sizes

def archiveSize (data : Bytes) : UInt32 := UInt32.ofNat (leNat (data.take 4))

def responseSize (data : Bytes) : UInt32 := UInt32.ofNat (leNat ((data.drop 4).take 4))

def bufferSize (data : Bytes) : ℕ := 4 + (responseSize data).toNat + (archiveSize data).toNat

/-- An error other than a panic, or what the two words say: the file from the
second word to the end of the archive. -/
def Delivered (data : Bytes) : EStateM.Result Error Writer Bytes → Prop
  | .error e _ => e ≠ .panicked
  | .ok bytes _ => 4 + bufferSize data ≤ data.length ∧ bytes = (data.drop 4).take (bufferSize data)

theorem u32_responseSize {data : Bytes} (h : 8 ≤ data.length) :
    LittleEndian.u32 (responseSize data) = (data.drop 4).take 4 := by
  have hlen : ((data.drop 4).take 4).length = 4 := by
    rw [List.length_take, List.length_drop]
    omega
  rw [LittleEndian.u32, responseSize]
  generalize (data.drop 4).take 4 = word at hlen
  have hlt := leNat_lt word
  have hbytes := leBytes_leNat word
  rw [hlen] at hlt hbytes
  rw [UInt32.toNat_ofNat_of_lt' hlt, hbytes]

theorem readU32LePair_words {data : Bytes} (h : 8 ≤ data.length) :
    readU32LePair ⟨data, 0⟩ = .ok (archiveSize data, responseSize data) ⟨data, 8⟩ := by
  refine bind_eq_ok.mpr ⟨data.take 8, ⟨data, 8⟩, ?_, ?_⟩
  · rw [readExact, if_pos (by simpa using h)]
    simp [Writer.seek]
  · rw [List.take_take, List.drop_take]
    rfl

theorem wrapped_size (data : Bytes) :
    (4 + responseSize data + archiveSize data).toNat = bufferSize data % 2 ^ 32 := by
  rw [UInt32.toNat_add, UInt32.toNat_add, Nat.mod_add_mod]
  rfl

/-- The buffer never has fewer bytes than the word that goes to its start. -/
theorem buffer_parts (n : ℕ) (word : UInt32) :
    (overwrite (List.replicate n 0) 0 (LittleEndian.u32 word)).take 4 = LittleEndian.u32 word ∧
      (overwrite (List.replicate n 0) 0 (LittleEndian.u32 word)).length - 4 = n - 4 := by
  have hne : LittleEndian.u32 word ≠ [] := by simp [← List.length_eq_zero_iff]
  constructor
  · rw [overwrite, if_neg hne]
    simp
  · rw [length_overwrite, if_neg hne, List.length_replicate, u32_length]
    omega

theorem readIoFileResponseArchiveBytes_of_length {data : Bytes} (h : 8 ≤ data.length) (pos : ℕ) :
    readIoFileResponseArchiveBytes ⟨data, pos⟩ =
      (do let tail ← readExact (bufferSize data % 2 ^ 32 - 4)
          pure ((data.drop 4).take 4 ++ tail) : Io Bytes) ⟨data, 8⟩ := by
  obtain ⟨htake, hlen⟩ := buffer_parts (bufferSize data % 2 ^ 32) (responseSize data)
  rw [u32_responseSize h] at htake hlen
  have hpair := readU32LePair_words h
  unfold readIoFileResponseArchiveBytes fillBuffer
  change (readU32LePair >>= _ : Io Bytes) ⟨data, 0⟩ = _
  rw [show (bind readU32LePair : _ → Io Bytes) = EStateM.bind readU32LePair from rfl, EStateM.bind, hpair]
  simp only [wrapped_size, hlen, htake, u32_responseSize h]

/-- Too few bytes for the two words: an error before any sum. -/
theorem delivered_short {data : Bytes} (h : data.length < 8) (rest : UInt32 × UInt32 → Io Bytes) :
    Delivered data ((do let words ← readU32LePair; rest words : Io Bytes) ⟨data, 0⟩) := by
  have hread : readExact 8 ⟨data, 0⟩ = .error .io (Writer.seek ⟨data, 0⟩ (max 0 data.length)) := by
    rw [readExact, if_neg (by simp only; omega)]
  change Delivered data (((readExact 8 >>= _ : Io (UInt32 × UInt32)) >>= _ : Io Bytes) ⟨data, 0⟩)
  simp only [bind, EStateM.bind, hread, Delivered]
  exact Error.noConfusion

theorem delivered_small {data : Bytes} (h8 : 8 ≤ data.length) (hsmall : bufferSize data < 2 ^ 32) (pos : ℕ) :
    Delivered data (readIoFileResponseArchiveBytes ⟨data, pos⟩) := by
  rw [readIoFileResponseArchiveBytes_of_length h8, Nat.mod_eq_of_lt hsmall]
  have hfour : 4 ≤ bufferSize data := by
    unfold bufferSize
    omega
  by_cases hr : 8 + (bufferSize data - 4) ≤ data.length
  · simp only [bind, EStateM.bind, readExact, if_pos hr, pure, EStateM.pure, Delivered]
    refine ⟨by omega, ?_⟩
    conv_rhs => rw [show bufferSize data = 4 + (bufferSize data - 4) by omega, List.take_add]
    rw [List.drop_drop]
  · simp only [bind, EStateM.bind, readExact, if_neg hr, Delivered]
    exact Error.noConfusion

theorem readWords_bind {data : Bytes} (h8 : 8 ≤ data.length) (rest : UInt32 × UInt32 → Io Bytes) :
    (do let words ← readU32LePair; rest words : Io Bytes) ⟨data, 0⟩ =
      rest (archiveSize data, responseSize data) ⟨data, 8⟩ := by
  change EStateM.bind readU32LePair rest ⟨data, 0⟩ = _
  rw [EStateM.bind, readU32LePair_words h8]

theorem addChecked_bind (a b : UInt32) (rest : UInt32 → Io Bytes) (w : Writer) :
    (do let sum ← addChecked a b; rest sum : Io Bytes) w =
      if a.toNat + b.toNat < 2 ^ 32 then rest (a + b) w else .error .panicked w := by
  change EStateM.bind (EStateM.bind (require _ _) _) rest w = _
  split_ifs with h
  · rw [EStateM.bind, EStateM.bind, require_of h]
    rfl
  · rw [EStateM.bind, EStateM.bind, require_of_not h]

theorem readChecked_of_length {data : Bytes} (h8 : 8 ≤ data.length) (pos : ℕ) :
    (bufferSize data < 2 ^ 32 → readIoFileResponseArchiveBytesChecked ⟨data, pos⟩ =
      readIoFileResponseArchiveBytes ⟨data, pos⟩) ∧
    (¬ bufferSize data < 2 ^ 32 →
      ∃ w, readIoFileResponseArchiveBytesChecked ⟨data, pos⟩ = .error .panicked w) := by
  have hplain : readIoFileResponseArchiveBytes ⟨data, pos⟩ =
      fillBuffer (4 + responseSize data + archiveSize data) (responseSize data) ⟨data, 8⟩ :=
    readWords_bind h8 _
  have hchecked : readIoFileResponseArchiveBytesChecked ⟨data, pos⟩ = _ := readWords_bind h8 _
  rw [addChecked_bind, addChecked_bind, UInt32.toNat_add] at hchecked
  dsimp only at hchecked
  have hbuffer : bufferSize data = (4 : UInt32).toNat + (responseSize data).toNat + (archiveSize data).toNat := rfl
  constructor
  · intro hsmall
    rw [if_pos (by omega), if_pos (by omega)] at hchecked
    rw [hchecked, hplain]
  · intro hlarge
    split_ifs at hchecked with hfirst hsecond
    · omega
    · exact ⟨_, hchecked⟩
    · exact ⟨_, hchecked⟩

/-- The sum of the sizes stays below 2 ^ 32, or the file ends before it can be
made. Otherwise the build with checks panics, and the other one goes on with
what is left of the sum. -/
theorem response_archive_bytes_iff (data : Bytes) (pos : ℕ) :
    (Delivered data (readIoFileResponseArchiveBytesChecked ⟨data, pos⟩) ∧
      Delivered data (readIoFileResponseArchiveBytes ⟨data, pos⟩)) ↔
      data.length < 8 ∨ 4 + (responseSize data).toNat + (archiveSize data).toNat < 2 ^ 32 := by
  change _ ↔ data.length < 8 ∨ bufferSize data < 2 ^ 32
  by_cases h8 : data.length < 8
  · exact iff_of_true ⟨delivered_short h8 _, delivered_short h8 _⟩ (.inl h8)
  obtain ⟨hsame, hpanics⟩ := readChecked_of_length (Nat.not_lt.mp h8) pos
  by_cases hsmall : bufferSize data < 2 ^ 32
  · have hdelivered := delivered_small (Nat.not_lt.mp h8) hsmall pos
    exact iff_of_true ⟨hsame hsmall ▸ hdelivered, hdelivered⟩ (.inr hsmall)
  · refine iff_of_false ?_ (not_or.mpr ⟨h8, hsmall⟩)
    rintro ⟨hchecked, -⟩
    obtain ⟨w, hw⟩ := hpanics hsmall
    rw [hw] at hchecked
    exact hchecked rfl

/-- A file of two words. The second is so large that the sum wraps to zero:
four bytes are returned for a response of almost 4 GiB, and with checks the
host panics. -/
theorem wrapped_size_delivered :
    (∃ w, readIoFileResponseArchiveBytes ⟨[0, 0, 0, 0, 0xfc, 0xff, 0xff, 0xff], 0⟩ =
        .ok [0xfc, 0xff, 0xff, 0xff] w) ∧
      (∃ w, readIoFileResponseArchiveBytesChecked ⟨[0, 0, 0, 0, 0xfc, 0xff, 0xff, 0xff], 0⟩ =
        .error .panicked w) ∧
      bufferSize [0, 0, 0, 0, 0xfc, 0xff, 0xff, 0xff] = 2 ^ 32 ∧
      ¬ Delivered [0, 0, 0, 0, 0xfc, 0xff, 0xff, 0xff]
        (readIoFileResponseArchiveBytes ⟨[0, 0, 0, 0, 0xfc, 0xff, 0xff, 0xff], 0⟩) := by
  refine ⟨⟨⟨[0, 0, 0, 0, 0xfc, 0xff, 0xff, 0xff], 8⟩, rfl⟩, ⟨_, rfl⟩, by decide, ?_⟩
  rintro ⟨hlong, -⟩
  exact absurd hlong (by decide)

end Sizes

end ProgramExplorer.IoFile
