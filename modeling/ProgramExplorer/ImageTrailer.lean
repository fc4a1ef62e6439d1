import ProgramExplorer.ByteStore
import ProgramExplorer.LittleEndian
import ProgramExplorer.StateRules

/-!
# The index at the end of an image file

`writePeIndexJson` of `peimage/peimage.go` pads an image file and puts the
index, its size and a magic number at the end. Two readers look for it from
there: `PEImageIndex::from_file` of `peimage/src/index.rs` and
`readPeIndexJson`. The writer computes in the 64 bits of a Go `int`, the
readers add the size of the trailer to the size of the index in 32 bits.
-/

set_option autoImplicit false

namespace ProgramExplorer.ImageTrailer
open ByteStrings ByteStore LittleEndian StateRules

section Go

def twoMBAlignment : ℕ := 0x200000

def indexJsonMagic : UInt64 := 0x1db56abd7b82da38

def goInt (x : ℤ) : ℤ := x.bmod (2 ^ 64)

def roundUpTo (x n : ℤ) : ℤ := goInt ((goInt (x + (n - 1))).tdiv n * n)

inductive WriteError where
  | truncating
  | seeking
  | dataWayTooBig
  deriving DecidableEq, Repr

def truncate (size : ℤ) : EStateM WriteError Writer Unit := do
  require (0 ≤ size) .truncating
  modify fun f =>
    { f with data := f.data.take size.toNat ++ List.replicate (size.toNat - f.data.length) 0 }

def fromEnd (data : Bytes) (offset : ℤ) : Option ℕ :=
  if 0 ≤ data.length + offset then some (data.length + offset).toNat else none

def seekEnd (offset : ℤ) : EStateM WriteError Writer Unit := do
  let f ← get
  let pos ← check (okOr (fromEnd f.data offset) .seeking)
  set (f.seek pos)

def write (bs : Bytes) : EStateM WriteError Writer Unit := modify (·.writeAll bs)

def writePeIndexJson (data : Bytes) : EStateM WriteError Writer Unit := do
  let f ← get
  let oldSize : ℤ := f.data.length
  let sizeNeeded := goInt (data.length + 8 + 4)
  let newSize := roundUpTo (goInt (oldSize + sizeNeeded)) twoMBAlignment
  truncate newSize
  seekEnd (-sizeNeeded)
  write data
  let u32Size := UInt32.ofNat data.length
  require (u32Size.toNat = data.length) .dataWayTooBig
  write (u32 u32Size)
  write (u64 indexJsonMagic)

end Go

section Readers

def sizeAndMagic (file : Bytes) : Option (UInt32 × UInt64) := do
  let pos ← fromEnd file (-(8 + 4))
  let (size, rest) ← takeU32 (file.drop pos)
  let (magic, _) ← takeU64 rest
  some (size, magic)

def trailerSize (size : UInt32) : UInt32 := 8 + 4 + size

inductive IoError where
  | invalidData (text : String)
  | invalidInput
  | unexpectedEof
  deriving DecidableEq, Repr

def fromFileBytes (file : Bytes) : Except IoError Bytes := do
  if file.length < 8 + 4 then .error (.invalidData "file too short to have magic")
  else do
    let (size, magic) ← okOr (sizeAndMagic file) .unexpectedEof
    if magic ≠ indexJsonMagic then .error (.invalidData "file doesn't end with magic")
    else if size.toNat + 8 + 4 > file.length then
      .error (.invalidData "file too short to hold index.json")
    else do
      let pos ← okOr (fromEnd file (-(trailerSize size).toNat)) .invalidInput
      let (buf, _) ← okOr (takeBytes size.toNat (file.drop pos)) .unexpectedEof
      .ok buf

def fromFile {ι : Type} (fromSlice : Bytes → Option ι) (file : Bytes) : Except IoError ι := do
  let buf ← fromFileBytes file
  okOr (fromSlice buf) (.invalidData "index.json not valid PEImageIndex")

inductive ReadError where
  | tooShort
  | seeking
  | reading
  | magicMismatch
  | incompleteRead
  | readingJson
  deriving DecidableEq, Repr

/-- One call of `Read`, which gives at most `maxRead` bytes and fails at the end of the file. -/
def read (maxRead : ℕ) (file : Bytes) (pos len : ℕ) : Option Bytes :=
  let got := ((file.drop pos).take len).take maxRead
  if got = [] ∧ len ≠ 0 then none else some got

def readPeIndexBytes (maxRead : ℕ) (file : Bytes) : Except ReadError Bytes := do
  if file.length < 8 + 4 then .error .tooShort
  else do
    let (size, magic) ← okOr (sizeAndMagic file) .reading
    if magic ≠ indexJsonMagic then .error .magicMismatch
    else if file.length < (trailerSize size).toNat then .error .tooShort
    else do
      let pos ← okOr (fromEnd file (-(trailerSize size).toNat)) .seeking
      let buf ← okOr (read maxRead file pos size.toNat) .reading
      if buf.length ≠ size.toNat then .error .incompleteRead else .ok buf

def readPeIndexJson {ι : Type} (unmarshal : Bytes → Option ι) (maxRead : ℕ) (file : Bytes) :
    Except ReadError ι := do
  let buf ← readPeIndexBytes maxRead file
  okOr (unmarshal buf) .readingJson

def NoOverflow (file : Bytes) : Prop :=
  ∀ size magic, sizeAndMagic file = some (size, magic) →
    (trailerSize size).toNat = 8 + 4 + size.toNat

end Readers

section Written

def trailer (data : Bytes) : Bytes := data ++ (u32 (UInt32.ofNat data.length) ++ u64 indexJsonMagic)

theorem trailer_length (data : Bytes) : (trailer data).length = data.length + 12 := by
  simp [trailer]

theorem goInt_small {x : ℤ} (h₀ : -2 ^ 63 ≤ x) (h : x < 2 ^ 63) : goInt x = x := by
  unfold goInt
  rw [Int.bmod_eq_of_le_mul_two] <;> omega

theorem goInt_large {x : ℤ} (h : 2 ^ 63 ≤ x) (h' : x < 2 ^ 64) : goInt x = x - 2 ^ 64 := by
  unfold goInt
  rw [← Int.sub_bmod_right, Int.bmod_eq_of_le_mul_two] <;> omega

theorem overwrite_end {a b bs : Bytes} (h : b.length = bs.length) :
    overwrite (a ++ b) a.length bs = a ++ bs := by
  unfold overwrite
  split_ifs with hnil
  · rw [hnil, List.length_nil] at h
    rw [hnil, List.length_eq_zero_iff.mp h]
  · simp [← h]

def paddedSize (n : ℕ) : ℕ := (n + (twoMBAlignment - 1)) / twoMBAlignment * twoMBAlignment

theorem le_paddedSize (n : ℕ) : n ≤ paddedSize n := by
  unfold paddedSize twoMBAlignment
  omega

theorem paddedSize_mod (n : ℕ) : paddedSize n % twoMBAlignment = 0 := Nat.mul_mod_left _ _

theorem roundUpTo_eq {n : ℕ} (h : n + (twoMBAlignment - 1) < 2 ^ 63) :
    roundUpTo (goInt n) twoMBAlignment = paddedSize n := by
  have hpad : paddedSize n < 2 ^ 63 := by
    unfold paddedSize twoMBAlignment at *
    omega
  have hn : goInt n = n := goInt_small (by omega) (by omega)
  have hcast : (n : ℤ) + ((twoMBAlignment : ℤ) - 1) = ((n + (twoMBAlignment - 1) : ℕ) : ℤ) := by
    unfold twoMBAlignment
    omega
  have hsum : goInt ((n + (twoMBAlignment - 1) : ℕ) : ℤ) = ((n + (twoMBAlignment - 1) : ℕ) : ℤ) :=
    goInt_small (by omega) (by omega)
  rw [roundUpTo, hn, hcast, hsum, ← Int.ofNat_tdiv, ← Nat.cast_mul, ← paddedSize,
    goInt_small (by omega) (by omega)]

theorem roundUpTo_neg {x : ℤ} (h : x < 2 ^ 64 - 2 ^ 62)
    (h' : 2 ^ 63 ≤ x + (twoMBAlignment - 1)) : roundUpTo (goInt x) twoMBAlignment < 0 := by
  -- the sum that is divided has wrapped around to a large negative number
  obtain ⟨q, hq, hlow, hhigh⟩ : ∃ q : ℕ, goInt (goInt x + ((twoMBAlignment : ℤ) - 1)) = -q ∧
      2 ^ 61 ≤ q ∧ q ≤ 2 ^ 63 := by
    unfold twoMBAlignment at *
    refine ⟨(2 ^ 64 - (x + (0x200000 - 1))).toNat, ?_, by omega, by omega⟩
    by_cases hx : x < 2 ^ 63
    · have hgo : goInt x = x := goInt_small (by omega) hx
      rw [hgo, goInt_large (by omega) (by omega)]
      omega
    · have hgo : goInt x = x - 2 ^ 64 := goInt_large (by omega) (by omega)
      rw [hgo, goInt_small (by omega) (by omega)]
      omega
  rw [roundUpTo, hq, Int.neg_tdiv, ← Int.ofNat_tdiv, neg_mul, ← Nat.cast_mul]
  unfold twoMBAlignment
  rw [goInt_small (by omega) (by omega)]
  omega

theorem truncate_eq_ok {size : ℤ} {f f' : Writer} {u : Unit} :
    truncate size f = .ok u f' ↔ 0 ≤ size ∧ f' = { f with
      data := f.data.take size.toNat ++ List.replicate (size.toNat - f.data.length) 0 } := by
  rw [truncate, bind_eq_ok]
  constructor
  · rintro ⟨_, t, hreq, hmod⟩
    obtain ⟨hpos, rfl⟩ := require_eq_ok.mp hreq
    exact ⟨hpos, modify_eq_ok.mp hmod⟩
  · rintro ⟨hpos, hf⟩
    exact ⟨(), f, require_eq_ok.mpr ⟨hpos, rfl⟩, modify_eq_ok.mpr hf⟩

theorem fromEnd_eq_some {data : Bytes} {offset : ℤ} {pos : ℕ} :
    fromEnd data offset = some pos ↔ data.length + offset = pos := by
  unfold fromEnd
  split_ifs with h
  · simp only [Option.some.injEq]
    omega
  · simp only [false_iff]
    omega

theorem seekEnd_eq_ok {offset : ℤ} {f f' : Writer} {u : PUnit} :
    seekEnd offset f = .ok u f' ↔ ∃ pos : ℕ, f.data.length + offset = pos ∧ f' = f.seek pos := by
  rw [seekEnd, bind_eq_ok]
  constructor
  · rintro ⟨_, _, hget, h⟩
    obtain ⟨rfl, rfl⟩ := get_eq_ok.mp hget
    obtain ⟨pos, _, hpos, hset⟩ := bind_eq_ok.mp h
    obtain ⟨hpos, rfl⟩ := check_eq_ok.mp hpos
    exact ⟨pos, fromEnd_eq_some.mp (okOr_eq_ok.mp hpos), set_eq_ok.mp hset⟩
  · rintro ⟨pos, hpos, hf⟩
    refine ⟨f, f, get_eq_ok.mpr ⟨rfl, rfl⟩, bind_eq_ok.mpr ⟨pos, f, ?_, set_eq_ok.mpr hf⟩⟩
    exact check_eq_ok.mpr ⟨okOr_eq_ok.mpr (fromEnd_eq_some.mpr hpos), rfl⟩

def padding (file data : Bytes) : Bytes :=
  List.replicate (paddedSize (file.length + (trailer data).length) -
    (file.length + (trailer data).length)) 0

theorem written_eq (file data : Bytes) :
    ((Writer.seek ⟨file.take (paddedSize (file.length + (trailer data).length)) ++
        List.replicate (paddedSize (file.length + (trailer data).length) - file.length) 0, 0⟩
      (file.length + (padding file data).length)).writeAll (trailer data)).data =
        file ++ padding file data ++ trailer data := by
  have hle := le_paddedSize (file.length + (trailer data).length)
  have hzeros : List.replicate (paddedSize (file.length + (trailer data).length) - file.length)
      (0 : UInt8) = padding file data ++ List.replicate (trailer data).length 0 := by
    rw [padding, List.replicate_append_replicate]
    congr 1
    omega
  have hpos : file.length + (padding file data).length = (file ++ padding file data).length := by simp
  rw [List.take_of_length_le (by omega), hzeros, ← List.append_assoc, hpos]
  exact overwrite_end (by simp)

theorem writeAll_trailer (f : Writer) (data : Bytes) :
    ((f.writeAll data).writeAll (u32 (UInt32.ofNat data.length))).writeAll (u64 indexJsonMagic) =
      f.writeAll (trailer data) := by
  rw [Writer.writeAll_append, Writer.writeAll_append]
  rfl

section
variable {file data : Bytes} {out : Writer}

theorem sizeNeeded_eq (h : data.length < 2 ^ 32) :
    goInt ((data.length : ℤ) + 8 + 4) = ((trailer data).length : ℤ) := by
  rw [trailer_length, goInt_small (by omega) (by omega)]
  omega

theorem seek_pos (file data : Bytes) :
    ((file.take (paddedSize (file.length + (trailer data).length)) ++ List.replicate
      (paddedSize (file.length + (trailer data).length) - file.length) (0 : UInt8)).length : ℤ) +
        -((trailer data).length : ℤ) = ((file.length + (padding file data).length : ℕ) : ℤ) := by
  have hle := le_paddedSize (file.length + (trailer data).length)
  simp only [padding, List.length_append, List.length_take, List.length_replicate]
  omega

theorem writePeIndexJson_ok (hfile : file.length < 2 ^ 63)
    (h : writePeIndexJson data ⟨file, 0⟩ = .ok () out) :
    data.length < 2 ^ 32 ∧ out.data = file ++ padding file data ++ trailer data := by
  obtain ⟨f, _, hget, h⟩ := bind_eq_ok.mp h
  obtain ⟨rfl, rfl⟩ := get_eq_ok.mp hget
  obtain ⟨_, t₁, htruncate, h⟩ := bind_eq_ok.mp h
  obtain ⟨_, t₂, hseek, h⟩ := bind_eq_ok.mp h
  obtain ⟨_, t₃, hwrite, h⟩ := bind_eq_ok.mp h
  obtain ⟨_, t₄, hbig, h⟩ := bind_eq_ok.mp h
  obtain ⟨_, t₅, hwrite', h⟩ := bind_eq_ok.mp h
  obtain ⟨hofNat, rfl⟩ := require_eq_ok.mp hbig
  obtain rfl := modify_eq_ok.mp hwrite
  obtain rfl := modify_eq_ok.mp hwrite'
  obtain rfl := modify_eq_ok.mp h
  have hdata : data.length < 2 ^ 32 := by
    rw [UInt32.toNat_ofNat'] at hofNat
    omega
  refine ⟨hdata, ?_⟩
  rw [sizeNeeded_eq hdata, ← Nat.cast_add] at htruncate
  rw [sizeNeeded_eq hdata] at hseek
  obtain ⟨hpos, rfl⟩ := truncate_eq_ok.mp htruncate
  have hlen := trailer_length data
  have hfit : file.length + (trailer data).length + (twoMBAlignment - 1) < 2 ^ 63 := by
    by_contra hover
    refine absurd (@roundUpTo_neg ((file.length + (trailer data).length : ℕ) : ℤ) ?_ ?_) (not_lt.mpr hpos)
    · omega
    · unfold twoMBAlignment at hover ⊢
      omega
  rw [roundUpTo_eq hfit] at hseek
  obtain ⟨pos, hat, rfl⟩ := seekEnd_eq_ok.mp hseek
  simp only [Int.toNat_natCast] at hat ⊢
  obtain rfl : file.length + (padding file data).length = pos := by
    exact_mod_cast (seek_pos file data).symm.trans hat
  rw [writeAll_trailer]
  exact written_eq file data

theorem writePeIndexJson_of_fits (hdata : data.length < 2 ^ 32)
    (hfit : file.length + (trailer data).length + (twoMBAlignment - 1) < 2 ^ 63) :
    ∃ out, writePeIndexJson data ⟨file, 0⟩ = .ok () out := by
  let f : Writer := ⟨file.take (paddedSize (file.length + (trailer data).length)) ++
    List.replicate (paddedSize (file.length + (trailer data).length) - file.length) 0, 0⟩
  have htruncate : truncate (roundUpTo (goInt ((file.length : ℤ) + goInt (data.length + 8 + 4)))
      twoMBAlignment) ⟨file, 0⟩ = .ok () f := by
    rw [sizeNeeded_eq hdata, ← Nat.cast_add, roundUpTo_eq hfit]
    exact truncate_eq_ok.mpr ⟨by omega, rfl⟩
  have hseek : seekEnd (-goInt (data.length + 8 + 4)) f =
      .ok () (f.seek (file.length + (padding file data).length)) := by
    rw [sizeNeeded_eq hdata]
    exact seekEnd_eq_ok.mpr ⟨_, seek_pos file data, rfl⟩
  have hbig : (UInt32.ofNat data.length).toNat = data.length := by
    rw [UInt32.toNat_ofNat']
    omega
  refine ⟨(f.seek (file.length + (padding file data).length)).writeAll (trailer data), ?_⟩
  rw [← writeAll_trailer]
  refine bind_eq_ok.mpr ⟨_, _, get_eq_ok.mpr ⟨rfl, rfl⟩, bind_eq_ok.mpr ⟨(), f, htruncate, ?_⟩⟩
  refine bind_eq_ok.mpr ⟨(), _, hseek, bind_eq_ok.mpr ⟨(), _, modify_eq_ok.mpr rfl, ?_⟩⟩
  refine bind_eq_ok.mpr ⟨(), _, require_eq_ok.mpr ⟨hbig, rfl⟩, ?_⟩
  exact bind_eq_ok.mpr ⟨(), _, modify_eq_ok.mpr rfl, modify_eq_ok.mpr rfl⟩

end

end Written

section RoundTrip

variable {front data : Bytes}

theorem sizeAndMagic_trailer (front data : Bytes) :
    sizeAndMagic (front ++ trailer data) = some (UInt32.ofNat data.length, indexJsonMagic) := by
  have hpos : fromEnd (front ++ trailer data) (-(8 + 4)) = some (front ++ data).length := by
    rw [fromEnd_eq_some, List.length_append, trailer_length, List.length_append]
    omega
  have hdrop : (front ++ trailer data).drop (front ++ data).length =
      u32 (UInt32.ofNat data.length) ++ (u64 indexJsonMagic ++ []) := by
    rw [trailer, ← List.append_assoc, List.append_nil]
    exact List.drop_left
  simp only [sizeAndMagic, hpos, Option.bind_eq_bind, Option.bind_some, hdrop, takeU32_append,
    takeU64_append]

theorem trailerSize_eq_iff {n : ℕ} (h : n < 2 ^ 32) :
    (trailerSize (UInt32.ofNat n)).toNat = 8 + 4 + n ↔ n + 12 < 2 ^ 32 := by
  have hsize : (trailerSize (UInt32.ofNat n)).toNat = (12 + n) % 2 ^ 32 := by
    rw [trailerSize, UInt32.toNat_add, UInt32.toNat_ofNat']
    simp
  rw [hsize]
  omega

theorem noOverflow_iff (h : data.length < 2 ^ 32) :
    NoOverflow (front ++ trailer data) ↔ data.length + 12 < 2 ^ 32 := by
  have hofNat : (UInt32.ofNat data.length).toNat = data.length := by
    rw [UInt32.toNat_ofNat']
    omega
  rw [← trailerSize_eq_iff h, NoOverflow, sizeAndMagic_trailer]
  constructor
  · intro hno
    rw [hno _ _ rfl, hofNat]
  · intro hsum size magic hs
    cases hs
    rw [hsum, hofNat]

/-- Without an overflow both readers seek to the start of the index. -/
theorem fromEnd_trailer (h : data.length + 12 < 2 ^ 32) :
    fromEnd (front ++ trailer data) (-(trailerSize (UInt32.ofNat data.length)).toNat) =
      some front.length := by
  rw [fromEnd_eq_some, (trailerSize_eq_iff (by omega)).mpr h, List.length_append, trailer_length]
  omega

theorem fromFileBytes_trailer (h : data.length + 12 < 2 ^ 32) :
    fromFileBytes (front ++ trailer data) = .ok data := by
  have hlen := trailer_length data
  have hofNat : (UInt32.ofNat data.length).toNat = data.length := by
    rw [UInt32.toNat_ofNat']
    omega
  have htake : takeBytes data.length ((front ++ trailer data).drop front.length) =
      some (data, u32 (UInt32.ofNat data.length) ++ u64 indexJsonMagic) := by
    rw [List.drop_left, trailer]
    exact takeBytes_append _ _ rfl
  rw [fromFileBytes, if_neg (by rw [List.length_append]; omega), sizeAndMagic_trailer]
  simp only [okOr, bind, Except.bind]
  rw [if_neg (by simp), if_neg (by rw [hofNat, List.length_append]; omega), fromEnd_trailer h, hofNat]
  simp only [htake]

theorem readPeIndexBytes_trailer (maxRead : ℕ) (h : data.length + 12 < 2 ^ 32) :
    readPeIndexBytes maxRead (front ++ trailer data) = .ok data ↔ data.length ≤ maxRead := by
  have hlen := trailer_length data
  have hofNat : (UInt32.ofNat data.length).toNat = data.length := by
    rw [UInt32.toNat_ofNat']
    omega
  have hgot : ((front ++ trailer data).drop front.length).take data.length = data := by
    rw [List.drop_left, trailer, List.take_left]
  rw [readPeIndexBytes, if_neg (by rw [List.length_append]; omega), sizeAndMagic_trailer]
  simp only [okOr, bind, Except.bind]
  rw [if_neg (by simp), if_neg (by rw [(trailerSize_eq_iff (by omega)).mpr h, List.length_append]; omega),
    fromEnd_trailer h, hofNat]
  simp only [read, hgot]
  by_cases hle : data.length ≤ maxRead
  · have hsome : ¬ (data = [] ∧ data.length ≠ 0) := by
      rintro ⟨rfl, hne⟩
      exact hne rfl
    rw [List.take_of_length_le hle, if_neg hsome]
    simp [hle]
  · have hshort : (data.take maxRead).length ≠ data.length := by
      rw [List.length_take]
      omega
    refine iff_of_false ?_ hle
    split_ifs with hnil
    · simp
    · simp only [ne_eq, hshort, not_false_eq_true, if_true, reduceCtorEq]

structure ImageFile where
  bytes : Bytes
  size_lt : bytes.length < 2 ^ 63

/-- The index that the writer accepted is found by both readers, behind the unchanged image. -/
structure Found (maxRead : ℕ) (file : ImageFile) (data out : Bytes) : Prop where
  aligned : out.length % twoMBAlignment = 0
  unchanged : file.bytes <+: out
  rust : fromFileBytes out = .ok data
  go : readPeIndexBytes maxRead out = .ok data
  noOverflow : NoOverflow out

theorem index_found_iff (maxRead : ℕ) (file : ImageFile) (data : Bytes) (out : Writer)
    (h : writePeIndexJson data ⟨file.bytes, 0⟩ = .ok () out) :
    Found maxRead file data out.data ↔ data.length + 12 < 2 ^ 32 ∧ data.length ≤ maxRead := by
  obtain ⟨hdata, hout⟩ := writePeIndexJson_ok file.size_lt h
  rw [hout]
  constructor
  · intro hfound
    have hsum := (noOverflow_iff hdata).mp hfound.noOverflow
    exact ⟨hsum, (readPeIndexBytes_trailer maxRead hsum).mp hfound.go⟩
  · rintro ⟨hsum, hread⟩
    refine ⟨?_, ⟨padding file.bytes data ++ trailer data, (List.append_assoc _ _ _).symm⟩,
      fromFileBytes_trailer hsum, (readPeIndexBytes_trailer maxRead hsum).mpr hread,
      (noOverflow_iff hdata).mpr hsum⟩
    have hle := le_paddedSize (file.bytes.length + (trailer data).length)
    have hlength : (file.bytes ++ padding file.bytes data ++ trailer data).length =
        paddedSize (file.bytes.length + (trailer data).length) := by
      simp only [padding, List.length_append, List.length_replicate]
      omega
    rw [hlength]
    exact paddedSize_mod _

def goMaxRead : ℕ := 2 ^ 30

def smallImage : ImageFile := ⟨[1, 2, 3], by decide⟩

theorem index_found_small :
    ∃ out, writePeIndexJson [0x7b, 0x7d] ⟨smallImage.bytes, 0⟩ = .ok () out ∧
      Found goMaxRead smallImage [0x7b, 0x7d] out.data := by
  obtain ⟨out, hout⟩ := @writePeIndexJson_of_fits smallImage.bytes [0x7b, 0x7d] (by decide)
    (by rw [trailer_length]; decide)
  exact ⟨out, hout, (index_found_iff goMaxRead smallImage _ out hout).mpr ⟨by decide, by decide⟩⟩

/-- If the size of an index and of the trailer add up to exactly `2 ^ 32`, both readers wrap
around to the end of the file and find nothing there. -/
theorem wrapped_to_end (front : Bytes) (h : data.length = 2 ^ 32 - 12) :
    ¬ NoOverflow (front ++ trailer data) ∧
      fromFileBytes (front ++ trailer data) = .error .unexpectedEof ∧
        ∀ maxRead, readPeIndexBytes maxRead (front ++ trailer data) = .error .reading := by
  have htrailer := trailer_length data
  have hzero : trailerSize (UInt32.ofNat data.length) = 0 := by
    rw [h]
    decide
  have hofNat : (UInt32.ofNat data.length).toNat = 2 ^ 32 - 12 := by
    rw [h]
    decide
  have hend : fromEnd (front ++ trailer data) (-(0 : UInt32).toNat) =
      some (front ++ trailer data).length := by
    rw [fromEnd_eq_some]
    simp
  have hlength := @List.length_append _ front (trailer data)
  refine ⟨?_, ?_, ?_⟩
  · rw [noOverflow_iff (by omega)]
    omega
  · rw [fromFileBytes, if_neg (by omega), sizeAndMagic_trailer]
    simp only [okOr, bind, Except.bind]
    rw [if_neg (by simp), if_neg (by omega), hzero, hend, hofNat]
    simp [takeBytes]
  · intro maxRead
    rw [readPeIndexBytes, if_neg (by omega), sizeAndMagic_trailer]
    simp only [okOr, bind, Except.bind]
    rw [if_neg (by simp), hzero, if_neg (by simp), hend, hofNat]
    simp [read]

def longIndex : Bytes := List.replicate (2 ^ 32 - 12) 0

theorem long_index_not_found :
    ∃ out, writePeIndexJson longIndex ⟨smallImage.bytes, 0⟩ = .ok () out ∧
      ¬ NoOverflow out.data ∧ fromFileBytes out.data = .error .unexpectedEof ∧
        ∀ maxRead, readPeIndexBytes maxRead out.data = .error .reading := by
  have hlen : longIndex.length = 2 ^ 32 - 12 := List.length_replicate
  have htrailer := trailer_length longIndex
  obtain ⟨out, hout⟩ := @writePeIndexJson_of_fits smallImage.bytes longIndex (by omega)
    (by rw [htrailer, hlen]; decide)
  obtain ⟨-, hbytes⟩ := writePeIndexJson_ok smallImage.size_lt hout
  have hwrapped := wrapped_to_end (smallImage.bytes ++ padding smallImage.bytes longIndex) hlen
  rw [← hbytes] at hwrapped
  exact ⟨out, hout, hwrapped⟩

end RoundTrip

end ProgramExplorer.ImageTrailer
