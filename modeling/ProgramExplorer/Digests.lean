import ProgramExplorer.BlobKeys
import ProgramExplorer.StateRules

/-!
# Digests

A digest is the name of an algorithm and a string in lower hexadecimal.
Received data is hashed and the hash compared with the string two characters
at a time, without writing it out. The hash function is a parameter.
-/

set_option autoImplicit false

namespace ProgramExplorer.Digests
open ByteStrings BlobKeys StateRules

section Hex

def lut : List UInt8 := [48, 49, 50, 51, 52, 53, 54, 55, 56, 57, 97, 98, 99, 100, 101, 102]

def hexDigit (nibble : UInt8) : UInt8 := lut.getD nibble.toNat 0

def hexPair (byte : UInt8) : UInt8 × UInt8 := (hexDigit (byte >>> 4), hexDigit (byte &&& 0xf))

def lowerHex (bytes : Bytes) : Bytes := bytes.flatMap fun byte => [(hexPair byte).1, (hexPair byte).2]

def bytePairs : Bytes → List (UInt8 × UInt8)
  | a :: b :: rest => (a, b) :: bytePairs rest
  | _ => []

def digestEq (digestLowerHexStr digestBytes : Bytes) : Bool :=
  if digestLowerHexStr.length ≠ 2 * digestBytes.length then false
  else (bytePairs digestLowerHexStr |>.zip digestBytes).all fun x =>
    (hexPair x.2).1 == x.1.1 && (hexPair x.2).2 == x.1.2

theorem digestEq_cons (a b byte : UInt8) (rest d : Bytes) :
    digestEq (a :: b :: rest) (byte :: d) = true ↔
      a = (hexPair byte).1 ∧ b = (hexPair byte).2 ∧ digestEq rest d = true := by
  have hlen : (a :: b :: rest).length ≠ 2 * (byte :: d).length ↔ rest.length ≠ 2 * d.length := by
    simp only [List.length_cons]
    omega
  unfold digestEq
  by_cases h : rest.length ≠ 2 * d.length
  · rw [if_pos (hlen.mpr h), if_pos h]
    simp
  · rw [if_neg (mt hlen.mp h), if_neg h, bytePairs, List.zip_cons_cons, List.all_cons]
    simp only [Bool.and_eq_true, beq_iff_eq, and_assoc]
    rw [eq_comm, eq_comm (b := b)]

theorem digestEq_iff (s d : Bytes) : digestEq s d = true ↔ s = lowerHex d := by
  induction d generalizing s with
  | nil => simp [digestEq, lowerHex, List.length_eq_zero_iff]
  | cons byte d ih =>
    match s with
    | [] => simp [digestEq, lowerHex]
    | [a] => simp [digestEq, lowerHex]; omega
    | a :: b :: rest =>
      rw [digestEq_cons, ih]
      simp [lowerHex]

end Hex

section Text

/-- The text of a byte string in lower hexadecimal: two digits for a byte, the
higher one first. -/
def toLowerHex (bytes : Bytes) : List Char :=
  bytes.flatMap fun byte => [Nat.digitChar (byte.toNat / 16), Nat.digitChar (byte.toNat % 16)]

theorem encode_digitChar {n : ℕ} (h : n < 16) :
    String.utf8EncodeChar (Nat.digitChar n) = [lut.getD n 0] := by
  have hall : ∀ n < 16, String.utf8EncodeChar (Nat.digitChar n) = [lut.getD n 0] := by decide
  exact hall n h

theorem hexPair_eq (byte : UInt8) :
    hexPair byte = (lut.getD (byte.toNat / 16) 0, lut.getD (byte.toNat % 16) 0) := by
  have hlow : (byte &&& 0xf).toNat = byte.toNat % 16 := by
    rw [UInt8.toNat_and]
    exact Nat.and_two_pow_sub_one_eq_mod byte.toNat 4
  have hhigh : (byte >>> 4).toNat = byte.toNat / 16 := by
    rw [UInt8.toNat_shiftRight]
    exact Nat.shiftRight_eq_div_pow byte.toNat 4
  rw [hexPair, hexDigit, hexDigit, hlow, hhigh]

theorem encode_toLowerHex (bytes : Bytes) : Utf8.encode (toLowerHex bytes) = lowerHex bytes := by
  induction bytes with
  | nil => rfl
  | cons byte bytes ih =>
    have hlt := byte.toNat_lt
    have hhigh := encode_digitChar (show byte.toNat / 16 < 16 by omega)
    have hlow := encode_digitChar (show byte.toNat % 16 < 16 by omega)
    change Utf8.encode ([_, _] ++ toLowerHex bytes) = [_, _] ++ lowerHex bytes
    rw [Utf8.encode_append, ih, hexPair_eq]
    simp [Utf8.encode, hhigh, hlow]

/-- The comparison without writing out is the comparison with the text. -/
theorem digestEq_exact (s : List Char) (digest : Bytes) :
    digestEq (Utf8.encode s) digest = true ↔ s = toLowerHex digest := by
  rw [digestEq_iff, ← encode_toLowerHex]
  constructor
  · intro h
    exact Utf8.encode_injective h
  · rintro rfl
    rfl

end Text

section Checks

structure Digest where
  algorithm : List Char
  digest : List Char
  deriving DecidableEq

def Digest.text (d : Digest) : List Char := d.algorithm ++ ':' :: d.digest

/-- What the parser asks of the two parts besides the colon between them is
left open. -/
def Digest.parse (wellFormed : List Char → List Char → Bool) (s : List Char) : Option Digest := do
  let (algorithm, digest) ← splitOnce ':' s
  if wellFormed algorithm digest then some ⟨algorithm, digest⟩ else none

theorem text_of_parse {wellFormed : List Char → List Char → Bool} {s : List Char} {d : Digest}
    (h : Digest.parse wellFormed s = some d) : d.text = s := by
  unfold Digest.parse at h
  obtain ⟨⟨algorithm, digest⟩, hsplit, hd⟩ := Option.bind_eq_some_iff.mp h
  simp only at hd
  split_ifs at hd
  cases hd
  exact (splitOnce_eq_some hsplit).1.symm

structure Descriptor where
  digest : Digest
  size : ℕ
  deriving DecidableEq

def sha256Name : List Char := ['s', 'h', 'a', '2', '5', '6']

inductive CheckError where
  | digestMismatch
  | sizeMismatch
  | digestAlgorithmNotHandled (algorithm : List Char)
  deriving DecidableEq

structure Hasher where
  seen : Bytes

def Hasher.new : Hasher := ⟨[]⟩

def Hasher.update (h : Hasher) (data : Bytes) : Hasher := ⟨h.seen ++ data⟩

variable (sha256 : Bytes → Bytes)

def Hasher.finalize (h : Hasher) : Bytes := sha256 h.seen

def checkDigestMatches (expected : Digest) (hasher : Hasher) : Except CheckError Unit :=
  if digestEq (Utf8.encode expected.digest) (hasher.finalize sha256) then .ok ()
  else .error .digestMismatch

def dataMatchesDigest (expected : Digest) (data : Bytes) : Except CheckError Bool :=
  if expected.algorithm = sha256Name then
    .ok (digestEq (Utf8.encode expected.digest) ((Hasher.new.update data).finalize sha256))
  else .error (.digestAlgorithmNotHandled expected.algorithm)

def checkDataMatchesDescriptor (expected : Descriptor) (data : Bytes) : Except CheckError Unit :=
  if expected.size ≠ data.length then .error .sizeMismatch
  else do
    let same ← dataMatchesDigest sha256 expected.digest data
    if same then .ok () else .error .digestMismatch

def checkDataMatchesDigest (expected : Option Digest) (data : Bytes) : Except CheckError Unit :=
  match expected with
  | none => .ok ()
  | some expected => do
    let same ← dataMatchesDigest sha256 expected data
    if same then .ok () else .error .digestMismatch

def Names (d : Digest) (data : Bytes) : Prop :=
  d.algorithm = sha256Name ∧ Utf8.encode d.digest = lowerHex (sha256 data)

variable {sha256}

theorem names_of_dataMatchesDigest {d : Digest} {data : Bytes}
    (h : dataMatchesDigest sha256 d data = .ok true) : Names sha256 d data := by
  unfold dataMatchesDigest at h
  split_ifs at h with halgorithm
  exact ⟨halgorithm, (digestEq_iff _ _).mp (Except.ok.inj h)⟩

theorem names_of_check {d : Digest} {data : Bytes}
    (h : (do let same ← dataMatchesDigest sha256 d data
             if same then .ok () else .error CheckError.digestMismatch : Except CheckError Unit) = .ok ()) :
    Names sha256 d data := by
  obtain ⟨same, hsame, hres⟩ := except_bind_eq_ok.mp h
  cases same with
  | false => cases hres
  | true => exact names_of_dataMatchesDigest hsame

theorem checkDataMatchesDescriptor_ok {expected : Descriptor} {data : Bytes}
    (h : checkDataMatchesDescriptor sha256 expected data = .ok ()) :
    data.length = expected.size ∧ Names sha256 expected.digest data := by
  unfold checkDataMatchesDescriptor at h
  split_ifs at h with hsize
  exact ⟨(not_not.mp hsize).symm, names_of_check h⟩

end Checks

end ProgramExplorer.Digests
