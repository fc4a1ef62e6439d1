import ProgramExplorer.ByteStrings

/-!
# Little-endian records

Fixed-width little-endian numbers and a reader that takes them off the front
of a byte string. A record is written as the concatenation of its fields and
read back field by field; it is rejected only when the bytes run out.
-/

set_option autoImplicit false

namespace ProgramExplorer.LittleEndian
open ByteStrings

def leBytes : ℕ → ℕ → Bytes
  | 0, _ => []
  | n + 1, v => UInt8.ofNat v :: leBytes n (v / 256)

def leNat : Bytes → ℕ
  | [] => 0
  | b :: bs => b.toNat + 256 * leNat bs

@[simp] theorem leBytes_length (n v : ℕ) : (leBytes n v).length = n := by
  induction n generalizing v with
  | zero => rfl
  | succ n ih => simp [leBytes, ih]

theorem leNat_leBytes (n v : ℕ) : leNat (leBytes n v) = v % 256 ^ n := by
  induction n generalizing v with
  | zero => simp [leBytes, leNat, Nat.mod_one]
  | succ n ih =>
    have hb : (UInt8.ofNat v).toNat = v % 256 := UInt8.toNat_ofNat'
    rw [leBytes, leNat, ih, hb, pow_succ' 256 n, Nat.mod_mul]

theorem leNat_lt (bs : Bytes) : leNat bs < 256 ^ bs.length := by
  induction bs with
  | nil => simp [leNat]
  | cons b bs ih =>
    have hb := b.toNat_lt
    rw [leNat, List.length_cons, pow_succ']
    omega

theorem leBytes_leNat (bs : Bytes) : leBytes bs.length (leNat bs) = bs := by
  induction bs with
  | nil => rfl
  | cons b bs ih =>
    have hb := b.toNat_lt
    rw [List.length_cons, leBytes, leNat, show (b.toNat + 256 * leNat bs) / 256 = leNat bs by omega, ih]
    congr 1
    apply UInt8.toNat_inj.mp
    rw [UInt8.toNat_ofNat']
    omega

def takeBytes (n : ℕ) (bs : Bytes) : Option (Bytes × Bytes) :=
  if n ≤ bs.length then some (bs.take n, bs.drop n) else none

def takeNat (n : ℕ) (bs : Bytes) : Option (ℕ × Bytes) :=
  (takeBytes n bs).map fun (b, rest) => (leNat b, rest)

theorem takeBytes_append {n : ℕ} (a rest : Bytes) (h : a.length = n) :
    takeBytes n (a ++ rest) = some (a, rest) := by
  subst h
  simp [takeBytes]

theorem takeBytes_eq_some {n : ℕ} {bs a rest : Bytes} (h : takeBytes n bs = some (a, rest)) :
    bs = a ++ rest ∧ a.length = n := by
  unfold takeBytes at h
  split_ifs at h with hn
  cases h
  simp [hn]

theorem takeNat_append (n v : ℕ) (rest : Bytes) :
    takeNat n (leBytes n v ++ rest) = some (v % 256 ^ n, rest) := by
  rw [takeNat, takeBytes_append _ _ (leBytes_length n v)]
  simp [leNat_leBytes]

def u8 (x : UInt8) : Bytes := leBytes 1 x.toNat

def u16 (x : UInt16) : Bytes := leBytes 2 x.toNat

def u32 (x : UInt32) : Bytes := leBytes 4 x.toNat

def u64 (x : UInt64) : Bytes := leBytes 8 x.toNat

def takeU8 (bs : Bytes) : Option (UInt8 × Bytes) :=
  (takeNat 1 bs).map fun (v, rest) => (UInt8.ofNat v, rest)

def takeU16 (bs : Bytes) : Option (UInt16 × Bytes) :=
  (takeNat 2 bs).map fun (v, rest) => (UInt16.ofNat v, rest)

def takeU32 (bs : Bytes) : Option (UInt32 × Bytes) :=
  (takeNat 4 bs).map fun (v, rest) => (UInt32.ofNat v, rest)

def takeU64 (bs : Bytes) : Option (UInt64 × Bytes) :=
  (takeNat 8 bs).map fun (v, rest) => (UInt64.ofNat v, rest)

@[simp] theorem u8_length (x : UInt8) : (u8 x).length = 1 := leBytes_length 1 _

@[simp] theorem u16_length (x : UInt16) : (u16 x).length = 2 := leBytes_length 2 _

@[simp] theorem u32_length (x : UInt32) : (u32 x).length = 4 := leBytes_length 4 _

@[simp] theorem u64_length (x : UInt64) : (u64 x).length = 8 := leBytes_length 8 _

@[simp] theorem leNat_u32 (x : UInt32) : leNat (u32 x) = x.toNat := by
  have hx := x.toNat_lt
  rw [u32, leNat_leBytes, Nat.mod_eq_of_lt (by omega)]

@[simp] theorem takeU8_append (x : UInt8) (rest : Bytes) : takeU8 (u8 x ++ rest) = some (x, rest) := by
  simp [takeU8, u8, takeNat_append]

@[simp] theorem takeU16_append (x : UInt16) (rest : Bytes) :
    takeU16 (u16 x ++ rest) = some (x, rest) := by
  simp [takeU16, u16, takeNat_append]

@[simp] theorem takeU32_append (x : UInt32) (rest : Bytes) :
    takeU32 (u32 x ++ rest) = some (x, rest) := by
  simp [takeU32, u32, takeNat_append]

@[simp] theorem takeU64_append (x : UInt64) (rest : Bytes) :
    takeU64 (u64 x ++ rest) = some (x, rest) := by
  simp [takeU64, u64, takeNat_append]

theorem takeU32_eq_some {bs rest : Bytes} {x : UInt32} (h : takeU32 bs = some (x, rest)) :
    bs = u32 x ++ rest := by
  unfold takeU32 takeNat at h
  obtain ⟨⟨v, rest'⟩, hnat, hx⟩ := Option.map_eq_some_iff.mp h
  obtain ⟨⟨front, rest''⟩, hfront, hv⟩ := Option.map_eq_some_iff.mp hnat
  obtain ⟨rfl, hlen⟩ := takeBytes_eq_some hfront
  obtain ⟨rfl, rfl⟩ := Prod.mk.inj hv
  obtain ⟨rfl, rfl⟩ := Prod.mk.inj hx
  have hlt := leNat_lt front
  rw [hlen] at hlt
  rw [u32, UInt32.toNat_ofNat', Nat.mod_eq_of_lt (by omega), ← hlen, leBytes_leNat]

theorem takeNat_length {n v : ℕ} {bs rest : Bytes} (h : takeNat n bs = some (v, rest)) :
    bs.length = n + rest.length := by
  unfold takeNat at h
  obtain ⟨⟨front, rest'⟩, hf, hv⟩ := Option.map_eq_some_iff.mp h
  cases hv
  obtain ⟨rfl, hl⟩ := takeBytes_eq_some hf
  rw [List.length_append, hl]

theorem takeU16_length {bs rest : Bytes} {x : UInt16} (h : takeU16 bs = some (x, rest)) :
    bs.length = 2 + rest.length := by
  obtain ⟨p, hp, hx⟩ := Option.map_eq_some_iff.mp h
  cases hx
  exact takeNat_length hp

theorem takeU32_length {bs rest : Bytes} {x : UInt32} (h : takeU32 bs = some (x, rest)) :
    bs.length = 4 + rest.length := by
  obtain ⟨p, hp, hx⟩ := Option.map_eq_some_iff.mp h
  cases hx
  exact takeNat_length hp

theorem takeU64_length {bs rest : Bytes} {x : UInt64} (h : takeU64 bs = some (x, rest)) :
    bs.length = 8 + rest.length := by
  obtain ⟨p, hp, hx⟩ := Option.map_eq_some_iff.mp h
  cases hx
  exact takeNat_length hp

section Chain

variable {β : Type}

theorem takeU8_bind (x : UInt8) (rest : Bytes) (f : UInt8 × Bytes → Option β) :
    (takeU8 (u8 x ++ rest) >>= f) = f (x, rest) := by
  rw [takeU8_append]
  rfl

theorem takeU16_bind (x : UInt16) (rest : Bytes) (f : UInt16 × Bytes → Option β) :
    (takeU16 (u16 x ++ rest) >>= f) = f (x, rest) := by
  rw [takeU16_append]
  rfl

theorem takeU32_bind (x : UInt32) (rest : Bytes) (f : UInt32 × Bytes → Option β) :
    (takeU32 (u32 x ++ rest) >>= f) = f (x, rest) := by
  rw [takeU32_append]
  rfl

theorem takeU64_bind (x : UInt64) (rest : Bytes) (f : UInt64 × Bytes → Option β) :
    (takeU64 (u64 x ++ rest) >>= f) = f (x, rest) := by
  rw [takeU64_append]
  rfl

end Chain

end ProgramExplorer.LittleEndian
