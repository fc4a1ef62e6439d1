import ProgramExplorer.LittleEndian
import ProgramExplorer.Utf8

/-!
# Bincode

The `standard` configuration of the serialiser: numbers as variable-length
integers, sequences and strings behind their length, an enumeration behind the
index of its variant. A codec carries the two facts that matter: what was
encoded is read back with the bytes after it left alone, and a reading does
not change when more bytes follow. A shortened encoding is then never read.
-/

set_option autoImplicit false

namespace ProgramExplorer.Bincode
open ByteStrings LittleEndian

structure Codec (α : Type) where
  encode : α → Bytes
  decode : Bytes → Option (α × Bytes)
  decode_encode : ∀ x rest, decode (encode x ++ rest) = some (x, rest)
  decode_append : ∀ {bs x rest}, decode bs = some (x, rest) →
    ∀ more, decode (bs ++ more) = some (x, rest ++ more)

variable {α β ι : Type} {F : ι → Type}

/-- Where the bytes stop inside an encoding, nothing is read: with the missing
bytes added the same value would be found, and some of them left over. -/
theorem Codec.decode_take (c : Codec α) (x : α) {k : ℕ} (hk : k < (c.encode x).length) :
    c.decode ((c.encode x).take k) = none := by
  rw [Option.eq_none_iff_forall_not_mem]
  rintro ⟨y, rest⟩ hy
  have hmore := c.decode_append hy ((c.encode x).drop k)
  have hall := c.decode_encode x []
  rw [List.take_append_drop] at hmore
  rw [List.append_nil, hmore] at hall
  have hnil : rest ++ (c.encode x).drop k = [] := (Prod.mk.inj (Option.some.inj hall)).2
  have hlen := congrArg List.length hnil
  rw [List.length_append, List.length_drop, List.length_nil] at hlen
  omega

theorem Codec.decode_exact (c : Codec α) (x : α) : c.decode (c.encode x) = some (x, []) := by
  have h := c.decode_encode x []
  rwa [List.append_nil] at h

section Combinators

def unit : Codec Unit where
  encode _ := []
  decode bs := some ((), bs)
  decode_encode _ _ := rfl
  decode_append h _ := by cases h; rfl

def Codec.sigma (c : Codec ι) (d : (i : ι) → Codec (F i)) : Codec (Σ i, F i) where
  encode x := c.encode x.1 ++ (d x.1).encode x.2
  decode bs := (c.decode bs).bind fun r => ((d r.1).decode r.2).map fun s => (⟨r.1, s.1⟩, s.2)
  decode_encode x rest := by
    rw [List.append_assoc, c.decode_encode, Option.bind_some, (d x.1).decode_encode, Option.map_some]
  decode_append {bs x rest} h more := by
    obtain ⟨⟨i, rest₁⟩, hi, hy⟩ := Option.bind_eq_some_iff.mp h
    obtain ⟨⟨y, rest₂⟩, hd, hx⟩ := Option.map_eq_some_iff.mp hy
    obtain ⟨rfl, rfl⟩ := Prod.mk.inj hx
    rw [c.decode_append hi, Option.bind_some, (d i).decode_append hd, Option.map_some]

/-- The same bytes for another type; not every value read need be one of it. -/
def Codec.refine (c : Codec α) (f : α → Option β) (g : β → α) (h : ∀ y, f (g y) = some y) :
    Codec β where
  encode y := c.encode (g y)
  decode bs := (c.decode bs).bind fun r => (f r.1).map fun y => (y, r.2)
  decode_encode y rest := by
    rw [c.decode_encode, Option.bind_some, h, Option.map_some]
  decode_append {bs y rest} hd more := by
    obtain ⟨⟨x, rest₁⟩, hx, hy⟩ := Option.bind_eq_some_iff.mp hd
    obtain ⟨y', hf, heq⟩ := Option.map_eq_some_iff.mp hy
    obtain ⟨rfl, rfl⟩ := Prod.mk.inj heq
    rw [c.decode_append hx, Option.bind_some, hf, Option.map_some]

def Codec.imap (c : Codec α) (f : α → β) (g : β → α) (h : ∀ y, f (g y) = y) : Codec β :=
  c.refine (fun x => some (f x)) g fun y => congrArg some (h y)

def Codec.pair (c : Codec α) (d : Codec β) : Codec (α × β) :=
  (c.sigma fun _ => d).imap (fun x => (x.1, x.2)) (fun x => ⟨x.1, x.2⟩) fun _ => rfl

@[simp] theorem encode_sigma (c : Codec ι) (d : (i : ι) → Codec (F i)) (x : Σ i, F i) :
    (c.sigma d).encode x = c.encode x.1 ++ (d x.1).encode x.2 := rfl

@[simp] theorem encode_refine (c : Codec α) (f : α → Option β) (g : β → α)
    (h : ∀ y, f (g y) = some y) (y : β) : (c.refine f g h).encode y = c.encode (g y) := rfl

@[simp] theorem encode_imap (c : Codec α) (f : α → β) (g : β → α) (h : ∀ y, f (g y) = y) (y : β) :
    (c.imap f g h).encode y = c.encode (g y) := rfl

@[simp] theorem encode_pair (c : Codec α) (d : Codec β) (x : α × β) :
    (c.pair d).encode x = c.encode x.1 ++ d.encode x.2 := rfl

def Codec.times (c : Codec α) : (n : ℕ) → Codec { xs : List α // xs.length = n }
  | 0 => unit.imap (fun _ => ⟨[], rfl⟩) (fun _ => ()) fun xs =>
      Subtype.ext (List.length_eq_zero_iff.mp xs.2).symm
  | n + 1 => (c.pair (c.times n)).imap
      (fun x => ⟨x.1 :: x.2.1, congrArg Nat.succ x.2.2⟩)
      (fun xs => (xs.1.head (List.ne_nil_of_length_eq_add_one xs.2),
        ⟨xs.1.tail, by rw [List.length_tail, xs.2, Nat.add_sub_cancel]⟩))
      fun xs => Subtype.ext (List.cons_head_tail _)

theorem encode_times (c : Codec α) {n : ℕ} (xs : { xs : List α // xs.length = n }) :
    (c.times n).encode xs = xs.1.flatMap c.encode := by
  induction n with
  | zero =>
    obtain ⟨xs, hxs⟩ := xs
    rw [List.length_eq_zero_iff] at hxs
    subst hxs
    rfl
  | succ n ih =>
    obtain ⟨xs, hxs⟩ := xs
    cases xs with
    | nil => cases hxs
    | cons x xs =>
      rw [Codec.times, encode_imap, encode_pair, ih]
      rfl

end Combinators

section Numbers

def raw (n : ℕ) : Codec { bs : Bytes // bs.length = n } where
  encode bs := bs.1
  decode bs := if h : n ≤ bs.length then some (⟨bs.take n, by simp [h]⟩, bs.drop n) else none
  decode_encode x rest := by
    obtain ⟨bs, rfl⟩ := x
    simp
  decode_append {bs x rest} h more := by
    split_ifs at h with hn
    cases h
    rw [dif_pos (by rw [List.length_append]; omega)]
    simp [List.take_append_of_le_length hn, List.drop_append_of_le_length hn]

@[simp] theorem encode_raw {n : ℕ} (bs : { bs : Bytes // bs.length = n }) :
    (raw n).encode bs = bs.1 := rfl

def byte : Codec UInt8 :=
  (raw 1).imap (fun bs => bs.1.head (List.ne_nil_of_length_eq_add_one bs.2)) (fun b => ⟨[b], rfl⟩)
    fun _ => rfl

@[simp] theorem encode_byte (b : UInt8) : byte.encode b = [b] := rfl

def little (n : ℕ) : Codec (Fin (256 ^ n)) :=
  (raw n).imap (fun bs => ⟨leNat bs.1, (leNat_lt bs.1).trans_eq (congrArg _ bs.2)⟩)
    (fun v => ⟨leBytes n v, leBytes_length n v⟩)
    fun v => Fin.ext ((leNat_leBytes n v).trans (Nat.mod_eq_of_lt v.2))

def width (tag : UInt8) : ℕ :=
  if tag = 251 then 2 else if tag = 252 then 4 else if tag = 253 then 8 else 0

def lastTag (wide : Bool) : ℕ := if wide then 253 else 252

def bound (wide : Bool) : ℕ := if wide then 2 ^ 64 else 2 ^ 32

def value (wide : Bool) (x : Σ tag, Fin (256 ^ width tag)) : Option (Fin (bound wide)) :=
  let v := if x.1.toNat ≤ 250 then x.1.toNat else x.2.val
  if h : x.1.toNat ≤ lastTag wide ∧ v < bound wide then some ⟨v, h.2⟩ else none

def tagged (v : ℕ) (hv : v < 2 ^ 64) : Σ tag, Fin (256 ^ width tag) :=
  if v ≤ 250 then ⟨UInt8.ofNat v, ⟨0, by positivity⟩⟩
  else if h : v < 2 ^ 16 then ⟨251, ⟨v, h⟩⟩
  else if h : v < 2 ^ 32 then ⟨252, ⟨v, h⟩⟩
  else ⟨253, ⟨v, hv⟩⟩

theorem bound_le (wide : Bool) : bound wide ≤ 2 ^ 64 := by
  cases wide <;> decide

theorem value_tagged (wide : Bool) (v : Fin (bound wide)) :
    value wide (tagged v.1 (v.2.trans_le (bound_le wide))) = some v := by
  obtain ⟨v, hv⟩ := v
  dsimp only
  unfold tagged
  split_ifs with h₁ h₂ h₃
  · have htag : (UInt8.ofNat v).toNat = v := by
      rw [UInt8.toNat_ofNat']
      omega
    simp only [value, htag, h₁, if_true]
    rw [dif_pos ⟨by unfold lastTag; split_ifs <;> omega, hv⟩]
  · simp only [value, show ¬(251 : UInt8).toNat ≤ 250 by decide, if_false]
    rw [dif_pos ⟨by cases wide <;> decide, hv⟩]
  · simp only [value, show ¬(252 : UInt8).toNat ≤ 250 by decide, if_false]
    rw [dif_pos ⟨by cases wide <;> decide, hv⟩]
  · cases wide with
    | false => exact absurd hv h₃
    | true =>
      simp only [value, show ¬(253 : UInt8).toNat ≤ 250 by decide, if_false]
      rw [dif_pos ⟨by decide, hv⟩]

def varint (wide : Bool) : Codec (Fin (bound wide)) :=
  (byte.sigma fun tag => little (width tag)).refine (value wide)
    (fun v => tagged v.1 (v.2.trans_le (bound_le wide))) (value_tagged wide)

def u32 : Codec UInt32 :=
  (varint false).imap (fun v => UInt32.ofNatLT v.1 v.2) (fun x => ⟨x.toNat, x.toNat_lt⟩) fun _ => rfl

def u64 : Codec UInt64 :=
  (varint true).imap (fun v => UInt64.ofNatLT v.1 v.2) (fun x => ⟨x.toNat, x.toNat_lt⟩) fun _ => rfl

theorem encode_u64 (n : ℕ) (h : n < 2 ^ 64) :
    u64.encode (UInt64.ofNatLT n h) =
      if n ≤ 250 then [UInt8.ofNat n]
      else if n < 2 ^ 16 then 251 :: leBytes 2 n
      else if n < 2 ^ 32 then 252 :: leBytes 4 n
      else 253 :: leBytes 8 n := by
  have hencode : ∀ x, tagged n h = x →
      u64.encode (UInt64.ofNatLT n h) = x.1 :: leBytes (width x.1) x.2 := fun x hx => hx ▸ rfl
  split_ifs with hsmall htwo hfour
  · have hwidth : width (UInt8.ofNat n) = 0 := by
      have htag : (UInt8.ofNat n).toNat = n := by
        rw [UInt8.toNat_ofNat']
        omega
      have hne : ∀ tag : UInt8, 250 < tag.toNat → UInt8.ofNat n ≠ tag := by
        rintro tag htag' rfl
        omega
      rw [width, if_neg (hne 251 (by decide)), if_neg (hne 252 (by decide)), if_neg (hne 253 (by decide))]
    rw [hencode ⟨UInt8.ofNat n, ⟨0, by positivity⟩⟩ (by rw [tagged, if_pos hsmall])]
    simp only [hwidth, leBytes]
  · exact hencode ⟨251, ⟨n, htwo⟩⟩ (by rw [tagged, if_neg hsmall, dif_pos htwo])
  · exact hencode ⟨252, ⟨n, hfour⟩⟩ (by rw [tagged, if_neg hsmall, dif_neg htwo, dif_pos hfour])
  · exact hencode ⟨253, ⟨n, h⟩⟩ (by rw [tagged, if_neg hsmall, dif_neg htwo, dif_neg hfour])

def bool : Codec Bool :=
  byte.refine (fun b => if b = 0 then some false else if b = 1 then some true else none)
    (fun b => if b then 1 else 0) (by decide)

@[simp] theorem length_encode_bool (b : Bool) : (bool.encode b).length = 1 := rfl

theorem length_encode_varint_pos (wide : Bool) (v : Fin (bound wide)) :
    0 < ((varint wide).encode v).length := by
  simp [varint]

end Numbers

section Data

def variant (n : ℕ) (hn : n ≤ 2 ^ 32) : Codec (Fin n) :=
  u32.refine (fun i => if h : i.toNat < n then some ⟨i.toNat, h⟩ else none)
    (fun i => UInt32.ofNatLT i.1 (i.2.trans_le hn)) fun i => dif_pos i.2

def twoVariants (first second : α) (isFirst : α → Bool)
    (h : ∀ x, (if isFirst x then first else second) = x) : Codec α :=
  (variant 2 (by decide)).imap (fun i => if i = 0 then first else second)
    (fun x => if isFirst x then 0 else 1) fun x => by
      have hx := h x
      cases hfirst : isFirst x <;> simpa [hfirst] using hx

theorem length_encode_variant_pos {n : ℕ} (hn : n ≤ 2 ^ 32) (i : Fin n) :
    0 < ((variant n hn).encode i).length :=
  length_encode_varint_pos false _

def Present (α : Type) : Bool → Type
  | false => Unit
  | true => α

def Codec.present (c : Codec α) : (tag : Bool) → Codec (Present α tag)
  | false => unit
  | true => c

def Codec.option (c : Codec α) : Codec (Option α) :=
  (bool.sigma c.present).imap
    (fun | ⟨false, _⟩ => none | ⟨true, x⟩ => some x)
    (fun | none => ⟨false, ()⟩ | some x => ⟨true, x⟩)
    (fun | none => rfl | some _ => rfl)

structure Vec (α : Type) where
  toList : List α
  short : toList.length < 2 ^ 64
  deriving DecidableEq

def counted (body : (n : ℕ) → Codec { xs : List α // xs.length = n }) : Codec (Vec α) :=
  (u64.sigma fun n => body n.toNat).imap
    (fun x => ⟨x.2.1, x.2.2.trans_lt x.1.toNat_lt⟩)
    (fun v => ⟨UInt64.ofNatLT v.toList.length v.short, ⟨v.toList, rfl⟩⟩) fun _ => rfl

def Codec.vec (c : Codec α) : Codec (Vec α) := counted c.times

structure Text where
  chars : List Char
  short : (Utf8.encode chars).length < 2 ^ 64
  deriving DecidableEq

def toText (v : Vec UInt8) : Option Text :=
  match h : Utf8.decode v.toList with
  | none => none
  | some cs => some ⟨cs, Utf8.decode_eq_some_iff.mp h ▸ v.short⟩

theorem toText_encode (t : Text) : toText ⟨Utf8.encode t.chars, t.short⟩ = some t := by
  have hd := Utf8.decode_encode t.chars
  unfold toText
  split
  · rename_i h
    rw [hd] at h
    cases h
  · rename_i cs h
    rw [hd] at h
    cases h
    rfl

def text : Codec Text :=
  (counted raw).refine toText (fun t => ⟨Utf8.encode t.chars, t.short⟩) toText_encode

example : text.encode ⟨['h', 'i'], by decide⟩ = [2, 104, 105] := by decide

example : u64.encode 300 = [251, 44, 1] := by decide

end Data

end ProgramExplorer.Bincode
