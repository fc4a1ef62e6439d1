import ProgramExplorer.Utf8

/-!
# Strings of UTF-16 code units

A JavaScript string is any sequence of 16-bit units. Read from the left it is
a sequence of code points: pairs of a lead and a trail surrogate, surrogates
that stand alone, and all other units. `TextEncoder` writes U+FFFD for a
surrogate that stands alone.
-/

set_option autoImplicit false

namespace ProgramExplorer.Utf16
open ByteStrings Utf8

abbrev JsString := List UInt16

def IsLead (u : UInt16) : Prop := 0xd800 ≤ u.toNat ∧ u.toNat ≤ 0xdbff

def IsTrail (u : UInt16) : Prop := 0xdc00 ≤ u.toNat ∧ u.toNat ≤ 0xdfff

instance (u : UInt16) : Decidable (IsLead u) := inferInstanceAs (Decidable (_ ∧ _))

instance (u : UInt16) : Decidable (IsTrail u) := inferInstanceAs (Decidable (_ ∧ _))

inductive CodePoint where
  | pair (lead trail : UInt16)
  | lone (u : UInt16)
  | unit (u : UInt16)
  deriving DecidableEq, Repr

def CodePoint.single (u : UInt16) : CodePoint := if IsLead u ∨ IsTrail u then .lone u else .unit u

def codePoints : JsString → List CodePoint
  | [] => []
  | [u] => [.single u]
  | u :: v :: rest =>
    if IsLead u ∧ IsTrail v then .pair u v :: codePoints rest
    else .single u :: codePoints (v :: rest)

def CodePoint.units : CodePoint → JsString
  | .pair u v => [u, v]
  | .lone u => [u]
  | .unit u => [u]

@[simp] theorem single_units (u : UInt16) : (CodePoint.single u).units = [u] := by
  unfold CodePoint.single
  split_ifs <;> rfl

theorem flatMap_units (s : JsString) : (codePoints s).flatMap CodePoint.units = s := by
  induction s using codePoints.induct with
  | case1 => rfl
  | case2 u => simp [codePoints]
  | case3 u v rest h ih => simp [codePoints, h, ih, CodePoint.units]
  | case4 u v rest h ih => simp [codePoints, h, ih]

def pairValue (u v : UInt16) : ℕ := 0x10000 + (u.toNat - 0xd800) * 0x400 + (v.toNat - 0xdc00)

def replacement : ℕ := 0xfffd

def CodePoint.toNat : CodePoint → ℕ
  | .pair u v => pairValue u v
  | .lone _ => replacement
  | .unit u => u.toNat

theorem toNat_pair (u v : UInt16) : (CodePoint.pair u v).toNat =
    0x10000 + (u.toNat - 0xd800) * 0x400 + (v.toNat - 0xdc00) := rfl

def CodePoint.toScalar (c : CodePoint) : Char := Char.ofNat c.toNat

def textEncode (s : JsString) : Bytes := encode ((codePoints s).map CodePoint.toScalar)

def CodePoint.Proper : CodePoint → Prop
  | .pair u v => IsLead u ∧ IsTrail v
  | .lone _ => True
  | .unit u => ¬ (IsLead u ∨ IsTrail u)

theorem single_proper (u : UInt16) : (CodePoint.single u).Proper := by
  unfold CodePoint.single
  split_ifs with h
  · trivial
  · exact h

theorem codePoints_proper (s : JsString) : ∀ c ∈ codePoints s, c.Proper := by
  induction s using codePoints.induct with
  | case1 => simp [codePoints]
  | case2 u => simpa [codePoints] using single_proper u
  | case3 u v rest h ih => simpa [codePoints, h] using ⟨h, ih⟩
  | case4 u v rest h ih => simpa [codePoints, h] using ⟨single_proper u, ih⟩

theorem toNat_ofNat {n : ℕ} (h : n.isValidChar) : (Char.ofNat n).toNat = n := by
  rw [Char.ofNat, dif_pos h]
  rfl

theorem toScalar_toNat {c : CodePoint} (h : c.Proper) : c.toScalar.toNat = c.toNat := by
  have hvalid : c.toNat.isValidChar := by
    unfold Nat.isValidChar
    cases c with
    | pair u v =>
      obtain ⟨hu, hv⟩ := h
      unfold IsLead at hu
      unfold IsTrail at hv
      have hval := toNat_pair u v
      omega
    | lone u =>
      rw [CodePoint.toNat]
      decide
    | unit u =>
      have hu := u.toNat_lt
      unfold CodePoint.Proper IsLead IsTrail at h
      rw [CodePoint.toNat]
      omega
  exact toNat_ofNat hvalid

theorem ascii_unit {c : CodePoint} (h : c.Proper) {n : ℕ} (hn : n < 0x80) (hc : c.toScalar.toNat = n) :
    c = .unit (UInt16.ofNat n) := by
  rw [toScalar_toNat h] at hc
  cases c with
  | pair u v =>
    have hval := toNat_pair u v
    omega
  | lone u =>
    rw [CodePoint.toNat, replacement] at hc
    omega
  | unit u =>
    rw [CodePoint.toNat] at hc
    rw [← hc, UInt16.ofNat_toNat]

section Ascii

theorem mem_utf8EncodeChar {b : UInt8} {c : Char} (hb : b ∈ String.utf8EncodeChar c)
    (hascii : b.toNat < 0x80) : c.toNat = b.toNat := by
  have h := encodes_char c
  generalize c.toNat = n at h
  generalize String.utf8EncodeChar c = bs at h hb
  cases h with
  | one h =>
    obtain rfl := List.mem_singleton.mp hb
    rfl
  | two h h₁ =>
    simp only [List.mem_cons, List.not_mem_nil, or_false] at hb
    rcases hb with rfl | rfl <;> omega
  | three h h₁ h₂ =>
    simp only [List.mem_cons, List.not_mem_nil, or_false] at hb
    split_ifs at h₁ <;> rcases hb with rfl | rfl | rfl <;> omega
  | four h h₁ h₂ h₃ =>
    simp only [List.mem_cons, List.not_mem_nil, or_false] at hb
    split_ifs at h₁ <;> rcases hb with rfl | rfl | rfl | rfl <;> omega

theorem unit_of_ascii {s : JsString} {b : UInt8} (hb : b ∈ textEncode s) (hascii : b.toNat < 0x80) :
    UInt16.ofNat b.toNat ∈ s := by
  obtain ⟨c, hc, hbc⟩ := List.mem_flatMap.mp hb
  obtain ⟨p, hp, rfl⟩ := List.mem_map.mp hc
  have hunit := ascii_unit (codePoints_proper s p hp) hascii (mem_utf8EncodeChar hbc hascii)
  rw [← flatMap_units s]
  exact List.mem_flatMap.mpr ⟨p, hp, by simp [hunit, CodePoint.units]⟩

theorem encode_ascii {bs : Bytes} (h : ∀ b ∈ bs, b.toNat < 0x80) :
    encode (bs.map fun b => Char.ofNat b.toNat) = bs := by
  induction bs with
  | nil => rfl
  | cons b bs ih =>
    have hb := h b (by simp)
    have hchar : String.utf8EncodeChar (Char.ofNat b.toNat) = [b] := encodes_eq (.one (by omega))
    have ih := ih fun b' hb' => h b' (by simp [hb'])
    rw [encode] at ih ⊢
    rw [List.map_cons, List.flatMap_cons, hchar, ih]
    rfl

theorem points_ascii {ps : List CodePoint} (hps : ∀ p ∈ ps, p.Proper) {bs : Bytes}
    (h : ∀ b ∈ bs, b.toNat < 0x80)
    (hmap : ps.map CodePoint.toScalar = bs.map fun b => Char.ofNat b.toNat) :
    ps = bs.map fun b => .unit (UInt16.ofNat b.toNat) := by
  induction bs generalizing ps with
  | nil => exact List.map_eq_nil_iff.mp hmap
  | cons b bs ih =>
    obtain ⟨p, ps, rfl, hp, hrest⟩ := List.map_eq_cons_iff.mp hmap
    have hb := h b (by simp)
    have hscalar : p.toScalar.toNat = b.toNat := by
      rw [hp]
      exact toNat_ofNat (Or.inl (by omega))
    rw [List.map_cons, ascii_unit (hps p (by simp)) hb hscalar,
      ih (fun p' hp' => hps p' (by simp [hp'])) (fun b' hb' => h b' (by simp [hb'])) hrest]

theorem eq_of_textEncode_ascii {s : JsString} {bs : Bytes} (h : ∀ b ∈ bs, b.toNat < 0x80)
    (hs : textEncode s = bs) : s = bs.map fun b => UInt16.ofNat b.toNat := by
  have hchars : (codePoints s).map CodePoint.toScalar = bs.map fun b => Char.ofNat b.toNat := by
    have hleft : decode bs = some ((codePoints s).map CodePoint.toScalar) :=
      decode_eq_some_iff.mpr hs.symm
    rw [decode_eq_some_iff.mpr (encode_ascii h).symm] at hleft
    exact (Option.some.inj hleft).symm
  rw [← flatMap_units s, points_ascii (codePoints_proper s) h hchars, List.flatMap_map]
  exact List.map_eq_flatMap.symm

end Ascii

end ProgramExplorer.Utf16
