import Mathlib.Data.List.Lex
import Mathlib.Tactic

/-!
# Byte strings

A byte string is a list of bytes, ordered byte by byte as `memcmp` orders
them: the first differing byte decides and a proper initial part is smaller.
-/

set_option autoImplicit false

namespace ProgramExplorer.ByteStrings

abbrev Bytes := List UInt8

instance instLinearOrderByte : LinearOrder UInt8 where
  le := (· ≤ ·)
  lt := (· < ·)
  le_refl := UInt8.le_refl
  le_trans _ _ _ := UInt8.le_trans
  le_antisymm _ _ := UInt8.le_antisymm
  le_total := UInt8.le_total
  lt_iff_le_not_ge a b := by
    simp only [UInt8.lt_iff_toNat_lt, UInt8.le_iff_toNat_le]
    omega
  toDecidableLE := inferInstance

theorem lt_append_cons {α : Type} [LinearOrder α] (a : List α) (c : α) (r : List α) : a < a ++ c :: r := by
  induction a with
  | nil => exact List.nil_lt_cons c r
  | cons b a ih => exact List.cons_lt_cons_iff.mpr (Or.inr ⟨rfl, ih⟩)

theorem prefix_lt {α : Type} [LinearOrder α] {a b : List α} (h : a <+: b) (hne : a ≠ b) : a < b := by
  obtain ⟨r, rfl⟩ := h
  cases r with
  | nil => simp at hne
  | cons c r => exact lt_append_cons a c r

/-- A separator that is in neither front tells where the front ends. -/
theorem append_cons_inj {α : Type} {c : α} {x y z w : List α} (hx : c ∉ x) (hy : c ∉ y)
    (h : x ++ c :: z = y ++ c :: w) : x = y ∧ z = w := by
  rcases List.append_eq_append_iff.mp h with ⟨r, rfl, hr⟩ | ⟨r, rfl, hr⟩
  · cases r with
    | nil => exact ⟨by simp, (List.cons.inj hr).2⟩
    | cons d r =>
      rw [(List.cons.inj hr).1] at hy
      exact absurd (by simp) hy
  · cases r with
    | nil => exact ⟨by simp, (List.cons.inj hr).2.symm⟩
    | cons d r =>
      rw [(List.cons.inj hr).1] at hx
      exact absurd (by simp) hx

end ProgramExplorer.ByteStrings
