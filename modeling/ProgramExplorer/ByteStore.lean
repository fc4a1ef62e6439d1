import ProgramExplorer.ByteStrings

/-!
# A seekable byte store

What a writer with a position leaves behind: bytes are overwritten in place,
and a write past the end fills the gap with zeros. `HasAt` says what stands
at an address; it survives every write that does not touch it.
-/

set_option autoImplicit false

namespace ProgramExplorer.ByteStore
open ByteStrings

def overwrite (data : Bytes) (off : ℕ) (bs : Bytes) : Bytes :=
  if bs = [] then data
  else data.take off ++ List.replicate (off - data.length) 0 ++ bs ++ data.drop (off + bs.length)

def HasAt (data : Bytes) (off : ℕ) (bs : Bytes) : Prop :=
  ∀ k, k < bs.length → data[off + k]? = bs[k]?

theorem getElem?_overwrite (data : Bytes) (off : ℕ) (bs : Bytes) (i : ℕ) :
    (overwrite data off bs)[i]? =
      if off ≤ i ∧ i < off + bs.length then bs[i - off]?
      else if i < data.length then data[i]?
      else if i < off ∧ bs ≠ [] then some 0 else none := by
  unfold overwrite
  by_cases hb : bs = []
  · subst hb
    simp only [if_true, List.length_nil, add_zero, ne_eq, not_true_eq_false, and_false, if_false]
    rw [if_neg (by omega)]
    split_ifs with h
    · rfl
    · exact List.getElem?_eq_none (by omega)
  · have hpos : 0 < bs.length := List.length_pos_of_ne_nil hb
    simp only [hb, if_false, ne_eq, not_false_eq_true, and_true]
    simp only [List.getElem?_append, List.length_append, List.length_take, List.length_replicate,
      List.getElem?_take, List.getElem?_replicate, List.getElem?_drop]
    grind

theorem length_overwrite (data : Bytes) (off : ℕ) (bs : Bytes) :
    (overwrite data off bs).length =
      if bs = [] then data.length else max data.length (off + bs.length) := by
  unfold overwrite
  split_ifs with h
  · rfl
  · simp
    omega

theorem overwrite_nil_zero (bs : Bytes) : overwrite [] 0 bs = bs := by
  unfold overwrite
  split_ifs with h
  · exact h.symm
  · simp

theorem hasAt_overwrite (data : Bytes) (off : ℕ) (bs : Bytes) :
    HasAt (overwrite data off bs) off bs := by
  intro k hk
  rw [getElem?_overwrite, if_pos ⟨by omega, by omega⟩]
  simp

theorem HasAt.overwrite {data bs bs' : Bytes} {off off' : ℕ} (h : HasAt data off bs)
    (hd : off + bs.length ≤ off' ∨ off' + bs'.length ≤ off) :
    HasAt (overwrite data off' bs') off bs := by
  intro k hk
  have hlt : off + k < data.length := by
    by_contra hn
    have := h k hk
    rw [List.getElem?_eq_none (by omega), List.getElem?_eq_getElem hk] at this
    cases this
  rw [getElem?_overwrite, if_neg (by omega), if_pos hlt]
  exact h k hk

theorem hasAt_nil (data : Bytes) (off : ℕ) : HasAt data off [] := by
  intro k hk
  simp at hk

theorem hasAt_append (data : Bytes) (off : ℕ) (a b : Bytes) :
    HasAt data off (a ++ b) ↔ HasAt data off a ∧ HasAt data (off + a.length) b := by
  constructor
  · intro h
    constructor
    · intro k hk
      have := h k (by simp; omega)
      rwa [List.getElem?_append_left hk] at this
    · intro k hk
      have := h (a.length + k) (by simp; omega)
      rw [List.getElem?_append_right (by omega)] at this
      simpa [add_assoc] using this
  · rintro ⟨ha, hb⟩ k hk
    by_cases hka : k < a.length
    · rw [List.getElem?_append_left hka]
      exact ha k hka
    · rw [List.getElem?_append_right (by omega)]
      have := hb (k - a.length) (by simp at hk; omega)
      rwa [show off + a.length + (k - a.length) = off + k by omega] at this

theorem hasAt_middle (pre bs post : Bytes) : HasAt (pre ++ (bs ++ post)) pre.length bs := by
  intro k hk
  rw [List.getElem?_append_right (by omega), Nat.add_sub_cancel_left,
    List.getElem?_append_left hk]

theorem HasAt.length_le {data bs : Bytes} {off : ℕ} (h : HasAt data off bs) (hb : bs ≠ []) :
    off + bs.length ≤ data.length := by
  have hpos : 0 < bs.length := List.length_pos_of_ne_nil hb
  have hl := h (bs.length - 1) (by omega)
  by_contra hn
  rw [List.getElem?_eq_none (by omega), List.getElem?_eq_getElem (by omega)] at hl
  cases hl

theorem HasAt.drop_eq {data bs : Bytes} {off : ℕ} (h : HasAt data off bs) :
    ∃ rest, data.drop off = bs ++ rest := by
  refine ⟨data.drop (off + bs.length), ?_⟩
  apply List.ext_getElem?
  intro i
  rw [List.getElem?_append, List.getElem?_drop]
  split_ifs with hi
  · exact h i hi
  · rw [List.getElem?_drop]
    congr 1
    omega

theorem HasAt.slice_eq {data bs : Bytes} {off : ℕ} (h : HasAt data off bs) :
    (data.drop off).take bs.length = bs := by
  obtain ⟨rest, hr⟩ := h.drop_eq
  simp [hr]

def slice? (data : Bytes) (a b : ℕ) : Option Bytes :=
  if a ≤ b ∧ b ≤ data.length then some ((data.drop a).take (b - a)) else none

def from? (data : Bytes) (a : ℕ) : Option Bytes :=
  if a ≤ data.length then some (data.drop a) else none

theorem HasAt.slice? {data bs : Bytes} {off : ℕ} (h : HasAt data off bs)
    (hl : off + bs.length ≤ data.length) : slice? data off (off + bs.length) = some bs := by
  rw [ByteStore.slice?, if_pos ⟨by omega, hl⟩, Nat.add_sub_cancel_left, h.slice_eq]

theorem HasAt.from? {data bs : Bytes} {off : ℕ} (h : HasAt data off bs) (hb : bs ≠ []) :
    ∃ rest, from? data off = some (bs ++ rest) := by
  obtain ⟨rest, hr⟩ := h.drop_eq
  refine ⟨rest, ?_⟩
  have := h.length_le hb
  rw [ByteStore.from?, if_pos (by omega), hr]

theorem hasAt_take_drop (data : Bytes) (a n : ℕ) : HasAt data a ((data.drop a).take n) := by
  intro k hk
  simp only [List.length_take] at hk
  rw [List.getElem?_take, if_pos (by omega), List.getElem?_drop]

theorem slice_eq_some {data bs : Bytes} {a b : ℕ} (h : slice? data a b = some bs) :
    HasAt data a bs ∧ a + bs.length = b := by
  unfold slice? at h
  split_ifs at h with hle
  cases h
  refine ⟨hasAt_take_drop data a (b - a), ?_⟩
  simp only [List.length_take, List.length_drop]
  omega

theorem from_eq_some {data bs : Bytes} {a : ℕ} (h : from? data a = some bs) : HasAt data a bs := by
  unfold from? at h
  split_ifs at h
  cases h
  intro k _
  rw [List.getElem?_drop]

structure Writer where
  data : Bytes
  pos : ℕ

def Writer.writeAll (w : Writer) (bs : Bytes) : Writer :=
  ⟨overwrite w.data w.pos bs, w.pos + bs.length⟩

def Writer.seek (w : Writer) (pos : ℕ) : Writer := { w with pos := pos }

@[simp] theorem Writer.writeAll_pos (w : Writer) (bs : Bytes) :
    (w.writeAll bs).pos = w.pos + bs.length := rfl

@[simp] theorem Writer.seek_pos (w : Writer) (p : ℕ) : (w.seek p).pos = p := rfl

@[simp] theorem Writer.seek_data (w : Writer) (p : ℕ) : (w.seek p).data = w.data := rfl

theorem Writer.hasAt_writeAll (w : Writer) (bs : Bytes) : HasAt (w.writeAll bs).data w.pos bs :=
  hasAt_overwrite _ _ _

theorem Writer.length_writeAll_le (w : Writer) (bs : Bytes) :
    (w.writeAll bs).data.length ≤ max w.data.length (w.pos + bs.length) := by
  rw [Writer.writeAll, length_overwrite]
  split_ifs <;> omega

theorem Writer.writeAll_append (w : Writer) (a b : Bytes) :
    (w.writeAll a).writeAll b = w.writeAll (a ++ b) := by
  have hd : (overwrite (overwrite w.data w.pos a) (w.pos + a.length) b) =
      overwrite w.data w.pos (a ++ b) := by
    apply List.ext_getElem?
    intro i
    simp only [getElem?_overwrite, length_overwrite, List.length_append, List.getElem?_append]
    have ha : a = [] ↔ a.length = 0 := List.length_eq_zero_iff.symm
    have hb : b = [] ↔ b.length = 0 := List.length_eq_zero_iff.symm
    have hab : a ++ b = [] ↔ a.length + b.length = 0 := by
      rw [← List.length_eq_zero_iff, List.length_append]
    grind
  simp [Writer.writeAll, hd, add_assoc]

end ProgramExplorer.ByteStore
