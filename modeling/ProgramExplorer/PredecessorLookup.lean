import ProgramExplorer.OrderedMap

/-!
# Looking a key up by its predecessor

A set of keys may lie above a key `q`, all of them smaller than `q`. A lookup
of the last key not after `q` finds `q` itself if it is there. Otherwise it
finds the last of the keys above `q`, unless another key stands between the
two, and then it finds one that is not above `q`.
-/

set_option autoImplicit false

namespace ProgramExplorer.PredecessorLookup
open OrderedMap

variable {κ σ : Type} [LinearOrder κ] {m : OrdMap κ σ} {q a : κ} {s : σ} {above : κ → Prop}

structure Deepest (m : OrdMap κ σ) (above : κ → Prop) (a : κ) (s : σ) : Prop where
  get : m.get? a = some s
  isAbove : above a
  last : ∀ a', (m.get? a').isSome → above a' → a' ≤ a

def Between (m : OrdMap κ σ) (a q : κ) : Prop := ∃ k, (m.get? k).isSome ∧ a < k ∧ k < q

/-- The lookup finds a key that is neither `q` nor above it, or none. -/
def Misses (m : OrdMap κ σ) (q : κ) (above : κ → Prop) : Prop :=
  ∀ k s, m.lastLE q = some (k, s) → k ≠ q ∧ ¬ above k

theorem lastLE_self (h : m.get? q = some s) : m.lastLE q = some (q, s) := by
  cases hl : m.lastLE q with
  | none => exact absurd le_rfl (m.lastLE_eq_none q hl q (by simp [h]))
  | some e =>
    obtain ⟨k, t⟩ := e
    obtain ⟨hk, hle, hmax⟩ := m.lastLE_eq_some q k t hl
    obtain rfl : k = q := le_antisymm hle (hmax q (by simp [h]) le_rfl)
    rw [h] at hk
    rw [Option.some.inj hk]

theorem ne_of_lastLE {k : κ} {t : σ} (hq : m.get? q = none) (hl : m.lastLE q = some (k, t)) : k ≠ q := by
  rintro rfl
  obtain ⟨hk, -⟩ := m.lastLE_eq_some k k t hl
  rw [hq] at hk
  cases hk

theorem lastLE_of_deepest (hq : m.get? q = none) (hlt : ∀ a, above a → a < q)
    (hd : Deepest m above a s) (hb : ¬ Between m a q) : m.lastLE q = some (a, s) := by
  have haq := hlt a hd.isAbove
  cases hl : m.lastLE q with
  | none => exact absurd haq.le (m.lastLE_eq_none q hl a (by simp [hd.get]))
  | some e =>
    obtain ⟨k, t⟩ := e
    obtain ⟨hk, hle, hmax⟩ := m.lastLE_eq_some q k t hl
    have hak : a ≤ k := hmax a (by simp [hd.get]) haq.le
    have hkq : k < q := lt_of_le_of_ne hle (ne_of_lastLE hq hl)
    by_cases hne : a = k
    · subst hne
      rw [hd.get] at hk
      rw [Option.some.inj hk]
    · exact absurd ⟨k, by simp [hk], lt_of_le_of_ne hak hne, hkq⟩ hb

theorem misses_of_between (hq : m.get? q = none) (hd : Deepest m above a s) (hb : Between m a q) :
    Misses m q above := by
  intro k t hl
  obtain ⟨hk, hle, hmax⟩ := m.lastLE_eq_some q k t hl
  obtain ⟨k', hk', hak, hkq⟩ := hb
  refine ⟨ne_of_lastLE hq hl, ?_⟩
  intro habove
  have h₁ : k ≤ a := hd.last k (by simp [hk]) habove
  have h₂ : k' ≤ k := hmax k' hk' hkq.le
  exact absurd (hak.trans_le (h₂.trans h₁)) (lt_irrefl a)

theorem misses_of_none (hq : m.get? q = none) (h : ∀ a, (m.get? a).isSome → ¬ above a) :
    Misses m q above := by
  intro k t hl
  obtain ⟨hk, -⟩ := m.lastLE_eq_some q k t hl
  exact ⟨ne_of_lastLE hq hl, h k (by simp [hk])⟩

theorem exists_deepest (ha : (m.get? a).isSome) (habove : above a) : ∃ a s, Deepest m above a s := by
  classical
  let keys := (m.entries.map (·.1)).toFinset.filter above
  have hmem : ∀ k, k ∈ keys ↔ (m.get? k).isSome ∧ above k := by
    intro k
    simp only [keys, Finset.mem_filter, List.mem_toFinset, List.mem_map, Prod.exists,
      exists_and_right, exists_eq_right, Option.isSome_iff_exists, m.get?_eq_some_iff]
  obtain ⟨b, hb, hmax⟩ := keys.exists_max_image id ⟨a, (hmem a).mpr ⟨ha, habove⟩⟩
  obtain ⟨hsome, hb'⟩ := (hmem b).mp hb
  obtain ⟨s, hs⟩ := Option.isSome_iff_exists.mp hsome
  exact ⟨b, s, hs, hb', fun a' h h' => hmax a' ((hmem a').mpr ⟨h, h'⟩)⟩

theorem deepest_unique {b : κ} {t : σ} (ha : Deepest m above a s) (hb : Deepest m above b t) :
    a = b ∧ s = t := by
  obtain rfl : a = b := le_antisymm (hb.last a (by simp [ha.get]) ha.isAbove)
    (ha.last b (by simp [hb.get]) hb.isAbove)
  exact ⟨rfl, Option.some.inj (ha.get.symm.trans hb.get)⟩

end ProgramExplorer.PredecessorLookup
