import Mathlib.Data.List.Lex
import Mathlib.Tactic

/-!
# Ordered maps

A map is the list of its entries in strictly increasing key order. `upsert`
visits the one entry of a key, or creates it; `lastLE` is the last entry of
the range of keys up to and including a bound. Only the bindings matter to a
reader of the map, so the lemmas speak of `get?` and membership.
-/

set_option autoImplicit false

namespace ProgramExplorer.OrderedMap

variable {α β : Type} [LinearOrder α]

structure OrdMap (α β : Type) [LinearOrder α] where
  entries : List (α × β)
  sorted : entries.Pairwise (fun a b => a.1 < b.1)

def OrdMap.empty : OrdMap α β := ⟨[], List.Pairwise.nil⟩

def upsertList (k : α) (f : Option β → β) : List (α × β) → List (α × β)
  | [] => [(k, f none)]
  | e :: rest =>
    if k < e.1 then (k, f none) :: e :: rest
    else if k = e.1 then (k, f (some e.2)) :: rest
    else e :: upsertList k f rest

theorem mem_upsertList_key (k : α) (f : Option β → β) (es : List (α × β)) (e : α × β)
    (h : e ∈ upsertList k f es) : e.1 = k ∨ e ∈ es := by
  induction es with
  | nil => simp only [upsertList, List.mem_singleton] at h; simp [h]
  | cons a rest ih =>
    simp only [upsertList] at h
    split_ifs at h with hlt heq
    · rcases List.mem_cons.mp h with rfl | h
      · exact Or.inl rfl
      · exact Or.inr h
    · rcases List.mem_cons.mp h with rfl | h
      · exact Or.inl rfl
      · exact Or.inr (List.mem_cons_of_mem _ h)
    · rcases List.mem_cons.mp h with rfl | h
      · exact Or.inr List.mem_cons_self
      · exact (ih h).imp_right (List.mem_cons_of_mem _)

theorem upsertList_ne_nil (k : α) (f : Option β → β) (es : List (α × β)) :
    upsertList k f es ≠ [] := by
  cases es with
  | nil => simp [upsertList]
  | cons e rest =>
    rw [upsertList]
    split_ifs <;> simp

theorem upsertList_sorted (k : α) (f : Option β → β) (es : List (α × β))
    (h : es.Pairwise (fun a b => a.1 < b.1)) :
    (upsertList k f es).Pairwise (fun a b => a.1 < b.1) := by
  induction es with
  | nil => simp [upsertList]
  | cons a rest ih =>
    obtain ⟨ha, hr⟩ := List.pairwise_cons.mp h
    simp only [upsertList]
    split_ifs with hlt heq
    · refine List.pairwise_cons.mpr ⟨?_, h⟩
      intro b hb
      rcases List.mem_cons.mp hb with rfl | hb
      · exact hlt
      · exact hlt.trans (ha b hb)
    · exact List.pairwise_cons.mpr ⟨fun b hb => heq ▸ ha b hb, hr⟩
    · refine List.pairwise_cons.mpr ⟨?_, ih hr⟩
      intro b hb
      rcases mem_upsertList_key k f rest b hb with hk | hb
      · rw [hk]
        exact lt_of_le_of_ne (not_lt.mp hlt) (Ne.symm heq)
      · exact ha b hb

/-- Rust's `entry(k).and_modify(..).or_insert(..)`: `f` sees the value stored
under the key, if there is one, and gives the value to store. -/
def OrdMap.upsert (m : OrdMap α β) (k : α) (f : Option β → β) : OrdMap α β :=
  ⟨upsertList k f m.entries, upsertList_sorted k f m.entries m.sorted⟩

def lookup (k : α) : List (α × β) → Option β
  | [] => none
  | e :: rest => if e.1 = k then some e.2 else lookup k rest

def OrdMap.get? (m : OrdMap α β) (k : α) : Option β := lookup k m.entries

theorem mem_of_lookup {k : α} {v : β} {es : List (α × β)} (h : lookup k es = some v) : (k, v) ∈ es := by
  induction es with
  | nil => cases h
  | cons e es ih =>
    rw [lookup] at h
    split_ifs at h with he
    · cases h
      exact he ▸ List.mem_cons_self
    · exact List.mem_cons_of_mem _ (ih h)

theorem lookup_eq_none_of_lt (k : α) (es : List (α × β)) (h : ∀ e ∈ es, k < e.1) :
    lookup k es = none := by
  induction es with
  | nil => rfl
  | cons a rest ih =>
    have ha : a.1 ≠ k := (h a (by simp)).ne'
    simpa [lookup, ha] using ih (fun e he => h e (by simp [he]))

theorem lookup_upsertList (k k' : α) (f : Option β → β) (es : List (α × β))
    (h : es.Pairwise (fun a b => a.1 < b.1)) :
    lookup k' (upsertList k f es) = if k' = k then some (f (lookup k es)) else lookup k' es := by
  induction es with
  | nil =>
    by_cases hk : k' = k
    · simp [upsertList, lookup, hk]
    · simp [upsertList, lookup, hk, Ne.symm hk]
  | cons a rest ih =>
    obtain ⟨ha, hr⟩ := List.pairwise_cons.mp h
    rcases lt_trichotomy k a.1 with hlt | heq | hgt
    · have hn : lookup k (a :: rest) = none := by
        refine lookup_eq_none_of_lt k (a :: rest) ?_
        intro e he
        rcases List.mem_cons.mp he with rfl | he
        · exact hlt
        · exact hlt.trans (ha e he)
      rw [hn, upsertList, if_pos hlt, lookup]
      exact if_congr eq_comm rfl rfl
    · rw [upsertList, if_neg heq.not_lt, if_pos heq, lookup, lookup, lookup, if_pos heq.symm]
      by_cases hk : k' = k
      · simp [hk]
      · simp [hk, Ne.symm hk, ← heq]
    · rw [upsertList, if_neg hgt.not_gt, if_neg hgt.ne', lookup, lookup, lookup, ih hr,
        if_neg hgt.ne]
      by_cases hk : k' = k
      · simp [hk, hgt.ne]
      · simp [hk]

/-- Storing a value needs no order: the first entry of the key is the one found. -/
theorem lookup_upsertList_const (k k' : α) (v : β) (es : List (α × β)) :
    lookup k' (upsertList k (fun _ => v) es) = if k' = k then some v else lookup k' es := by
  induction es with
  | nil => simp [upsertList, lookup, eq_comm]
  | cons a rest ih =>
    rw [upsertList]
    by_cases hk : k' = k
    · subst hk
      rw [if_pos rfl] at ih ⊢
      split_ifs with hlt heq
      · simp [lookup]
      · simp [lookup]
      · simp [lookup, ih, Ne.symm heq]
    · rw [if_neg hk] at ih ⊢
      split_ifs with hlt heq
      · simp [lookup, Ne.symm hk]
      · simp [lookup, Ne.symm hk, ← heq]
      · simp [lookup, ih]

/-- A second value stored under a key takes the place of the first. -/
theorem upsertList_const_twice (k : α) (v w : β) (es : List (α × β)) :
    upsertList k (fun _ => w) (upsertList k (fun _ => v) es) = upsertList k (fun _ => w) es := by
  induction es with
  | nil => simp [upsertList]
  | cons a rest ih =>
    rw [upsertList, upsertList]
    split_ifs with hlt heq
    · simp [upsertList]
    · simp [upsertList]
    · rw [upsertList, if_neg hlt, if_neg heq, ih]

theorem OrdMap.get?_upsert (m : OrdMap α β) (k k' : α) (f : Option β → β) :
    (m.upsert k f).get? k' = if k' = k then some (f (m.get? k)) else m.get? k' :=
  lookup_upsertList k k' f m.entries m.sorted

theorem lookup_eq_some_iff (k : α) (v : β) (es : List (α × β))
    (h : es.Pairwise (fun a b => a.1 < b.1)) : lookup k es = some v ↔ (k, v) ∈ es := by
  induction es with
  | nil => simp [lookup]
  | cons a rest ih =>
    obtain ⟨ha, hr⟩ := List.pairwise_cons.mp h
    simp only [lookup]
    split_ifs with hk
    · constructor
      · intro he
        cases Option.some.inj he
        simp [← hk]
      · intro he
        rcases List.mem_cons.mp he with rfl | he
        · rfl
        · exact absurd (ha _ he) (by simp [hk])
    · rw [ih hr]
      constructor
      · exact List.mem_cons_of_mem _
      · intro he
        rcases List.mem_cons.mp he with rfl | he
        · exact absurd rfl hk
        · exact he

theorem upsertList_of_lookup {k : α} {v : β} {es : List (α × β)}
    (h : es.Pairwise (fun a b => a.1 < b.1)) (hk : lookup k es = some v) :
    upsertList k (fun _ => v) es = es := by
  induction es with
  | nil => cases hk
  | cons a rest ih =>
    obtain ⟨ha, hr⟩ := List.pairwise_cons.mp h
    rw [lookup] at hk
    split_ifs at hk with heq
    · cases hk
      subst heq
      rw [upsertList, if_neg (lt_irrefl _), if_pos rfl]
    · have hlt : a.1 < k := ha _ ((lookup_eq_some_iff k v rest hr).mp hk)
      rw [upsertList, if_neg hlt.not_gt, if_neg hlt.ne', ih hr hk]

theorem OrdMap.get?_eq_some_iff (m : OrdMap α β) (k : α) (v : β) :
    m.get? k = some v ↔ (k, v) ∈ m.entries :=
  lookup_eq_some_iff k v m.entries m.sorted

def OrdMap.lastLE (m : OrdMap α β) (p : α) : Option (α × β) :=
  (m.entries.filter (fun e => e.1 ≤ p)).getLast?

theorem OrdMap.lastLE_eq_some (m : OrdMap α β) (p k : α) (v : β) (h : m.lastLE p = some (k, v)) :
    m.get? k = some v ∧ k ≤ p ∧ ∀ k', (m.get? k').isSome → k' ≤ p → k' ≤ k := by
  obtain ⟨front, hf⟩ := List.getLast?_eq_some_iff.mp h
  have hmem : ∀ e, e ∈ m.entries ∧ e.1 ≤ p ↔ e ∈ front ++ [(k, v)] := by
    intro e
    rw [← hf]
    simp
  have hs : (front ++ [(k, v)]).Pairwise (fun a b => a.1 < b.1) := by
    rw [← hf]
    exact m.sorted.filter _
  obtain ⟨hk, hkp⟩ := (hmem (k, v)).mpr (by simp)
  refine ⟨(m.get?_eq_some_iff k v).mpr hk, hkp, ?_⟩
  intro k' hk' hle
  obtain ⟨v', hv'⟩ := Option.isSome_iff_exists.mp hk'
  have hin := (hmem (k', v')).mp ⟨(m.get?_eq_some_iff k' v').mp hv', hle⟩
  rcases List.mem_append.mp hin with hin | hin
  · exact ((List.pairwise_append.mp hs).2.2 _ hin (k, v) (by simp)).le
  · cases List.mem_singleton.mp hin
    exact le_rfl

theorem OrdMap.lastLE_eq_none (m : OrdMap α β) (p : α) (h : m.lastLE p = none) :
    ∀ k, (m.get? k).isSome → ¬ k ≤ p := by
  intro k hk hle
  obtain ⟨v, hv⟩ := Option.isSome_iff_exists.mp hk
  have hnil : m.entries.filter (fun e => e.1 ≤ p) = [] := List.getLast?_eq_none_iff.mp h
  have hin : (k, v) ∈ m.entries.filter (fun e => e.1 ≤ p) := by
    simp [(m.get?_eq_some_iff k v).mp hv, hle]
  simp [hnil] at hin

end ProgramExplorer.OrderedMap
