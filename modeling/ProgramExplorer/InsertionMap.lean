import Mathlib.Tactic

/-!
# Maps in insertion order

A map whose entries stand in the order in which their keys were first set, as
a JavaScript `Map` keeps them. Setting a key that is there changes its value
and leaves its place.
-/

set_option autoImplicit false

namespace ProgramExplorer.InsertionMap

variable {κ ν : Type} [DecidableEq κ]

def get (m : List (κ × ν)) (k : κ) : Option ν := m.lookup k

def set (k : κ) (v : ν) : List (κ × ν) → List (κ × ν)
  | [] => [(k, v)]
  | e :: m => if e.1 = k then (k, v) :: m else e :: set k v m

@[simp] theorem get_nil (k : κ) : get ([] : List (κ × ν)) k = none := rfl

theorem get_cons (e : κ × ν) (m : List (κ × ν)) (k : κ) :
    get (e :: m) k = if k = e.1 then some e.2 else get m k := by
  obtain ⟨key, v⟩ := e
  by_cases h : k = key
  · simp [get, h]
  · simp [get, List.lookup_cons, beq_false_of_ne h, h]

theorem get_set (m : List (κ × ν)) (k k' : κ) (v : ν) :
    get (set k v m) k' = if k' = k then some v else get m k' := by
  induction m with
  | nil => rw [set, get_cons]
  | cons e m ih =>
    rw [set]
    split_ifs with he hk hk
    · rw [get_cons, if_pos hk]
    · rw [get_cons, get_cons, if_neg hk, if_neg (he ▸ hk)]
    · rw [get_cons, if_neg (fun h => he (h.symm.trans hk)), ih, if_pos hk]
    · rw [get_cons, get_cons, ih, if_neg hk]

def Unique (m : List (κ × ν)) : Prop := (m.map (·.1)).Nodup

theorem get_eq_some_iff {m : List (κ × ν)} (h : Unique m) {k : κ} {v : ν} :
    get m k = some v ↔ (k, v) ∈ m := by
  induction m with
  | nil => simp
  | cons e m ih =>
    obtain ⟨hfresh, hm⟩ := List.nodup_cons.mp h
    rw [get_cons, List.mem_cons]
    by_cases hk : k = e.1
    · subst hk
      rw [if_pos rfl, Option.some.injEq]
      constructor
      · rintro rfl
        exact Or.inl rfl
      · rintro (he | hmem)
        · rw [← he]
        · exact absurd (List.mem_map_of_mem hmem) hfresh
    · rw [if_neg hk, ih hm]
      refine ⟨Or.inr, fun hmem => hmem.resolve_left fun he => hk ?_⟩
      rw [← he]

theorem mem_keys_set {m : List (κ × ν)} {k k' : κ} {v : ν} (h : k' ∈ (set k v m).map (·.1)) :
    k' = k ∨ k' ∈ m.map (·.1) := by
  induction m with
  | nil => simpa [set] using h
  | cons e m ih =>
    rw [set] at h
    split_ifs at h with he
    · rw [List.map_cons, List.mem_cons] at h ⊢
      exact h.imp_right Or.inr
    · rw [List.map_cons, List.mem_cons] at h ⊢
      rcases h with rfl | h
      · exact Or.inr (Or.inl rfl)
      · exact (ih h).imp_right Or.inr

theorem unique_set {m : List (κ × ν)} (h : Unique m) (k : κ) (v : ν) : Unique (set k v m) := by
  induction m with
  | nil => simp [set, Unique]
  | cons e m ih =>
    obtain ⟨hfresh, hm⟩ := List.nodup_cons.mp h
    rw [set]
    split_ifs with he
    · subst he
      exact List.nodup_cons.mpr ⟨hfresh, hm⟩
    · refine List.nodup_cons.mpr ⟨fun hmem => ?_, ih hm⟩
      exact (mem_keys_set hmem).elim he hfresh

/-- A value that is found after setting a key is the new one or was there. -/
theorem mem_set {m : List (κ × ν)} {k : κ} {v : ν} {e : κ × ν} (h : e ∈ set k v m) :
    e = (k, v) ∨ e ∈ m := by
  induction m with
  | nil => simpa [set] using h
  | cons e' m ih =>
    rw [set] at h
    split_ifs at h with he
    · exact (List.mem_cons.mp h).imp_right (List.mem_cons_of_mem _)
    · rcases List.mem_cons.mp h with rfl | h
      · exact Or.inr List.mem_cons_self
      · exact (ih h).imp_right (List.mem_cons_of_mem _)

end ProgramExplorer.InsertionMap
