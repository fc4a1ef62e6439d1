import Mathlib.Logic.Function.Basic
import Mathlib.Tactic

/-!
# A map filled from a list

Values go into a map one after the other, each under its key. What is found
under a key is the last value of the list that has it, or else what the map
held before.
-/

set_option autoImplicit false

namespace ProgramExplorer.KeyedInserts

variable {α κ : Type} [DecidableEq κ] {key : α → κ} {m : κ → Option α} {xs : List α} {x y : α} {k : κ}

def insertAll (key : α → κ) (m : κ → Option α) (xs : List α) : κ → Option α :=
  xs.foldl (fun m x => Function.update m (key x) (some x)) m

def latest (key : α → κ) (xs : List α) (k : κ) : Option α := xs.reverse.find? fun x => key x = k

theorem insertAll_apply (xs : List α) (k : κ) : insertAll key m xs k = (latest key xs k).or (m k) := by
  induction xs using List.reverseRecOn with
  | nil => rfl
  | append_singleton xs x ih =>
    rw [insertAll, List.foldl_concat, ← insertAll, latest, List.reverse_concat, List.find?_cons]
    by_cases hk : key x = k
    · simp [hk]
    · rw [Function.update_of_ne (Ne.symm hk), ih, decide_eq_false hk]
      rfl

theorem latest_eq_some (h : latest key xs k = some x) : x ∈ xs ∧ key x = k := by
  have hmem := List.mem_of_find?_eq_some h
  have hkey := List.find?_some h
  exact ⟨List.mem_reverse.mp hmem, of_decide_eq_true hkey⟩

theorem latest_of_mem (h : x ∈ xs) : ∃ y, latest key xs (key x) = some y := by
  have hsome : (latest key xs (key x)).isSome := by
    rw [latest, List.find?_isSome]
    exact ⟨x, List.mem_reverse.mpr h, by simp⟩
  exact Option.isSome_iff_exists.mp hsome

/-- A value stays under its key if no other value with that key goes in. -/
theorem insertAll_of_alone (h : ∀ y ∈ xs, key y = key x → y = x) (hx : x ∈ xs ∨ m (key x) = some x) :
    insertAll key m xs (key x) = some x := by
  rw [insertAll_apply]
  cases hl : latest key xs (key x) with
  | some y =>
    obtain ⟨hy, hkey⟩ := latest_eq_some hl
    exact congrArg some (h y hy hkey)
  | none =>
    rcases hx with hx | hx
    · obtain ⟨y, hy⟩ : ∃ y, latest key xs (key x) = some y := latest_of_mem hx
      rw [hl] at hy
      cases hy
    · exact hx

theorem insertAll_eq_self_iff :
    insertAll key m xs = m ↔ ∀ k x, latest key xs k = some x → m k = some x := by
  constructor
  · intro h k x hx
    have hk : insertAll key m xs k = (latest key xs k).or (m k) := insertAll_apply xs k
    rw [h, hx] at hk
    exact hk
  · intro h
    funext k
    rw [insertAll_apply]
    cases hx : latest key xs k with
    | none => rfl
    | some x => exact (h k x hx).symm

end ProgramExplorer.KeyedInserts
