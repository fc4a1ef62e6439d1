import ProgramExplorer.InsertionMap
import ProgramExplorer.StateRules

/-!
# Memoised computations

A computation that may fail is run for a key that the cache does not have, and
its result is kept if it succeeds. A key may be dropped at any time.
-/

set_option autoImplicit false

namespace ProgramExplorer.MemoCache
open InsertionMap StateRules

variable {κ ν ε σ τ α : Type} [DecidableEq κ]

abbrev Cache (κ ν : Type) := List (κ × ν)

def orTryInsertWith (key : κ) (init : Except ε ν) : EStateM ε (Cache κ ν) ν := fun cache =>
  match get cache key with
  | some v => .ok v cache
  | none =>
    match init with
    | .ok v => .ok v (set key v cache)
    | .error e => .error e cache

def evict (key : κ) (cache : Cache κ ν) : Cache κ ν := cache.filter fun e => e.1 ≠ key

def within (part : σ → τ) (put : τ → σ → σ) (x : EStateM ε τ α) : EStateM ε σ α := fun s =>
  match x (part s) with
  | .ok a t => .ok a (put t s)
  | .error e t => .error e (put t s)

theorem within_ok {part : σ → τ} {put : τ → σ → σ} {x : EStateM ε τ α} {s : σ} {t : τ} {a : α}
    (h : x (part s) = .ok a t) : within part put x s = .ok a (put t s) := by
  rw [within, h]

theorem within_error {part : σ → τ} {put : τ → σ → σ} {x : EStateM ε τ α} {s : σ} {t : τ} {e : ε}
    (h : x (part s) = .error e t) : within part put x s = .error e (put t s) := by
  rw [within, h]

theorem within_eq_ok {part : σ → τ} {put : τ → σ → σ} {x : EStateM ε τ α} {s s' : σ} {a : α} :
    within part put x s = .ok a s' ↔ ∃ t, x (part s) = .ok a t ∧ s' = put t s := by
  unfold within
  cases x (part s) <;> simp [eq_comm]

theorem orTryInsertWith_hit {key : κ} {cache : Cache κ ν} {v : ν} (h : get cache key = some v)
    (init : Except ε ν) : orTryInsertWith key init cache = .ok v cache := by
  simp only [orTryInsertWith, h]

theorem orTryInsertWith_ok {key : κ} {cache : Cache κ ν} (h : get cache key = none) (v : ν) :
    orTryInsertWith key (.ok v : Except ε ν) cache = .ok v (set key v cache) := by
  rw [orTryInsertWith, h]

theorem orTryInsertWith_error {key : κ} {cache : Cache κ ν} (h : get cache key = none) (e : ε) :
    orTryInsertWith key (.error e : Except ε ν) cache = .error e cache := by
  rw [orTryInsertWith, h]

theorem get_of_orTryInsertWith {key : κ} {init : Except ε ν} {cache cache' : Cache κ ν} {v : ν}
    (h : orTryInsertWith key init cache = .ok v cache') : get cache' key = some v := by
  unfold orTryInsertWith at h
  split at h
  · rename_i hget
    cases h
    exact hget
  · split at h
    · cases h
      rw [get_set, if_pos rfl]
    · cases h

def Extends (base cache : Cache κ ν) : Prop := ∀ k v, get base k = some v → get cache k = some v

theorem triple_orTryInsertWith_extends (base : Cache κ ν) (key : κ) (init : Except ε ν) :
    Triple (Extends base) (orTryInsertWith key init) (fun _ cache => Extends base cache ∧ True)
      (fun _ cache => Extends base cache ∧ True) := by
  intro cache hcache
  unfold orTryInsertWith
  cases hget : get cache key with
  | some v => exact ⟨hcache, trivial⟩
  | none =>
    cases init with
    | error e => exact ⟨hcache, trivial⟩
    | ok v =>
      refine ⟨fun k v' hk => ?_, trivial⟩
      have hne : k ≠ key := by
        rintro rfl
        cases hget.symm.trans (hcache k v' hk)
      rw [get_set, if_neg hne]
      exact hcache k v' hk

theorem get_evict (key k : κ) (cache : Cache κ ν) :
    get (evict key cache) k = if k = key then none else get cache k := by
  induction cache with
  | nil => simp [evict]
  | cons e cache ih =>
    rw [get_cons]
    by_cases he : e.1 = key
    · rw [evict, List.filter_cons_of_neg (by simpa using he)]
      rw [evict] at ih
      rw [ih]
      split_ifs with hk hk' <;> simp_all
    · rw [evict, List.filter_cons_of_pos (by simpa using he), get_cons]
      rw [evict] at ih
      rw [ih]
      split_ifs with hk' hk <;> simp_all

def Backed (P : κ → ν → Prop) (cache : Cache κ ν) : Prop := ∀ k v, get cache k = some v → P k v

variable {P : κ → ν → Prop}

theorem backed_nil : Backed P [] := fun _ _ h => nomatch h

theorem Backed.set {cache : Cache κ ν} (h : Backed P cache) {key : κ} {v : ν} (hv : P key v) :
    Backed P (set key v cache) := by
  intro k w hw
  rw [get_set] at hw
  split_ifs at hw with hk
  · cases hw
    exact hk ▸ hv
  · exact h k w hw

theorem Backed.evict {cache : Cache κ ν} (h : Backed P cache) (key : κ) : Backed P (evict key cache) := by
  intro k v hv
  rw [get_evict] at hv
  split_ifs at hv
  exact h k v hv

/-- What is handed out is a result for the key, whether it was there or not. An
error comes from the computation itself. -/
theorem triple_orTryInsertWith {key : κ} {init : Except ε ν} (h : ∀ v, init = .ok v → P key v) :
    Triple (Backed P) (orTryInsertWith key init) (fun v cache => Backed P cache ∧ P key v)
      (fun e cache => Backed P cache ∧ init = .error e) := by
  intro cache hcache
  cases hget : get cache key with
  | some v =>
    rw [orTryInsertWith_hit hget]
    exact ⟨hcache, hcache key v hget⟩
  | none =>
    cases init with
    | ok v =>
      rw [orTryInsertWith_ok hget]
      exact ⟨hcache.set (h v rfl), h v rfl⟩
    | error e =>
      rw [orTryInsertWith_error hget]
      exact ⟨hcache, rfl⟩

/-- The rest of the state is whatever the rest of the invariant says. -/
theorem triple_within {part : σ → τ} {put : τ → σ → σ} {x : EStateM ε τ α} {I : τ → Prop} {J : σ → Prop}
    {Q : α → Prop} {E : ε → Prop} (hpart : ∀ s, J s → I (part s)) (hput : ∀ s t, J s → I t → J (put t s))
    (h : Triple I x (fun a t => I t ∧ Q a) (fun e t => I t ∧ E e)) :
    Triple J (within part put x) (fun a s => J s ∧ Q a) (fun e s => J s ∧ E e) := by
  intro s hs
  have hx := h (part s) (hpart s hs)
  unfold within
  cases hrun : x (part s) with
  | ok a t =>
    rw [hrun] at hx
    exact ⟨hput s t hs hx.1, hx.2⟩
  | error e t =>
    rw [hrun] at hx
    exact ⟨hput s t hs hx.1, hx.2⟩

end ProgramExplorer.MemoCache
