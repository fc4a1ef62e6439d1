import ProgramExplorer.Transitions

/-!
# Processes that take turns

Processes share a state. In a step one of them advances and may change what
they share; a schedule is the list of the processes that step, one after the
other. A schedule ends when every step makes a rank smaller, and what each
process relies on is kept if the steps of the others respect it.
-/

set_option autoImplicit false

namespace ProgramExplorer.Interleavings
open Transitions

structure System (δ π : Type) where
  shared : δ
  procs : List π
  deriving DecidableEq

variable {δ π : Type} (advance : π → δ → Option (π × δ))

def step (s : System δ π) (i : ℕ) : Option (System δ π) := do
  let p ← s.procs[i]?
  let (p, d) ← advance p s.shared
  some ⟨d, s.procs.set i p⟩

def run (s : System δ π) (schedule : List ℕ) : Option (System δ π) := schedule.foldlM (step advance) s

def Finished (s : System δ π) : Prop := ∀ p ∈ s.procs, advance p s.shared = none

variable {advance} {s t : System δ π} {i : ℕ} {schedule : List ℕ}

theorem step_eq_some : step advance s i = some t ↔
    ∃ p p' d, s.procs[i]? = some p ∧ advance p s.shared = some (p', d) ∧ t = ⟨d, s.procs.set i p'⟩ := by
  unfold step
  simp only [Option.bind_eq_bind, Option.bind_eq_some_iff, Prod.exists, Option.some.injEq]
  constructor
  · rintro ⟨p, hp, p', d, ha, rfl⟩
    exact ⟨p, p', d, hp, ha, rfl⟩
  · rintro ⟨p, p', d, hp, ha, rfl⟩
    exact ⟨p, hp, p', d, ha, rfl⟩

theorem step_of_advance {p p' : π} {d : δ} (hp : s.procs[i]? = some p)
    (ha : advance p s.shared = some (p', d)) :
    ∃ t, step advance s i = some t ∧ t.shared = d ∧ t.procs[i]? = some p' ∧
      ∀ j, j ≠ i → t.procs[j]? = s.procs[j]? := by
  refine ⟨_, step_eq_some.mpr ⟨p, p', d, hp, ha, rfl⟩, rfl, ?_, fun j hj => List.getElem?_set_ne hj.symm⟩
  exact List.getElem?_set_self (List.getElem?_eq_some_iff.mp hp).1

section Rank

variable {rank : π → ℕ} (hrank : ∀ p d p' d', advance p d = some (p', d') → rank p' < rank p)
include hrank

theorem total_lt (h : step advance s i = some t) : (t.procs.map rank).sum < (s.procs.map rank).sum := by
  obtain ⟨p, p', d, hp, ha, rfl⟩ := step_eq_some.mp h
  obtain ⟨hi, hget⟩ := List.getElem?_eq_some_iff.mp hp
  have hlt := hrank _ _ _ _ ha
  have hsplit : s.procs = s.procs.take i ++ p :: s.procs.drop (i + 1) := by
    rw [← hget, List.cons_getElem_drop_succ, List.take_append_drop]
  have hset : s.procs.set i p' = s.procs.take i ++ p' :: s.procs.drop (i + 1) :=
    List.set_eq_take_append_cons_drop.trans (if_pos hi)
  rw [hset]
  conv_rhs => rw [hsplit]
  simp only [List.map_append, List.map_cons, List.sum_append, List.sum_cons]
  omega

theorem length_add_total_le (h : run advance s schedule = some t) :
    schedule.length + (t.procs.map rank).sum ≤ (s.procs.map rank).sum := by
  induction schedule using List.reverseRecOn generalizing t with
  | nil =>
    cases h
    simp
  | append_singleton schedule i ih =>
    obtain ⟨u, hu, hlast⟩ := foldlM_concat.mp h
    have hle := ih hu
    have hlt := total_lt hrank hlast
    rw [List.length_append, List.length_singleton]
    omega

theorem exists_finished (s : System δ π) :
    ∃ schedule t, run advance s schedule = some t ∧ Finished advance t := by
  induction hn : (s.procs.map rank).sum using Nat.strong_induction_on generalizing s with
  | _ n ih =>
    subst hn
    by_cases hfin : Finished advance s
    · exact ⟨[], s, rfl, hfin⟩
    obtain ⟨p, hp, hne⟩ : ∃ p ∈ s.procs, advance p s.shared ≠ none := by
      by_contra hnone
      refine hfin fun p hp => ?_
      by_contra hne
      exact hnone ⟨p, hp, hne⟩
    obtain ⟨⟨p', d⟩, ha⟩ := Option.ne_none_iff_exists'.mp hne
    obtain ⟨i, hi⟩ := List.mem_iff_getElem?.mp hp
    have hstep : step advance s i = some ⟨d, s.procs.set i p'⟩ :=
      step_eq_some.mpr ⟨p, p', d, hi, ha, rfl⟩
    obtain ⟨schedule, t, hrun, ht⟩ := ih _ (total_lt hrank hstep) _ rfl
    refine ⟨i :: schedule, t, ?_, ht⟩
    rw [run, List.foldlM_cons, hstep]
    exact hrun

end Rank

theorem getElem_of_ended {j : ℕ} {p : π} (hend : ∀ d, advance p d = none) (hj : s.procs[j]? = some p)
    (h : run advance s schedule = some t) : t.procs[j]? = some p := by
  refine keeps_of_run (P := fun s => s.procs[j]? = some p) (Q := fun _ => True) ?_ (by simp) hj h
  intro s i t _ hs hstep
  obtain ⟨q, q', d, hq, ha, rfl⟩ := step_eq_some.mp hstep
  have hij : i ≠ j := by
    rintro rfl
    cases hq.symm.trans hs
    rw [hend] at ha
    cases ha
  rw [List.getElem?_set_ne hij]
  exact hs

section Invariant

variable {κ : Type} {label : π → κ} {Inv : δ → π → Prop}

theorem labels_of_run (hlabel : ∀ p d p' d', advance p d = some (p', d') → label p' = label p)
    (h : run advance s schedule = some t) : t.procs.map label = s.procs.map label := by
  refine keeps_of_run (P := fun u => u.procs.map label = s.procs.map label) (Q := fun _ => True) ?_
    (by simp) rfl h
  intro u i v _ hu hstep
  obtain ⟨p, p', d, hp, ha, rfl⟩ := step_eq_some.mp hstep
  obtain ⟨hi, hget⟩ := List.getElem?_eq_some_iff.mp hp
  rw [← hu]
  refine List.ext_getElem (by simp) fun j hj hj' => ?_
  simp only [List.getElem_map, List.getElem_set]
  split_ifs with hij
  · subst hij
    rw [hlabel _ _ _ _ ha, hget]
  · rfl

/-- What each process relies on holds throughout, if its own steps give it
again and the steps of the processes with another label leave it alone. -/
theorem invariant_of_run (hlabel : ∀ p d p' d', advance p d = some (p', d') → label p' = label p)
    (hown : ∀ p d p' d', advance p d = some (p', d') → Inv d p → Inv d' p')
    (hother : ∀ p d p' d' q, advance p d = some (p', d') → label p ≠ label q → Inv d p → Inv d q → Inv d' q)
    (hnodup : (s.procs.map label).Nodup) (hs : ∀ p ∈ s.procs, Inv s.shared p)
    (h : run advance s schedule = some t) : ∀ p ∈ t.procs, Inv t.shared p := by
  induction schedule using List.reverseRecOn generalizing t with
  | nil =>
    cases h
    exact hs
  | append_singleton schedule i ih =>
    obtain ⟨u, hu, hlast⟩ := foldlM_concat.mp h
    have hinv := ih hu
    have hn : (u.procs.map label).Nodup := by
      rw [labels_of_run hlabel hu]
      exact hnodup
    obtain ⟨p, p', d, hp, ha, rfl⟩ := step_eq_some.mp hlast
    obtain ⟨hi, hget⟩ := List.getElem?_eq_some_iff.mp hp
    have hmem : p ∈ u.procs := List.mem_of_getElem? hp
    intro q hq
    obtain ⟨j, hj, hqj⟩ := List.getElem_of_mem hq
    rw [List.getElem_set] at hqj
    split_ifs at hqj with hij
    · subst hqj
      exact hown _ _ _ _ ha (hinv p hmem)
    · rw [List.length_set] at hj
      have hne : label p ≠ label q := by
        intro heq
        have hlabels : (u.procs.map label)[i]? = (u.procs.map label)[j]? := by
          rw [List.getElem?_map, List.getElem?_map, hp, List.getElem?_eq_getElem hj, hqj, Option.map_some,
            Option.map_some, heq]
        exact hij ((List.getElem?_inj (by simpa using hi) hn).mp hlabels)
      exact hother _ _ _ _ q ha hne (hinv p hmem) (hinv q (hqj ▸ List.getElem_mem hj))

end Invariant

end ProgramExplorer.Interleavings
