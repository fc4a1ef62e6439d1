import Mathlib.Tactic

/-!
# Loops that use up their input

A loop is a step function on a state, which goes on with another state or
ends with a result. When every step that goes on makes a measure smaller, the
loop ends, and its result is computed by at most as many steps as the measure
allows.
-/

set_option autoImplicit false

namespace ProgramExplorer.InputLoop

inductive Next (σ α : Type) where
  | again (s : σ)
  | done (a : α)
  deriving DecidableEq

variable {σ α : Type} {μ : σ → ℕ} {step : σ → Next σ α} {s s' : σ} {a : α}

def runFor (step : σ → Next σ α) : ℕ → σ → Option α
  | 0, _ => none
  | n + 1, s =>
    match step s with
    | .again s' => runFor step n s'
    | .done a => some a

def Decreases (μ : σ → ℕ) (step : σ → Next σ α) : Prop :=
  ∀ s s', step s = .again s' → μ s' < μ s

theorem runFor_eq (h : Decreases μ step) {n m : ℕ} (hn : μ s < n) (hm : μ s < m) :
    runFor step n s = runFor step m s := by
  induction n generalizing s m with
  | zero => omega
  | succ n ih =>
    obtain ⟨m, rfl⟩ := Nat.exists_eq_succ_of_ne_zero (show m ≠ 0 by omega)
    rw [runFor, runFor]
    cases hs : step s with
    | done a => rfl
    | again s' =>
      have hlt := h s s' hs
      exact ih (by omega) (by omega)

theorem runFor_unique {n m : ℕ} (hn : runFor step n s = some a) (hm : (runFor step m s).isSome) :
    runFor step m s = some a := by
  induction n generalizing s m with
  | zero => cases hn
  | succ n ih =>
    cases m with
    | zero => cases hm
    | succ m =>
      rw [runFor] at hn hm ⊢
      cases hs : step s with
      | done a' =>
        rw [hs] at hn
        exact hn
      | again s' =>
        rw [hs] at hn hm
        exact ih hn hm

/-- A measure that goes down where an invariant holds bounds the steps. -/
theorem runFor_isSome_of (I : σ → Prop) (h : ∀ s s', I s → step s = .again s' → I s' ∧ μ s' < μ s)
    {n : ℕ} (hs : I s) (hn : μ s < n) : (runFor step n s).isSome := by
  induction n generalizing s with
  | zero => omega
  | succ n ih =>
    rw [runFor]
    cases hstep : step s with
    | done a => rfl
    | again s' =>
      obtain ⟨hi, hlt⟩ := h s s' hs hstep
      exact ih hi (by omega)

theorem runFor_isSome (h : Decreases μ step) {n : ℕ} (hn : μ s < n) : (runFor step n s).isSome :=
  runFor_isSome_of (fun _ => True) (fun s s' _ hs => ⟨trivial, h s s' hs⟩) trivial hn

def run (h : Decreases μ step) (s : σ) : α :=
  (runFor step (μ s + 1) s).get (runFor_isSome h (Nat.lt_succ_self _))

theorem run_again (h : Decreases μ step) (hs : step s = .again s') : run h s = run h s' := by
  have hlt := h s s' hs
  unfold run
  congr 1
  rw [runFor, hs]
  exact runFor_eq h hlt (Nat.lt_succ_self _)

theorem run_done (h : Decreases μ step) (hs : step s = .done a) : run h s = a := by
  unfold run
  simp only [runFor, hs, Option.get_some]

theorem run_rule (h : Decreases μ step) (I : σ → Prop) (Q : α → Prop)
    (hagain : ∀ s s', I s → step s = .again s' → I s')
    (hdone : ∀ s a, I s → step s = .done a → Q a) (hs : I s) : Q (run h s) := by
  induction hn : μ s using Nat.strong_induction_on generalizing s with
  | _ n ih =>
    subst hn
    cases hstep : step s with
    | done a =>
      rw [run_done h hstep]
      exact hdone s a hs hstep
    | again s' =>
      rw [run_again h hstep]
      exact ih (μ s') (h s s' hstep) (hagain s s' hs hstep) rfl

def Ends (step : σ → Next σ α) (s : σ) : Prop := ∃ n, (runFor step n s).isSome

theorem ends_done (hs : step s = .done a) : Ends step s := ⟨1, by simp [runFor, hs]⟩

theorem ends_again (hs : step s = .again s') : Ends step s ↔ Ends step s' := by
  constructor
  · rintro ⟨n, hn⟩
    cases n with
    | zero => cases hn
    | succ n =>
      rw [runFor, hs] at hn
      exact ⟨n, hn⟩
  · rintro ⟨n, hn⟩
    refine ⟨n + 1, ?_⟩
    rw [runFor, hs]
    exact hn

theorem ends_of_decreases (I : σ → Prop)
    (h : ∀ s s', I s → step s = .again s' → I s' ∧ μ s' < μ s) (hs : I s) : Ends step s :=
  ⟨μ s + 1, runFor_isSome_of I h hs (Nat.lt_succ_self _)⟩

theorem not_ends_of_again (I : σ → Prop) (h : ∀ s, I s → ∃ s', step s = .again s' ∧ I s') (hs : I s) :
    ¬ Ends step s := by
  rintro ⟨n, hn⟩
  induction n generalizing s with
  | zero => cases hn
  | succ n ih =>
    obtain ⟨s', hstep, hi⟩ := h s hs
    rw [runFor, hstep] at hn
    exact ih hi hn

inductive Reached (step : σ → Next σ α) (s : σ) : σ → Prop
  | start : Reached step s s
  | again {t u : σ} (h : Reached step s t) (hs : step t = .again u) : Reached step s u

theorem Reached.rule {I : σ → Prop} (h : ∀ s s', I s → step s = .again s' → I s') (hs : I s)
    (hr : Reached step s s') : I s' := by
  induction hr with
  | start => exact hs
  | again _ hstep ih => exact h _ _ ih hstep

theorem Reached.run_eq (h : Decreases μ step) (hr : Reached step s s') : run h s = run h s' := by
  induction hr with
  | start => rfl
  | again _ hs ih => exact ih.trans (run_again h hs)

theorem Reached.ends_iff (hr : Reached step s s') : Ends step s ↔ Ends step s' := by
  induction hr with
  | start => exact Iff.rfl
  | again _ hs ih => exact ih.trans (ends_again hs)

end ProgramExplorer.InputLoop
