import Mathlib.Tactic

/-!
# Rules for computations with state and errors

`EStateM ε σ` keeps the state when a computation fails. Three ways to argue
about it: inversion of a successful run into the runs of its parts, triples
with one postcondition for success and one for failure, and a relation
between the runs of two computations that succeed and fail together.
-/

set_option autoImplicit false

namespace ProgramExplorer.StateRules

variable {ε ε' σ α β : Type}

def check (x : Except ε α) : EStateM ε σ α := fun s =>
  match x with
  | .ok a => .ok a s
  | .error e => .error e s

def require (p : Prop) [Decidable p] (e : ε) : EStateM ε σ Unit := fun s =>
  if p then .ok () s else .error e s

def okOr (x : Option α) (e : ε) : Except ε α :=
  match x with
  | some a => .ok a
  | none => .error e

theorem okOr_eq_ok {x : Option α} {e : ε} {a : α} : okOr x e = .ok a ↔ x = some a := by
  cases x <;> simp [okOr]

theorem except_bind_eq_ok {x : Except ε α} {f : α → Except ε β} {b : β} :
    (x >>= f) = .ok b ↔ ∃ a, x = .ok a ∧ f a = .ok b := by
  cases x <;> simp [bind, Except.bind]

theorem except_pure_eq_ok {a b : α} : (pure a : Except ε α) = .ok b ↔ b = a := by
  simp [pure, Except.pure, eq_comm]

section Inversion

variable {s s' : σ}

theorem bind_eq_ok {x : EStateM ε σ α} {f : α → EStateM ε σ β} {b : β} :
    (x >>= f) s = .ok b s' ↔ ∃ a t, x s = .ok a t ∧ f a t = .ok b s' := by
  change EStateM.bind x f s = _ ↔ _
  unfold EStateM.bind
  cases x s <;> simp

theorem pure_eq_ok {a b : α} : (pure a : EStateM ε σ α) s = .ok b s' ↔ b = a ∧ s' = s := by
  change EStateM.Result.ok a s = _ ↔ _
  simp [eq_comm]

theorem get_eq_ok {a : σ} : (get : EStateM ε σ σ) s = .ok a s' ↔ a = s ∧ s' = s := by
  change EStateM.Result.ok s s = _ ↔ _
  simp [eq_comm]

theorem modify_eq_ok {f : σ → σ} {u : PUnit} :
    (modify f : EStateM ε σ PUnit) s = .ok u s' ↔ s' = f s := by
  change EStateM.Result.ok _ (f s) = _ ↔ _
  simp [eq_comm]

theorem set_eq_ok {t : σ} {u : PUnit} :
    (set t : EStateM ε σ PUnit) s = .ok u s' ↔ s' = t := by
  change EStateM.Result.ok _ t = _ ↔ _
  simp [eq_comm]

theorem check_pure (a : α) : (check (pure a) : EStateM ε σ α) = pure a := rfl

theorem check_bind (x : Except ε α) (f : α → Except ε β) :
    (check (x >>= f) : EStateM ε σ β) = check x >>= fun a => check (f a) := by
  cases x <;> rfl

theorem check_eq_ok {x : Except ε α} {a : α} :
    (check x : EStateM ε σ α) s = .ok a s' ↔ x = .ok a ∧ s' = s := by
  unfold check
  cases x <;> simp [eq_comm]

theorem require_eq_ok {p : Prop} [Decidable p] {e : ε} {u : Unit} :
    (require p e : EStateM ε σ Unit) s = .ok u s' ↔ p ∧ s' = s := by
  unfold require
  split_ifs with h <;> simp [h, eq_comm]

theorem require_modify_eq_ok {p : Prop} [Decidable p] {e : ε} {f : σ → σ} {u : PUnit} :
    (do require p e; modify f : EStateM ε σ PUnit) s = .ok u s' ↔ p ∧ s' = f s := by
  simp only [bind_eq_ok, require_eq_ok, modify_eq_ok]
  constructor
  · rintro ⟨-, -, ⟨hp, rfl⟩, rfl⟩
    exact ⟨hp, rfl⟩
  · rintro ⟨hp, rfl⟩
    exact ⟨(), s, ⟨hp, rfl⟩, rfl⟩

section Lists

variable {ι : Type} {f : ι → EStateM ε σ PUnit}

theorem forM_append (front back : List ι) :
    (front ++ back).forM f = (front.forM f >>= fun _ => back.forM f) := by
  induction front with
  | nil => rfl
  | cons x front ih =>
    change (f x >>= fun _ => (front ++ back).forM f) =
      ((f x >>= fun _ => front.forM f) >>= fun _ => back.forM f)
    rw [ih, bind_assoc]

theorem forM_append_eq_ok {front back : List ι} {u : PUnit} :
    (front ++ back).forM f s = .ok u s' ↔ ∃ t, front.forM f s = .ok ⟨⟩ t ∧ back.forM f t = .ok u s' := by
  rw [forM_append, bind_eq_ok]
  exact ⟨fun ⟨_, t, h⟩ => ⟨t, h⟩, fun ⟨t, h⟩ => ⟨⟨⟩, t, h⟩⟩

theorem forM_cons_eq_ok {x : ι} {xs : List ι} {u : PUnit} :
    (x :: xs).forM f s = .ok u s' ↔ ∃ t, f x s = .ok ⟨⟩ t ∧ xs.forM f t = .ok u s' := by
  change (f x >>= fun _ => xs.forM f) s = _ ↔ _
  rw [bind_eq_ok]
  exact ⟨fun ⟨_, t, h⟩ => ⟨t, h⟩, fun ⟨t, h⟩ => ⟨⟨⟩, t, h⟩⟩

theorem forM_concat_eq_ok {front : List ι} {x : ι} {u : PUnit} :
    (front ++ [x]).forM f s = .ok u s' ↔ ∃ t, front.forM f s = .ok ⟨⟩ t ∧ f x t = .ok u s' := by
  rw [forM_append_eq_ok]
  refine exists_congr fun t => and_congr_right fun _ => ?_
  rw [forM_cons_eq_ok]
  constructor
  · rintro ⟨t', h, hp⟩
    obtain ⟨-, rfl⟩ := pure_eq_ok.mp hp
    exact h
  · exact fun h => ⟨s', h, rfl⟩

end Lists

end Inversion

def result : EStateM.Result ε σ α → Except ε α
  | .ok a _ => .ok a
  | .error e _ => .error e

def stateAfter : EStateM.Result ε σ α → σ
  | .ok _ s => s
  | .error _ s => s

theorem get_run (s : σ) : (get : EStateM ε σ σ) s = .ok s s := rfl

theorem modify_run (f : σ → σ) (s : σ) : (modify f : EStateM ε σ PUnit) s = .ok ⟨⟩ (f s) := rfl

theorem ok_of_result {r : EStateM.Result ε σ α} {a : α} (h : result r = .ok a) :
    r = .ok a (stateAfter r) := by
  cases r with
  | ok b s =>
    cases h
    rfl
  | error e s => cases h

theorem bind_cases (x : EStateM ε σ α) (f : α → EStateM ε σ β) (s : σ) :
    (∃ a t, x s = .ok a t ∧ (x >>= f) s = f a t) ∨
      ∃ e t, x s = .error e t ∧ (x >>= f) s = .error e t := by
  have hb : (x >>= f) s = EStateM.bind x f s := rfl
  unfold EStateM.bind at hb
  cases hx : x s with
  | ok a t => exact Or.inl ⟨a, t, rfl, by rw [hb, hx]⟩
  | error e t => exact Or.inr ⟨e, t, rfl, by rw [hb, hx]⟩

theorem bind_of_ok {x : EStateM ε σ α} {s t : σ} {a : α} (h : x s = .ok a t) (f : α → EStateM ε σ β) :
    (x >>= f) s = f a t := by
  obtain ⟨a', t', hx, hf⟩ | ⟨e, t', hx, -⟩ := bind_cases x f s
  · cases h.symm.trans hx
    exact hf
  · cases h.symm.trans hx

theorem bind_of_error {x : EStateM ε σ α} {s t : σ} {e : ε} (h : x s = .error e t)
    (f : α → EStateM ε σ β) : (x >>= f) s = .error e t := by
  obtain ⟨a, t', hx, -⟩ | ⟨e', t', hx, hf⟩ := bind_cases x f s
  · cases h.symm.trans hx
  · cases h.symm.trans hx
    exact hf

theorem error_of_result {r : EStateM.Result ε σ α} {e : ε} (h : result r = .error e) :
    r = .error e (stateAfter r) := by
  cases r with
  | ok a s => cases h
  | error e' s =>
    cases h
    rfl

theorem require_of {p : Prop} [Decidable p] (h : p) (e : ε) (s : σ) :
    (require p e : EStateM ε σ Unit) s = .ok () s := by
  rw [require, if_pos h]

theorem require_of_not {p : Prop} [Decidable p] (h : ¬ p) (e : ε) (s : σ) :
    (require p e : EStateM ε σ Unit) s = .error e s := by
  rw [require, if_neg h]

theorem check_mapError {x : Except ε α} {e : ε} (h : x = .error e) (f : ε → ε') (s : σ) :
    (check (x.mapError f) : EStateM ε' σ α) s = .error (f e) s := by
  rw [h]
  rfl

theorem adaptExcept_ok {x : EStateM ε σ α} {s t : σ} {a : α} (h : x s = .ok a t) (f : ε → ε') :
    EStateM.adaptExcept f x s = .ok a t := by
  rw [EStateM.adaptExcept, h]

theorem adaptExcept_error {x : EStateM ε σ α} {s t : σ} {e : ε} (h : x s = .error e t) (f : ε → ε') :
    EStateM.adaptExcept f x s = .error (f e) t := by
  rw [EStateM.adaptExcept, h]

def Avoids (err : ε) (x : EStateM ε σ α) : Prop := ∀ s, result (x s) ≠ .error err

/-- The computation never changes this part of the state, not even when it fails. -/
def Keeps {κ : Type} (part : σ → κ) (x : EStateM ε σ α) : Prop :=
  ∀ s, part (stateAfter (x s)) = part s

section Avoids

variable {err : ε}

theorem avoids_bind {x : EStateM ε σ α} {f : α → EStateM ε σ β} (hx : Avoids err x)
    (hf : ∀ a, Avoids err (f a)) : Avoids err (x >>= f) := by
  intro s
  rcases bind_cases x f s with ⟨a, t, -, h⟩ | ⟨e, t, h', h⟩
  · rw [h]
    exact hf a t
  · have := hx s
    rw [h'] at this
    rw [h]
    simpa [result] using this

theorem avoids_pure (a : α) : Avoids err (pure a : EStateM ε σ α) := fun _ h => nomatch h

theorem avoids_get : Avoids err (get : EStateM ε σ σ) := fun _ h => nomatch h

theorem avoids_modify (f : σ → σ) : Avoids err (modify f : EStateM ε σ PUnit) := fun _ h => nomatch h

theorem avoids_throw {e : ε} (h : e ≠ err) : Avoids err (throw e : EStateM ε σ α) :=
  fun _ hr => h (Except.error.inj hr)

theorem avoids_check {x : Except ε α} (h : x ≠ .error err) :
    Avoids err (check x : EStateM ε σ α) := by
  intro s
  unfold check
  cases x with
  | ok a => exact fun hr => nomatch hr
  | error e => exact fun hr => h hr

theorem avoids_require {p : Prop} [Decidable p] {e : ε} (h : e ≠ err) :
    Avoids err (require p e : EStateM ε σ Unit) := by
  intro s
  unfold require
  split_ifs
  · exact fun hr => nomatch hr
  · exact fun hr => h (Except.error.inj hr)

end Avoids

section Keeps

variable {κ : Type} {part : σ → κ}

theorem keeps_bind {x : EStateM ε σ α} {f : α → EStateM ε σ β} (hx : Keeps part x)
    (hf : ∀ a, Keeps part (f a)) : Keeps part (x >>= f) := by
  intro s
  rcases bind_cases x f s with ⟨a, t, h', h⟩ | ⟨e, t, h', h⟩
  · have := hx s
    rw [h'] at this
    rw [h, hf a t]
    exact this
  · have := hx s
    rw [h'] at this
    rw [h]
    exact this

theorem keeps_pure (a : α) : Keeps part (pure a : EStateM ε σ α) := fun _ => rfl

theorem keeps_get : Keeps part (get : EStateM ε σ σ) := fun _ => rfl

theorem keeps_modify {f : σ → σ} (h : ∀ s, part (f s) = part s) :
    Keeps part (modify f : EStateM ε σ PUnit) := h

theorem keeps_check (x : Except ε α) : Keeps part (check x : EStateM ε σ α) := by
  intro s
  unfold check
  cases x <;> rfl

theorem keeps_require (p : Prop) [Decidable p] (e : ε) :
    Keeps part (require p e : EStateM ε σ Unit) := by
  intro s
  unfold require
  split_ifs <;> rfl

theorem keeps_forM {ι : Type} {f : ι → EStateM ε σ PUnit} (h : ∀ x, Keeps part (f x)) (xs : List ι) :
    Keeps part (xs.forM f) := by
  induction xs with
  | nil => exact keeps_pure _
  | cons x xs ih => exact keeps_bind (h x) fun _ => ih

end Keeps

def Triple (P : σ → Prop) (x : EStateM ε σ α) (Q : α → σ → Prop) (E : ε → σ → Prop) : Prop :=
  ∀ s, P s → match x s with
    | .ok a t => Q a t
    | .error e t => E e t

section Triples

variable {P P' : σ → Prop} {E : ε → σ → Prop} {Q : α → σ → Prop} {R : β → σ → Prop}

theorem triple_bind {x : EStateM ε σ α} {f : α → EStateM ε σ β} (hx : Triple P x Q E)
    (hf : ∀ a, Triple (Q a) (f a) R E) : Triple P (x >>= f) R E := by
  intro s hs
  have h := hx s hs
  change match EStateM.bind x f s with | .ok b t => R b t | .error e t => E e t
  unfold EStateM.bind
  cases hxs : x s with
  | ok a t =>
    rw [hxs] at h
    exact hf a t h
  | error e t =>
    rw [hxs] at h
    exact h

theorem triple_get : Triple P (get : EStateM ε σ σ) (fun a s => P s ∧ a = s) E :=
  fun _ hs => ⟨hs, rfl⟩

theorem triple_check (x : Except ε α) (h : ∀ e s, x = .error e → P s → E e s) :
    Triple P (check x : EStateM ε σ α) (fun a s => P s ∧ x = .ok a) E := by
  intro s hs
  unfold check
  cases x with
  | ok a => exact ⟨hs, rfl⟩
  | error e => exact h e s rfl hs

theorem triple_require (p : Prop) [Decidable p] (e : ε) (h : ∀ s, ¬ p → P s → E e s) :
    Triple P (require p e : EStateM ε σ Unit) (fun _ s => P s ∧ p) E := by
  intro s hs
  unfold require
  split_ifs with hp
  · exact ⟨hs, hp⟩
  · exact h s hp hs

theorem triple_of_keeps {κ : Type} {part : σ → κ} {x : EStateM ε σ α} (h : Keeps part x)
    (I : κ → Prop) :
    Triple (fun s => I (part s)) x (fun _ s => I (part s)) (fun _ s => I (part s)) := by
  intro s hs
  have hk : I (part (stateAfter (x s))) := by
    rw [h s]
    exact hs
  cases hx : x s with
  | ok a t =>
    rw [hx] at hk
    exact hk
  | error e t =>
    rw [hx] at hk
    exact hk

theorem stateAfter_of_keeping {I : σ → Prop} {x : EStateM ε σ α}
    (h : Triple I x (fun _ => I) (fun _ => I)) {s : σ} (hs : I s) : I (stateAfter (x s)) := by
  have := h s hs
  cases hx : x s with
  | ok a t =>
    rw [hx] at this
    exact this
  | error e t =>
    rw [hx] at this
    exact this

theorem triple_conseq {x : EStateM ε σ α} {Q' : α → σ → Prop} (h : Triple P x Q E)
    (hP : ∀ s, P' s → P s) (hQ : ∀ a s, Q a s → Q' a s) : Triple P' x Q' E := by
  intro s hs
  have := h s (hP s hs)
  cases hx : x s with
  | ok a t =>
    rw [hx] at this
    exact hQ a t this
  | error e t =>
    rw [hx] at this
    exact this

/-- A loop whose assertion follows a fold over what it has gone through. -/
theorem triple_forM {ι κ : Type} {I : κ → σ → Prop} {f : ι → EStateM ε σ PUnit} {g : κ → ι → κ}
    (h : ∀ a x, Triple (I a) (f x) (fun _ => I (g a x)) E) (xs : List ι) (a : κ) :
    Triple (I a) (xs.forM f) (fun _ => I (xs.foldl g a)) E := by
  induction xs generalizing a with
  | nil => exact fun s hs => hs
  | cons x xs ih => exact triple_bind (h a x) fun _ => ih (g a x)

theorem triple_mono_error {x : EStateM ε σ α} {E' : ε → σ → Prop} (h : Triple P x Q E)
    (hE : ∀ e s, E e s → E' e s) : Triple P x Q E' := by
  intro s hs
  have := h s hs
  cases hx : x s with
  | ok a t =>
    rw [hx] at this
    exact this
  | error e t =>
    rw [hx] at this
    exact hE e t this

theorem triple_frame {x : EStateM ε σ α} (h : Triple P x Q E) (p : Prop) :
    Triple (fun s => P s ∧ p) x (fun a s => Q a s ∧ p) E := by
  intro s hs
  have := h s hs.1
  cases hx : x s with
  | ok a t =>
    rw [hx] at this
    exact ⟨this, hs.2⟩
  | error e t =>
    rw [hx] at this
    exact this

end Triples

section Relation

variable {σ' α' β' : Type} {S : σ → σ' → Prop} {A : α → α' → Prop} {B : β → β' → Prop}

inductive RelResult (S : σ → σ' → Prop) (A : α → α' → Prop) :
    EStateM.Result ε σ α → EStateM.Result ε σ' α' → Prop
  | ok {a : α} {a' : α'} {s : σ} {s' : σ'} (ha : A a a') (hs : S s s') :
      RelResult S A (.ok a s) (.ok a' s')
  | error {e : ε} {s : σ} {s' : σ'} (hs : S s s') : RelResult S A (.error e s) (.error e s')

/-- From related states both computations succeed with related values or fail
with the same error, and leave related states. -/
def RelRun (S : σ → σ' → Prop) (A : α → α' → Prop) (x : EStateM ε σ α) (x' : EStateM ε σ' α') : Prop :=
  ∀ s s', S s s' → RelResult S A (x s) (x' s')

theorem relRun_throw (e : ε) : RelRun S A (throw e : EStateM ε σ α) (throw e : EStateM ε σ' α') :=
  fun _ _ hs => .error hs

theorem relRun_modify {f : σ → σ} {f' : σ' → σ'} (h : ∀ s s', S s s' → S (f s) (f' s')) :
    RelRun S (fun _ _ => True) (modify f : EStateM ε σ PUnit) (modify f' : EStateM ε σ' PUnit) :=
  fun s s' hs => .ok trivial (h s s' hs)

theorem relRun_bind {x : EStateM ε σ α} {x' : EStateM ε σ' α'} {f : α → EStateM ε σ β}
    {f' : α' → EStateM ε σ' β'} (hx : RelRun S A x x') (hf : ∀ a a', A a a' → RelRun S B (f a) (f' a')) :
    RelRun S B (x >>= f) (x' >>= f') := by
  intro s s' hs
  have hr := hx s s' hs
  simp only [bind, EStateM.bind]
  generalize x s = r, x' s' = r' at hr
  cases hr with
  | ok ha ht => exact hf _ _ ha _ _ ht
  | error ht => exact .error ht

theorem relRun_pure {a : α} {a' : α'} (h : A a a') :
    RelRun S A (pure a : EStateM ε σ α) (pure a' : EStateM ε σ' α') := fun _ _ hs => .ok h hs

theorem relRun_forM {ι : Type} {f : ι → EStateM ε σ PUnit} {f' : ι → EStateM ε σ' PUnit} (xs : List ι)
    (h : ∀ x ∈ xs, RelRun S (fun _ _ => True) (f x) (f' x)) :
    RelRun S (fun _ _ => True) (xs.forM f) (xs.forM f') := by
  induction xs with
  | nil => exact relRun_pure trivial
  | cons x xs ih =>
    exact relRun_bind (h x (by simp)) fun _ _ _ => ih fun y hy => h y (by simp [hy])

theorem RelResult.ok_of_ok {r : EStateM.Result ε σ α} {r' : EStateM.Result ε σ' α'}
    (h : RelResult S A r r') {a : α} {s : σ} (hr : r = .ok a s) :
    ∃ a' s', r' = .ok a' s' ∧ A a a' ∧ S s s' := by
  cases h with
  | ok ha hs =>
    cases hr
    exact ⟨_, _, rfl, ha, hs⟩
  | error hs => cases hr

theorem RelResult.stateAfter {r : EStateM.Result ε σ α} {r' : EStateM.Result ε σ' α'}
    (h : RelResult S A r r') : S (stateAfter r) (stateAfter r') := by
  cases h with
  | ok _ hs => exact hs
  | error hs => exact hs

end Relation

end ProgramExplorer.StateRules
