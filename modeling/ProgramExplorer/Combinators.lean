import ProgramExplorer.InputLoop

/-!
# Parser combinators

A parser gives the rest of its input and a result, or an error that a
surrounding repetition recovers from, or says that the input ended too early.
The combinators of `nom` are a parameter: the structure has them with what a
grammar may rely on. A repetition stops at the first error and keeps what it
has read. One implementation stands at the end.
-/

set_option autoImplicit false

namespace ProgramExplorer.Combinators
open InputLoop

inductive Err where
  | error
  | incomplete
  deriving DecidableEq, Repr

abbrev Parser (α : Type) := List Char → Except Err (List Char × α)

variable {α β γ : Type}

section Laws

inductive Repeats (p : Parser α) : List Char → List α → List Char → Prop
  | stop {i : List Char} (h : p i = .error .error) : Repeats p i [] i
  | more {i j rest : List Char} {a : α} {as : List α} (h : p i = .ok (j, a))
      (hlt : j.length < i.length) (hr : Repeats p j as rest) : Repeats p i (a :: as) rest

/-- The rounds of a list after its first element. A separator without an
element behind it is left alone. -/
inductive Separates (sep : Parser β) (p : Parser α) : List Char → List α → List Char → Prop
  | nil {i : List Char} (hs : sep i = .error .error) : Separates sep p i [] i
  | stop {i j : List Char} {b : β} (hs : sep i = .ok (j, b)) (hp : p j = .error .error) :
      Separates sep p i [] i
  | more {i j k rest : List Char} {a : α} {b : β} {as : List α} (hs : sep i = .ok (j, b))
      (hj : j.length < i.length) (hp : p j = .ok (k, a)) (hk : k.length < j.length)
      (hr : Separates sep p k as rest) : Separates sep p i (a :: as) rest

def NoLetter (i : List Char) : Prop := ∀ c ∈ i.head?, c.isAlpha = false

/-- `tag`, `char` and `alpha1` are the complete ones, `take_until1` is not. -/
structure Nom where
  tag : List Char → Parser (List Char)
  char : Char → Parser Char
  alpha1 : Parser (List Char)
  takeUntil1 : List Char → Parser (List Char)
  preceded : {α β : Type} → Parser α → Parser β → Parser β
  terminated : {α β : Type} → Parser α → Parser β → Parser α
  delimited : {α β γ : Type} → Parser α → Parser β → Parser γ → Parser β
  separatedPair : {α β γ : Type} → Parser α → Parser γ → Parser β → Parser (α × β)
  many0 : {α : Type} → Parser α → Parser (List α)
  many1 : {α : Type} → Parser α → Parser (List α)
  separatedList0 : {α β : Type} → Parser β → Parser α → Parser (List α)
  tag_append : ∀ t i, tag t (t ++ i) = .ok (i, t)
  tag_error : ∀ t i, ¬ t <+: i → tag t i = .error .error
  char_cons : ∀ c i, char c (c :: i) = .ok (i, c)
  alpha1_append : ∀ letters i, letters ≠ [] → (∀ c ∈ letters, c.isAlpha = true) → NoLetter i →
    alpha1 (letters ++ i) = .ok (i, letters)
  alpha1_error : ∀ i, NoLetter i → alpha1 i = .error .error
  takeUntil1_append : ∀ c xs i, xs ≠ [] → c ∉ xs → takeUntil1 [c] (xs ++ c :: i) = .ok (c :: i, xs)
  takeUntil1_error : ∀ c i, takeUntil1 [c] (c :: i) = .error .error
  preceded_eq : ∀ {α β : Type} (p : Parser α) (q : Parser β) i, preceded p q i = do
    let (i, _) ← p i
    q i
  terminated_eq : ∀ {α β : Type} (p : Parser α) (q : Parser β) i, terminated p q i = do
    let (i, a) ← p i
    let (i, _) ← q i
    pure (i, a)
  delimited_eq : ∀ {α β γ : Type} (p : Parser α) (q : Parser β) (r : Parser γ) i,
    delimited p q r i = do
      let (i, _) ← p i
      let (i, b) ← q i
      let (i, _) ← r i
      pure (i, b)
  separatedPair_eq : ∀ {α β γ : Type} (p : Parser α) (sep : Parser γ) (q : Parser β) i,
    separatedPair p sep q i = do
      let (i, a) ← p i
      let (i, _) ← sep i
      let (i, b) ← q i
      pure (i, (a, b))
  many0_ok : ∀ {α : Type} {p : Parser α} {i rest : List Char} {as : List α}, Repeats p i as rest →
    many0 p i = .ok (rest, as)
  many1_ok : ∀ {α : Type} {p : Parser α} {i j rest : List Char} {a : α} {as : List α},
    p i = .ok (j, a) → Repeats p j as rest → many1 p i = .ok (rest, a :: as)
  separatedList0_nil : ∀ {α β : Type} (sep : Parser β) {p : Parser α} {i : List Char},
    p i = .error .error → separatedList0 sep p i = .ok (i, [])
  separatedList0_ok : ∀ {α β : Type} {sep : Parser β} {p : Parser α} {i j rest : List Char} {a : α}
    {as : List α}, p i = .ok (j, a) → Separates sep p j as rest →
      separatedList0 sep p i = .ok (rest, a :: as)

end Laws

section Grammar

variable (nom : Nom)

theorem tag_singleton {c : Char} {i : List Char} (h : i.head? ≠ some c) :
    nom.tag [c] i = .error .error := by
  refine nom.tag_error [c] i fun hp => h ?_
  obtain ⟨rest, rfl⟩ := hp
  rfl

theorem preceded_ok {p : Parser α} {q : Parser β} {i j : List Char} {a : α} (hp : p i = .ok (j, a)) :
    nom.preceded p q i = q j := by
  rw [nom.preceded_eq, hp]
  rfl

theorem terminated_ok {p : Parser α} {q : Parser β} {i j k : List Char} {a : α} {b : β}
    (hp : p i = .ok (j, a)) (hq : q j = .ok (k, b)) : nom.terminated p q i = .ok (k, a) := by
  rw [nom.terminated_eq, hp]
  change (q j >>= _) = _
  rw [hq]
  rfl

theorem terminated_error {p : Parser α} {q : Parser β} {i : List Char} {e : Err}
    (hp : p i = .error e) : nom.terminated p q i = .error e := by
  rw [nom.terminated_eq, hp]
  rfl

theorem repeats_tag {c : Char} {i : List Char} (h : i.head? ≠ some c) (n : ℕ) :
    Repeats (nom.tag [c]) (List.replicate n c ++ i) (List.replicate n [c]) i := by
  induction n with
  | zero => exact .stop (tag_singleton nom h)
  | succ n ih => exact .more (nom.tag_append [c] (List.replicate n c ++ i)) (by simp) ih

end Grammar

section Implementation

def tag (t : List Char) : Parser (List Char) := fun i =>
  if t.isPrefixOf i then .ok (i.drop t.length, t) else .error .error

def char (c : Char) : Parser Char
  | x :: i => if x = c then .ok (i, c) else .error .error
  | [] => .error .error

def alpha1 : Parser (List Char) := fun i =>
  if i.takeWhile Char.isAlpha = [] then .error .error
  else .ok (i.dropWhile Char.isAlpha, i.takeWhile Char.isAlpha)

def findSubstring (t : List Char) : List Char → Option ℕ
  | [] => if t = [] then some 0 else none
  | x :: i => if t.isPrefixOf (x :: i) then some 0 else (findSubstring t i).map (· + 1)

def takeUntil1 (t : List Char) : Parser (List Char) := fun i =>
  match findSubstring t i with
  | none => .error .incomplete
  | some 0 => .error .error
  | some (n + 1) => .ok (i.drop (n + 1), i.take (n + 1))

theorem findSubstring_singleton {c : Char} {xs : List Char} (h : c ∉ xs) (i : List Char) :
    findSubstring [c] (xs ++ c :: i) = some xs.length := by
  induction xs with
  | nil => simp [findSubstring]
  | cons x xs ih =>
    rw [List.mem_cons, not_or] at h
    rw [List.cons_append, findSubstring, ih h.2, if_neg (by simp [h.1])]
    rfl

theorem takeUntil1_append {c : Char} {xs : List Char} (hne : xs ≠ []) (h : c ∉ xs) (i : List Char) :
    takeUntil1 [c] (xs ++ c :: i) = .ok (c :: i, xs) := by
  obtain ⟨n, hn⟩ := Nat.exists_eq_succ_of_ne_zero (mt List.length_eq_zero_iff.mp hne)
  simp only [takeUntil1, findSubstring_singleton h, hn]
  rw [← Nat.succ_eq_add_one, ← hn, List.drop_left, List.take_left]

theorem takeUntil1_nil (c : Char) (i : List Char) : takeUntil1 [c] (c :: i) = .error .error := by
  have hfind := findSubstring_singleton (List.not_mem_nil (a := c)) i
  rw [List.nil_append] at hfind
  rw [takeUntil1, hfind]
  rfl

theorem takeWhile_noLetter {i : List Char} (h : NoLetter i) :
    i.takeWhile Char.isAlpha = [] ∧ i.dropWhile Char.isAlpha = i := by
  cases i with
  | nil => exact ⟨rfl, rfl⟩
  | cons x i => simp [h x rfl]

theorem alpha1_append {letters i : List Char} (hne : letters ≠ [])
    (hletters : ∀ c ∈ letters, c.isAlpha = true) (hi : NoLetter i) :
    alpha1 (letters ++ i) = .ok (i, letters) := by
  obtain ⟨htake, hdrop⟩ := takeWhile_noLetter hi
  rw [alpha1, List.takeWhile_append_of_pos hletters, List.dropWhile_append_of_pos hletters, htake, hdrop,
    List.append_nil, if_neg hne]

/-- One round of a repetition, with the rest of the input and what has been read. -/
def many0Step (p : Parser α) (s : List Char × List α) :
    Next (List Char × List α) (Except Err (List Char × List α)) :=
  match p s.1 with
  | .error .error => .done (.ok s)
  | .error .incomplete => .done (.error .incomplete)
  | .ok (i, a) => if i.length < s.1.length then .again (i, s.2 ++ [a]) else .done (.error .error)

theorem many0Step_decreases (p : Parser α) : Decreases (fun s => s.1.length) (many0Step p) := by
  intro s s' h
  unfold many0Step at h
  split at h
  · cases h
  · cases h
  · split_ifs at h with hlt
    cases h
    exact hlt

def many0From (p : Parser α) (s : List Char × List α) : Except Err (List Char × List α) :=
  run (many0Step_decreases p) s

theorem many0From_ok {p : Parser α} {i rest : List Char} {as : List α} (h : Repeats p i as rest)
    (acc : List α) : many0From p (i, acc) = .ok (rest, acc ++ as) := by
  induction h generalizing acc with
  | @stop i h =>
    have hstep : many0Step p (i, acc) = .done (.ok (i, acc)) := by simp only [many0Step, h]
    rw [many0From, run_done _ hstep, List.append_nil]
  | @more i j rest a as h hlt _ ih =>
    have hstep : many0Step p (i, acc) = .again (j, acc ++ [a]) := by
      simp only [many0Step, h, if_pos hlt]
    have hloop := ih (acc ++ [a])
    rw [many0From, run_again _ hstep]
    rwa [List.append_assoc] at hloop

def separatedStep (sep : Parser β) (p : Parser α) (s : List Char × List α) :
    Next (List Char × List α) (Except Err (List Char × List α)) :=
  match sep s.1 with
  | .error .error => .done (.ok s)
  | .error .incomplete => .done (.error .incomplete)
  | .ok (i, _) =>
    match p i with
    | .error .error => .done (.ok s)
    | .error .incomplete => .done (.error .incomplete)
    | .ok (i, a) => if i.length < s.1.length then .again (i, s.2 ++ [a]) else .done (.error .error)

theorem separatedStep_decreases (sep : Parser β) (p : Parser α) :
    Decreases (fun s => s.1.length) (separatedStep sep p) := by
  intro s s' h
  unfold separatedStep at h
  split at h
  · cases h
  · cases h
  · split at h
    · cases h
    · cases h
    · split_ifs at h with hlt
      cases h
      exact hlt

def separatedFrom (sep : Parser β) (p : Parser α) (s : List Char × List α) :
    Except Err (List Char × List α) :=
  run (separatedStep_decreases sep p) s

theorem separatedFrom_ok {sep : Parser β} {p : Parser α} {i rest : List Char} {as : List α}
    (h : Separates sep p i as rest) (acc : List α) :
    separatedFrom sep p (i, acc) = .ok (rest, acc ++ as) := by
  induction h generalizing acc with
  | @nil i hs =>
    have hstep : separatedStep sep p (i, acc) = .done (.ok (i, acc)) := by simp only [separatedStep, hs]
    rw [separatedFrom, run_done _ hstep, List.append_nil]
  | @stop i j b hs hp =>
    have hstep : separatedStep sep p (i, acc) = .done (.ok (i, acc)) := by
      simp only [separatedStep, hs, hp]
    rw [separatedFrom, run_done _ hstep, List.append_nil]
  | @more i j k rest a b as hs hj hp hk _ ih =>
    have hstep : separatedStep sep p (i, acc) = .again (k, acc ++ [a]) := by
      simp only [separatedStep, hs, hp, if_pos (hk.trans hj)]
    have hloop := ih (acc ++ [a])
    rw [separatedFrom, run_again _ hstep]
    rwa [List.append_assoc] at hloop

def complete : Nom where
  tag := tag
  char := char
  alpha1 := alpha1
  takeUntil1 := takeUntil1
  preceded p q i := do
    let (i, _) ← p i
    q i
  terminated p q i := do
    let (i, a) ← p i
    let (i, _) ← q i
    pure (i, a)
  delimited p q r i := do
    let (i, _) ← p i
    let (i, b) ← q i
    let (i, _) ← r i
    pure (i, b)
  separatedPair p sep q i := do
    let (i, a) ← p i
    let (i, _) ← sep i
    let (i, b) ← q i
    pure (i, (a, b))
  many0 p i := many0From p (i, [])
  many1 p i := do
    let (i, a) ← p i
    many0From p (i, [a])
  separatedList0 sep p i :=
    match p i with
    | .error .error => .ok (i, [])
    | .error .incomplete => .error .incomplete
    | .ok (i, a) => separatedFrom sep p (i, [a])
  tag_append t i := by
    rw [tag, if_pos (List.isPrefixOf_iff_prefix.mpr (List.prefix_append t i)), List.drop_left]
  tag_error t i h := if_neg fun hp => h (List.isPrefixOf_iff_prefix.mp hp)
  char_cons c i := if_pos rfl
  alpha1_append _ _ := alpha1_append
  alpha1_error _ h := if_pos (takeWhile_noLetter h).1
  takeUntil1_append _ _ i hne h := takeUntil1_append hne h i
  takeUntil1_error := takeUntil1_nil
  preceded_eq _ _ _ := rfl
  terminated_eq _ _ _ := rfl
  delimited_eq _ _ _ _ := rfl
  separatedPair_eq _ _ _ _ := rfl
  many0_ok h := many0From_ok h []
  many1_ok hp h := by
    simp only [hp]
    exact many0From_ok h [_]
  separatedList0_nil sep p i h := by simp only [h]
  separatedList0_ok hp h := by
    simp only [hp]
    exact separatedFrom_ok h [_]

end Implementation

end ProgramExplorer.Combinators
