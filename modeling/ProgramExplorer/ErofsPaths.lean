import ProgramExplorer.ErofsTree
import ProgramExplorer.StateRules

/-!
# The tree of the builder as a map from paths to nodes

A path is the list of its names, and it leads to a leaf, to a directory or to
nothing. The entries `.` and `..` that every directory holds are not names of
a path. Each path operation of `Root` is a descent to one directory and an
action there; seen from the map it changes one path and makes the missing
directories on the way, and this is all that the rest of the development
uses.
-/

set_option autoImplicit false

namespace ProgramExplorer.ErofsPaths
open ByteStrings OrderedMap UnixPath FileTree StateRules ErofsTree

variable {φ δ α : Type}

section Nodes

def node : Tree φ δ → φ ⊕ δ
  | .leaf x => .inl x
  | .dir info _ => .inr info

def IsDot (name : Bytes) : Prop := name = [dot] ∨ name = [dot, dot]

instance (name : Bytes) : Decidable (IsDot name) := inferInstanceAs (Decidable (_ ∨ _))

def treeAt : List Bytes → Tree φ δ → Option (Tree φ δ)
  | [], t => some t
  | _ :: _, .leaf _ => none
  | name :: names, .dir _ cs => if IsDot name then none else (lookup name cs).bind (treeAt names)

def nodeAt (d : Dir φ δ) (names : List Bytes) : Option (φ ⊕ δ) := (treeAt names d.toTree).map node

def ofTree (t : Tree φ δ) (names : List Bytes) : Option (φ ⊕ δ) := (treeAt names t).map node

@[simp] theorem nodeAt_nil (d : Dir φ δ) : nodeAt d [] = some (.inr d.info) := rfl

theorem nodeAt_cons (d : Dir φ δ) {name : Bytes} (hn : ¬ IsDot name) (names : List Bytes) :
    nodeAt d (name :: names) = (lookup name d.children).bind (ofTree · names) := by
  simp only [nodeAt, Dir.toTree, treeAt, if_neg hn]
  cases lookup name d.children <;> rfl

theorem nodeAt_dot (d : Dir φ δ) {name : Bytes} (hn : IsDot name) (names : List Bytes) :
    nodeAt d (name :: names) = none := by
  simp [nodeAt, Dir.toTree, treeAt, hn]

theorem ofTree_toTree (d : Dir φ δ) (names : List Bytes) : ofTree d.toTree names = nodeAt d names := rfl

theorem ofTree_leaf (x : φ) (names : List Bytes) :
    ofTree (.leaf x : Tree φ δ) names = if names = [] then some (.inl x) else none := by
  cases names <;> rfl

theorem nodeAt_setChild (d : Dir φ δ) (t : Tree φ δ) {name m : Bytes} (hm : ¬ IsDot m)
    (ms : List Bytes) :
    nodeAt (setChild name t d) (m :: ms) = if m = name then ofTree t ms else nodeAt d (m :: ms) := by
  rw [nodeAt_cons _ hm, nodeAt_cons _ hm, setChild, lookup_upsertList_const]
  by_cases h : m = name
  · rw [if_pos h, if_pos h]
    rfl
  · rw [if_neg h, if_neg h]

theorem nodeAt_of_append {d : Dir φ δ} {names more : List Bytes} (h : nodeAt d (names ++ more) ≠ none) :
    nodeAt d names ≠ none := by
  induction names generalizing d with
  | nil => simp
  | cons name names ih =>
    by_cases hn : IsDot name
    · exact absurd (nodeAt_dot d hn _) h
    rw [List.cons_append, nodeAt_cons _ hn] at h
    rw [nodeAt_cons _ hn]
    cases hl : lookup name d.children with
    | none => simp [hl] at h
    | some t =>
      rw [hl] at h
      cases t with
      | dir info cs => exact ih (d := ⟨info, cs⟩) h
      | leaf x =>
        cases names with
        | nil => simp [ofTree, treeAt]
        | cons => exact absurd rfl h

theorem nodeAt_below_leaf {d : Dir φ δ} {names more : List Bytes} {x : φ}
    (h : nodeAt d names = some (.inl x)) (hm : more ≠ []) : nodeAt d (names ++ more) = none := by
  induction names generalizing d with
  | nil => simp at h
  | cons name names ih =>
    by_cases hn : IsDot name
    · exact nodeAt_dot d hn _
    rw [List.cons_append, nodeAt_cons _ hn]
    rw [nodeAt_cons _ hn] at h
    cases hl : lookup name d.children with
    | none => rfl
    | some t =>
      rw [hl] at h
      cases t with
      | dir info cs => exact ih (d := ⟨info, cs⟩) h
      | leaf y =>
        change ofTree (.leaf y) (names ++ more) = none
        rw [ofTree_leaf, if_neg (by simp [hm])]

theorem all_lookup {P : φ → Prop} {Q : δ → Prop} {cs : List (Bytes × Tree φ δ)} {name : Bytes}
    {t : Tree φ δ} (hall : AllList P Q cs) (h : lookup name cs = some t) : t.All P Q := by
  induction cs with
  | nil => cases h
  | cons c cs ih =>
    rw [lookup] at h
    split_ifs at h
    · cases h
      exact hall.1
    · exact ih hall.2 h

theorem all_nodeAt {P : φ → Prop} {Q : δ → Prop} {d : Dir φ δ} {names : List Bytes} {x : φ}
    (hall : d.toTree.All P Q) (h : nodeAt d names = some (.inl x)) : P x := by
  induction names generalizing d with
  | nil => cases h
  | cons name names ih =>
    by_cases hn : IsDot name
    · rw [nodeAt_dot d hn] at h
      cases h
    rw [nodeAt_cons _ hn] at h
    obtain ⟨t, hl, ht⟩ := Option.bind_eq_some_iff.mp h
    have hsub := all_lookup hall.2 hl
    cases t with
    | dir info cs => exact ih (d := ⟨info, cs⟩) hsub ht
    | leaf y =>
      rw [ofTree_leaf] at ht
      split_ifs at ht
      cases ht
      exact hsub

end Nodes

section Routes

def route : List Component → List Bytes × Except Error (Option Bytes)
  | [] => ([], .ok none)
  | [.normal name] => ([], .ok (some name))
  | [.curDir] => ([], .ok none)
  | [_] => ([], .error .weirdPath)
  | .curDir :: rest | .rootDir :: rest => route rest
  | .parentDir :: _ => ([], .error .pathWithDotDot)
  | .normal name :: rest => (name :: (route rest).1, (route rest).2)

def pathRoute (path : Bytes) : List Bytes × Except Error (Option Bytes) :=
  if path = [] then ([], .error .emptyPath)
  else if path = [dot] ∨ path = [dot, slash] ∨ path = [slash] then ([], .ok none)
  else route (components path)

def descend (sub : Bytes → EStateM Error (Dir φ δ) α → EStateM Error (Dir φ δ) α)
    (act : EStateM Error (Dir φ δ) α) : List Bytes → EStateM Error (Dir φ δ) α
  | [] => act
  | name :: names => sub name (descend sub act names)

def finish (k : Option Bytes → EStateM Error (Dir φ δ) α) :
    Except Error (Option Bytes) → EStateM Error (Dir φ δ) α
  | .ok last => k last
  | .error e => throw e

variable {sub : Bytes → EStateM Error (Dir φ δ) α → EStateM Error (Dir φ δ) α}
  {k : Option Bytes → EStateM Error (Dir φ δ) α}

theorem lookupLoop_eq (cs : List Component) :
    lookupLoop sub k cs = descend sub (finish k (route cs).2) (route cs).1 := by
  induction cs with
  | nil => rfl
  | cons c cs ih =>
    cases cs with
    | nil => cases c <;> rfl
    | cons c' cs =>
      cases c with
      | normal name => exact congrArg (sub name) ih
      | curDir => exact ih
      | rootDir => exact ih
      | parentDir => rfl

theorem lookupImpl_eq (path : Bytes) :
    lookupImpl sub path k = descend sub (finish k (pathRoute path).2) (pathRoute path).1 := by
  unfold lookupImpl pathRoute
  split_ifs
  · rfl
  · rfl
  · exact lookupLoop_eq _

/-- The names of the route are those of the components, when nothing is wrong with the path. -/
theorem route_names {cs : List Component} {dirs : List Bytes} {last : Option Bytes}
    (h : route cs = (dirs, .ok last)) : cs.filterMap normalName = dirs ++ last.toList := by
  induction cs generalizing dirs with
  | nil =>
    cases h
    rfl
  | cons c cs ih =>
    cases cs with
    | nil =>
      cases c with
      | normal name => cases h; rfl
      | curDir => cases h; rfl
      | rootDir => cases h
      | parentDir => cases h
    | cons c' cs =>
      cases c with
      | normal name =>
        obtain ⟨h₁, h₂⟩ := Prod.mk.inj h
        have hn : normalName (.normal name) = some name := rfl
        rw [List.filterMap_cons_some hn, ih (Prod.ext rfl h₂), ← h₁]
        rfl
      | curDir => exact ih h
      | rootDir => exact ih h
      | parentDir => cases h

theorem pathRoute_names {path : Bytes} {dirs : List Bytes} {last : Option Bytes}
    (h : pathRoute path = (dirs, .ok last)) : pathNames path = dirs ++ last.toList := by
  unfold pathRoute at h
  split_ifs at h with h₁ h₂
  · cases h
  · cases h
    rcases h₂ with rfl | rfl | rfl <;> decide
  · exact route_names h

end Routes

section Descent

def childDir (dflt : Dir φ δ) (name : Bytes) (d : Dir φ δ) : Dir φ δ :=
  match lookup name d.children with
  | some (.dir info cs) => ⟨info, cs⟩
  | _ => dflt

def reach (dflt : Dir φ δ) : List Bytes → Dir φ δ → Option (Dir φ δ)
  | [], d => some d
  | name :: names, d =>
    match lookup name d.children with
    | some (.leaf _) => none
    | _ => reach dflt names (childDir dflt name d)

def graft (dflt : Dir φ δ) : List Bytes → Dir φ δ → Dir φ δ → Dir φ δ
  | [], new, _ => new
  | name :: names, new, d => setChild name (graft dflt names new (childDir dflt name d)).toTree d

variable {dflt : Dir φ δ} {act : EStateM Error (Dir φ δ) α}

theorem getOrCreateDir_eq (name : Bytes) (d : Dir φ δ)
    (h : ∀ x, lookup name d.children ≠ some (.leaf x)) :
    getOrCreateDir dflt name act d = zoom name (childDir dflt name d) d act := by
  unfold getOrCreateDir childDir
  cases hl : lookup name d.children with
  | none => rfl
  | some t =>
    cases t with
    | dir info cs => rfl
    | leaf x => exact absurd hl (h x)

theorem reach_cons {name : Bytes} {names : List Bytes} {d : Dir φ δ}
    (h : ∀ x, lookup name d.children ≠ some (.leaf x)) :
    reach dflt (name :: names) d = reach dflt names (childDir dflt name d) := by
  rw [reach]
  cases hl : lookup name d.children with
  | none => rfl
  | some t =>
    cases t with
    | dir info cs => rfl
    | leaf x => exact absurd hl (h x)

theorem reach_cons_eq_some {name : Bytes} {names : List Bytes} {d c : Dir φ δ}
    (h : reach dflt (name :: names) d = some c) :
    (∀ x, lookup name d.children ≠ some (.leaf x)) ∧ reach dflt names (childDir dflt name d) = some c := by
  have hl : ∀ x, lookup name d.children ≠ some (.leaf x) := by
    intro x hx
    simp [reach, hx] at h
  exact ⟨hl, (reach_cons hl).symm.trans h⟩

def putBack (dflt : Dir φ δ) (names : List Bytes) (d : Dir φ δ) :
    EStateM.Result Error (Dir φ δ) α → EStateM.Result Error (Dir φ δ) α
  | .ok a c => .ok a (graft dflt names c d)
  | .error e c => .error e (graft dflt names c d)

theorem descend_of_reach {names : List Bytes} {d c : Dir φ δ} (h : reach dflt names d = some c) :
    descend (getOrCreateDir dflt) act names d = putBack dflt names d (act c) := by
  induction names generalizing d with
  | nil =>
    cases Option.some.inj h
    change act c = _
    cases act c <;> rfl
  | cons name names ih =>
    obtain ⟨hl, hc⟩ := reach_cons_eq_some h
    change getOrCreateDir dflt name (descend (getOrCreateDir dflt) act names) d = _
    rw [getOrCreateDir_eq name d hl, zoom, ih hc]
    cases act c <;> rfl

theorem descend_of_blocked (act : EStateM Error (Dir φ δ) α) {names : List Bytes} {d : Dir φ δ}
    (h : reach dflt names d = none) :
    ∃ d', descend (getOrCreateDir dflt) act names d = .error .notADir d' := by
  induction names generalizing d with
  | nil => cases h
  | cons name names ih =>
    change ∃ d', getOrCreateDir dflt name (descend (getOrCreateDir dflt) act names) d = _
    by_cases hl : ∀ x, lookup name d.children ≠ some (.leaf x)
    · obtain ⟨d', hd'⟩ := ih ((reach_cons hl).symm.trans h)
      rw [getOrCreateDir_eq name d hl, zoom, hd']
      exact ⟨_, rfl⟩
    · obtain ⟨x, hx⟩ := not_forall_not.mp hl
      exact ⟨d, by rw [getOrCreateDir, hx]⟩

theorem descend_eq_ok {names : List Bytes} {d d' : Dir φ δ} {a : α}
    (h : descend (getOrCreateDir dflt) act names d = .ok a d') :
    ∃ c c', reach dflt names d = some c ∧ act c = .ok a c' ∧ d' = graft dflt names c' d := by
  cases hr : reach dflt names d with
  | none =>
    obtain ⟨e, he⟩ := descend_of_blocked act hr
    rw [he] at h
    cases h
  | some c =>
    rw [descend_of_reach hr] at h
    cases ha : act c with
    | ok b c' =>
      rw [ha] at h
      cases h
      exact ⟨c, c', rfl, ha, rfl⟩
    | error e c' =>
      rw [ha] at h
      cases h

theorem getDir_ok {act' : EStateM Error (Dir φ δ) α} {name : Bytes} {d d' : Dir φ δ} {a : α}
    (h : getDir name act d = .ok a d') (hi : ∀ c c', act c = .ok a c' → act' c = .ok a c') :
    getOrCreateDir dflt name act' d = .ok a d' := by
  unfold getDir at h
  unfold getOrCreateDir
  cases hl : lookup name d.children with
  | none => simp [hl] at h
  | some t =>
    cases t with
    | leaf x => simp [hl] at h
    | dir info cs =>
      simp only [hl, zoom] at h
      cases hs : act ⟨info, cs⟩ with
      | ok b c =>
        rw [hs] at h
        cases h
        simp only [zoom, hi _ _ hs]
      | error e c =>
        rw [hs] at h
        cases h

/-- A descent that makes no directories is one that could have made some. -/
theorem descend_getDir {names : List Bytes} {d d' : Dir φ δ} {a : α}
    (h : descend getDir act names d = .ok a d') :
    descend (getOrCreateDir dflt) act names d = .ok a d' := by
  induction names generalizing d d' with
  | nil => exact h
  | cons name names ih => exact getDir_ok h fun _ _ hc => ih hc

end Descent

section Map

def Bare (dflt : Dir φ δ) : Prop := ∀ name, ¬ IsDot name → lookup name dflt.children = none

variable {dflt : Dir φ δ}

theorem Bare.nodeAt_eq_none (hb : Bare dflt) {names : List Bytes} (hne : names ≠ []) :
    nodeAt dflt names = none := by
  obtain ⟨name, rest, rfl⟩ := List.exists_cons_of_ne_nil hne
  by_cases hn : IsDot name
  · exact nodeAt_dot dflt hn rest
  · rw [nodeAt_cons dflt hn, hb name hn]
    rfl

theorem nodeAt_childDir (hb : Bare dflt) {d : Dir φ δ} {name : Bytes} (hn : ¬ IsDot name)
    (hl : ∀ x, lookup name d.children ≠ some (.leaf x)) {names : List Bytes} (hne : names ≠ []) :
    nodeAt (childDir dflt name d) names = nodeAt d (name :: names) := by
  rw [nodeAt_cons d hn, childDir]
  cases h : lookup name d.children with
  | none => exact hb.nodeAt_eq_none hne
  | some t =>
    cases t with
    | dir info cs => rfl
    | leaf x => exact absurd h (hl x)

theorem nodeAt_reach (hb : Bare dflt) {names : List Bytes} {d c : Dir φ δ}
    (hn : ∀ name ∈ names, ¬ IsDot name) (h : reach dflt names d = some c) {q : List Bytes}
    (hq : q ≠ []) : nodeAt c q = nodeAt d (names ++ q) := by
  induction names generalizing d with
  | nil =>
    cases Option.some.inj h
    rfl
  | cons name names ih =>
    obtain ⟨hl, hc⟩ := reach_cons_eq_some h
    rw [ih (fun m hm => hn m (by simp [hm])) hc, List.cons_append,
      nodeAt_childDir hb (hn name (by simp)) hl (by simp [hq])]

/-- The data of the directory reached, which is fresh if there was none. -/
theorem nodeAt_reach_info (hb : Bare dflt) {names : List Bytes} {d c : Dir φ δ}
    (hn : ∀ name ∈ names, ¬ IsDot name) (h : reach dflt names d = some c) :
    nodeAt d names = some (.inr c.info) ∨ nodeAt d names = none ∧ c.info = dflt.info := by
  induction names generalizing d with
  | nil =>
    cases Option.some.inj h
    exact Or.inl rfl
  | cons name names ih =>
    obtain ⟨hl, hc⟩ := reach_cons_eq_some h
    have hih := ih (fun m hm => hn m (by simp [hm])) hc
    by_cases hne : names = []
    · subst hne
      cases Option.some.inj hc
      rw [nodeAt_cons d (hn name (by simp)), childDir]
      cases h' : lookup name d.children with
      | none => exact Or.inr ⟨rfl, rfl⟩
      | some t =>
        cases t with
        | dir info cs => exact Or.inl rfl
        | leaf x => exact absurd h' (hl x)
    · rwa [nodeAt_childDir hb (hn name (by simp)) hl hne] at hih

theorem nodeAt_graft_below {names : List Bytes} (hn : ∀ name ∈ names, ¬ IsDot name)
    (new d : Dir φ δ) (q : List Bytes) :
    nodeAt (graft dflt names new d) (names ++ q) = nodeAt new q := by
  induction names generalizing d with
  | nil => rfl
  | cons name names ih =>
    rw [graft, List.cons_append, nodeAt_setChild _ _ (hn name (by simp)), if_pos rfl, ofTree_toTree]
    exact ih (fun m hm => hn m (by simp [hm])) _

/-- Missing directories on the way to `names` are made, and nothing else happens away from it. -/
def wayTo (info : δ) (names : List Bytes) (m : List Bytes → Option (φ ⊕ δ)) (q : List Bytes) :
    Option (φ ⊕ δ) :=
  if q <+: names then some ((m q).getD (.inr info)) else m q

theorem nodeAt_graft_other (hb : Bare dflt) {names : List Bytes} {d c : Dir φ δ}
    (hn : ∀ name ∈ names, ¬ IsDot name) (h : reach dflt names d = some c) (new : Dir φ δ)
    {q : List Bytes} (hq : ¬ names <+: q) :
    nodeAt (graft dflt names new d) q = wayTo dflt.info names (nodeAt d) q := by
  induction names generalizing d q with
  | nil => exact absurd List.nil_prefix hq
  | cons name names ih =>
    obtain ⟨hl, hc⟩ := reach_cons_eq_some h
    have hname := hn name (by simp)
    cases q with
    | nil => rfl
    | cons m ms =>
      by_cases hdot : IsDot m
      · have hne : ¬ m :: ms <+: name :: names := by
          intro hp
          exact hname ((List.cons_prefix_cons.mp hp).1 ▸ hdot)
        rw [nodeAt_dot _ hdot, wayTo, if_neg hne, nodeAt_dot _ hdot]
      rw [graft, nodeAt_setChild _ _ hdot, ofTree_toTree]
      by_cases hm : m = name
      · subst hm
        have hpre : ¬ names <+: ms := fun hp => hq (List.cons_prefix_cons.mpr ⟨rfl, hp⟩)
        rw [if_pos rfl, ih (fun n hn' => hn n (by simp [hn'])) hc hpre]
        simp only [wayTo, List.cons_prefix_cons, true_and]
        by_cases hne : ms = []
        · subst hne
          have hreach : reach dflt [m] d = some (childDir dflt m d) := reach_cons hl
          rcases nodeAt_reach_info hb (by simpa using hname) hreach with hinfo | ⟨hinfo, heq⟩
          · simp [hinfo]
          · simp [hinfo, heq]
        · rw [nodeAt_childDir hb hname hl hne]
      · rw [if_neg hm, wayTo, if_neg]
        exact fun hp => hm (List.cons_prefix_cons.mp hp).1

end Map

section Operations

variable {dflt : Dir φ δ} {path : Bytes} {k : Option Bytes → EStateM Error (Dir φ δ) α}

theorem descend_append (sub : Bytes → EStateM Error (Dir φ δ) α → EStateM Error (Dir φ δ) α)
    (act : EStateM Error (Dir φ δ) α) (names more : List Bytes) :
    descend sub act (names ++ more) = descend sub (descend sub act more) names := by
  induction names with
  | nil => rfl
  | cons name names ih => exact congrArg (sub name) ih

theorem finish_ok {stop : Except Error (Option Bytes)} {a : α} {c c' : Dir φ δ}
    (h : finish k stop c = .ok a c') : ∃ last, stop = .ok last ∧ k last c = .ok a c' := by
  cases stop with
  | ok last => exact ⟨last, rfl, h⟩
  | error e => cases h

theorem lookupCreate_ok {d d' : Dir φ δ} {a : α} (h : lookupCreate dflt path k d = .ok a d') :
    ∃ dirs last c c', pathRoute path = (dirs, .ok last) ∧ reach dflt dirs d = some c ∧
      k last c = .ok a c' ∧ d' = graft dflt dirs c' d := by
  rw [lookupCreate, lookupImpl_eq] at h
  obtain ⟨c, c', hr, ha, hd'⟩ := descend_eq_ok h
  obtain ⟨last, hlast, hk⟩ := finish_ok ha
  exact ⟨(pathRoute path).1, last, c, c', Prod.ext rfl hlast, hr, hk, hd'⟩

theorem lookupOnly_ok (dflt : Dir φ δ) {d d' : Dir φ δ} {a : α} (h : lookupOnly path k d = .ok a d') :
    ∃ dirs last c c', pathRoute path = (dirs, .ok last) ∧ reach dflt dirs d = some c ∧
      k last c = .ok a c' ∧ d' = graft dflt dirs c' d := by
  apply lookupCreate_ok
  rw [lookupCreate, lookupImpl_eq]
  rw [lookupOnly, lookupImpl_eq] at h
  exact descend_getDir h

theorem pathRoute_not_dot {dirs : List Bytes} {last : Option Bytes}
    (h : pathRoute path = (dirs, .ok last)) : ∀ name ∈ dirs ++ last.toList, ¬ IsDot name := by
  intro name hm hdot
  rw [← pathRoute_names h] at hm
  have hne := pathNames_not_dot hm
  exact hdot.elim hne.1 hne.2

def withLeaf (info : δ) (names : List Bytes) (x : φ) (m : List Bytes → Option (φ ⊕ δ))
    (q : List Bytes) : Option (φ ⊕ δ) :=
  if q = names then some (.inl x) else if names <+: q then none else wayTo info names m q

def withDir (info : δ) (names : List Bytes) (set : δ → δ) (m : List Bytes → Option (φ ⊕ δ))
    (q : List Bytes) : Option (φ ⊕ δ) :=
  if q = names then some (.inr (set (((m names).bind Sum.getRight?).getD info))) else wayTo info names m q

theorem nodeAt_setLeaf (hb : Bare dflt) {dirs : List Bytes} {name : Bytes} {d c : Dir φ δ} {x : φ}
    (hn : ∀ n ∈ dirs ++ [name], ¬ IsDot n) (hr : reach dflt dirs d = some c) (q : List Bytes) :
    nodeAt (graft dflt dirs (setChild name (.leaf x) c) d) q =
      withLeaf dflt.info (dirs ++ [name]) x (nodeAt d) q := by
  have hdirs : ∀ n ∈ dirs, ¬ IsDot n := fun n hm => hn n (by simp [hm])
  have hname : ¬ IsDot name := hn name (by simp)
  by_cases hp : dirs <+: q
  · obtain ⟨r, rfl⟩ := hp
    rw [nodeAt_graft_below hdirs]
    cases r with
    | nil =>
      have hnot : ¬ dirs ++ [name] <+: dirs := by
        intro h
        simpa using h.length_le
      rw [List.append_nil, withLeaf, if_neg (by simp), if_neg hnot, wayTo,
        if_pos (List.prefix_append _ _)]
      rcases nodeAt_reach_info hb hdirs hr with hi | ⟨hi, he⟩
      · simp [hi, setChild]
      · simp [hi, he, setChild]
    | cons m ms =>
      by_cases hm : m = name
      · subst hm
        rw [nodeAt_setChild _ _ hname, if_pos rfl, ofTree_leaf]
        by_cases hms : ms = []
        · simp [withLeaf, hms]
        · rw [if_neg hms, withLeaf, if_neg (by simp [hms]), if_pos]
          exact (List.prefix_append_right_inj dirs).mpr (by simp)
      · have h₁ : dirs ++ m :: ms ≠ dirs ++ [name] := by simp [hm]
        have h₂ : ¬ dirs ++ [name] <+: dirs ++ m :: ms := by
          rw [List.prefix_append_right_inj]
          simp [Ne.symm hm]
        have h₃ : ¬ dirs ++ m :: ms <+: dirs ++ [name] := by
          rw [List.prefix_append_right_inj]
          simp [hm]
        rw [withLeaf, if_neg h₁, if_neg h₂, wayTo, if_neg h₃, ← nodeAt_reach hb hdirs hr (by simp)]
        by_cases hdot : IsDot m
        · rw [nodeAt_dot _ hdot, nodeAt_dot _ hdot]
        · rw [nodeAt_setChild _ _ hdot, if_neg hm]
  · have h₁ : q ≠ dirs ++ [name] := by
      rintro rfl
      exact hp (List.prefix_append _ _)
    have h₂ : ¬ dirs ++ [name] <+: q := fun h => hp ((List.prefix_append _ _).trans h)
    have h₃ : q <+: dirs ↔ q <+: dirs ++ [name] := by
      simp [List.prefix_concat_iff, h₁]
    rw [nodeAt_graft_other hb hdirs hr _ hp, withLeaf, if_neg h₁, if_neg h₂, wayTo, wayTo]
    exact if_congr h₃ rfl rfl

theorem addLeaf_ok (hb : Bare dflt) {d d' : Dir φ δ} {x : φ} (h : addLeaf dflt path x d = .ok () d') :
    pathNames path ≠ [] ∧ nodeAt d' = withLeaf dflt.info (pathNames path) x (nodeAt d) := by
  unfold addLeaf at h
  split_ifs at h
  · cases h
  obtain ⟨dirs, last, c, c', hp, hr, hk, rfl⟩ := lookupCreate_ok h
  cases last with
  | none => cases hk
  | some name =>
    cases hk
    rw [pathRoute_names hp]
    refine ⟨by simp, ?_⟩
    ext1 q
    exact nodeAt_setLeaf hb (pathRoute_not_dot hp) hr q

theorem upsertDir_eq {dirs : List Bytes} {last : Option Bytes} (set : δ → δ)
    (h : pathRoute path = (dirs, .ok last)) :
    upsertDir dflt path set = descend (getOrCreateDir dflt)
      (modify fun d => { d with info := set d.info }) (dirs ++ last.toList) := by
  rw [upsertDir, lookupCreate, lookupImpl_eq, h, descend_append]
  cases last <;> rfl

theorem upsertDir_ok (hb : Bare dflt) {d d' : Dir φ δ} {set : δ → δ}
    (h : upsertDir dflt path set d = .ok () d') :
    nodeAt d' = withDir dflt.info (pathNames path) set (nodeAt d) := by
  obtain ⟨dirs, last, -, -, hp, -⟩ := lookupCreate_ok h
  rw [upsertDir_eq set hp] at h
  have hn := pathRoute_not_dot hp
  rw [pathRoute_names hp]
  generalize dirs ++ last.toList = names at h hn
  obtain ⟨c, c', hr, hk, rfl⟩ := descend_eq_ok h
  cases hk
  ext1 q
  by_cases hq : names <+: q
  · obtain ⟨r, rfl⟩ := hq
    rw [nodeAt_graft_below hn]
    by_cases hne : r = []
    · subst hne
      rw [List.append_nil, withDir, if_pos rfl]
      rcases nodeAt_reach_info hb hn hr with hi | ⟨hi, he⟩
      · simp [hi]
      · simp [hi, he]
    · have h₁ : names ++ r ≠ names := by simpa using hne
      have h₂ : ¬ names ++ r <+: names := by
        intro hpre
        exact h₁ (hpre.eq_of_length_le (by simp))
      rw [withDir, if_neg h₁, wayTo, if_neg h₂, ← nodeAt_reach hb hn hr hne]
      obtain ⟨m, ms, rfl⟩ := List.exists_cons_of_ne_nil hne
      rfl
  · have h₁ : q ≠ names := by
      rintro rfl
      exact hq (List.prefix_refl _)
    rw [nodeAt_graft_other hb hn hr _ hq, withDir, if_neg h₁]

end Operations

section Apart

variable {m : Bytes} {k : Option Bytes → EStateM Error (Dir φ δ) α} {path : Bytes}

def entryOf (m : Bytes) (d : Dir φ δ) : Option (Tree φ δ) := lookup m d.children

theorem entryOf_setChild {name : Bytes} (h : name ≠ m) (t : Tree φ δ) (d : Dir φ δ) :
    entryOf m (setChild name t d) = entryOf m d := by
  rw [entryOf, setChild, lookup_upsertList_const, if_neg h.symm]
  rfl

theorem entryOf_zoom {name : Bytes} (h : name ≠ m) (child d : Dir φ δ)
    (act : EStateM Error (Dir φ δ) α) :
    entryOf m (stateAfter (zoom name child d act)) = entryOf m d := by
  unfold zoom
  cases act child with
  | ok a c => exact entryOf_setChild h _ d
  | error e c => exact entryOf_setChild h _ d

theorem getOrCreateDir_keeps (dflt : Dir φ δ) {name : Bytes} (h : name ≠ m)
    (act : EStateM Error (Dir φ δ) α) : Keeps (entryOf m) (getOrCreateDir dflt name act) := by
  intro d
  unfold getOrCreateDir
  split
  · exact entryOf_zoom h _ d act
  · rfl
  · exact entryOf_zoom h _ d act

theorem getDir_keeps {name : Bytes} (h : name ≠ m) (act : EStateM Error (Dir φ δ) α) :
    Keeps (entryOf m) (getDir name act) := by
  intro d
  unfold getDir
  split
  · exact entryOf_zoom h _ d act
  · rfl

/-- A path operation leaves an entry alone whose name is not in the path. -/
theorem lookupImpl_keeps {sub : Bytes → EStateM Error (Dir φ δ) α → EStateM Error (Dir φ δ) α}
    (hsub : ∀ name act, name ≠ m → Keeps (entryOf m) (sub name act))
    (hnone : Keeps (entryOf m) (k none)) (hk : ∀ name, name ≠ m → Keeps (entryOf m) (k (some name)))
    (hpath : .normal m ∉ components path) : Keeps (entryOf m) (lookupImpl sub path k) := by
  unfold lookupImpl
  split_ifs
  · exact fun _ => rfl
  · exact hnone
  generalize components path = cs at hpath
  induction cs with
  | nil => exact hnone
  | cons c cs ih =>
    have ih := ih fun hm => hpath (List.mem_cons_of_mem _ hm)
    have hc : ∀ name, c = .normal name → name ≠ m := by
      rintro name rfl rfl
      exact hpath List.mem_cons_self
    cases cs with
    | nil =>
      cases c with
      | normal name => exact hk name (hc name rfl)
      | curDir => exact hnone
      | rootDir => exact fun _ => rfl
      | parentDir => exact fun _ => rfl
    | cons c' cs =>
      cases c with
      | normal name => exact hsub name _ (hc name rfl)
      | curDir => exact ih
      | rootDir => exact ih
      | parentDir => exact fun _ => rfl

variable (dflt : Dir φ δ) (hpath : .normal m ∉ components path)
include hpath

theorem addLeaf_keeps (x : φ) : Keeps (entryOf m) (addLeaf dflt path x) := by
  unfold addLeaf
  split_ifs
  · exact fun _ => rfl
  refine lookupImpl_keeps (fun name act h => getOrCreateDir_keeps dflt h act) (fun _ => rfl) ?_ hpath
  exact fun name h => keeps_modify fun d => entryOf_setChild h _ d

theorem upsertDir_keeps (set : δ → δ) : Keeps (entryOf m) (upsertDir dflt path set) :=
  lookupImpl_keeps (fun _ act h => getOrCreateDir_keeps dflt h act) (keeps_modify fun _ => rfl)
    (fun _ h => getOrCreateDir_keeps dflt h _) hpath

end Apart

section Related

variable {φ' δ' : Type} {L : Bytes → φ → φ' → Prop} {D : Bytes → List Bytes → δ → δ' → Prop}

/-- Related trees have related nodes at every path; below the root the name of
a node is none of the dots. -/
theorem rel_treeAt {names : List Bytes} {n : Bytes} {t t' : Tree φ δ} {u : Tree φ' δ'}
    (h : Rel L D n t u) (ht : treeAt names t = some t') :
    ∃ n' u', treeAt names u = some u' ∧ Rel L D n' t' u' ∧ (n' = n ∨ ¬ IsDot n') := by
  induction names generalizing n t u with
  | nil =>
    cases Option.some.inj ht
    exact ⟨n, u, rfl, h, Or.inl rfl⟩
  | cons name names ih =>
    cases h with
    | leaf => cases ht
    | dir hd hc =>
      rw [treeAt] at ht
      split_ifs at ht with hdot
      obtain ⟨c, hl, hc'⟩ := Option.bind_eq_some_iff.mp ht
      rcases hc.lookup name with ⟨hn, -⟩ | ⟨c', v, hl', hv, hrel⟩
      · rw [hn] at hl
        cases hl
      · cases hl.symm.trans hl'
        obtain ⟨n', u', hu, hr, hn'⟩ := ih hrel hc'
        refine ⟨n', u', ?_, hr, Or.inr ?_⟩
        · rw [treeAt, if_neg hdot, hv]
          exact hu
        · rcases hn' with rfl | hn'
          · exact hdot
          · exact hn'

end Related

end ProgramExplorer.ErofsPaths
