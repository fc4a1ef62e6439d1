import ProgramExplorer.ByteStrings
import ProgramExplorer.OrderedMap

/-!
# Trees of named entries

A directory is its own data and a list of named children; everything else is
a leaf. The types of leaf and directory data are parameters, so one tree of
names can be read as a tree of allocations or as a tree of contents. Two such
readings are related when they have the same names and their data are related
at each of them.
-/

set_option autoImplicit false

namespace ProgramExplorer.FileTree
open ByteStrings

variable {φ δ φ' δ' : Type}

inductive Tree (φ δ : Type) where
  | leaf (x : φ)
  | dir (d : δ) (children : List (Bytes × Tree φ δ))

mutual
def Tree.map (f : φ → φ') (g : δ → δ') : Tree φ δ → Tree φ' δ'
  | .leaf x => .leaf (f x)
  | .dir d cs => .dir (g d) (mapChildren f g cs)

def mapChildren (f : φ → φ') (g : δ → δ') : List (Bytes × Tree φ δ) → List (Bytes × Tree φ' δ')
  | [] => []
  | (name, t) :: cs => (name, t.map f g) :: mapChildren f g cs
end

mutual
def Tree.levels : Tree φ δ → ℕ
  | .leaf _ => 0
  | .dir _ cs => levelsList cs + 1

def levelsList : List (Bytes × Tree φ δ) → ℕ
  | [] => 0
  | (_, t) :: cs => max t.levels (levelsList cs)
end

mutual
/-- What the nodes contribute, a directory before its children. -/
def Tree.preorder {β : Type} (f : φ → List β) (g : δ → List β) : Tree φ δ → List β
  | .leaf x => f x
  | .dir d cs => g d ++ preorderList f g cs

def preorderList {β : Type} (f : φ → List β) (g : δ → List β) : List (Bytes × Tree φ δ) → List β
  | [] => []
  | (_, t) :: cs => t.preorder f g ++ preorderList f g cs
end

section Relation

mutual
/-- The relation of the data of a directory may depend on the names in it. -/
inductive Rel (L : Bytes → φ → φ' → Prop) (D : Bytes → List Bytes → δ → δ' → Prop) :
    Bytes → Tree φ δ → Tree φ' δ' → Prop
  | leaf {name : Bytes} {x : φ} {y : φ'} (h : L name x y) : Rel L D name (.leaf x) (.leaf y)
  | dir {name : Bytes} {d : δ} {d' : δ'} {cs : List (Bytes × Tree φ δ)}
      {cs' : List (Bytes × Tree φ' δ')} (h : D name (cs.map (·.1)) d d') (hc : RelList L D cs cs') :
      Rel L D name (.dir d cs) (.dir d' cs')

inductive RelList (L : Bytes → φ → φ' → Prop) (D : Bytes → List Bytes → δ → δ' → Prop) :
    List (Bytes × Tree φ δ) → List (Bytes × Tree φ' δ') → Prop
  | nil : RelList L D [] []
  | cons {name : Bytes} {t : Tree φ δ} {t' : Tree φ' δ'} {cs : List (Bytes × Tree φ δ)}
      {cs' : List (Bytes × Tree φ' δ')} (h : Rel L D name t t') (hc : RelList L D cs cs') :
      RelList L D ((name, t) :: cs) ((name, t') :: cs')
end

variable {L L' : Bytes → φ → φ' → Prop} {D D' : Bytes → List Bytes → δ → δ' → Prop}

mutual
theorem Rel.mono (hL : ∀ n x y, L n x y → L' n x y) (hD : ∀ n ns d d', D n ns d d' → D' n ns d d') :
    ∀ {name : Bytes} {t : Tree φ δ} {t' : Tree φ' δ'}, Rel L D name t t' → Rel L' D' name t t'
  | _, _, _, .leaf h => .leaf (hL _ _ _ h)
  | _, _, _, .dir h hc => .dir (hD _ _ _ _ h) (hc.mono hL hD)

theorem RelList.mono (hL : ∀ n x y, L n x y → L' n x y)
    (hD : ∀ n ns d d', D n ns d d' → D' n ns d d') :
    ∀ {cs : List (Bytes × Tree φ δ)} {cs' : List (Bytes × Tree φ' δ')},
      RelList L D cs cs' → RelList L' D' cs cs'
  | _, _, .nil => .nil
  | _, _, .cons h hc => .cons (h.mono hL hD) (hc.mono hL hD)
end

mutual
theorem Rel.map_eq {φ₀ δ₀ : Type} {f : φ → φ₀} {g : δ → δ₀} {f' : φ' → φ₀} {g' : δ' → δ₀}
    (hL : ∀ n x y, L n x y → f x = f' y) (hD : ∀ n ns d d', D n ns d d' → g d = g' d') :
    ∀ {name : Bytes} {t : Tree φ δ} {t' : Tree φ' δ'}, Rel L D name t t' → t.map f g = t'.map f' g'
  | _, _, _, .leaf h => by
    rw [Tree.map, Tree.map, hL _ _ _ h]
  | _, _, _, .dir h hc => by
    rw [Tree.map, Tree.map, hD _ _ _ _ h, hc.map_eq hL hD]

theorem RelList.map_eq {φ₀ δ₀ : Type} {f : φ → φ₀} {g : δ → δ₀} {f' : φ' → φ₀} {g' : δ' → δ₀}
    (hL : ∀ n x y, L n x y → f x = f' y) (hD : ∀ n ns d d', D n ns d d' → g d = g' d') :
    ∀ {cs : List (Bytes × Tree φ δ)} {cs' : List (Bytes × Tree φ' δ')},
      RelList L D cs cs' → mapChildren f g cs = mapChildren f' g' cs'
  | _, _, .nil => rfl
  | _, _, .cons h hc => by
    rw [mapChildren, mapChildren, h.map_eq hL hD, hc.map_eq hL hD]
end

theorem RelList.names_eq {cs : List (Bytes × Tree φ δ)} {cs' : List (Bytes × Tree φ' δ')}
    (h : RelList L D cs cs') : cs.map (·.1) = cs'.map (·.1) := by
  induction cs generalizing cs' with
  | nil =>
    cases h
    rfl
  | cons c cs ih =>
    cases h with
    | cons h hc => rw [List.map_cons, List.map_cons, ih hc]

theorem RelList.lookup {cs : List (Bytes × Tree φ δ)} {cs' : List (Bytes × Tree φ' δ')}
    (h : RelList L D cs cs') (name : Bytes) :
    OrderedMap.lookup name cs = none ∧ OrderedMap.lookup name cs' = none ∨
      ∃ t t', OrderedMap.lookup name cs = some t ∧ OrderedMap.lookup name cs' = some t' ∧
        Rel L D name t t' := by
  induction cs generalizing cs' with
  | nil =>
    cases h
    exact Or.inl ⟨rfl, rfl⟩
  | cons c cs ih =>
    cases h with
    | @cons n t t' _ cs' h hc =>
      simp only [OrderedMap.lookup]
      by_cases hn : n = name
      · subst hn
        exact Or.inr ⟨t, t', if_pos rfl, if_pos rfl, h⟩
      · rw [if_neg hn, if_neg hn]
        exact ih hc

theorem RelList.upsert {cs : List (Bytes × Tree φ δ)} {cs' : List (Bytes × Tree φ' δ')}
    (h : RelList L D cs cs') {name : Bytes} {t : Tree φ δ} {t' : Tree φ' δ'}
    (ht : Rel L D name t t') :
    RelList L D (OrderedMap.upsertList name (fun _ => t) cs)
      (OrderedMap.upsertList name (fun _ => t') cs') := by
  induction cs generalizing cs' with
  | nil =>
    cases h
    exact .cons ht .nil
  | cons c cs ih =>
    cases h with
    | cons h hc =>
      simp only [OrderedMap.upsertList]
      split_ifs with hlt heq
      · exact .cons ht (.cons h hc)
      · exact .cons ht hc
      · exact .cons h (ih hc)

end Relation

section Everywhere

mutual
def Tree.All (P : φ → Prop) (Q : δ → Prop) : Tree φ δ → Prop
  | .leaf x => P x
  | .dir d cs => Q d ∧ AllList P Q cs

def AllList (P : φ → Prop) (Q : δ → Prop) : List (Bytes × Tree φ δ) → Prop
  | [] => True
  | (_, t) :: cs => t.All P Q ∧ AllList P Q cs
end

mutual
theorem Tree.map_eq_map_iff {f f' : φ → φ'} {g g' : δ → δ'} :
    ∀ t : Tree φ δ, t.map f g = t.map f' g' ↔ t.All (fun x => f x = f' x) (fun d => g d = g' d)
  | .leaf x => by simp [Tree.map, Tree.All]
  | .dir d cs => by simp [Tree.map, Tree.All, mapChildren_eq_iff cs]

theorem mapChildren_eq_iff {f f' : φ → φ'} {g g' : δ → δ'} : ∀ cs : List (Bytes × Tree φ δ),
    mapChildren f g cs = mapChildren f' g' cs ↔
      AllList (fun x => f x = f' x) (fun d => g d = g' d) cs
  | [] => by simp [mapChildren, AllList]
  | (name, t) :: cs => by
    simp [mapChildren, AllList, Tree.map_eq_map_iff t, mapChildren_eq_iff cs]
end

variable {L : Bytes → φ → φ' → Prop} {D : Bytes → List Bytes → δ → δ' → Prop}

mutual
theorem Rel.all {P : φ → Prop} {Q : δ → Prop} {P' : φ' → Prop} {Q' : δ' → Prop}
    (hL : ∀ n x y, P x → L n x y → P' y) (hD : ∀ n ns d d', Q d → D n ns d d' → Q' d') :
    ∀ {name : Bytes} {t : Tree φ δ} {t' : Tree φ' δ'}, Rel L D name t t' → t.All P Q → t'.All P' Q'
  | _, _, _, .leaf h, hx => hL _ _ _ hx h
  | _, _, _, .dir h hc, hx => ⟨hD _ _ _ _ hx.1 h, hc.all hL hD hx.2⟩

theorem RelList.all {P : φ → Prop} {Q : δ → Prop} {P' : φ' → Prop} {Q' : δ' → Prop}
    (hL : ∀ n x y, P x → L n x y → P' y) (hD : ∀ n ns d d', Q d → D n ns d d' → Q' d') :
    ∀ {cs : List (Bytes × Tree φ δ)} {cs' : List (Bytes × Tree φ' δ')},
      RelList L D cs cs' → AllList P Q cs → AllList P' Q' cs'
  | _, _, .nil, _ => trivial
  | _, _, .cons h hc, hx => ⟨h.all hL hD hx.1, hc.all hL hD hx.2⟩
end

mutual
theorem Tree.all_true : ∀ t : Tree φ δ, t.All (fun _ => True) (fun _ => True)
  | .leaf _ => trivial
  | .dir _ cs => ⟨trivial, allList_true cs⟩

theorem allList_true : ∀ cs : List (Bytes × Tree φ δ), AllList (fun _ => True) (fun _ => True) cs
  | [] => trivial
  | (_, t) :: cs => ⟨t.all_true, allList_true cs⟩
end

mutual
/-- A property of every node as a relation of the tree with itself. -/
theorem Tree.All.rel {P : φ → Prop} {Q : δ → Prop} : ∀ {t : Tree φ δ} (name : Bytes), t.All P Q →
    Rel (fun _ _ y => P y) (fun _ _ _ d => Q d) name t t
  | .leaf _, _, h => .leaf h
  | .dir _ _, _, h => .dir h.1 h.2.rel

theorem AllList.rel {P : φ → Prop} {Q : δ → Prop} : ∀ {cs : List (Bytes × Tree φ δ)},
    AllList P Q cs → RelList (fun _ _ y => P y) (fun _ _ _ d => Q d) cs cs
  | [], _ => .nil
  | (name, _) :: _, h => .cons (h.1.rel name) h.2.rel
end

mutual
theorem Tree.all_iff_leaves_dirs {P : φ → Prop} {Q : δ → Prop} : ∀ t : Tree φ δ,
    t.All P Q ↔ t.All P (fun _ => True) ∧ t.All (fun _ => True) Q
  | .leaf _ => by simp [Tree.All]
  | .dir d cs => by
    rw [Tree.All, allList_iff_leaves_dirs cs, Tree.All, Tree.All]
    tauto

theorem allList_iff_leaves_dirs {P : φ → Prop} {Q : δ → Prop} : ∀ cs : List (Bytes × Tree φ δ),
    AllList P Q cs ↔ AllList P (fun _ => True) cs ∧ AllList (fun _ => True) Q cs
  | [] => by simp [AllList]
  | (_, t) :: cs => by
    rw [AllList, Tree.all_iff_leaves_dirs t, allList_iff_leaves_dirs cs, AllList, AllList]
    tauto
end

end Everywhere

section Directories

mutual
def Tree.EachDir (P : δ → List (Bytes × Tree φ δ) → Prop) : Tree φ δ → Prop
  | .leaf _ => True
  | .dir d cs => P d cs ∧ EachDirList P cs

def EachDirList (P : δ → List (Bytes × Tree φ δ) → Prop) : List (Bytes × Tree φ δ) → Prop
  | [] => True
  | (_, t) :: cs => t.EachDir P ∧ EachDirList P cs
end

mutual
def Tree.decidableEachDir (P : δ → List (Bytes × Tree φ δ) → Prop) [∀ d cs, Decidable (P d cs)] :
    ∀ t : Tree φ δ, Decidable (t.EachDir P)
  | .leaf _ => .isTrue trivial
  | .dir _ cs => @instDecidableAnd _ _ inferInstance (decidableEachDirList P cs)

def decidableEachDirList (P : δ → List (Bytes × Tree φ δ) → Prop) [∀ d cs, Decidable (P d cs)] :
    ∀ cs : List (Bytes × Tree φ δ), Decidable (EachDirList P cs)
  | [] => .isTrue trivial
  | (_, t) :: cs => @instDecidableAnd _ _ (t.decidableEachDir P) (decidableEachDirList P cs)
end

instance (P : δ → List (Bytes × Tree φ δ) → Prop) [∀ d cs, Decidable (P d cs)] (t : Tree φ δ) :
    Decidable (t.EachDir P) := t.decidableEachDir P

mutual
theorem Tree.EachDir.imp {P Q R : δ → List (Bytes × Tree φ δ) → Prop}
    (h : ∀ d cs, P d cs → Q d cs → R d cs) :
    ∀ {t : Tree φ δ}, t.EachDir P → t.EachDir Q → t.EachDir R
  | .leaf _, _, _ => trivial
  | .dir d cs, hp, hq => ⟨h d cs hp.1 hq.1, EachDirList.imp h hp.2 hq.2⟩

theorem EachDirList.imp {P Q R : δ → List (Bytes × Tree φ δ) → Prop}
    (h : ∀ d cs, P d cs → Q d cs → R d cs) :
    ∀ {cs : List (Bytes × Tree φ δ)}, EachDirList P cs → EachDirList Q cs → EachDirList R cs
  | [], _, _ => trivial
  | (_, _) :: _, hp, hq => ⟨Tree.EachDir.imp h hp.1 hq.1, EachDirList.imp h hp.2 hq.2⟩
end

theorem eachDirList_mem {P : δ → List (Bytes × Tree φ δ) → Prop} {cs : List (Bytes × Tree φ δ)}
    {c : Bytes × Tree φ δ} (h : EachDirList P cs) (hm : c ∈ cs) : c.2.EachDir P := by
  induction cs with
  | nil => cases hm
  | cons d cs ih =>
    rcases List.mem_cons.mp hm with rfl | hm
    · exact h.1
    · exact ih h.2 hm

def onNames (P : δ → List Bytes → Prop) (d : δ) (cs : List (Bytes × Tree φ δ)) : Prop :=
  P d (cs.map (·.1))

variable {L : Bytes → φ → φ' → Prop} {D : Bytes → List Bytes → δ → δ' → Prop}

mutual
theorem Rel.eachDir_left {P : δ → List Bytes → Prop} (hD : ∀ n ns d d', D n ns d d' → P d ns) :
    ∀ {name : Bytes} {t : Tree φ δ} {t' : Tree φ' δ'}, Rel L D name t t' → t.EachDir (onNames P)
  | _, _, _, .leaf _ => trivial
  | _, _, _, .dir h hc => ⟨hD _ _ _ _ h, hc.eachDir_left hD⟩

theorem RelList.eachDir_left {P : δ → List Bytes → Prop} (hD : ∀ n ns d d', D n ns d d' → P d ns) :
    ∀ {cs : List (Bytes × Tree φ δ)} {cs' : List (Bytes × Tree φ' δ')}, RelList L D cs cs' →
      EachDirList (onNames P) cs
  | _, _, .nil => trivial
  | _, _, .cons h hc => ⟨h.eachDir_left hD, hc.eachDir_left hD⟩
end

mutual
/-- A property of the data and the names of each directory goes over. -/
theorem Rel.eachDir {P : δ → List Bytes → Prop} {P' : δ' → List Bytes → Prop}
    (hD : ∀ n ns d d', D n ns d d' → P d ns → P' d' ns) :
    ∀ {name : Bytes} {t : Tree φ δ} {t' : Tree φ' δ'}, Rel L D name t t' →
      t.EachDir (onNames P) → t'.EachDir (onNames P')
  | _, _, _, .leaf _, _ => trivial
  | _, _, _, .dir h hc, hp => by
    refine ⟨?_, hc.eachDir hD hp.2⟩
    rw [onNames, ← hc.names_eq]
    exact hD _ _ _ _ h hp.1

theorem RelList.eachDir {P : δ → List Bytes → Prop} {P' : δ' → List Bytes → Prop}
    (hD : ∀ n ns d d', D n ns d d' → P d ns → P' d' ns) :
    ∀ {cs : List (Bytes × Tree φ δ)} {cs' : List (Bytes × Tree φ' δ')}, RelList L D cs cs' →
      EachDirList (onNames P) cs → EachDirList (onNames P') cs'
  | _, _, .nil, _ => trivial
  | _, _, .cons h hc, hp => ⟨h.eachDir hD hp.1, hc.eachDir hD hp.2⟩
end

mutual
theorem Rel.symm : ∀ {name : Bytes} {t : Tree φ δ} {t' : Tree φ' δ'}, Rel L D name t t' →
    Rel (fun n x y => L n y x) (fun n ns d d' => D n ns d' d) name t' t
  | _, _, _, .leaf h => .leaf h
  | _, _, _, .dir h hc => .dir (by rw [← hc.names_eq]; exact h) hc.symm

theorem RelList.symm : ∀ {cs : List (Bytes × Tree φ δ)} {cs' : List (Bytes × Tree φ' δ')},
    RelList L D cs cs' → RelList (fun n x y => L n y x) (fun n ns d d' => D n ns d' d) cs' cs
  | _, _, .nil => .nil
  | _, _, .cons h hc => .cons h.symm hc.symm
end

mutual
/-- What holds of every node, as a relation that holds between equal trees only. -/
theorem Tree.rel_self {P : φ → Prop} {Q : δ → Prop} {R : δ → List Bytes → Prop} :
    ∀ {t : Tree φ δ} (name : Bytes), t.All P Q → t.EachDir (onNames R) →
      Rel (fun _ x y => x = y ∧ P y) (fun _ names d e => d = e ∧ Q e ∧ R e names) name t t
  | .leaf _, _, h, _ => .leaf ⟨rfl, h⟩
  | .dir _ _, _, h, hr => .dir ⟨rfl, h.1, hr.1⟩ (relList_self h.2 hr.2)

theorem relList_self {P : φ → Prop} {Q : δ → Prop} {R : δ → List Bytes → Prop} :
    ∀ {cs : List (Bytes × Tree φ δ)}, AllList P Q cs → EachDirList (onNames R) cs →
      RelList (fun _ x y => x = y ∧ P y) (fun _ names d e => d = e ∧ Q e ∧ R e names) cs cs
  | [], _, _ => .nil
  | (name, _) :: _, h, hr => .cons (Tree.rel_self name h.1 hr.1) (relList_self h.2 hr.2)
end

end Directories

end ProgramExplorer.FileTree
