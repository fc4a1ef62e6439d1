import ProgramExplorer.ErofsBuilder

/-!
# Walks over the builder's tree

What one step of a visitor does to a leaf and to a directory holds after the
walk for the whole tree, as long as later steps do not undo it. A walk also
bounds the levels of the tree, and it keeps the blocks assigned to
directories when its steps do.
-/

set_option autoImplicit false

namespace ProgramExplorer.ErofsWalk
open ByteStrings FileTree StateRules ErofsTree ErofsBuilder

section Inversion

variable {σ : Type} {v : TreeVisitor σ} {maxDepth depth : ℕ} {s s' : σ}

theorem walkTree_leaf_ok {x : Leaf} {t' : Dirent}
    (h : walkTree v maxDepth depth (.leaf x) s = .ok t' s') :
    ∃ x', walkLeaf v x s = .ok x' s' ∧ t' = .leaf x' := by
  rw [walkTree, bind_eq_ok] at h
  obtain ⟨x', s₁, hx, h⟩ := h
  obtain ⟨rfl, rfl⟩ := pure_eq_ok.mp h
  exact ⟨x', hx, rfl⟩

theorem walkTree_dir_ok {info : DirInfo} {cs : List (Bytes × Dirent)} {t' : Dirent}
    (h : walkTree v maxDepth depth (.dir info cs) s = .ok t' s') :
    depth ≠ maxDepth ∧ ∃ info₁ s₁ cs' s₂ info₂, v.onDirEnter info cs s = .ok info₁ s₁ ∧
      walkChildren v maxDepth (depth + 1) cs s₁ = .ok cs' s₂ ∧
      v.onDirExit info₁ s₂ = .ok info₂ s' ∧ t' = .dir info₂ cs' := by
  rw [walkTree, bind_eq_ok] at h
  obtain ⟨_, s₀, hreq, h⟩ := h
  obtain ⟨hne, rfl⟩ := require_eq_ok.mp hreq
  rw [bind_eq_ok] at h
  obtain ⟨info₁, s₁, henter, h⟩ := h
  rw [bind_eq_ok] at h
  obtain ⟨cs', s₂, hcs, h⟩ := h
  rw [bind_eq_ok] at h
  obtain ⟨info₂, s₃, hexit, h⟩ := h
  obtain ⟨rfl, rfl⟩ := pure_eq_ok.mp h
  exact ⟨hne, info₁, s₁, cs', s₂, info₂, henter, hcs, hexit, rfl⟩

theorem walkChildren_nil_ok {cs' : List (Bytes × Dirent)}
    (h : walkChildren v maxDepth depth [] s = .ok cs' s') : cs' = [] ∧ s' = s := by
  rw [walkChildren] at h
  exact pure_eq_ok.mp h

theorem walkChildren_cons_ok {name : Bytes} {t : Dirent} {cs cs' : List (Bytes × Dirent)}
    (h : walkChildren v maxDepth depth ((name, t) :: cs) s = .ok cs' s') :
    ∃ t' s₁ cs₁, walkTree v maxDepth depth t s = .ok t' s₁ ∧
      walkChildren v maxDepth depth cs s₁ = .ok cs₁ s' ∧ cs' = (name, t') :: cs₁ := by
  rw [walkChildren, bind_eq_ok] at h
  obtain ⟨t', s₁, ht, h⟩ := h
  rw [bind_eq_ok] at h
  obtain ⟨cs₁, s₂, hcs, h⟩ := h
  obtain ⟨rfl, rfl⟩ := pure_eq_ok.mp h
  exact ⟨t', s₁, cs₁, ht, hcs, rfl⟩

end Inversion

section Rule

variable {σ φ δ β : Type}

/-- The steps of a visitor take `L`, `D` to `L'`, `D'` under an invariant that
knows what is still to be done: a node takes its own part `f`, `g` off the
list. What holds in a state holds in all states after it. -/
structure WorkSpec (f : φ → List β) (g : δ → List β) (v : TreeVisitor σ) (I : List β → σ → Prop)
    (R : σ → σ → Prop) (L L' : σ → Bytes → Leaf → φ → Prop)
    (D D' : σ → Bytes → List Bytes → DirInfo → δ → Prop) : Prop where
  refl : ∀ s, R s s
  trans : ∀ {s s' s''}, R s s' → R s' s'' → R s s''
  leafMono : ∀ {w s s'}, I w s → R s s' → ∀ n x y, L s n x y → L s' n x y
  dirMono : ∀ {w s s'}, I w s → R s s' → ∀ n ns d e, D s n ns d e → D s' n ns d e
  leafMono' : ∀ {w s s'}, I w s → R s s' → ∀ n x y, L' s n x y → L' s' n x y
  dirMono' : ∀ {w s s'}, I w s → R s s' → ∀ n ns d e, D' s n ns d e → D' s' n ns d e
  leaf : ∀ {w s s' n x x' y}, I (f y ++ w) s → L s n x y → walkLeaf v x s = .ok x' s' →
    I w s' ∧ R s s' ∧ L' s' n x' y
  enter : ∀ {w s s' n cs d d' e}, I (g e ++ w) s → D s n (cs.map (·.1)) d e →
    v.onDirEnter d cs s = .ok d' s' → I w s' ∧ R s s' ∧ D' s' n (cs.map (·.1)) d' e
  exit : ∀ d s, v.onDirExit d s = .ok d s

variable {f : φ → List β} {g : δ → List β} {v : TreeVisitor σ} {I : List β → σ → Prop}
  {R : σ → σ → Prop} {L L' : σ → Bytes → Leaf → φ → Prop}
  {D D' : σ → Bytes → List Bytes → DirInfo → δ → Prop}

mutual
theorem walkTree_work (spec : WorkSpec f g v I R L L' D D') (maxDepth : ℕ) :
    ∀ (t : Dirent) {depth : ℕ} {w : List β} {s s' : σ} {n : Bytes} {t' : Dirent} {u : Tree φ δ},
      I (u.preorder f g ++ w) s → Rel (L s) (D s) n t u → walkTree v maxDepth depth t s = .ok t' s' →
        I w s' ∧ R s s' ∧ Rel (L' s') (D' s') n t' u
  | .leaf x, _, w, s, s', n, t', u, hI, hr, hw => by
    cases hr with
    | leaf h =>
      obtain ⟨x', hx, rfl⟩ := walkTree_leaf_ok hw
      obtain ⟨hI', hR, hL⟩ := spec.leaf hI h hx
      exact ⟨hI', hR, .leaf hL⟩
  | .dir info cs, depth, w, s, s', n, t', u, hI, hr, hw => by
    cases hr with
    | dir h hc =>
      obtain ⟨-, info₁, s₁, cs', s₂, info₂, henter, hcs, hexit, rfl⟩ := walkTree_dir_ok hw
      rw [spec.exit] at hexit
      cases hexit
      rw [Tree.preorder, List.append_assoc] at hI
      obtain ⟨hI₁, hR₁, hD⟩ := spec.enter hI h henter
      have hc₁ := hc.mono (spec.leafMono hI hR₁) (spec.dirMono hI hR₁)
      obtain ⟨hI₂, hR₂, hc₂⟩ := walkChildren_work spec maxDepth cs hI₁ hc₁ hcs
      refine ⟨hI₂, spec.trans hR₁ hR₂, .dir ?_ hc₂⟩
      rw [hc₂.names_eq, ← hc.names_eq]
      exact spec.dirMono' hI₁ hR₂ _ _ _ _ hD

theorem walkChildren_work (spec : WorkSpec f g v I R L L' D D') (maxDepth : ℕ) :
    ∀ (cs : List (Bytes × Dirent)) {depth : ℕ} {w : List β} {s s' : σ} {cs' : List (Bytes × Dirent)}
      {us : List (Bytes × Tree φ δ)},
      I (preorderList f g us ++ w) s → RelList (L s) (D s) cs us →
        walkChildren v maxDepth depth cs s = .ok cs' s' →
        I w s' ∧ R s s' ∧ RelList (L' s') (D' s') cs' us
  | [], _, w, s, s', cs', us, hI, hr, hw => by
    cases hr
    obtain ⟨rfl, rfl⟩ := walkChildren_nil_ok hw
    exact ⟨hI, spec.refl _, .nil⟩
  | (name, t) :: cs, _, w, s, s', cs', us, hI, hr, hw => by
    cases hr with
    | cons h hc =>
      obtain ⟨t', s₁, cs₁, ht, hcs, rfl⟩ := walkChildren_cons_ok hw
      rw [preorderList, List.append_assoc] at hI
      obtain ⟨hI₁, hR₁, h₁⟩ := walkTree_work spec maxDepth t hI h ht
      have hc₁ := hc.mono (spec.leafMono hI hR₁) (spec.dirMono hI hR₁)
      obtain ⟨hI₂, hR₂, hc₂⟩ := walkChildren_work spec maxDepth cs hI₁ hc₁ hcs
      exact ⟨hI₂, spec.trans hR₁ hR₂,
        .cons (h₁.mono (spec.leafMono' hI₁ hR₂) (spec.dirMono' hI₁ hR₂)) hc₂⟩
end

/-- The steps of a visitor under an invariant that needs no account of what is
still to be done. -/
abbrev WalkSpec (v : TreeVisitor σ) (I : σ → Prop) (R : σ → σ → Prop)
    (L L' : σ → Bytes → Leaf → φ → Prop) (D D' : σ → Bytes → List Bytes → DirInfo → δ → Prop) :
    Prop :=
  WorkSpec (β := Unit) (fun _ => []) (fun _ => []) v (fun _ => I) R L L' D D'

theorem walkTree_rel {I : σ → Prop} (spec : WalkSpec v I R L L' D D') (maxDepth : ℕ) (t : Dirent)
    {depth : ℕ} {s s' : σ} {n : Bytes} {t' : Dirent} {u : Tree φ δ} (hI : I s)
    (hr : Rel (L s) (D s) n t u) (hw : walkTree v maxDepth depth t s = .ok t' s') :
    I s' ∧ R s s' ∧ Rel (L' s') (D' s') n t' u :=
  walkTree_work spec maxDepth t (w := []) hI hr hw

end Rule

section Levels

variable {σ : Type} {v : TreeVisitor σ} {maxDepth : ℕ}

mutual
theorem walkTree_levels : ∀ (t : Dirent) {depth : ℕ} {s s' : σ} {t' : Dirent},
    walkTree v maxDepth depth t s = .ok t' s' → depth ≤ maxDepth → depth + t.levels ≤ maxDepth
  | .leaf x, _, _, _, _, _, hle => by
    simpa [Tree.levels] using hle
  | .dir info cs, depth, s, s', t', hw, hle => by
    obtain ⟨hne, info₁, s₁, cs', s₂, info₂, -, hcs, -⟩ := walkTree_dir_ok hw
    have := walkChildren_levels cs hcs (by omega)
    rw [Tree.levels]
    omega

theorem walkChildren_levels : ∀ (cs : List (Bytes × Dirent)) {depth : ℕ} {s s' : σ}
    {cs' : List (Bytes × Dirent)},
    walkChildren v maxDepth depth cs s = .ok cs' s' → depth ≤ maxDepth →
      depth + levelsList cs ≤ maxDepth
  | [], _, _, _, _, _, hle => by
    simpa [levelsList] using hle
  | (name, t) :: cs, _, s, s', cs', hw, hle => by
    obtain ⟨t', s₁, cs₁, ht, hcs, -⟩ := walkChildren_cons_ok hw
    have h1 := walkTree_levels t ht hle
    have h2 := walkChildren_levels cs hcs hle
    rw [levelsList]
    omega
end

end Levels

mutual
/-- The blocks of the directories follow each other in the order of the walk. -/
inductive Laid : ℕ → Dirent → ℕ → Prop
  | leaf {i : ℕ} {x : Leaf} : Laid i (.leaf x) i
  | dir {i j k : ℕ} {info : DirInfo} {cs : List (Bytes × Dirent)} (hs : info.startBlock.toNat = i)
      (hn : i + info.nDirentsPerBlock.length = j) (hc : LaidList j cs k) : Laid i (.dir info cs) k

inductive LaidList : ℕ → List (Bytes × Dirent) → ℕ → Prop
  | nil {i : ℕ} : LaidList i [] i
  | cons {i j k : ℕ} {name : Bytes} {t : Dirent} {cs : List (Bytes × Dirent)} (h : Laid i t j)
      (hc : LaidList j cs k) : LaidList i ((name, t) :: cs) k
end

mutual
theorem Laid.le : ∀ {i k : ℕ} {t : Dirent}, Laid i t k → i ≤ k
  | _, _, _, .leaf => le_refl _
  | _, _, _, .dir _ hn hc => by
    have := hc.le
    omega

theorem LaidList.le : ∀ {i k : ℕ} {cs : List (Bytes × Dirent)}, LaidList i cs k → i ≤ k
  | _, _, _, .nil => le_refl _
  | _, _, _, .cons h hc => h.le.trans hc.le
end

section Blocks

variable {σ : Type} {v : TreeVisitor σ} {maxDepth : ℕ}

mutual
theorem walkTree_lays (cur : σ → ℕ)
    (hleaf : ∀ x s x' s', walkLeaf v x s = .ok x' s' → cur s' = cur s)
    (henter : ∀ d cs s d' s', v.onDirEnter d cs s = .ok d' s' →
      d'.startBlock.toNat = cur s ∧ cur s + d'.nDirentsPerBlock.length = cur s')
    (hexit : ∀ d s, v.onDirExit d s = .ok d s) :
    ∀ (t : Dirent) {depth : ℕ} {s s' : σ} {t' : Dirent},
      walkTree v maxDepth depth t s = .ok t' s' → Laid (cur s) t' (cur s')
  | .leaf x, _, s, s', t', hw => by
    obtain ⟨x', hx, rfl⟩ := walkTree_leaf_ok hw
    rw [hleaf _ _ _ _ hx]
    exact .leaf
  | .dir info cs, depth, s, s', t', hw => by
    obtain ⟨-, info₁, s₁, cs', s₂, info₂, hen, hcs, hex, rfl⟩ := walkTree_dir_ok hw
    rw [hexit] at hex
    cases hex
    obtain ⟨hs, hn⟩ := henter _ _ _ _ _ hen
    exact .dir hs hn (walkChildren_lays cur hleaf henter hexit cs hcs)

theorem walkChildren_lays (cur : σ → ℕ)
    (hleaf : ∀ x s x' s', walkLeaf v x s = .ok x' s' → cur s' = cur s)
    (henter : ∀ d cs s d' s', v.onDirEnter d cs s = .ok d' s' →
      d'.startBlock.toNat = cur s ∧ cur s + d'.nDirentsPerBlock.length = cur s')
    (hexit : ∀ d s, v.onDirExit d s = .ok d s) :
    ∀ (cs : List (Bytes × Dirent)) {depth : ℕ} {s s' : σ} {cs' : List (Bytes × Dirent)},
      walkChildren v maxDepth depth cs s = .ok cs' s' → LaidList (cur s) cs' (cur s')
  | [], _, s, s', cs', hw => by
    obtain ⟨rfl, rfl⟩ := walkChildren_nil_ok hw
    exact .nil
  | (name, t) :: cs, _, s, s', cs', hw => by
    obtain ⟨t', s₁, cs₁, ht, hcs, rfl⟩ := walkChildren_cons_ok hw
    exact .cons (walkTree_lays cur hleaf henter hexit t ht)
      (walkChildren_lays cur hleaf henter hexit cs hcs)
end

end Blocks

section Moves

variable {L : Bytes → Leaf → Leaf → Prop} {D : Bytes → List Bytes → DirInfo → DirInfo → Prop}

mutual
/-- A change that leaves the blocks of the directories as they are. -/
theorem Laid.of_rel (hD : ∀ n ns d d', D n ns d d' →
      d'.startBlock = d.startBlock ∧ d'.nDirentsPerBlock = d.nDirentsPerBlock) :
    ∀ {n : Bytes} {i k : ℕ} {t t' : Dirent}, Rel L D n t t' → Laid i t k → Laid i t' k
  | _, _, _, _, _, .leaf _, .leaf => .leaf
  | _, _, _, _, _, .dir h hr, .dir hs hn hc => by
    obtain ⟨hs', hn'⟩ := hD _ _ _ _ h
    exact .dir (by rw [hs', hs]) (by rw [hn', hn]) (LaidList.of_rel hD hr hc)

theorem LaidList.of_rel (hD : ∀ n ns d d', D n ns d d' →
      d'.startBlock = d.startBlock ∧ d'.nDirentsPerBlock = d.nDirentsPerBlock) :
    ∀ {i k : ℕ} {cs cs' : List (Bytes × Dirent)}, RelList L D cs cs' → LaidList i cs k →
      LaidList i cs' k
  | _, _, _, _, .nil, .nil => .nil
  | _, _, _, _, .cons h hr, .cons hl hc => .cons (Laid.of_rel hD h hl) (LaidList.of_rel hD hr hc)
end

end Moves

section Nodes

variable {σ : Type} {v : TreeVisitor σ} {maxDepth : ℕ}

def LeafStep (v : TreeVisitor σ) (x x' : Leaf) : Prop := ∃ s s', walkLeaf v x s = .ok x' s'

def DirStep (v : TreeVisitor σ) (d d' : DirInfo) : Prop :=
  ∃ cs s s₁ d₁ s₂ s', v.onDirEnter d cs s = .ok d₁ s₁ ∧ v.onDirExit d₁ s₂ = .ok d' s'

def NamedDirStep (v : TreeVisitor σ) (names : List Bytes) (d d' : DirInfo) : Prop :=
  ∃ cs s s₁ d₁ s₂ s', cs.map (·.1) = names ∧ v.onDirEnter d cs s = .ok d₁ s₁ ∧
    v.onDirExit d₁ s₂ = .ok d' s'

mutual
/-- Every node of the tree after a walk comes from the node at its place by one
step of the visitor. -/
theorem walkTree_steps : ∀ (t : Dirent) {depth : ℕ} {s s' : σ} {n : Bytes} {t' : Dirent},
    walkTree v maxDepth depth t s = .ok t' s' →
      Rel (fun _ => LeafStep v) (fun _ => NamedDirStep v) n t t'
  | .leaf x, _, s, s', _, _, hw => by
    obtain ⟨x', hx, rfl⟩ := walkTree_leaf_ok hw
    exact .leaf ⟨s, s', hx⟩
  | .dir info cs, _, s, s', _, _, hw => by
    obtain ⟨-, info₁, s₁, cs', s₂, info₂, henter, hcs, hexit, rfl⟩ := walkTree_dir_ok hw
    exact .dir ⟨cs, s, s₁, info₁, s₂, s', rfl, henter, hexit⟩ (walkChildren_steps cs hcs)

theorem walkChildren_steps : ∀ (cs : List (Bytes × Dirent)) {depth : ℕ} {s s' : σ}
    {cs' : List (Bytes × Dirent)}, walkChildren v maxDepth depth cs s = .ok cs' s' →
      RelList (fun _ => LeafStep v) (fun _ => NamedDirStep v) cs cs'
  | [], _, _, _, _, hw => by
    obtain ⟨rfl, -⟩ := walkChildren_nil_ok hw
    exact .nil
  | (_, t) :: cs, _, _, _, _, hw => by
    obtain ⟨t', s₁, cs₁, ht, hcs, rfl⟩ := walkChildren_cons_ok hw
    exact .cons (walkTree_steps t ht) (walkChildren_steps cs hcs)
end

theorem walkTree_nodes (t : Dirent) {depth : ℕ} {s s' : σ} {n : Bytes} {t' : Dirent}
    (h : walkTree v maxDepth depth t s = .ok t' s') :
    Rel (fun _ => LeafStep v) (fun _ _ => DirStep v) n t t' := by
  refine (walkTree_steps t h).mono (fun _ _ _ hx => hx) ?_
  rintro _ _ _ _ ⟨cs, s, s₁, d₁, s₂, s', -, hd⟩
  exact ⟨cs, s, s₁, d₁, s₂, s', hd⟩

end Nodes

end ProgramExplorer.ErofsWalk
