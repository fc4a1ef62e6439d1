import ProgramExplorer.ErofsCalls

/-!
# Resolving hard links

`resolve_links` looks the target of each link up in the finished tree and
adds a file that shares its blocks. On a tree with other payloads the same
steps need two things only: what a link takes from its target, and the leaf
made of that. The counter of links, which the builder raises on the target,
is the one thing such a tree does not have.
-/

set_option autoImplicit false

namespace ProgramExplorer.ErofsLinks
open ByteStrings OrderedMap UnixPath FileTree StateRules ErofsTree ErofsTreeRelation
open ErofsBuilder ErofsCursor ErofsContents ErofsCalls

abbrev Link := Bytes × Bytes × Meta

def linkOf : Call → Option Link
  | .addLink path target metadata => some (path, target, metadata)
  | _ => none

theorem onRoot_links {α : Type} (act : EStateM Error (Dir Leaf DirInfo) α) (b : Builder) :
    (stateAfter (onRoot act b)).links = b.links := by
  unfold onRoot
  cases act b.root <;> rfl

theorem effect_links {b : Builder} {c : Call} {r : EStateM.Result Error Builder Unit}
    (h : Effect b c r) (hc : linkOf c = none) : (stateAfter r).links = b.links := by
  cases h with
  | refused _ hs => exact hs.links
  | file hs => exact (onRoot_links _ _).trans hs.links
  | symlink hs => exact (onRoot_links _ _).trans hs.links
  | dir => exact onRoot_links _ _
  | link => cases hc

/-- Links are queued in the order of the calls, and nothing else is. -/
theorem after_links (b : Builder) (calls : List Call) :
    (after b calls).links = b.links ++ calls.filterMap linkOf := by
  induction calls generalizing b with
  | nil => simp [after]
  | cons c cs ih =>
    rw [after, ih]
    cases hc : linkOf c with
    | none => rw [effect_links (call_effect b c) hc, List.filterMap_cons_none hc]
    | some l =>
      cases c with
      | addLink path target metadata =>
        rw [List.filterMap_cons_some hc]
        cases hc
        exact List.append_assoc b.links _ _
      | addFile | addSymlink | upsertDir => cases hc

theorem resolveLinks_ok {b b' : Builder} (h : resolveLinks b = .ok () b') :
    ∃ root, b.links.forM resolveLink b.root = .ok () root ∧ b' = { b with links := [], root := root } := by
  obtain ⟨b₁, b₂, hget, h1⟩ := bind_eq_ok.mp h
  obtain ⟨rfl, rfl⟩ := get_eq_ok.mp hget
  obtain ⟨_, b₃, hmod, h2⟩ := bind_eq_ok.mp h1
  obtain rfl := modify_eq_ok.mp hmod
  obtain ⟨root, hr, rfl⟩ := onRoot_ok h2
  exact ⟨root, hr, rfl⟩

section Act

variable {φ δ τ : Type}

def targetAt (target : φ → Option τ) (name : Option Bytes) : EStateM Error (Dir φ δ) τ :=
  match name with
  | none => throw .hardlinkNotResolved
  | some name => fun d =>
    match lookup name d.children with
    | none => .error .hardlinkNotResolved d
    | some (.leaf x) =>
      match target x with
      | some a => .ok a (setChild name (.leaf x) d)
      | none => .error .hardlinkToDir d
    | some (.dir _ _) => .error .hardlinkToDir d

def linkAct (dflt : Dir φ δ) (target : φ → Option τ) (make : Meta → τ → φ) (link : Link) :
    EStateM Error (Dir φ δ) Unit := do
  let a ← lookupOnly link.2.1 (targetAt target)
  addLeaf dflt link.1 (make link.2.2 a)

end Act

section Relation

variable {φ δ τ : Type} {L : Bytes → Leaf → φ → Prop} {D : Bytes → List Bytes → DirInfo → δ → Prop}
  {ok : Bytes → Prop} {A : UInt32 × ℕ × Option Bytes → τ → Prop} {target : φ → Option τ}
  {make : Meta → τ → φ} {dflt : Dir φ δ}

/-- A payload that a link can be resolved on as on the builder's tree. -/
structure Linkable (L : Bytes → Leaf → φ → Prop) (A : UInt32 × ℕ × Option Bytes → τ → Prop)
    (target : φ → Option τ) : Prop where
  file : ∀ {name f y}, L name (.file f) y → ∃ a, target y = some a ∧ A (f.startBlock, f.len, f.tail) a ∧
    L name (.file { f with nLinks := f.nLinks + 1 }) y
  symlink : ∀ {name s y}, L name (.symlink s) y → ∃ a, target y = some a ∧
    A (s.startBlock, s.len, s.tail) a ∧ L name (.symlink { s with nLinks := s.nLinks + 1 }) y
  dot : ∀ {name y}, L name .dot y → target y = none
  dotDot : ∀ {name y}, L name .dotDot y → target y = none

variable (hg : Grows ok D) (hdflt : ∀ name, ok name → RelDir L D name Dir.default dflt)
  (hl : Linkable L A target)

include hg hl in
theorem relAct_linkTarget {name : Bytes} (hok : ok name) :
    RelAct L D A (linkTarget (some name)) (targetAt target (some name)) := by
  intro n d d' hd
  unfold linkTarget targetAt
  rcases (relDir_iff.mp hd).2.lookup name with ⟨h0, h0'⟩ | ⟨t, t', ht, ht', hr⟩
  · simp only [h0, h0']
    exact .error hd
  · simp only [ht, ht']
    cases hr with
    | dir => exact .error hd
    | @leaf _ x y h =>
      cases x with
      | file f =>
        obtain ⟨a, ha, hA, hL⟩ := hl.file h
        simp only [ha]
        exact .ok hA (relDir_setChild hg hd hok (.leaf hL))
      | symlink s =>
        obtain ⟨a, ha, hA, hL⟩ := hl.symlink h
        simp only [ha]
        exact .ok hA (relDir_setChild hg hd hok (.leaf hL))
      | dot =>
        simp only [hl.dot h]
        exact .error hd
      | dotDot =>
        simp only [hl.dotDot h]
        exact .error hd

include hg hl hdflt in
theorem relAct_resolveLink {link : Link} (hp : ∀ name, .normal name ∈ components link.1 → ok name)
    (ht : ∀ name, .normal name ∈ components link.2.1 → ok name)
    (hmake : ∀ x a name, A x a → ok name →
      L name (.file ⟨link.2.2, x.1, 2, x.2.1, x.2.2, none⟩) (make link.2.2 a)) :
    RelAct L D (fun _ _ => True) (resolveLink link) (linkAct dflt target make link) := by
  have hlook : RelAct L D A (lookupOnly link.2.1 linkTarget) (lookupOnly link.2.1 (targetAt target)) := by
    refine relAct_lookupImpl link.2.1 ?_ (fun _ => relRun_throw _) ?_
    · intro name hm act act' h
      exact relAct_getDir hg (ht name hm) h
    · exact fun name hm => relAct_linkTarget hg hl (ht name hm)
  intro n
  refine relRun_bind (hlook n) fun x a hA => ?_
  exact relAct_addLeaf hg hdflt hp (fun name hok => hmake x a name hA hok) n

end Relation

end ProgramExplorer.ErofsLinks
