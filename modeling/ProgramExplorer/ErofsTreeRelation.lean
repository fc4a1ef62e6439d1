import ProgramExplorer.ErofsTree
import ProgramExplorer.StateRules

/-!
# The path operations do not look at payloads

On related trees the operations of `Root` succeed and fail together and leave
related trees, as long as what they insert is related under every name that
is allowed in a path. The data of a directory may be related in a way that
depends on its names, if allowed names can join them.
-/

set_option autoImplicit false

namespace ProgramExplorer.ErofsTreeRelation
open ByteStrings OrderedMap UnixPath FileTree StateRules ErofsTree

variable {φ δ φ' δ' α α' : Type} {L : Bytes → φ → φ' → Prop}
  {D : Bytes → List Bytes → δ → δ' → Prop} {ok : Bytes → Prop}

def RelDir (L : Bytes → φ → φ' → Prop) (D : Bytes → List Bytes → δ → δ' → Prop) (name : Bytes)
    (d : Dir φ δ) (d' : Dir φ' δ') : Prop :=
  Rel L D name d.toTree d'.toTree

def Grows (ok : Bytes → Prop) (D : Bytes → List Bytes → δ → δ' → Prop) : Prop :=
  ∀ n ns ns' d d', D n ns d d' → ns' ≠ [] → (∀ m ∈ ns', m ∈ ns ∨ ok m) → D n ns' d d'

theorem relDir_iff {name : Bytes} {d : Dir φ δ} {d' : Dir φ' δ'} :
    RelDir L D name d d' ↔
      D name (d.children.map (·.1)) d.info d'.info ∧ RelList L D d.children d'.children := by
  constructor
  · intro h
    cases h with
    | dir h hc => exact ⟨h, hc⟩
  · exact fun h => .dir h.1 h.2

theorem relDir_setChild (hg : Grows ok D) {n name : Bytes} {d : Dir φ δ} {d' : Dir φ' δ'}
    (h : RelDir L D n d d') (hok : ok name) {t : Tree φ δ} {t' : Tree φ' δ'}
    (ht : Rel L D name t t') : RelDir L D n (setChild name t d) (setChild name t' d') := by
  obtain ⟨hd, hc⟩ := relDir_iff.mp h
  refine relDir_iff.mpr ⟨hg _ _ _ _ _ hd ?_ ?_, hc.upsert ht⟩
  · simpa [setChild] using upsertList_ne_nil name (fun _ => t) d.children
  · intro m hm
    obtain ⟨c, hmem, rfl⟩ := List.mem_map.mp hm
    rcases mem_upsertList_key name (fun _ => t) d.children c hmem with hc | hc
    · exact Or.inr (hc ▸ hok)
    · exact Or.inl (List.mem_map_of_mem hc)

def RelAct (L : Bytes → φ → φ' → Prop) (D : Bytes → List Bytes → δ → δ' → Prop) (A : α → α' → Prop)
    (act : EStateM Error (Dir φ δ) α) (act' : EStateM Error (Dir φ' δ') α') : Prop :=
  ∀ name, RelRun (RelDir L D name) A act act'

section Steps

variable {A : α → α' → Prop} {act : EStateM Error (Dir φ δ) α} {act' : EStateM Error (Dir φ' δ') α'}
  (hg : Grows ok D)
include hg

theorem relResult_zoom (h : RelAct L D A act act') {n name : Bytes} (hok : ok name)
    {child d : Dir φ δ} {child' d' : Dir φ' δ'} (hd : RelDir L D n d d')
    (hc : RelDir L D name child child') :
    RelResult (RelDir L D n) A (zoom name child d act) (zoom name child' d' act') := by
  have hr := h name child child' hc
  unfold zoom
  generalize act child = r, act' child' = r' at hr
  cases hr with
  | ok ha hs => exact .ok ha (relDir_setChild hg hd hok hs)
  | error hs => exact .error (relDir_setChild hg hd hok hs)

theorem relAct_getOrCreateDir {dflt : Dir φ δ} {dflt' : Dir φ' δ'} {name : Bytes}
    (hok : ok name) (hdflt : RelDir L D name dflt dflt') (h : RelAct L D A act act') :
    RelAct L D A (getOrCreateDir dflt name act) (getOrCreateDir dflt' name act') := by
  intro n d d' hd
  unfold getOrCreateDir
  rcases (relDir_iff.mp hd).2.lookup name with ⟨h0, h0'⟩ | ⟨t, t', ht, ht', hr⟩
  · rw [h0, h0']
    exact relResult_zoom hg h hok hd hdflt
  · rw [ht, ht']
    cases hr with
    | leaf => exact .error hd
    | dir hi hc => exact relResult_zoom hg h hok hd (.dir hi hc)

theorem relAct_getDir {name : Bytes} (hok : ok name) (h : RelAct L D A act act') :
    RelAct L D A (getDir name act) (getDir name act') := by
  intro n d d' hd
  unfold getDir
  rcases (relDir_iff.mp hd).2.lookup name with ⟨h0, h0'⟩ | ⟨t, t', ht, ht', hr⟩
  · rw [h0, h0']
    exact .error hd
  · rw [ht, ht']
    cases hr with
    | leaf => exact .error hd
    | dir hi hc => exact relResult_zoom hg h hok hd (.dir hi hc)

end Steps

section Paths

variable {A : α → α' → Prop} {k : Option Bytes → EStateM Error (Dir φ δ) α}
  {k' : Option Bytes → EStateM Error (Dir φ' δ') α'}
  {sub : Bytes → EStateM Error (Dir φ δ) α → EStateM Error (Dir φ δ) α}
  {sub' : Bytes → EStateM Error (Dir φ' δ') α' → EStateM Error (Dir φ' δ') α'}

theorem relAct_lookupLoop (cs : List Component)
    (hs : ∀ name, .normal name ∈ cs → ∀ act act', RelAct L D A act act' →
      RelAct L D A (sub name act) (sub' name act'))
    (hn : RelAct L D A (k none) (k' none))
    (hk : ∀ name, .normal name ∈ cs → RelAct L D A (k (some name)) (k' (some name))) :
    RelAct L D A (lookupLoop sub k cs) (lookupLoop sub' k' cs) := by
  induction cs with
  | nil => exact hn
  | cons c cs ih =>
    have ih := ih (fun name hm => hs name (List.mem_cons_of_mem _ hm))
      (fun name hm => hk name (List.mem_cons_of_mem _ hm))
    cases cs with
    | nil =>
      cases c with
      | normal name => exact hk name (by simp)
      | curDir => exact hn
      | rootDir => exact fun _ => relRun_throw _
      | parentDir => exact fun _ => relRun_throw _
    | cons c' cs =>
      cases c with
      | normal name => exact hs name (by simp) _ _ ih
      | curDir => exact ih
      | rootDir => exact ih
      | parentDir => exact fun _ => relRun_throw _

theorem relAct_lookupImpl (path : Bytes)
    (hs : ∀ name, .normal name ∈ components path → ∀ act act', RelAct L D A act act' →
      RelAct L D A (sub name act) (sub' name act'))
    (hn : RelAct L D A (k none) (k' none))
    (hk : ∀ name, .normal name ∈ components path → RelAct L D A (k (some name)) (k' (some name))) :
    RelAct L D A (lookupImpl sub path k) (lookupImpl sub' path k') := by
  unfold lookupImpl
  split_ifs
  · exact fun _ => relRun_throw _
  · exact hn
  · exact relAct_lookupLoop _ hs hn hk

end Paths

section Operations

variable {dflt : Dir φ δ} {dflt' : Dir φ' δ'} {path : Bytes} (hg : Grows ok D)
  (hdflt : ∀ name, ok name → RelDir L D name dflt dflt')
  (hpath : ∀ name, .normal name ∈ components path → ok name)
include hg hdflt hpath

theorem relAct_addLeaf {x : φ} {y : φ'} (hx : ∀ name, ok name → L name x y) :
    RelAct L D (fun _ _ => True) (addLeaf dflt path x) (addLeaf dflt' path y) := by
  unfold addLeaf
  split_ifs
  · exact fun _ => relRun_throw _
  refine relAct_lookupImpl path (fun name hm _ _ h =>
    relAct_getOrCreateDir hg (hpath name hm) (hdflt name (hpath name hm)) h)
    (fun _ => relRun_throw _) ?_
  intro name hm n
  exact relRun_modify fun d d' hd =>
    relDir_setChild hg hd (hpath name hm) (.leaf (hx name (hpath name hm)))

theorem relAct_upsertDir {set : δ → δ} {set' : δ' → δ'}
    (hset : ∀ name ns d d', D name ns d d' → D name ns (set d) (set' d')) :
    RelAct L D (fun _ _ => True) (upsertDir dflt path set) (upsertDir dflt' path set') := by
  have hmod : RelAct L D (fun _ _ => True)
      (modify fun d => { d with info := set d.info } : EStateM Error (Dir φ δ) PUnit)
      (modify fun d => { d with info := set' d.info } : EStateM Error (Dir φ' δ') PUnit) := by
    intro n
    refine relRun_modify fun d d' hd => ?_
    obtain ⟨hi, hc⟩ := relDir_iff.mp hd
    exact relDir_iff.mpr ⟨hset n _ _ _ hi, hc⟩
  have hsub : ∀ name, .normal name ∈ components path →
      ∀ (act : EStateM Error (Dir φ δ) PUnit) (act' : EStateM Error (Dir φ' δ') PUnit),
      RelAct L D (fun _ _ => True) act act' →
        RelAct L D (fun _ _ => True) (getOrCreateDir dflt name act) (getOrCreateDir dflt' name act') :=
    fun name hm _ _ h => relAct_getOrCreateDir hg (hpath name hm) (hdflt name (hpath name hm)) h
  exact relAct_lookupImpl path hsub hmod fun name hm => hsub name hm _ _ hmod

end Operations

section Everywhere

variable {P : φ → Prop} {dflt d : Dir φ δ} {path : Bytes}

/-- An action that is related to itself keeps what holds of every leaf. -/
theorem all_of_relAct {A : α → α → Prop} {act : EStateM Error (Dir φ δ) α}
    (h : RelAct (fun _ _ y => P y) (fun _ _ _ _ => True) A act act)
    (hall : d.toTree.All P fun _ => True) : (stateAfter (act d)).toTree.All P fun _ => True := by
  have hself : Rel (fun _ _ y => P y) (fun _ _ _ _ => True) [] (stateAfter (act d)).toTree
      (stateAfter (act d)).toTree := (h [] d d (hall.rel [])).stateAfter
  refine hself.all (P := fun _ => True) (Q := fun _ => True) ?_ ?_ (Tree.all_true _)
  · intro _ _ _ _ hy
    exact hy
  · exact fun _ _ _ _ _ _ => trivial

theorem addLeaf_all (hdflt : dflt.toTree.All P fun _ => True) {x : φ} (hx : P x)
    (hall : d.toTree.All P fun _ => True) :
    (stateAfter (addLeaf dflt path x d)).toTree.All P fun _ => True := by
  have hg : Grows (fun _ => True) (fun (_ : Bytes) (_ : List Bytes) (_ _ : δ) => True) :=
    fun _ _ _ _ _ _ _ _ => trivial
  exact all_of_relAct
    (relAct_addLeaf hg (fun name _ => hdflt.rel name) (fun _ _ => trivial) fun _ _ => hx) hall

theorem upsertDir_all (hdflt : dflt.toTree.All P fun _ => True) {set : δ → δ}
    (hall : d.toTree.All P fun _ => True) :
    (stateAfter (upsertDir dflt path set d)).toTree.All P fun _ => True := by
  have hg : Grows (fun _ => True) (fun (_ : Bytes) (_ : List Bytes) (_ _ : δ) => True) :=
    fun _ _ _ _ _ _ _ _ => trivial
  exact all_of_relAct
    (relAct_upsertDir hg (fun name _ => hdflt.rel name) (fun _ _ => trivial) fun _ _ _ _ h => h) hall

end Everywhere

end ProgramExplorer.ErofsTreeRelation
