import ProgramExplorer.ErofsAdds
import ProgramExplorer.ErofsBlocked
import ProgramExplorer.ErofsOwners

/-!
# Resolving a path in the builder's tree

`lookup_impl` reads a path component by component. A spelling without `..`
stands for the list of its names, so what is stored under one spelling is
found under every other. A path with `..` is refused, but only when the loop
meets the `..`: by then `get_or_create_dir` has made the directories before
it, and the error leaves them in the tree.
-/

set_option autoImplicit false

namespace ProgramExplorer.ErofsResolution
open ByteStrings OrderedMap UnixPath FileTree StateRules ErofsTree ErofsPaths ErofsBlocked
open ErofsBuilder ErofsCursor ErofsContents ErofsCalls ErofsAdds ErofsWalk ErofsPasses
open ErofsLinks ErofsFinalize ErofsOwners

variable {φ δ α : Type}

section Spelling

def NoParent (path : Bytes) : Prop := Component.parentDir ∉ components path

instance (path : Bytes) : Decidable (NoParent path) := inferInstanceAs (Decidable (_ ∉ _))

theorem names_of_noParent {cs : List Component} (h : Component.parentDir ∉ cs) :
    cs.filter (fun c => c ≠ .rootDir ∧ c ≠ .curDir) = (cs.filterMap normalName).map .normal := by
  induction cs with
  | nil => rfl
  | cons c cs ih =>
    have ih := ih fun hm => h (List.mem_cons_of_mem _ hm)
    cases c with
    | normal name => simpa [normalName] using ih
    | curDir => simpa [List.filterMap_cons, normalName] using ih
    | rootDir => simpa [List.filterMap_cons, normalName] using ih
    | parentDir => exact absurd List.mem_cons_self h

theorem steps_of_noParent {path : Bytes} (h : NoParent path) :
    steps path = (pathNames path).map .normal := names_of_noParent h

theorem route_normals (dirs : List Bytes) (name : Bytes) :
    route ((dirs ++ [name]).map .normal) = (dirs, .ok (some name)) := by
  induction dirs with
  | nil => rfl
  | cons d dirs ih =>
    obtain ⟨c, cs, hcs⟩ : ∃ c cs, (dirs ++ [name]).map Component.normal = c :: cs :=
      List.exists_cons_of_ne_nil (by simp)
    rw [hcs] at ih
    rw [List.cons_append, List.map_cons, hcs, route, ih]
    simp

theorem pathRoute_of_steps {path : Bytes} (h : steps path ≠ []) : pathRoute path = route (steps path) := by
  unfold pathRoute
  split_ifs with h₁ h₂
  · subst h₁
    exact absurd (by decide) h
  · rcases h₂ with rfl | rfl | rfl <;> exact absurd (by decide) h
  · exact route_components h

theorem pathRoute_of_names {path : Bytes} {dirs : List Bytes} {name : Bytes} (h : NoParent path)
    (hn : pathNames path = dirs ++ [name]) : pathRoute path = (dirs, .ok (some name)) := by
  have hs : steps path = (dirs ++ [name]).map .normal := by rw [steps_of_noParent h, hn]
  rw [pathRoute_of_steps (by simp [hs]), hs, route_normals]

theorem noParent_of_pathRoute {path : Bytes} {dirs : List Bytes} {last : Option Bytes}
    (h : pathRoute path = (dirs, .ok last)) : NoParent path := by
  intro hm
  have hmem : Component.parentDir ∈ steps path := List.mem_filter.mpr ⟨hm, by simp⟩
  simp [steps_of_pathRoute h] at hmem

end Spelling

section Get

def Root.get (path : Bytes) : EStateM Error (Dir φ δ) (Option (Tree φ δ)) :=
  lookupOnly path fun
    | some name => do
      let dir ← MonadState.get
      pure (lookup name dir.children)
    | none => pure none

theorem setChild_twice (name : Bytes) (t t' : Tree φ δ) (d : Dir φ δ) :
    setChild name t' (setChild name t d) = setChild name t' d := by
  simp only [setChild, upsertList_const_twice]

/-- Going down without making directories, in a tree where they are all there. -/
theorem descend_getDir_graft {dflt : Dir φ δ} {act : EStateM Error (Dir φ δ) α} (dirs : List Bytes)
    (new d : Dir φ δ) :
    descend getDir act dirs (graft dflt dirs new d) = putBack dflt dirs d (act new) := by
  induction dirs generalizing d with
  | nil =>
    change act new = _
    cases act new <;> rfl
  | cons name dirs ih =>
    have hl : lookup name (graft dflt (name :: dirs) new d).children =
        some (graft dflt dirs new (childDir dflt name d)).toTree := by
      simp [graft, setChild, lookup_upsertList_const]
    change getDir name (descend getDir act dirs) (graft dflt (name :: dirs) new d) = _
    rw [getDir, hl]
    change zoom name (graft dflt dirs new (childDir dflt name d)) _ _ = _
    rw [zoom, ih, graft]
    cases act new with
    | ok a c => simp only [putBack, setChild_twice, graft]
    | error e c => simp only [putBack, setChild_twice, graft]

theorem get_after_addLeaf {dflt d d' : Dir φ δ} {p q : Bytes} {x : φ} (hq : NoParent q)
    (hn : pathNames q = pathNames p) (h : addLeaf dflt p x d = .ok () d') :
    Root.get q d' = .ok (some (.leaf x)) d' := by
  unfold addLeaf at h
  split_ifs at h
  · cases h
  obtain ⟨dirs, last, c, c', hp, hr, hk, rfl⟩ := lookupCreate_ok h
  cases last with
  | none => cases hk
  | some name =>
    cases hk
    have hq := pathRoute_of_names hq (hn.trans (pathRoute_names hp))
    rw [Root.get, lookupOnly, lookupImpl_eq, hq, descend_getDir_graft]
    change EStateM.Result.ok (lookup name (setChild name (.leaf x) c).children) _ = _
    simp [setChild, lookup_upsertList_const]

end Get

section Refusal

variable {dflt d : Dir φ δ} {path : Bytes}

def Refused (r : EStateM.Result Error (Dir φ δ) α) : Prop := ∃ e d', r = .error e d'

theorem refused_of_not_ok {r : EStateM.Result Error (Dir φ δ) α} (h : ∀ a d', r ≠ .ok a d') :
    Refused r := by
  cases r with
  | ok a d' => exact absurd rfl (h a d')
  | error e d' => exact ⟨e, d', rfl⟩

variable (hp : ¬ NoParent path)
include hp

theorem lookupCreate_refused (k : Option Bytes → EStateM Error (Dir φ δ) α) :
    Refused (lookupCreate dflt path k d) := by
  apply refused_of_not_ok
  intro a d' h
  obtain ⟨dirs, last, -, -, hroute, -⟩ := lookupCreate_ok h
  exact hp (noParent_of_pathRoute hroute)

theorem addLeaf_refused (x : φ) : Refused (addLeaf dflt path x d) := by
  unfold addLeaf
  split_ifs
  · exact ⟨_, _, rfl⟩
  · exact lookupCreate_refused hp _

theorem get_refused : Refused (Root.get path d) := by
  apply refused_of_not_ok
  intro a d' h
  obtain ⟨dirs, last, -, -, hroute, -⟩ := lookupOnly_ok d h
  exact hp (noParent_of_pathRoute hroute)

end Refusal

section Changes

/-- At a path where nothing was, the leaf and the missing directories above it are all that is new. -/
theorem withLeaf_of_absent {info : δ} {names : List Bytes} {x : φ} {d : Dir φ δ}
    (h : nodeAt d names = none) (r : List Bytes) :
    withLeaf info names x (nodeAt d) r =
      if r = names then some (.inl x)
      else if r <+: names then some ((nodeAt d r).getD (.inr info))
      else nodeAt d r := by
  unfold withLeaf wayTo
  by_cases hbelow : names <+: r
  · obtain ⟨more, rfl⟩ := hbelow
    have hnone : nodeAt d (names ++ more) = none := by
      by_contra hne
      exact nodeAt_of_append hne h
    by_cases hm : more = []
    · simp [hm]
    · have hpre : ¬ names ++ more <+: names := fun hp => by
        have hle := hp.length_le
        simp only [List.length_append] at hle
        exact hm (List.eq_nil_of_length_eq_zero (by omega))
      simp [hm, hnone, hpre]
  · simp [hbelow]

/-- What is added at a path is found under every spelling of it, `..` is
refused everywhere, and nothing else in the tree changes. -/
theorem path_resolution (d : Dir Leaf DirInfo) :
    (∀ p q f d', NoParent q → pathNames q = pathNames p →
      addLeaf Dir.default p (.file f) d = .ok () d' →
        Root.get q d' = .ok (some (.leaf (.file f))) d') ∧
    (∀ p, ¬ NoParent p →
      (∀ f, Refused (addLeaf Dir.default p (.file f) d)) ∧
      (∀ s, Refused (addLeaf Dir.default p (.symlink s) d)) ∧
      (∀ set, Refused (ErofsTree.upsertDir Dir.default p set d)) ∧
      Refused (Root.get p d)) ∧
    ∀ p f d', nodeAt d (pathNames p) = none → addLeaf Dir.default p (.file f) d = .ok () d' →
      ∀ r, nodeAt d' r =
        if r = pathNames p then some (.inl (.file f))
        else if r <+: pathNames p then some ((nodeAt d r).getD (.inr DirInfo.default))
        else nodeAt d r := by
  refine ⟨fun p q f d' hq hn h => get_after_addLeaf hq hn h, fun p hp => ?_, fun p f d' habs h r => ?_⟩
  · exact ⟨fun f => addLeaf_refused hp _, fun s => addLeaf_refused hp _,
      fun set => lookupCreate_refused hp _, get_refused hp⟩
  · rw [(addLeaf_ok bare_default h).2]
    exact withLeaf_of_absent habs r

end Changes

section Sorted

/-- The children of every directory in the order of their names, as a
`BTreeMap` holds them. -/
def Sorted (d : Dir φ δ) : Prop := d.toTree.EachDir (onNames fun _ names => names.Pairwise (· < ·))

theorem sorted_iff {d : Dir φ δ} :
    Sorted d ↔ d.children.Pairwise (fun a b => a.1 < b.1) ∧
      EachDirList (onNames fun _ names => names.Pairwise (· < ·)) d.children :=
  and_congr_left fun _ => List.pairwise_map

theorem eachDir_lookup {P : δ → List (Bytes × Tree φ δ) → Prop} {cs : List (Bytes × Tree φ δ)}
    {name : Bytes} {t : Tree φ δ} (h : EachDirList P cs) (hl : lookup name cs = some t) : t.EachDir P := by
  induction cs with
  | nil => cases hl
  | cons c cs ih =>
    rw [lookup] at hl
    split_ifs at hl
    · cases hl
      exact h.1
    · exact ih h.2 hl

theorem eachDir_upsert {P : δ → List (Bytes × Tree φ δ) → Prop} {cs : List (Bytes × Tree φ δ)}
    {name : Bytes} {t : Tree φ δ} (h : EachDirList P cs) (ht : t.EachDir P) :
    EachDirList P (upsertList name (fun _ => t) cs) := by
  induction cs with
  | nil => exact ⟨ht, trivial⟩
  | cons c cs ih =>
    rw [upsertList]
    split_ifs
    · exact ⟨ht, h⟩
    · exact ⟨ht, h.2⟩
    · exact ⟨h.1, ih h.2⟩

variable {dflt d : Dir φ δ} {act : EStateM Error (Dir φ δ) α}

theorem Sorted.setChild (hs : Sorted d) {name : Bytes} {c : Dir φ δ} (hc : Sorted c) :
    Sorted (setChild name c.toTree d) := by
  obtain ⟨ho, he⟩ := sorted_iff.mp hs
  exact sorted_iff.mpr ⟨upsertList_sorted _ _ _ ho, eachDir_upsert he hc⟩

theorem Sorted.setLeaf (hs : Sorted d) (name : Bytes) (x : φ) :
    Sorted (ErofsTree.setChild name (.leaf x) d) := by
  obtain ⟨ho, he⟩ := sorted_iff.mp hs
  exact sorted_iff.mpr ⟨upsertList_sorted _ _ _ ho, eachDir_upsert he trivial⟩

theorem Sorted.child (hs : Sorted d) {name : Bytes} {info : δ} {cs : List (Bytes × Tree φ δ)}
    (h : lookup name d.children = some (.dir info cs)) : Sorted (⟨info, cs⟩ : Dir φ δ) :=
  eachDir_lookup (sorted_iff.mp hs).2 h

theorem Sorted.setChild_eq (hs : Sorted d) {name : Bytes} {t : Tree φ δ}
    (h : lookup name d.children = some t) : ErofsTree.setChild name t d = d := by
  rw [ErofsTree.setChild, upsertList_of_lookup (sorted_iff.mp hs).1 h]

def KeepsSorted (act : EStateM Error (Dir φ δ) α) : Prop := ∀ d, Sorted d → Sorted (stateAfter (act d))

theorem keepsSorted_zoom (ha : KeepsSorted act) (hs : Sorted d) {name : Bytes} {c : Dir φ δ}
    (hc : Sorted c) : Sorted (stateAfter (zoom name c d act)) := by
  have hact := ha c hc
  unfold zoom
  generalize act c = r at hact
  cases r with
  | ok a c' => exact hs.setChild hact
  | error e c' => exact hs.setChild hact

theorem keepsSorted_getOrCreateDir (hdflt : Sorted dflt) (ha : KeepsSorted act) (name : Bytes) :
    KeepsSorted (getOrCreateDir dflt name act) := by
  intro d hs
  unfold getOrCreateDir
  cases hl : lookup name d.children with
  | none => exact keepsSorted_zoom ha hs hdflt
  | some t =>
    cases t with
    | leaf x => exact hs
    | dir info cs => exact keepsSorted_zoom ha hs (hs.child hl)

theorem keepsSorted_getDir (ha : KeepsSorted act) (name : Bytes) : KeepsSorted (getDir name act) := by
  intro d hs
  unfold getDir
  cases hl : lookup name d.children with
  | none => exact hs
  | some t =>
    cases t with
    | leaf x => exact hs
    | dir info cs => exact keepsSorted_zoom ha hs (hs.child hl)

theorem keepsSorted_lookupImpl
    {sub : Bytes → EStateM Error (Dir φ δ) α → EStateM Error (Dir φ δ) α}
    {k : Option Bytes → EStateM Error (Dir φ δ) α}
    (hsub : ∀ name act, KeepsSorted act → KeepsSorted (sub name act))
    (hk : ∀ last, KeepsSorted (k last)) (path : Bytes) : KeepsSorted (lookupImpl sub path k) := by
  rw [lookupImpl_eq]
  have hstop : KeepsSorted (finish k (pathRoute path).2) := by
    cases (pathRoute path).2 with
    | ok last => exact hk last
    | error e => exact fun _ hs => hs
  induction (pathRoute path).1 with
  | nil => exact hstop
  | cons name names ih => exact hsub name _ ih

theorem keepsSorted_lookupCreate {k : Option Bytes → EStateM Error (Dir φ δ) α} (hdflt : Sorted dflt)
    (hk : ∀ last, KeepsSorted (k last)) (path : Bytes) : KeepsSorted (lookupCreate dflt path k) :=
  keepsSorted_lookupImpl (fun name _ ha => keepsSorted_getOrCreateDir hdflt ha name) hk path

theorem keepsSorted_addLeaf (hdflt : Sorted dflt) (path : Bytes) (x : φ) :
    KeepsSorted (addLeaf dflt path x) := by
  unfold addLeaf
  split_ifs
  · exact fun _ hs => hs
  refine keepsSorted_lookupCreate hdflt (fun last => ?_) path
  cases last with
  | none => exact fun _ hs => hs
  | some name => exact fun _ hs => hs.setLeaf name x

theorem keepsSorted_upsertDir (hdflt : Sorted dflt) (path : Bytes) (set : δ → δ) :
    KeepsSorted (ErofsTree.upsertDir dflt path set) := by
  have hset : KeepsSorted (modify fun d => { d with info := set d.info } :
      EStateM Error (Dir φ δ) PUnit) := fun _ hs => sorted_iff.mpr (sorted_iff.mp hs)
  refine keepsSorted_lookupCreate hdflt (fun last => ?_) path
  cases last with
  | none => exact hset
  | some name => exact keepsSorted_getOrCreateDir hdflt hset name

end Sorted

section Traces

variable {dflt d d' : Dir φ δ} {path : Bytes} {e : Error}

theorem graft_of_present (hs : Sorted d) {names : List Bytes} {c : Dir φ δ}
    (hr : reach dflt names d = some c) (hp : nodeAt d names ≠ none) : graft dflt names c d = d := by
  induction names generalizing d with
  | nil => exact (Option.some.inj hr).symm
  | cons name names ih =>
    obtain ⟨hl, hc⟩ := reach_cons_eq_some hr
    by_cases hn : IsDot name
    · exact absurd (nodeAt_dot d hn names) hp
    rw [nodeAt_cons d hn] at hp
    cases hlk : lookup name d.children with
    | none => simp [hlk] at hp
    | some t =>
      cases t with
      | leaf x => exact absurd hlk (hl x)
      | dir info cs =>
        have hchild : childDir dflt name d = ⟨info, cs⟩ := by simp [childDir, hlk]
        rw [hchild] at hc
        rw [hlk] at hp
        rw [graft, hchild, ih (hs.child hlk) hc hp]
        exact hs.setChild_eq hlk

theorem descend_of_blocked_eq (hs : Sorted d) (hdflt : Bare dflt) {act : EStateM Error (Dir φ δ) α}
    {names : List Bytes} (hn : ∀ name ∈ names, ¬ IsDot name) (h : reach dflt names d = none) :
    descend (getOrCreateDir dflt) act names d = .error .notADir d := by
  induction names generalizing d with
  | nil => cases h
  | cons name names ih =>
    have hrest : ∀ m ∈ names, ¬ IsDot m := fun m hm => hn m (by simp [hm])
    change getOrCreateDir dflt name (descend (getOrCreateDir dflt) act names) d = _
    rw [reach] at h
    rw [getOrCreateDir]
    cases hlk : lookup name d.children with
    | none =>
      -- nothing is in the way inside a directory that was just made
      rw [hlk] at h
      have hchild : childDir dflt name d = dflt := by simp [childDir, hlk]
      obtain ⟨p, x, -, hx⟩ := reach_blocked hdflt hrest (hchild ▸ h)
      cases p with
      | nil => cases hx
      | cons m ms => simp [hdflt.nodeAt_eq_none] at hx
    | some t =>
      rw [hlk] at h
      cases t with
      | leaf x => rfl
      | dir info cs =>
        have hchild : childDir dflt name d = ⟨info, cs⟩ := by simp [childDir, hlk]
        change zoom name ⟨info, cs⟩ d _ = _
        rw [zoom, ih (hs.child hlk) hrest (hchild ▸ h)]
        exact congrArg _ (hs.setChild_eq hlk)

theorem graft_eq_iff (hs : Sorted d) {names : List Bytes} (hn : ∀ name ∈ names, ¬ IsDot name)
    {c : Dir φ δ} (hr : reach dflt names d = some c) :
    graft dflt names c d = d ↔ nodeAt d names ≠ none := by
  constructor
  · intro h hnone
    have hbelow := @nodeAt_graft_below _ _ dflt _ hn c d []
    rw [h, List.append_nil, hnone] at hbelow
    cases hbelow
  · exact graft_of_present hs hr

end Traces

section Stranded

variable {dflt d d' : Dir φ δ} {path : Bytes} {e : Error}

/-- The directories before the first `..` can be made, and some of them are missing. -/
def Strands (d : Dir φ δ) (path : Bytes) : Prop :=
  ∃ dirs rest, steps path = dirs.map .normal ++ .parentDir :: rest ∧ nodeAt d dirs = none ∧
    ∀ r x, r <+: dirs → nodeAt d r ≠ some (.inl x)

theorem route_parent (dirs : List Bytes) (rest : List Component) :
    ∃ e, route (dirs.map .normal ++ .parentDir :: rest) = (dirs, .error e) := by
  induction dirs with
  | nil => cases rest <;> exact ⟨_, rfl⟩
  | cons name dirs ih =>
    obtain ⟨e, he⟩ := ih
    obtain ⟨c, cs, hcs⟩ : ∃ c cs, dirs.map Component.normal ++ .parentDir :: rest = c :: cs :=
      List.exists_cons_of_ne_nil (by simp)
    rw [hcs] at he
    rw [List.map_cons, List.cons_append, hcs, route, he]
    · exact ⟨e, rfl⟩
    · simp

theorem route_error_split {cs : List Component} (h : ∀ c ∈ cs, c ≠ .rootDir ∧ c ≠ .curDir)
    (he : (route cs).2 = .error e) : ∃ rest, cs = (route cs).1.map .normal ++ .parentDir :: rest := by
  induction cs with
  | nil => cases he
  | cons c cs ih =>
    have ih := ih fun c' hc' => h c' (by simp [hc'])
    have hc := h c (by simp)
    cases c with
    | rootDir => exact absurd rfl hc.1
    | curDir => exact absurd rfl hc.2
    | parentDir =>
      refine ⟨cs, ?_⟩
      cases cs <;> rfl
    | normal name =>
      cases cs with
      | nil => cases he
      | cons c' cs =>
        obtain ⟨rest, hrest⟩ := ih he
        exact ⟨rest, congrArg (.normal name :: ·) hrest⟩

theorem reach_of_leaf {names p : List Bytes} {x : φ} (hp : p <+: names)
    (hx : nodeAt d p = some (.inl x)) : reach dflt names d = none := by
  induction names generalizing d p with
  | nil =>
    rw [List.prefix_nil.mp hp] at hx
    cases hx
  | cons name names ih =>
    cases p with
    | nil => cases hx
    | cons m ms =>
      obtain ⟨rfl, hms⟩ := List.cons_prefix_cons.mp hp
      by_cases hm : IsDot m
      · rw [nodeAt_dot d hm] at hx
        cases hx
      rw [nodeAt_cons d hm] at hx
      rw [reach, childDir]
      cases hl : lookup m d.children with
      | none => simp [hl] at hx
      | some t =>
        rw [hl] at hx
        cases t with
        | leaf y => rfl
        | dir info cs => exact ih (d := ⟨info, cs⟩) hms hx

theorem strands_iff (hb : Bare dflt) :
    Strands d path ↔ (∃ e, (pathRoute path).2 = .error e) ∧
      reach dflt (pathRoute path).1 d ≠ none ∧ nodeAt d (pathRoute path).1 = none := by
  constructor
  · rintro ⟨dirs, rest, hs, hnone, hleaf⟩
    obtain ⟨e, he⟩ := route_parent dirs rest
    rw [← hs, ← pathRoute_of_steps (by simp [hs])] at he
    refine ⟨⟨e, by rw [he]⟩, ?_, by rw [he]; exact hnone⟩
    intro hr
    obtain ⟨p, x, hp, hx⟩ := reach_blocked hb (pathRoute_dirs_not_dot path) hr
    exact hleaf p x (by rwa [he] at hp) hx
  · rintro ⟨⟨e, he⟩, hr, hnone⟩
    have hsteps : steps path ≠ [] := by
      intro hnil
      obtain ⟨rest, hs, -⟩ := pathRoute_steps path
      rw [hnil] at hs
      have hdirs : (pathRoute path).1 = [] := by simpa using (List.append_eq_nil_iff.mp hs.symm).1
      simp [hdirs] at hnone
    have hroute := pathRoute_of_steps hsteps
    rw [hroute] at he hr hnone
    obtain ⟨rest, hs⟩ := route_error_split (fun c hc => segments_steps path c (steps_eq path ▸ hc)) he
    exact ⟨_, rest, hs, hnone, fun r x hpre hx => hr (reach_of_leaf hpre hx)⟩

/-- A failed operation leaves directories behind exactly where a `..` is met too late. -/
theorem lookupCreate_error_iff {k : Option Bytes → EStateM Error (Dir φ δ) α} (hb : Bare dflt)
    (hs : Sorted d)
    (hk : ∀ last c e c', (pathRoute path).2 = .ok last → reach dflt (pathRoute path).1 d = some c →
      k last c = .error e c' → graft dflt (pathRoute path).1 c' d = d)
    (h : lookupCreate dflt path k d = .error e d') : d' = d ↔ ¬ Strands d path := by
  have hn := pathRoute_dirs_not_dot path
  rw [strands_iff hb]
  rw [lookupCreate, lookupImpl_eq] at h
  cases hr : reach dflt (pathRoute path).1 d with
  | none =>
    rw [descend_of_blocked_eq hs hb hn hr] at h
    cases h
    simp
  | some c =>
    rw [descend_of_reach hr] at h
    cases hstop : (pathRoute path).2 with
    | error e₀ =>
      rw [hstop] at h
      cases h
      simpa using graft_eq_iff hs hn hr
    | ok last =>
      rw [hstop] at h
      change putBack _ _ _ (k last c) = _ at h
      cases hc : k last c with
      | ok a c' =>
        rw [hc] at h
        cases h
      | error e₀ c' =>
        rw [hc] at h
        cases h
        simpa using hk last c _ c' hstop hr hc

theorem addLeaf_error_iff (hb : Bare dflt) (hs : Sorted d) {x : φ}
    (h : addLeaf dflt path x d = .error e d') :
    d' = d ↔ ¬ (endsWithSlash path = false ∧ Strands d path) := by
  unfold addLeaf at h
  split_ifs at h with hslash
  · cases h
    simp [hslash]
  have hiff := lookupCreate_error_iff hb hs ?_ h
  · simpa [hslash] using hiff
  intro last c e₀ c' hlast hr hk
  cases last with
  | some name => cases hk
  | none =>
    -- only the root has no name
    cases hk
    have hnil : (pathRoute path).1 = [] := by
      by_contra hne
      obtain ⟨rest, -, hrest, hstop⟩ := pathRoute_steps path
      exact hrest hne (hstop none hlast)
    rw [hnil] at hr ⊢
    exact (Option.some.inj hr).symm

theorem upsertDir_error_iff (hb : Bare dflt) (hs : Sorted d) {set : δ → δ}
    (h : ErofsTree.upsertDir dflt path set d = .error e d') : d' = d ↔ ¬ Strands d path := by
  refine lookupCreate_error_iff hb hs ?_ h
  intro last c e₀ c' hlast hr hk
  cases last with
  | none => cases hk
  | some name =>
    have hdots := pathRoute_not_dot (Prod.ext rfl hlast)
    have hname : ¬ IsDot name := hdots name (by simp)
    change getOrCreateDir dflt name _ c = _ at hk
    by_cases hl : ∀ x, lookup name c.children ≠ some (.leaf x)
    · rw [getOrCreateDir_eq name c hl] at hk
      cases hk
    · obtain ⟨x, hx⟩ := not_forall_not.mp hl
      rw [getOrCreateDir, hx] at hk
      cases hk
      -- a leaf with the last name, so all the directories above it are there
      have hleaf : nodeAt c [name] = some (.inl x) := by
        rw [nodeAt_cons c hname, hx]
        rfl
      rw [nodeAt_reach hb (pathRoute_dirs_not_dot path) hr (by simp)] at hleaf
      exact graft_of_present hs hr (nodeAt_of_append (by rw [hleaf]; simp))

end Stranded

section Calls

def PathError : Error → Prop
  | .emptyPath | .notADir | .pathWithDotDot | .weirdPath | .pathTrailingSlash | .insertFailed => True
  | _ => False

theorem onRoot_error {act : EStateM Error (Dir Leaf DirInfo) α} {e : Error} {b b' : Builder}
    (h : onRoot act b = .error e b') : act b.root = .error e b'.root ∧ b'.links = b.links := by
  unfold onRoot at h
  cases hr : act b.root with
  | ok a root =>
    rw [hr] at h
    cases h
  | error e' root =>
    rw [hr] at h
    cases h
    exact ⟨rfl, rfl⟩

theorem fails_later {β : Type} {x : EStateM Error Builder α} {f : α → EStateM Error Builder β}
    {e : Error} {b₀ b b' : Builder} (hs : Same b₀ b) (hk : Keeps treePart x) (ha : Avoids e x)
    (h : (x >>= f) b = .error e b') : ∃ a b₁, Same b₀ b₁ ∧ f a b₁ = .error e b' := by
  have hsame := same_of_keeps hk b
  rcases bind_cases x f b with ⟨a, b₁, hx, hf⟩ | ⟨e', b₁, hx, hf⟩
  · rw [hx] at hsame
    exact ⟨a, b₁, hs.trans hsame, hf.symm.trans h⟩
  · rw [hf] at h
    cases h
    exact absurd (by rw [hx]; rfl) (ha b)

theorem call_pathError {c : Call} {e : Error} {b b' : Builder} (he : PathError e)
    (h : c.run b = .error e b') :
    b'.links = b.links ∧
      ((StoresLeaf c ∧ ∃ x, addLeaf Dir.default (callPath c) x b.root = .error e b'.root) ∨
        (¬ StoresLeaf c ∧
          ∃ set, ErofsTree.upsertDir Dir.default (callPath c) set b.root = .error e b'.root)) := by
  have hsize : Error.maxSizeExceeded ≠ e := by rintro rfl; exact he
  have hblock : Error.blockNoTooBig ≠ e := by rintro rfl; exact he
  have hio : Error.io ≠ e := by rintro rfl; exact he
  have huid : Error.uidGidTooBig ≠ e := by rintro rfl; exact he
  cases c with
  | addFile path metadata len contents =>
    obtain ⟨_, b₁, h₁, h⟩ := fails_later (Same.refl b) keeps_get avoids_get h
    obtain ⟨_, b₂, h₂, h⟩ := fails_later h₁ (keeps_require _ _) (avoids_require hsize) h
    obtain ⟨_, b₃, h₃, h⟩ := fails_later h₂ (startBlockFor_keeps _) (startBlockFor_avoids hblock _) h
    obtain ⟨_, b₄, h₄, h⟩ := fails_later h₃ (copyBlocks_keeps (fun _ _ _ _ => rfl) _ _ _)
      (copyBlocks_avoids hio _ _ _) h
    obtain ⟨_, b₅, h₅, h⟩ := fails_later h₄ (keeps_check _) (avoids_check (readTail_ne hio _ _)) h
    obtain ⟨_, b₆, h₆, h⟩ := fails_later h₅ (hookMeta_keeps _) (hookMeta_avoids huid _) h
    obtain ⟨hroot, hlinks⟩ := onRoot_error h
    rw [h₆.root] at hroot
    exact ⟨hlinks.trans h₆.links, Or.inl ⟨trivial, _, hroot⟩⟩
  | addSymlink path link metadata =>
    obtain ⟨_, b₁, h₁, h⟩ := fails_later (Same.refl b) (startBlockFor_keeps _)
      (startBlockFor_avoids hblock _) h
    obtain ⟨_, b₂, h₂, h⟩ := fails_later h₁ (writeBlocks_keeps (fun _ _ _ _ => rfl) _ _ _)
      (writeBlocks_avoids _ _ _) h
    obtain ⟨_, b₃, h₃, h⟩ := fails_later h₂ (hookMeta_keeps _) (hookMeta_avoids huid _) h
    obtain ⟨hroot, hlinks⟩ := onRoot_error h
    rw [h₃.root] at hroot
    exact ⟨hlinks.trans h₃.links, Or.inl ⟨trivial, _, hroot⟩⟩
  | upsertDir path metadata =>
    obtain ⟨_, b₁, h₁, h⟩ := fails_later (Same.refl b) (hookMeta_keeps _) (hookMeta_avoids huid _) h
    obtain ⟨hroot, hlinks⟩ := onRoot_error h
    rw [h₁.root] at hroot
    exact ⟨hlinks.trans h₁.links, Or.inr ⟨not_false, _, hroot⟩⟩
  | addLink path target metadata => cases h

theorem sorted_default : Sorted Dir.default := by
  refine sorted_iff.mpr ⟨?_, trivial, trivial, trivial⟩
  change List.Pairwise _ [_, _]
  decide

theorem call_sorted {c : Call} {b : Builder} (hs : Sorted b.root) :
    Sorted (stateAfter (c.run b)).root := by
  have hroot : ∀ {act : EStateM Error (Dir Leaf DirInfo) Unit} {b₁ : Builder}, KeepsSorted act →
      Sorted b₁.root → Sorted (stateAfter (onRoot act b₁)).root := by
    intro act b₁ hact hb₁
    have hstep := hact b₁.root hb₁
    unfold onRoot
    generalize act b₁.root = r at hstep
    cases r <;> exact hstep
  have he := call_effect b c
  generalize c.run b = r at he
  cases he with
  | refused he hsame => exact hsame.root ▸ hs
  | file hsame hm => exact hroot (keepsSorted_addLeaf sorted_default _ _) (hsame.root ▸ hs)
  | symlink hsame hm => exact hroot (keepsSorted_addLeaf sorted_default _ _) (hsame.root ▸ hs)
  | dir hm => exact hroot (keepsSorted_upsertDir sorted_default _ _) hs
  | link => exact hs

theorem after_sorted {b : Builder} (hs : Sorted b.root) (calls : List Call) :
    Sorted (after b calls).root := by
  induction calls generalizing b with
  | nil => exact hs
  | cons c calls ih => exact ih (call_sorted hs)

theorem linkTarget_sorted (last : Option Bytes) : KeepsSorted (linkTarget last) := by
  intro d hs
  cases last with
  | none => exact hs
  | some name =>
    unfold linkTarget
    simp only
    split
    · exact hs
    · exact hs.setLeaf name _
    · exact hs.setLeaf name _
    · exact hs

theorem resolveLink_sorted {link : Bytes × Bytes × Meta} {d d' : Dir Leaf DirInfo} (hs : Sorted d)
    (h : resolveLink link d = .ok () d') : Sorted d' := by
  obtain ⟨⟨start, len, tail⟩, d₁, htarget, hadd⟩ := bind_eq_ok.mp h
  have h₁ := keepsSorted_lookupImpl (fun name _ ha => keepsSorted_getDir ha name) linkTarget_sorted
    link.2.1 d hs
  rw [show lookupImpl getDir link.2.1 linkTarget d = .ok (start, len, tail) d₁ from htarget] at h₁
  have h₂ := keepsSorted_addLeaf sorted_default link.1
    (.file ⟨link.2.2, start, 2, len, tail, none⟩) d₁ h₁
  simp only at hadd
  rwa [hadd] at h₂

theorem resolveLinks_sorted {b b' : Builder} (hs : Sorted b.root) (h : resolveLinks b = .ok () b') :
    Sorted b'.root := by
  obtain ⟨root, hloop, rfl⟩ := resolveLinks_ok h
  have hall : ∀ (links : List (Bytes × Bytes × Meta)) {d d' : Dir Leaf DirInfo}, Sorted d →
      links.forM resolveLink d = .ok () d' → Sorted d' := by
    intro links
    induction links with
    | nil =>
      intro d d' hd hr
      obtain ⟨-, rfl⟩ := pure_eq_ok.mp hr
      exact hd
    | cons link links ih =>
      intro d d' hd hr
      obtain ⟨d₁, hfirst, hrest⟩ := forM_cons_eq_ok.mp hr
      exact ih (resolveLink_sorted hd hfirst) hrest
  exact hall b.links hs hloop

end Calls

section Finishing

def entry (x : Leaf) : Option Item := (item x).map fun i => { i with diskId := none }

/-- The tree that `into_inner` writes out, up to where the inodes are. -/
def imageTree (b : Builder) : Tree (Option Item) Meta := b.root.toTree.map entry DirInfo.metadata

theorem writeInodes_entry {x x' : Leaf} (h : LeafStep writeInodes x x') : entry x' = entry x := by
  cases hi : item x with
  | none => rw [writeInodes_special hi h]
  | some i =>
    obtain ⟨s, s', hw⟩ := h
    obtain ⟨stats, inode, id, -, -, hx⟩ := writeInodes_leaf hi hw
    simp [entry, hi, hx]

theorem finalize_imageTree {b b' : Builder} (h : finalize b = .ok () b') :
    ∃ root, b.links.forM resolveLink b.root = .ok () root ∧
      imageTree b' = root.toTree.map entry DirInfo.metadata := by
  rw [finalize, bind_eq_ok] at h
  obtain ⟨_, b₁, hlinks, h1⟩ := h
  obtain ⟨_, b₂, htree, h2⟩ := bind_eq_ok.mp h1
  obtain ⟨root, hresolve, rfl⟩ := resolveLinks_ok hlinks
  refine ⟨root, hresolve, ?_⟩
  rw [imageTree, writeSuperblock_root h2]
  exact writeTree_map_eq (fun _ _ hx => writeInodes_entry hx) (fun _ _ hd => prepareDirents_dir hd)
    (fun _ _ hd => (writeDirInodes_dir hd).1) htree

/-- What is written out is settled by the tree and the queue of links. -/
theorem imageTree_eq {b b' b₁ b₁' : Builder} (hroot : b'.root = b.root) (hlinks : b'.links = b.links)
    (h : finalize b = .ok () b₁) (h' : finalize b' = .ok () b₁') : imageTree b₁' = imageTree b₁ := by
  obtain ⟨root, hr, ht⟩ := finalize_imageTree h
  obtain ⟨root', hr', ht'⟩ := finalize_imageTree h'
  rw [hroot, hlinks, hr] at hr'
  cases hr'
  rw [ht, ht']

/-- The call makes directories and then meets a `..`; a trailing slash is
refused before anything is made. -/
def LeavesDirs (d : Dir Leaf DirInfo) (c : Call) : Prop :=
  (StoresLeaf c → endsWithSlash (callPath c) = false) ∧ Strands d (callPath c)

/-- A call that fails on account of its path leaves the tree as it was, and
with it the tree of the image, exactly if it has not made directories before
it met a `..`. -/
theorem failed_call_traceless_iff (config : BuilderConfig) (calls : List Call) {b b' : Builder}
    {c : Call} {e : Error} (hb : b = after (Builder.new config) calls) (he : PathError e)
    (h : c.run b = .error e b') :
    (b'.root = b.root ↔ ¬ LeavesDirs b.root c) ∧
      (¬ LeavesDirs b.root c → ∀ b₁ b₁', finalize b = .ok () b₁ → finalize b' = .ok () b₁' →
        imageTree b₁' = imageTree b₁) := by
  have hs : Sorted b.root := hb ▸ after_sorted sorted_default calls
  obtain ⟨hlinks, hop⟩ := call_pathError he h
  have hiff : b'.root = b.root ↔ ¬ LeavesDirs b.root c := by
    rcases hop with ⟨hleaf, x, hx⟩ | ⟨hdir, set, hset⟩
    · rw [addLeaf_error_iff bare_default hs hx, LeavesDirs]
      simp [hleaf]
    · rw [upsertDir_error_iff bare_default hs hset, LeavesDirs]
      simp [hdir]
  exact ⟨hiff, fun hclean b₁ b₁' h₁ h₁' => imageTree_eq (hiff.mpr hclean) hlinks h₁ h₁'⟩

/-- With `a/b` in the tree the path `a/../c` goes down into `a` and is refused
there; nothing has been made. -/
theorem parent_path_traceless :
    let b := after unlimited [emptyFile [0x61, slash, 0x62]]
    ∃ b', (emptyFile [0x61, slash, dot, dot, slash, 0x63]).run b = .error .pathWithDotDot b' ∧
      b'.root = b.root := by
  intro b
  have herr : result ((emptyFile [0x61, slash, dot, dot, slash, 0x63]).run b) =
      .error .pathWithDotDot := by decide +kernel
  have hsteps : steps [0x61, slash, dot, dot, slash, 0x63] =
      [.normal [0x61], .parentDir, .normal [0x63]] := by decide
  have hpath : PathError .pathWithDotDot := trivial
  refine ⟨_, error_of_result herr, (failed_call_traceless_iff ⟨none, none⟩ [emptyFile [0x61, slash, 0x62]]
    rfl hpath (error_of_result herr)).1.mpr ?_⟩
  rintro ⟨-, dirs, rest, hdirs, hnone, -⟩
  replace hdirs := hsteps.symm.trans hdirs
  rcases dirs with - | ⟨x, - | ⟨y, dirs⟩⟩
  · simp at hdirs
  · obtain ⟨rfl, -⟩ : [0x61] = x ∧ _ := by simpa using hdirs
    have hsome : (nodeAt b.root [[0x61]]).isSome := by decide +kernel
    exact absurd hnone (Option.isSome_iff_ne_none.mp hsome)
  · simp at hdirs

/-- Adding `a/../b` to an empty tree fails, and the image has a directory `a`. -/
theorem parent_path_leaves_dir :
    ∃ b' b₁ b₁', (emptyFile [0x61, slash, dot, dot, slash, 0x62]).run unlimited =
        .error .pathWithDotDot b' ∧
      finalize unlimited = .ok () b₁ ∧ finalize b' = .ok () b₁' ∧
      lookup [0x61] b₁.root.children = none ∧
      (nodeAt b₁'.root [[0x61]]).isSome := by
  have herr : result ((emptyFile [0x61, slash, dot, dot, slash, 0x62]).run unlimited) =
      .error .pathWithDotDot := by decide +kernel
  have h₁ : result (finalize unlimited) = .ok () := by decide +kernel
  have h₁' : result (finalize (stateAfter ((emptyFile [0x61, slash, dot, dot, slash, 0x62]).run
      unlimited))) = .ok () := by decide +kernel
  refine ⟨_, _, _, error_of_result herr, ok_of_result h₁, ok_of_result h₁', ?_, by decide +kernel⟩
  exact Option.isNone_iff_eq_none.mp (by decide +kernel)

end Finishing

end ProgramExplorer.ErofsResolution
