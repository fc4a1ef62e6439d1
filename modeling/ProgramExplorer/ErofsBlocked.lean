import ProgramExplorer.ErofsPaths

/-!
# What is in the way of a path

`get_or_create_dir` fails with `NotADir` where a name on the way is a leaf.
The names are compared as components: a path with `..` in it is refused, but
only where the descent meets the `..`, so what stands above that still counts.
-/

set_option autoImplicit false

namespace ProgramExplorer.ErofsBlocked
open ByteStrings OrderedMap UnixPath FileTree StateRules ErofsTree ErofsPaths

variable {φ δ α : Type}

section Steps

/-- The components of a path without a leading root or current directory. -/
def steps (path : Bytes) : List Component :=
  (components path).filter fun c => c ≠ .rootDir ∧ c ≠ .curDir

/-- The directories of the route come first, and something follows them. -/
theorem route_steps {cs : List Component} (h : ∀ c ∈ cs, c ≠ .rootDir ∧ c ≠ .curDir) :
    ∃ rest, cs = (route cs).1.map .normal ++ rest ∧ (cs ≠ [] → rest ≠ []) ∧
      ∀ last, (route cs).2 = .ok last → rest = last.toList.map .normal := by
  induction cs with
  | nil => exact ⟨[], rfl, fun hne => absurd rfl hne, by rintro last ⟨⟩; rfl⟩
  | cons c cs ih =>
    obtain ⟨rest, hcs, hne, hlast⟩ := ih fun c' hc' => h c' (by simp [hc'])
    have hc := h c (by simp)
    cases cs with
    | nil =>
      cases c with
      | normal name => exact ⟨[.normal name], rfl, by simp, by rintro last ⟨⟩; rfl⟩
      | parentDir => exact ⟨[.parentDir], rfl, by simp, by rintro last ⟨⟩⟩
      | rootDir => exact absurd rfl hc.1
      | curDir => exact absurd rfl hc.2
    | cons c' cs =>
      cases c with
      | normal name => exact ⟨rest, congrArg (.normal name :: ·) hcs, fun _ => hne (by simp), hlast⟩
      | parentDir => exact ⟨.parentDir :: c' :: cs, rfl, by simp, by rintro last ⟨⟩⟩
      | rootDir => exact absurd rfl hc.1
      | curDir => exact absurd rfl hc.2

theorem segments_steps (path : Bytes) :
    ∀ c ∈ (segments path).filterMap parseSingleComponent, c ≠ .rootDir ∧ c ≠ .curDir := by
  intro c hc
  obtain ⟨s, -, hs⟩ := List.mem_filterMap.mp hc
  unfold parseSingleComponent at hs
  split_ifs at hs
  · cases hs
    simp
  · cases hs
    simp

theorem steps_eq (path : Bytes) : steps path = (segments path).filterMap parseSingleComponent := by
  have htail : ((segments path).filterMap parseSingleComponent).filter
      (fun c => c ≠ .rootDir ∧ c ≠ .curDir) = (segments path).filterMap parseSingleComponent :=
    List.filter_eq_self.mpr fun c hc => by simpa using segments_steps path c hc
  rw [steps, components, List.filter_append, htail]
  split_ifs <;> simp

theorem route_components {path : Bytes} (h : steps path ≠ []) :
    route (components path) = route (steps path) := by
  have hsteps := steps_eq path
  rw [hsteps] at h ⊢
  obtain ⟨c, cs, hcs⟩ := List.exists_cons_of_ne_nil h
  rw [components, hcs]
  split_ifs <;> rfl

theorem pathRoute_steps (path : Bytes) :
    ∃ rest, steps path = (pathRoute path).1.map .normal ++ rest ∧
      ((pathRoute path).1 ≠ [] → rest ≠ []) ∧
      ∀ last, (pathRoute path).2 = .ok last → rest = last.toList.map .normal := by
  unfold pathRoute
  split_ifs with h₁ h₂
  · exact ⟨steps path, rfl, by simp, by rintro last ⟨⟩⟩
  · refine ⟨[], ?_, by simp, by rintro last ⟨⟩; rfl⟩
    rcases h₂ with rfl | rfl | rfl <;> decide
  · by_cases hs : steps path = []
    · have hnil : (segments path).filterMap parseSingleComponent = [] := (steps_eq path).symm.trans hs
      rw [hs, components, hnil, List.append_nil]
      split_ifs
      · exact ⟨[], rfl, by simp [route], by rintro last ⟨⟩⟩
      · exact ⟨[], rfl, by simp [route], by rintro last ⟨⟩; rfl⟩
      · exact ⟨[], rfl, by simp [route], by rintro last ⟨⟩; rfl⟩
    · rw [route_components hs]
      obtain ⟨rest, hcs, hne, hlast⟩ :=
        @route_steps (steps path) fun c hc => segments_steps path c (steps_eq path ▸ hc)
      exact ⟨rest, hcs, fun _ => hne hs, hlast⟩

theorem steps_of_pathRoute {path : Bytes} {dirs : List Bytes} {last : Option Bytes}
    (h : pathRoute path = (dirs, .ok last)) : steps path = (pathNames path).map .normal := by
  obtain ⟨rest, hs, -, hlast⟩ := pathRoute_steps path
  rw [hs, hlast last (by rw [h]), pathRoute_names h, h, List.map_append]

theorem pathRoute_dirs_not_dot (path : Bytes) : ∀ name ∈ (pathRoute path).1, ¬ IsDot name := by
  intro name hm hdot
  obtain ⟨rest, hs, -⟩ := pathRoute_steps path
  have hmem : Component.normal name ∈ steps path := by
    rw [hs]
    exact List.mem_append_left _ (List.mem_map_of_mem hm)
  have hne := normal_name (List.mem_of_mem_filter hmem)
  exact hdot.elim hne.1 hne.2

end Steps

section Blocked

variable {dflt d d' : Dir φ δ} {path : Bytes}

theorem reach_blocked (hb : Bare dflt) {names : List Bytes} (hn : ∀ name ∈ names, ¬ IsDot name)
    (h : reach dflt names d = none) :
    ∃ p x, p <+: names ∧ nodeAt d p = some (.inl x) := by
  induction names generalizing d with
  | nil => cases h
  | cons name names ih =>
    have hname := hn name (by simp)
    by_cases hl : ∀ x, lookup name d.children ≠ some (.leaf x)
    · obtain ⟨p, x, hp, hx⟩ := ih (fun m hm => hn m (by simp [hm])) ((reach_cons hl).symm.trans h)
      refine ⟨name :: p, x, List.cons_prefix_cons.mpr ⟨rfl, hp⟩, ?_⟩
      have hne : p ≠ [] := by
        rintro rfl
        simp at hx
      rw [← nodeAt_childDir hb hname hl hne]
      exact hx
    · obtain ⟨x, hx⟩ := not_forall_not.mp hl
      refine ⟨[name], x, by simp, ?_⟩
      rw [nodeAt_cons d hname, hx]
      rfl

end Blocked

end ProgramExplorer.ErofsBlocked
